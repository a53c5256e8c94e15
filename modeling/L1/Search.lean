import Mathlib.Data.List.Basic
import Mathlib.Data.Option.Basic

/-! One pass over a list that keeps the best item so far, where items may be passed over. -/
namespace L1.Search

variable {ι α : Type*} (beats : α → α → Bool) (offer : ι → Option α)

/-- The first of equals stays. -/
def pick : Option α → α → Option α
  | none, a => some a
  | some best, a => if beats a best then some a else some best

def scan (best : Option α) (item : ι) : Option α :=
  match offer item with
  | none => best
  | some a => pick beats best a

/-- Where a pass that has seen some offers ends. -/
structure Best (best : Option α) (seen : α → Prop) : Prop where
  offered : ∀ b, best = some b → seen b
  unbeaten : ∀ b, best = some b → ∀ a, seen a → beats a b = false
  found : best = none → ∀ a, ¬ seen a

variable {beats offer}

theorem Best.pick {best : Option α} {seen : α → Prop} (irrefl : ∀ a, beats a a = false)
    (trans : ∀ a b c, beats a b = true → beats b c = true → beats a c = true)
    (before : Best beats best seen) (a : α) :
    Best beats (pick beats best a) (fun c => seen c ∨ c = a) := by
  cases best with
  | none =>
    have nothing := before.found rfl
    refine ⟨fun b chosen => ?_,fun b chosen c listed => ?_,fun missing => ?_⟩
    · cases chosen
      exact .inr rfl
    · cases chosen
      rcases listed with earlier | rfl
      · exact absurd earlier (nothing c)
      · exact irrefl c
    · cases missing
  | some best =>
    cases better : beats a best with
    | true =>
      simp only [Search.pick,better,if_true]
      refine ⟨fun b chosen => ?_,fun b chosen c listed => ?_,fun missing => ?_⟩
      · cases chosen
        exact .inr rfl
      · cases chosen
        rcases listed with earlier | rfl
        · -- one that beat the new best would have beaten the old one
          cases beaten : beats c a with
          | false => rfl
          | true =>
            have old := before.unbeaten best rfl c earlier
            rw [trans c a best beaten better] at old
            cases old
        · exact irrefl c
      · cases missing
    | false =>
      simp only [Search.pick,better,Bool.false_eq_true,if_false]
      refine ⟨fun b chosen => ?_,fun b chosen c listed => ?_,fun missing => ?_⟩
      · cases chosen
        exact .inl (before.offered best rfl)
      · cases chosen
        rcases listed with earlier | rfl
        · exact before.unbeaten best rfl c earlier
        · exact better
      · cases missing

theorem Best.congr {best : Option α} {seen seen' : α → Prop} (before : Best beats best seen)
    (same : ∀ a, seen a ↔ seen' a) : Best beats best seen' where
  offered b chosen := (same b).mp (before.offered b chosen)
  unbeaten b chosen a listed := before.unbeaten b chosen a ((same a).mpr listed)
  found missing a listed := before.found missing a ((same a).mpr listed)

/-- A pass ends at an offer that no offer of the list beats, if there is an offer. -/
theorem best_scan (irrefl : ∀ a, beats a a = false)
    (trans : ∀ a b c, beats a b = true → beats b c = true → beats a c = true) (items : List ι)
    (best : Option α) (seen : α → Prop) (before : Best beats best seen) :
    Best beats (items.foldl (scan beats offer) best)
      (fun a => seen a ∨ ∃ item ∈ items, offer item = some a) := by
  induction items generalizing best seen with
  | nil => exact before.congr fun a => by simp
  | cons item rest ih =>
    rw [List.foldl_cons]
    cases made : offer item with
    | none =>
      have passed : scan beats offer best item = best := by rw [scan,made]
      rw [passed]
      refine (ih best seen before).congr fun a => ?_
      simp [made]
    | some a =>
      have next : scan beats offer best item = Search.pick beats best a := by rw [scan,made]
      rw [next]
      refine (ih _ _ (before.pick irrefl trans a)).congr fun c => ?_
      simp [made,or_assoc,eq_comm]

theorem best_none : Best beats none (fun _ => False) where
  offered _ chosen := by cases chosen
  unbeaten _ chosen := by cases chosen
  found _ _ listed := listed

theorem best_foldl (irrefl : ∀ a, beats a a = false)
    (trans : ∀ a b c, beats a b = true → beats b c = true → beats a c = true) (items : List ι) :
    Best beats (items.foldl (scan beats offer) none)
      (fun a => ∃ item ∈ items, offer item = some a) :=
  (best_scan irrefl trans items none _ best_none).congr fun a => by simp

end L1.Search
