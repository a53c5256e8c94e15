import Mathlib.Data.Set.Basic
import Mathlib.Data.Setoid.Basic
import Mathlib.Tactic.Common

/-! Optimistic execution of transactions. States are compared part by part, and each
transaction is confined to the parts of its keys. All transactions are first run on the
starting state; at commit a result is kept if no part of its keys was touched meanwhile,
and the transaction is run again otherwise. -/
namespace L1.Optimistic

variable {σ τ ρ κ : Type*}

/-- Transactions with keys. The run of a transaction depends on the parts of its keys and
changes no other part; one that fails changes nothing. -/
structure Keyed (σ τ ρ κ : Type*) where
  run : σ → τ → Option (σ × ρ)
  success : ρ → Prop
  sound : σ → Prop
  keys : τ → Set κ
  same : κ → Setoid σ
  total : ∀ {s t}, sound s → ∃ s' r, run s t = some (s',r) ∧ sound s'
  depends : ∀ {s q s' q' t r r'}, sound s → sound q → (∀ k ∈ keys t, same k s q) →
    run s t = some (s',r) → run q t = some (q',r') → r = r' ∧ ∀ k ∈ keys t, same k s' q'
  frame : ∀ {s s' t r k}, run s t = some (s',r) → k ∉ keys t → same k s s'
  failed : ∀ {s s' t r k}, sound s → run s t = some (s',r) → ¬ success r → same k s s'

namespace Keyed

variable (m : Keyed σ τ ρ κ)

def Same (s q : σ) : Prop := ∀ k, m.same k s q

def runAll (s : σ) : List τ → Option (σ × List ρ)
  | [] => some (s,[])
  | t :: rest => match m.run s t with
    | none => none
    | some (s,r) => match runAll s rest with
      | none => none
      | some (s,rs) => some (s,r :: rs)

/-- The parts that a run may have changed. -/
def touched (t : τ) (r : ρ) : Set κ := {k | k ∈ m.keys t ∧ m.success r}

variable {m}

theorem Same.refl (s : σ) : m.Same s s := fun k => (m.same k).refl s

theorem Same.trans {s q p : σ} (first : m.Same s q) (second : m.Same q p) : m.Same s p :=
  fun k => (m.same k).trans (first k) (second k)

theorem sound_run {s s' : σ} {t : τ} {r : ρ} (good : m.sound s) (ran : m.run s t = some (s',r)) :
    m.sound s' := by
  obtain ⟨_,_,returned,after⟩ := m.total (t := t) good
  rw [ran] at returned
  cases returned
  exact after

theorem untouched {s s' : σ} {t : τ} {r : ρ} {k : κ} (good : m.sound s)
    (ran : m.run s t = some (s',r)) (apart : k ∉ m.touched t r) : m.same k s s' := by
  by_cases inside : k ∈ m.keys t
  · exact m.failed good ran fun won => apart ⟨inside,won⟩
  · exact m.frame ran inside

theorem Same.run {s q s' q' : σ} {t : τ} {r r' : ρ} (agree : m.Same s q) (good : m.sound s)
    (good' : m.sound q) (ran : m.run s t = some (s',r)) (ran' : m.run q t = some (q',r')) :
    r = r' ∧ m.Same s' q' := by
  obtain ⟨same,inside⟩ := m.depends good good' (fun k _ => agree k) ran ran'
  refine ⟨same,fun k => ?_⟩
  by_cases key : k ∈ m.keys t
  · exact inside k key
  · have left := (m.same k).symm (m.frame ran key)
    exact (m.same k).trans ((m.same k).trans left (agree k)) (m.frame ran' key)

/-- The result of a run on the starting state, put into the current state: the touched parts
come from that run, and the others stay. -/
structure Reused (m : Keyed σ τ ρ κ) (start s : σ) (t : τ) (s' : σ) (r : ρ) : Prop where
  ahead : ∃ spec, m.run start t = some (spec,r) ∧ ∀ k ∈ m.touched t r, m.same k spec s'
  kept : ∀ k, k ∉ m.touched t r → m.same k s s'

/-- While the keys of a transaction are clean, its first result is the one of a new run. -/
theorem Reused.run {start s s' again : σ} {t : τ} {r r' : ρ} (reused : m.Reused start s t s' r)
    (first : m.sound start) (good : m.sound s) (clean : ∀ k ∈ m.keys t, m.same k start s)
    (ran : m.run s t = some (again,r')) : r = r' ∧ m.Same s' again := by
  obtain ⟨spec,ahead,inside⟩ := reused.ahead
  obtain ⟨same,agree⟩ := m.depends first good clean ahead ran
  subst same
  refine ⟨rfl,fun k => ?_⟩
  by_cases key : k ∈ m.touched t r
  · exact (m.same k).trans ((m.same k).symm (inside k key)) (agree k key.1)
  · exact (m.same k).trans ((m.same k).symm (reused.kept k key)) (untouched good ran key)

/-- The commit of a list of transactions, with the parts touched so far. -/
inductive Commit (m : Keyed σ τ ρ κ) (start : σ) :
    σ → Set κ → List τ → σ → List ρ → Prop
  | nil {s dirty} : Commit m start s dirty [] s []
  | redo {s s' s'' dirty dirty' t rest r rs} : m.run s t = some (s',r) →
      dirty ∪ m.touched t r ⊆ dirty' → Commit m start s' dirty' rest s'' rs →
      Commit m start s dirty (t :: rest) s'' (r :: rs)
  | reuse {s s' s'' dirty dirty' t rest r rs} : (∀ k ∈ m.keys t, k ∉ dirty) →
      m.Reused start s t s' r → m.sound s' → dirty ∪ m.touched t r ⊆ dirty' →
      Commit m start s' dirty' rest s'' rs → Commit m start s dirty (t :: rest) s'' (r :: rs)

/-- The parts that are not dirty are those of the starting state. -/
def Clean (m : Keyed σ τ ρ κ) (start s : σ) (dirty : Set κ) : Prop :=
  ∀ k, k ∉ dirty → m.same k start s

theorem Clean.step {start s s' : σ} {dirty dirty' touched : Set κ} (clean : m.Clean start s dirty)
    (kept : ∀ k, k ∉ touched → m.same k s s') (sub : dirty ∪ touched ⊆ dirty') :
    m.Clean start s' dirty' := by
  intro k apart
  have before : k ∉ dirty := fun inside => apart (sub (.inl inside))
  have during : k ∉ touched := fun inside => apart (sub (.inr inside))
  exact (m.same k).trans (clean k before) (kept k during)

/-- A commit gives the results of the sequential run. -/
theorem Commit.sequential {start s s' : σ} {dirty : Set κ} {txs : List τ} {rs : List ρ}
    (commit : m.Commit start s dirty txs s' rs) (first : m.sound start) (good : m.sound s)
    (clean : m.Clean start s dirty) {q : σ} (good' : m.sound q) (agree : m.Same s q) :
    ∃ q', m.runAll q txs = some (q',rs) ∧ m.Same s' q' := by
  induction commit generalizing q with
  | nil => exact ⟨q,rfl,agree⟩
  | @redo s _ _ _ _ t _ r _ ran sub _ ih =>
    obtain ⟨q₁,r',ran',after⟩ := m.total (t := t) good'
    obtain ⟨rfl,agree'⟩ := agree.run good good' ran ran'
    have kept (k) (apart : k ∉ m.touched t r) := untouched good ran apart
    obtain ⟨q',finished,final⟩ := ih (sound_run good ran) (clean.step kept sub) after agree'
    exact ⟨q',by simp only [runAll,ran',finished],final⟩
  | @reuse s _ _ _ _ t _ r _ fresh reused good₁ sub _ ih =>
    obtain ⟨q₁,r',ran',after⟩ := m.total (t := t) good'
    obtain ⟨again,r'',redone,_⟩ := m.total (t := t) good
    obtain ⟨rfl,merged⟩ := reused.run first good (fun k key => clean k (fresh k key)) redone
    obtain ⟨rfl,agree'⟩ := agree.run good good' redone ran'
    obtain ⟨q',finished,final⟩ := ih good₁ (clean.step reused.kept sub) after (merged.trans agree')
    exact ⟨q',by simp only [runAll,ran',finished],final⟩

end Keyed
end L1.Optimistic
