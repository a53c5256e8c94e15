import Mathlib.Data.Option.Basic
import Mathlib.Tactic.Common

/-! Loops over lists of keys: what one leaves at a place that a single key decides, and loops
whose steps may fail. -/
namespace L1.Folds

variable {σ κ γ : Type*}

/-- The steps of a loop change a place at one key only, and there a second time is no change. -/
theorem foldl_at [DecidableEq κ] {step : σ → κ → σ} (look : σ → γ) (change : γ → γ) (key : κ)
    (again : ∀ c, change (change c) = change c) (here : ∀ s, look (step s key) = change (look s))
    (other : ∀ s k, k ≠ key → look (step s k) = look s) (keys : List κ) (s : σ) :
    look (keys.foldl step s) = if key ∈ keys then change (look s) else look s := by
  induction keys generalizing s with
  | nil => simp
  | cons k rest ih =>
    rw [List.foldl_cons,ih]
    by_cases same : k = key
    · subst same
      rw [here,again]
      simp
    · rw [other s k same]
      simp [Ne.symm same]

theorem foldl_keep {step : σ → κ → σ} (look : σ → γ) (kept : ∀ s k, look (step s k) = look s)
    (keys : List κ) (s : σ) : look (keys.foldl step s) = look s := by
  induction keys generalizing s with
  | nil => rfl
  | cons k rest ih => rw [List.foldl_cons,ih,kept]

theorem foldlM_eq {step : σ → κ → Option σ} {plain : σ → κ → σ} {keys : List κ}
    (returns : ∀ k ∈ keys, ∀ s, step s k = some (plain s k)) (s : σ) :
    keys.foldlM step s = some (keys.foldl plain s) := by
  induction keys generalizing s with
  | nil => rfl
  | cons k rest ih =>
    rw [List.foldlM_cons,returns k List.mem_cons_self,List.foldl_cons]
    exact ih (fun k listed => returns k (List.mem_cons_of_mem _ listed)) _

/-- A loop returns if its steps do from every state that they lead to. -/
theorem foldlM_total {step : σ → κ → Option σ} (Good : σ → Prop) {keys : List κ}
    (returns : ∀ k ∈ keys, ∀ s, Good s → ∃ s', step s k = some s' ∧ Good s') {s : σ} (good : Good s) :
    ∃ s', keys.foldlM step s = some s' ∧ Good s' := by
  induction keys generalizing s with
  | nil => exact ⟨s,rfl,good⟩
  | cons k rest ih =>
    obtain ⟨s₁,stepped,good₁⟩ := returns k List.mem_cons_self s good
    obtain ⟨s₂,finished,good₂⟩ := ih (fun k listed => returns k (List.mem_cons_of_mem _ listed)) good₁
    refine ⟨s₂,?_,good₂⟩
    rw [List.foldlM_cons,stepped]
    exact finished

/-- What a step reaches is kept by the later ones, so that at the end every step has reached it. -/
theorem foldlM_reaches {step : σ → κ → Option σ} (Good : σ → Prop) (Later : σ → σ → Prop)
    (Reached : κ → σ → Prop) (refl : ∀ s, Later s s) (trans : ∀ a b c, Later a b → Later b c → Later a c)
    (kept : ∀ k s s', Later s s' → Reached k s → Reached k s') {keys : List κ}
    (returns : ∀ k ∈ keys, ∀ s, Good s → ∃ s', step s k = some s' ∧ Good s' ∧ Later s s' ∧ Reached k s')
    {s : σ} (good : Good s) :
    ∃ s', keys.foldlM step s = some s' ∧ Good s' ∧ Later s s' ∧ ∀ k ∈ keys, Reached k s' := by
  induction keys generalizing s with
  | nil => exact ⟨s,rfl,good,refl s,fun _ listed => by cases listed⟩
  | cons k rest ih =>
    obtain ⟨s₁,stepped,good₁,later₁,reached⟩ := returns k List.mem_cons_self s good
    obtain ⟨s₂,finished,good₂,later₂,others⟩ :=
      ih (fun k listed => returns k (List.mem_cons_of_mem _ listed)) good₁
    refine ⟨s₂,?_,good₂,trans _ _ _ later₁ later₂,?_⟩
    · rw [List.foldlM_cons,stepped]
      exact finished
    · exact List.forall_mem_cons.mpr ⟨kept k _ _ later₂ reached,others⟩

end L1.Folds
