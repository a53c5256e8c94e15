import Mathlib.Tactic.Common

/-! Computations that may fail. -/
namespace L1

/-- `ok_or` -/
def okOr {ε α : Type} (e : ε) : Option α → Except ε α
  | none => .error e
  | some a => .ok a

@[simp] theorem okOr_eq_ok {ε α : Type} {e : ε} {x : Option α} {a : α} :
    okOr e x = .ok a ↔ x = some a := by
  cases x <;> simp [okOr]

theorem bind_eq_ok {ε α β : Type} {x : Except ε α} {f : α → Except ε β} {b : β} :
    x >>= f = .ok b ↔ ∃ a, x = .ok a ∧ f a = .ok b := by
  constructor
  · intro done
    cases x with
    | error e => cases done
    | ok a => exact ⟨a,rfl,done⟩
  · rintro ⟨a,rfl,done⟩
    exact done

theorem okOr_some_bind {ε α β : Type} (e : ε) (a : α) (next : α → Except ε β) :
    okOr e (some a) >>= next = next a := rfl

end L1
