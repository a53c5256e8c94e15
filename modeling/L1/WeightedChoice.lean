import Mathlib.Algebra.BigOperators.Intervals
import Mathlib.Algebra.BigOperators.Group.List.Basic
import Mathlib.Data.Nat.Cast.Basic

/-! Choice by cumulative weight: a list of weighted entries takes up the numbers below its
total one entry after another, and a number chooses the entry that takes it up. -/
namespace WeightedChoice

variable {α : Type*}

def total (entries : List (α × Nat)) : Nat := (entries.map Prod.snd).sum

def choose (number : Nat) : List (α × Nat) → Option α
  | [] => none
  | (a,weight) :: rest => if number < weight then some a else choose (number - weight) rest

@[simp] theorem total_cons (entry : α × Nat) (rest : List (α × Nat)) :
    total (entry :: rest) = entry.2 + total rest := by simp [total]

@[simp] theorem choose_first {number weight : Nat} (a : α) (rest : List (α × Nat))
    (below : number < weight) : choose number ((a,weight) :: rest) = some a := by
  simp [choose,below]

@[simp] theorem choose_later (number weight : Nat) (a : α) (rest : List (α × Nat)) :
    choose (weight + number) ((a,weight) :: rest) = choose number rest := by
  simp [choose]

theorem choose_isSome {number : Nat} {entries : List (α × Nat)} (below : number < total entries) :
    (choose number entries).isSome := by
  induction entries generalizing number with
  | nil => simp [total] at below
  | cons entry rest ih =>
    obtain ⟨a,weight⟩ := entry
    unfold choose
    split
    · rfl
    · refine ih ?_
      rw [total_cons] at below
      omega

theorem choose_mem {number : Nat} {entries : List (α × Nat)} {a : α}
    (chosen : choose number entries = some a) : ∃ weight, (a,weight) ∈ entries ∧ 0 < weight := by
  induction entries generalizing number with
  | nil => cases chosen
  | cons entry rest ih =>
    obtain ⟨b,weight⟩ := entry
    unfold choose at chosen
    split at chosen
    · rename_i below
      cases chosen
      exact ⟨weight,by simp,by omega⟩
    · obtain ⟨found,listed,positive⟩ := ih chosen
      exact ⟨found,by simp [listed],positive⟩

variable [DecidableEq α]

def weightOf (a : α) (entries : List (α × Nat)) : Nat :=
  (entries.map fun e => if e.1 = a then e.2 else 0).sum

/-- A value is chosen by as many numbers below the total as it weighs. -/
theorem card_choose (a : α) (entries : List (α × Nat)) :
    ((Finset.range (total entries)).filter fun number => choose number entries = some a).card =
      weightOf a entries := by
  induction entries with
  | nil => simp [total,weightOf]
  | cons entry rest ih =>
    obtain ⟨b,weight⟩ := entry
    -- the first entry takes up the numbers below its weight, the rest those above
    have first : ∑ number ∈ Finset.range weight,
        (if choose number ((b,weight) :: rest) = some a then 1 else 0) =
        if b = a then weight else 0 := by
      have each : ∀ number ∈ Finset.range weight,
          (if choose number ((b,weight) :: rest) = some a then 1 else 0) = if b = a then 1 else 0 := by
        intro number below
        simp [choose_first b rest (Finset.mem_range.mp below)]
      rw [Finset.sum_congr rfl each]
      split <;> simp
    have later : ∑ number ∈ Finset.range (total rest),
        (if choose (weight + number) ((b,weight) :: rest) = some a then 1 else 0) =
        weightOf a rest := by
      simp only [choose_later]
      rw [← ih,Finset.card_filter]
    rw [Finset.card_filter,total_cons,Finset.sum_range_add,first,later]
    simp [weightOf]

end WeightedChoice
