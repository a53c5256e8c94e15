import L1.OrderedMap

/-! Batches of writes to a map. What a batch leaves at a key is what its last operation there
says, so a batch that was cut short can be done over. -/
namespace L1.Batch

inductive Op (K V : Type) where
  | put (key : K) (value : V)
  | delete (key : K)
  deriving DecidableEq, Repr

namespace Op

variable {K V : Type}

def key : Op K V → K
  | put key _ => key
  | delete key => key

def left : Op K V → Option V
  | put _ value => some value
  | delete _ => none

def apply [Ord K] [Std.TransOrd K] (m : Map K V) : Op K V → Map K V
  | put key value => m.insert key value
  | delete key => m.erase key

end Op

variable {K V : Type} [Ord K] [Std.TransOrd K] [Std.LawfulEqOrd K] [DecidableEq K]

def run (m : Map K V) (ops : List (Op K V)) : Map K V := ops.foldl Op.apply m

/-- What the last operation at a key leaves there; `none` if there is no such operation. -/
def last (key : K) : List (Op K V) → Option (Option V)
  | [] => none
  | op :: rest => (last key rest).or (if op.key = key then some op.left else none)

theorem get?_apply (m : Map K V) (op : Op K V) (key : K) :
    (op.apply m)[key]? = if op.key = key then op.left else m[key]? := by
  cases op with
  | put k value => rw [Op.apply,Map.get?_insert,Op.key,Op.left]; simp only [eq_comm]
  | delete k => rw [Op.apply,Map.get?_erase,Op.key,Op.left]; simp only [eq_comm]

omit [Std.LawfulEqOrd K] [DecidableEq K] in
theorem run_append (m : Map K V) (ops more : List (Op K V)) :
    run m (ops ++ more) = run (run m ops) more := List.foldl_append ..

theorem get?_run (m : Map K V) (ops : List (Op K V)) (key : K) :
    (run m ops)[key]? = (last key ops).getD m[key]? := by
  induction ops generalizing m with
  | nil => rfl
  | cons op rest ih =>
    rw [run,List.foldl_cons,← run,ih,get?_apply,last]
    cases last key rest with
    | some _ => rfl
    | none => split <;> rfl

omit [Ord K] [Std.TransOrd K] [Std.LawfulEqOrd K] in
theorem last_append (key : K) (ops more : List (Op K V)) :
    last key (ops ++ more) = (last key more).or (last key ops) := by
  induction ops with
  | nil => simp [last]
  | cons op rest ih => rw [List.cons_append,last,ih,last,Option.or_assoc]

omit [Ord K] [Std.TransOrd K] [Std.LawfulEqOrd K] in
theorem last_eq_none (key : K) (ops : List (Op K V)) :
    last key ops = none ↔ ∀ op ∈ ops, op.key ≠ key := by
  induction ops with
  | nil => simp [last]
  | cons op rest ih =>
    rw [last,Option.or_eq_none_iff,ih,List.forall_mem_cons,and_comm]
    refine and_congr_left fun _ => ?_
    split <;> simp [*]

omit [Ord K] [Std.TransOrd K] [Std.LawfulEqOrd K] in
/-- Operations that agree on a key leave what they say there. -/
theorem last_of_agree {key : K} {value : Option V} {ops : List (Op K V)}
    (named : ∃ op ∈ ops, op.key = key) (agree : ∀ op ∈ ops, op.key = key → op.left = value) :
    last key ops = some value := by
  induction ops with
  | nil => simp at named
  | cons op rest ih =>
    have tail : ∀ o ∈ rest, o.key = key → o.left = value := fun o inside => agree o (.tail _ inside)
    rw [last]
    by_cases later : ∃ o ∈ rest, o.key = key
    · rw [ih later tail,Option.some_or]
    · have here : op.key = key := by
        obtain ⟨o,inside,same⟩ := named
        cases inside with
        | head => exact same
        | tail _ inside => exact absurd ⟨o,inside,same⟩ later
      have none_later : last key rest = none :=
        (last_eq_none key rest).mpr fun o inside same => later ⟨o,inside,same⟩
      rw [none_later,Option.none_or,if_pos here,agree op (.head _) here]

theorem get?_run_other (m : Map K V) (ops : List (Op K V)) {key : K}
    (other : ∀ op ∈ ops, op.key ≠ key) : (run m ops)[key]? = m[key]? := by
  rw [get?_run,(last_eq_none key ops).mpr other,Option.getD_none]

/-- A batch that is repeated after a part of it was done gives what it gives at once. -/
theorem run_redo (m : Map K V) {ops done : List (Op K V)} (part : done <+: ops) :
    run (run m done) ops = run m ops := by
  obtain ⟨rest,rfl⟩ := part
  apply Std.ExtTreeMap.ext_getElem?
  intro key
  rw [get?_run,get?_run,get?_run,last_append]
  cases last key rest with
  | some _ => rfl
  | none => cases last key done <;> rfl

theorem erase_run (m : Map K V) {ops : List (Op K V)} {key : K}
    (other : ∀ op ∈ ops, op.key ≠ key) : (run m ops).erase key = run (m.erase key) ops := by
  apply Std.ExtTreeMap.ext_getElem?
  intro k
  by_cases same : k = key
  · subst k
    rw [Map.get?_erase,if_pos rfl,get?_run_other _ _ other,Map.get?_erase,if_pos rfl]
  · rw [Map.get?_erase,if_neg same,get?_run,get?_run,Map.get?_erase,if_neg same]

end L1.Batch
