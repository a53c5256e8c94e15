import L1.OrderedMap

/-! Maps of maps in which no empty map is kept, and sums over all their entries. -/
namespace L1.NestedMap

variable {K N V : Type} [Ord K] [Ord N] [Std.TransOrd K] [Std.TransOrd N]

def inner (m : Map K (Map N V)) (k : K) : Map N V := (m[k]?).getD ∅

/-- Put a map below a key; an empty one is dropped. -/
def setInner (m : Map K (Map N V)) (k : K) (q : Map N V) : Map K (Map N V) :=
  if q.isEmpty then m.erase k else m.insert k q

def total (f : V → Nat) (m : Map K (Map N V)) : Nat := Map.total (fun _ q => Map.total (fun _ => f) q) m

def entries (m : Map K (Map N V)) : List (K × N × V) :=
  m.toList.flatMap fun e => e.2.toList.map fun d => (e.1,d.1,d.2)

variable [Std.LawfulEqOrd K] [DecidableEq K]

theorem inner_setInner (m : Map K (Map N V)) (k a : K) (q : Map N V) :
    inner (setInner m k q) a = if a = k then q else inner m a := by
  unfold setInner inner
  by_cases empty : q.isEmpty = true
  · rw [if_pos empty,Map.get?_erase]
    split
    · exact (Std.ExtTreeMap.isEmpty_iff.mp empty).symm
    · rfl
  · rw [if_neg empty,Map.get?_insert]
    split <;> rfl

omit [Std.LawfulEqOrd K] [DecidableEq K] in
theorem part_eq (f : V → Nat) (m : Map K (Map N V)) (k : K) :
    Map.part (fun _ q => Map.total (fun _ => f) q) m k = Map.total (fun _ => f) (inner m k) := by
  unfold Map.part inner
  cases m[k]? with
  | none => exact (Map.total_empty _).symm
  | some q => rfl

theorem total_insert (f : V → Nat) (m : Map K (Map N V)) (k : K) (q : Map N V) :
    total f (m.insert k q) + Map.total (fun _ => f) (inner m k) =
      total f m + Map.total (fun _ => f) q := by
  have put := Map.total_insert (fun _ q => Map.total (fun _ => f) q) m k q
  rw [part_eq] at put
  exact put

theorem total_setInner (f : V → Nat) (m : Map K (Map N V)) (k : K) (q : Map N V) :
    total f (setInner m k q) + Map.total (fun _ => f) (inner m k) =
      total f m + Map.total (fun _ => f) q := by
  unfold setInner
  split
  · rename_i empty
    have dropped := Map.total_erase (fun _ q => Map.total (fun _ => f) q) m k
    rw [part_eq] at dropped
    rw [Std.ExtTreeMap.isEmpty_iff.mp empty,Map.total_empty]
    exact dropped
  · exact total_insert f m k q

omit [DecidableEq K] in
theorem mem_entries [Std.LawfulEqOrd N] (m : Map K (Map N V)) (k : K) (n : N) (v : V) :
    (k,n,v) ∈ entries m ↔ (inner m k)[n]? = some v := by
  simp only [entries,List.mem_flatMap,List.mem_map,Prod.exists,Prod.mk.injEq,
    Std.ExtTreeMap.mem_toList_iff_getElem?_eq_some]
  constructor
  · rintro ⟨k',q,below,n',v',held,rfl,rfl,rfl⟩
    rw [inner,below]
    exact held
  · intro held
    cases below : m[k]? with
    | none => simp [inner,below] at held
    | some q =>
      rw [inner,below] at held
      exact ⟨k,q,below,n,v,held,rfl,rfl,rfl⟩

omit [Std.LawfulEqOrd K] [DecidableEq K] [Std.TransOrd K] in
/-- A sum over some of the entries of a map is at most the sum over all. -/
theorem total_filter_le (f : V → Nat) (q : Map N V) (p : N → V → Bool) :
    Map.total (fun _ => f) (q.filter p) ≤ Map.total (fun _ => f) q := by
  unfold Map.total
  rw [Std.ExtTreeMap.toList_filter]
  exact ((List.filter_sublist).map _).sum_le_sum (by simp)

end L1.NestedMap
