import Mathlib

/-! Sorted maps and sets with canonical representation, and sums over their entries.
A sum over a map changes under an update by exactly what the entry at the key
changes, which is what conservation arguments use. -/
namespace L1

abbrev Map (K V : Type) [Ord K] := Std.ExtTreeMap K V compare

abbrev OrdSet (K : Type) [Ord K] := Std.ExtTreeSet K compare

instance prodOrd [Ord α] [Ord β] : Ord (α × β) := lexOrd

instance prodTransOrd [Ord α] [Ord β] [Std.TransOrd α] [Std.TransOrd β] : Std.TransOrd (α × β) :=
  inferInstanceAs (Std.TransCmp (lexOrd.compare : α × β → α × β → Ordering))

instance prodLawfulEqOrd [Ord α] [Ord β] [Std.LawfulEqOrd α] [Std.LawfulEqOrd β] :
    Std.LawfulEqOrd (α × β) :=
  inferInstanceAs (Std.LawfulEqCmp (lexOrd.compare : α × β → α × β → Ordering))

namespace Map

variable {K V : Type} [Ord K] [Std.TransOrd K] [Std.LawfulEqOrd K] [DecidableEq K]

theorem get?_insert (m : Map K V) (k a : K) (v : V) :
    (m.insert k v)[a]? = if a = k then some v else m[a]? := by
  rw [Std.ExtTreeMap.getElem?_insert]
  by_cases same : a = k
  · simp [same]
  · simp [same,Ne.symm same]

theorem get?_erase (m : Map K V) (k a : K) : (m.erase k)[a]? = if a = k then none else m[a]? := by
  rw [Std.ExtTreeMap.getElem?_erase]
  by_cases same : a = k
  · simp [same]
  · simp [same,Ne.symm same]

omit [DecidableEq K] in
theorem nodup_toList (m : Map K V) : m.toList.Nodup := by
  refine List.Pairwise.imp ?_ m.distinct_keys_toList
  rintro a b apart rfl
  exact apart Std.ReflCmp.compare_self

def total (f : K → V → Nat) (m : Map K V) : Nat := (m.toList.map fun e => f e.1 e.2).sum

def part (f : K → V → Nat) (m : Map K V) (k : K) : Nat := (m[k]?).elim 0 (f k)

omit [Std.TransOrd K] [Std.LawfulEqOrd K] [DecidableEq K] in
@[simp] theorem total_empty [Std.TransOrd K] (f : K → V → Nat) : total f (∅ : Map K V) = 0 := by
  rw [total,Std.ExtTreeMap.toList_eq_nil_iff.mpr rfl]
  rfl

/-- A present entry can be moved to the front of the listing. -/
theorem toList_perm_cons (m : Map K V) (k : K) (v : V) (held : m[k]? = some v) :
    m.toList.Perm ((k,v) :: (m.erase k).toList) := by
  have absent : (k,v) ∉ (m.erase k).toList := by
    rw [Std.ExtTreeMap.mem_toList_iff_getElem?_eq_some,get?_erase]
    simp
  refine (List.perm_ext_iff_of_nodup (nodup_toList m)
    (List.nodup_cons.mpr ⟨absent,nodup_toList _⟩)).mpr ?_
  rintro ⟨a,w⟩
  rw [List.mem_cons,Std.ExtTreeMap.mem_toList_iff_getElem?_eq_some,
    Std.ExtTreeMap.mem_toList_iff_getElem?_eq_some,get?_erase]
  by_cases same : a = k
  · subst a
    simp [held,eq_comm]
  · simp [same]

theorem erase_absent (m : Map K V) (k : K) (absent : m[k]? = none) : m.erase k = m := by
  apply Std.ExtTreeMap.ext_getElem?
  intro a
  rw [get?_erase]
  split
  · rename_i same
    rw [same,absent]
  · rfl

theorem erase_insert (m : Map K V) (k : K) (v : V) : (m.insert k v).erase k = m.erase k := by
  apply Std.ExtTreeMap.ext_getElem?
  intro a
  simp only [get?_erase,get?_insert]
  split <;> rfl

theorem total_eq_erase (f : K → V → Nat) (m : Map K V) (k : K) :
    total f m = part f m k + total f (m.erase k) := by
  cases held : m[k]? with
  | none => rw [erase_absent m k held]; simp [part,held]
  | some v =>
    have perm := (toList_perm_cons m k v held).map fun e => f e.1 e.2
    simpa [total,part,held] using perm.sum_eq

theorem total_insert (f : K → V → Nat) (m : Map K V) (k : K) (v : V) :
    total f (m.insert k v) + part f m k = total f m + f k v := by
  have here : part f (m.insert k v) k = f k v := by simp [part]
  rw [total_eq_erase f (m.insert k v) k,total_eq_erase f m k,erase_insert,here]
  omega

theorem total_erase (f : K → V → Nat) (m : Map K V) (k : K) :
    total f (m.erase k) + part f m k = total f m := by
  rw [total_eq_erase f m k]
  omega

theorem part_le_total (f : K → V → Nat) (m : Map K V) (k : K) : part f m k ≤ total f m := by
  rw [total_eq_erase f m k]
  omega

/-- Filling a map from a list of fresh keys adds up the list. -/
theorem total_foldl_insert {U : Type} (f : K → V → Nat) (value : U → V) (l : List (K × U))
    (m : Map K V) (distinct : (l.map Prod.fst).Nodup) (fresh : ∀ e ∈ l, m[e.1]? = none) :
    total f (l.foldl (fun m e => m.insert e.1 (value e.2)) m) =
      total f m + (l.map fun e => f e.1 (value e.2)).sum := by
  induction l generalizing m with
  | nil => simp
  | cons e rest ih =>
    rw [List.map_cons,List.nodup_cons] at distinct
    have none : part f m e.1 = 0 := by simp [part,fresh e (by simp)]
    have put := total_insert f m e.1 (value e.2)
    have later : ∀ d ∈ rest, (m.insert e.1 (value e.2))[d.1]? = Option.none := by
      intro d listed
      have apart : d.1 ≠ e.1 := fun same => distinct.1 (same ▸ List.mem_map_of_mem listed)
      rw [get?_insert,if_neg apart]
      exact fresh d (by simp [listed])
    rw [List.foldl_cons,ih _ distinct.2 later,List.map_cons,List.sum_cons]
    omega

def keySet (m : Map K V) : Finset K := (m.toList.map Prod.fst).toFinset

theorem mem_keySet (m : Map K V) (k : K) : k ∈ keySet m ↔ ∃ v, m[k]? = some v := by
  simp only [keySet,List.mem_toFinset,List.mem_map,Prod.exists,
    Std.ExtTreeMap.mem_toList_iff_getElem?_eq_some,exists_and_right,exists_eq_right]

omit [DecidableEq K] in
theorem nodup_keys (m : Map K V) : (m.toList.map Prod.fst).Nodup := by
  rw [List.Nodup,List.pairwise_map]
  refine List.Pairwise.imp ?_ m.distinct_keys_toList
  intro a b apart same
  exact apart (by rw [same]; exact Std.ReflCmp.compare_self)

omit [DecidableEq K] in
theorem sum_part_keys (f : K → V → Nat) (m : Map K V) :
    ((m.toList.map Prod.fst).map (part f m)).sum = total f m := by
  rw [total,List.map_map]
  congr 1
  apply List.map_congr_left
  rintro ⟨k,v⟩ listed
  rw [Std.ExtTreeMap.mem_toList_iff_getElem?_eq_some] at listed
  simp [part,listed]

theorem total_eq_sum (f : K → V → Nat) (m : Map K V) : total f m = ∑ k ∈ keySet m, part f m k := by
  rw [keySet,List.sum_toFinset _ (nodup_keys m),sum_part_keys]

end Map
end L1
