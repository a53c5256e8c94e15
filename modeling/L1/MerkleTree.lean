import Mathlib.Data.List.Basic
import Mathlib.Tactic.Common

/-! Binary hash trees over a list, by layers from the leaves up. An odd layer is
padded with a copy of its last node. -/
namespace L1.MerkleTree

variable {H : Type} (branch : H → H → H)

def pad (layer : List H) : List H :=
  if layer.length % 2 = 1 then layer ++ layer.getLast?.toList else layer

def pairs : List H → List H
  | left :: right :: rest => branch left right :: pairs rest
  | _ => []

def nextLayer (layer : List H) : List H := pairs branch (pad layer)

/-- Each round at least halves a layer, so its length bounds the number of rounds. -/
def root : Nat → List H → Option H
  | _, [] => none
  | _, [top] => some top
  | 0, first :: _ => some first
  | rounds + 1, layer => root rounds (nextLayer branch layer)

def siblings : Nat → List H → Nat → List H
  | _, [], _ => []
  | _, [_], _ => []
  | 0, _, _ => []
  | rounds + 1, layer, index =>
    ((pad layer)[if index % 2 = 0 then index + 1 else index - 1]?).toList ++
      siblings rounds (nextLayer branch layer) (index / 2)

def climb : H → Nat → List H → H
  | acc, _, [] => acc
  | acc, index, sibling :: rest =>
    climb (if index % 2 = 0 then branch acc sibling else branch sibling acc) (index / 2) rest

theorem length_pairs : ∀ layer : List H, (pairs branch layer).length = layer.length / 2
  | [] => by simp [pairs]
  | [_] => by simp [pairs]
  | _ :: _ :: rest => by
    rw [pairs,List.length_cons,length_pairs rest,List.length_cons,List.length_cons]
    omega

theorem pairs_getElem? : ∀ (layer : List H) (i : Nat) (left right : H), layer[2 * i]? = some left →
    layer[2 * i + 1]? = some right → (pairs branch layer)[i]? = some (branch left right)
  | [], _, _, _, found, _ => by simp at found
  | [_], i, _, _, _, found => by simp at found
  | _ :: _ :: rest, 0, _, _, found, found' => by
    simp at found found'
    simp [pairs,found,found']
  | _ :: _ :: rest, i + 1, left, right, found, found' => by
    rw [pairs,List.getElem?_cons_succ]
    exact pairs_getElem? rest i left right (by simpa [Nat.mul_succ] using found)
      (by simpa [Nat.mul_succ] using found')

theorem length_pad (layer : List H) : (pad layer).length = layer.length + layer.length % 2 := by
  unfold pad
  split
  · rename_i odd
    have nonempty : layer ≠ [] := by rintro rfl; simp at odd
    simp [List.getLast?_eq_some_getLast nonempty]
    omega
  · omega

theorem pad_getElem? {layer : List H} {i : Nat} {node : H} (found : layer[i]? = some node) :
    (pad layer)[i]? = some node := by
  unfold pad
  split
  · exact List.getElem?_append_left (List.getElem?_eq_some_iff.mp found).1 ▸ found
  · exact found

/-- Climbing from any leaf by its siblings ends at the root. -/
theorem root_eq_climb (rounds : Nat) (layer : List H) (index : Nat) (node : H)
    (found : layer[index]? = some node) (enough : layer.length ≤ rounds + 1) :
    root branch rounds layer = some (climb branch node index (siblings branch rounds layer index)) := by
  induction rounds generalizing layer index node with
  | zero =>
    obtain ⟨only,rfl⟩ : ∃ only, layer = [only] := by
      have bound := (List.getElem?_eq_some_iff.mp found).1
      exact List.length_eq_one_iff.mp (by omega)
    obtain ⟨rfl,rfl⟩ : index = 0 ∧ node = only := by
      have bound := (List.getElem?_eq_some_iff.mp found).1
      simp at bound
      subst bound
      simpa [eq_comm] using found
    rfl
  | succ rounds ih =>
    match layer,found,enough with
    | [only],found,_ =>
      have bound := (List.getElem?_eq_some_iff.mp found).1
      simp at bound
      subst bound
      simp only [List.getElem?_cons_zero,Option.some.injEq] at found
      rw [root,siblings,climb,found]
    | first :: second :: rest,found,enough =>
      have bound := (List.getElem?_eq_some_iff.mp found).1
      have here := pad_getElem? found
      have size := length_pad (first :: second :: rest)
      have beside : ∃ sibling,
          (pad (first :: second :: rest))[if index % 2 = 0 then index + 1 else index - 1]? =
            some sibling := by
        refine ⟨_,List.getElem?_eq_getElem ?_⟩
        split <;> omega
      obtain ⟨sibling,beside⟩ := beside
      simp only [root,siblings,beside,Option.toList_some,List.singleton_append,climb]
      refine ih _ (index / 2) _ ?_ ?_
      · by_cases even : index % 2 = 0
        · rw [if_pos even] at beside ⊢
          exact pairs_getElem? branch _ _ _ _ (by rw [show 2 * (index / 2) = index by omega]; exact here)
            (by rw [show 2 * (index / 2) = index by omega]; exact beside)
        · rw [if_neg even] at beside ⊢
          exact pairs_getElem? branch _ _ _ _
            (by rw [show 2 * (index / 2) = index - 1 by omega]; exact beside)
            (by rw [show 2 * (index / 2) + 1 = index by omega]; exact here)
      · rw [nextLayer,length_pairs,size]
        simp only [List.length_cons] at enough ⊢
        omega
    | [],found,_ => simp at found

end L1.MerkleTree
