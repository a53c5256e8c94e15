import L1.MerkleBinding

/-! What a membership proof says. A leaf from which one can climb to the root of a tree is one of its
leaves, whatever the siblings and their number, unless two of the couples hashed collide or a leaf is
the hash of a couple. Where it stands is read off the index: only the bits below the top count, and the
copy that pads an odd layer is its last node. -/
namespace L1.MerkleTree

variable {H : Type} (branch : H → H → H)

def climbed : H → Nat → List H → List (H × H)
  | _, _, [] => []
  | acc, index, sibling :: rest =>
    if index % 2 = 0 then (acc,sibling) :: climbed (branch acc sibling) (index / 2) rest
    else (sibling,acc) :: climbed (branch sibling acc) (index / 2) rest

def Node (rounds : Nat) (layer : List H) (node : H) : Prop :=
  node ∈ layer ∨ ∃ p ∈ joined branch rounds layer, node = branch p.1 p.2

theorem mem_couples : ∀ {layer : List H} {p : H × H}, p ∈ couples layer → p.1 ∈ layer ∧ p.2 ∈ layer
  | [], _, member => by simp [couples] at member
  | [_], _, member => by simp [couples] at member
  | left :: right :: rest, p, member => by
    rcases List.mem_cons.mp member with rfl | later
    · exact ⟨by simp,by simp⟩
    · obtain ⟨first,second⟩ := mem_couples later
      exact ⟨List.mem_cons_of_mem _ (List.mem_cons_of_mem _ first),
        List.mem_cons_of_mem _ (List.mem_cons_of_mem _ second)⟩

theorem mem_pad {layer : List H} {node : H} (member : node ∈ pad layer) : node ∈ layer := by
  unfold pad at member
  split at member
  · rcases List.mem_append.mp member with old | copy
    · exact old
    · exact List.mem_of_getLast? (Option.mem_toList.mp copy)
  · exact member

/-- Where a climb with this index begins in a layer of `n` nodes. -/
def place : Nat → Nat → Nat → Nat
  | 0, _, _ => 0
  | rounds + 1, n, index =>
    if n ≤ 1 then 0 else min (2 * place rounds ((n + 1) / 2) (index / 2) + index % 2) (n - 1)

theorem place_of_lt {rounds n index : Nat} (bound : index < n) (enough : n ≤ rounds + 1) :
    place rounds n index = index := by
  induction rounds generalizing n index with
  | zero =>
    rw [place]
    omega
  | succ rounds ih =>
    rw [place]
    split
    · omega
    · rw [ih (by omega) (by omega)]
      omega

theorem couples_getElem? : ∀ {layer : List H} {i : Nat} {p : H × H}, (couples layer)[i]? = some p →
    layer[2 * i]? = some p.1 ∧ layer[2 * i + 1]? = some p.2
  | [], _, _, found => by simp [couples] at found
  | [_], _, _, found => by simp [couples] at found
  | _ :: _ :: _, 0, _, found => by
    cases found
    exact ⟨rfl,rfl⟩
  | _ :: _ :: rest, i + 1, p, found => by
    rw [couples,List.getElem?_cons_succ] at found
    have later := couples_getElem? found
    rwa [Nat.mul_succ]

/-- The padded layer read at a place is the layer read there, or its last node. -/
theorem getElem?_of_pad {layer : List H} {i : Nat} {node : H} (found : (pad layer)[i]? = some node) :
    layer[min i (layer.length - 1)]? = some node := by
  have bound := (List.getElem?_eq_some_iff.mp found).1
  rw [length_pad] at bound
  by_cases inner : i < layer.length
  · rw [Nat.min_eq_left (by omega)]
    rwa [pad_getElem? (List.getElem?_eq_getElem inner),← List.getElem?_eq_getElem inner] at found
  · obtain rfl : i = layer.length := by omega
    rw [pad,if_pos (by omega),List.getElem?_append_right (by omega),Nat.sub_self] at found
    rw [Nat.min_eq_right (by omega),← List.getLast?_eq_getElem?]
    rcases last : layer.getLast? with _ | copy
    · simp [last] at found
    · simpa [last] using found

theorem length_nextLayer (layer : List H) :
    (nextLayer branch layer).length = (layer.length + 1) / 2 := by
  rw [nextLayer,length_pairs,length_pad]
  omega

def couple (acc : H) (index : Nat) (sibling : H) : H × H :=
  if index % 2 = 0 then (acc,sibling) else (sibling,acc)

theorem couple_part (acc : H) (index : Nat) (sibling : H) :
    acc = (couple acc index sibling).1 ∨ acc = (couple acc index sibling).2 := by
  unfold couple
  split
  · exact .inl rfl
  · exact .inr rfl

theorem climb_cons (acc : H) (index : Nat) (sibling : H) (rest : List H) :
    climb branch acc index (sibling :: rest) =
      climb branch (branch (couple acc index sibling).1 (couple acc index sibling).2) (index / 2) rest := by
  rw [climb,couple]
  split <;> rfl

theorem climbed_cons (acc : H) (index : Nat) (sibling : H) (rest : List H) :
    climbed branch acc index (sibling :: rest) = couple acc index sibling ::
      climbed branch (branch (couple acc index sibling).1 (couple acc index sibling).2) (index / 2) rest := by
  rw [climbed,couple]
  split <;> rfl

theorem climb_coupled (acc : H) (index : Nat) (sibling : H) (rest : List H) :
    ∃ p ∈ climbed branch acc index (sibling :: rest),
      climb branch acc index (sibling :: rest) = branch p.1 p.2 := by
  induction rest generalizing acc index sibling with
  | nil =>
    refine ⟨couple acc index sibling,?_,?_⟩
    · rw [climbed_cons]
      exact List.mem_cons_self
    · rw [climb_cons,climb]
  | cons next rest ih =>
    rw [climb_cons,climbed_cons]
    obtain ⟨p,member,same⟩ := ih (branch (couple acc index sibling).1 (couple acc index sibling).2)
      (index / 2) next
    exact ⟨p,List.mem_cons_of_mem _ member,same⟩

/-- Every couple of a climb holds its start or the hash of another couple. -/
theorem climbed_part {acc : H} {index : Nat} {siblings : List H} {p : H × H}
    (member : p ∈ climbed branch acc index siblings) : ∃ part, (part = p.1 ∨ part = p.2) ∧
      (part = acc ∨ ∃ q ∈ climbed branch acc index siblings, part = branch q.1 q.2) := by
  induction siblings generalizing acc index with
  | nil => simp [climbed] at member
  | cons sibling rest ih =>
    rw [climbed_cons] at member ⊢
    rcases List.mem_cons.mp member with rfl | later
    · exact ⟨acc,couple_part acc index sibling,.inl rfl⟩
    · obtain ⟨part,side,start | ⟨q,above,same⟩⟩ := ih later
      · exact ⟨part,side,.inr ⟨_,List.mem_cons_self,start⟩⟩
      · exact ⟨part,side,.inr ⟨q,List.mem_cons_of_mem _ above,same⟩⟩

variable {branch}

theorem Node.coupled {rounds : Nat} {first second : H} {rest : List H} {node : H}
    (held : Node branch rounds (nextLayer branch (first :: second :: rest)) node) :
    ∃ p ∈ joined branch (rounds + 1) (first :: second :: rest), node = branch p.1 p.2 := by
  rcases held with member | ⟨p,member,same⟩
  · rw [nextLayer,pairs_eq_map] at member
    obtain ⟨p,coupled,rfl⟩ := List.mem_map.mp member
    exact ⟨p,List.mem_append_left _ coupled,rfl⟩
  · exact ⟨p,List.mem_append_right _ member,same⟩

theorem root_node {rounds : Nat} {layer : List H} {top : H}
    (found : root branch rounds layer = some top) : Node branch rounds layer top := by
  induction rounds generalizing layer with
  | zero =>
    rcases layer with _ | ⟨first,_ | ⟨second,rest⟩⟩
    · cases found
    · cases found
      exact .inl (by simp)
    · cases found
      exact .inl (by simp)
  | succ rounds ih =>
    rcases layer with _ | ⟨first,_ | ⟨second,rest⟩⟩
    · cases found
    · cases found
      exact .inl (by simp)
    · exact .inr (ih found).coupled

theorem joined_nodes {rounds : Nat} {layer : List H} {p : H × H}
    (member : p ∈ joined branch rounds layer) :
    Node branch rounds layer p.1 ∧ Node branch rounds layer p.2 := by
  induction rounds generalizing layer with
  | zero =>
    rcases layer with _ | ⟨first,_ | ⟨second,rest⟩⟩ <;> simp [joined] at member
  | succ rounds ih =>
    rcases layer with _ | ⟨first,_ | ⟨second,rest⟩⟩
    · simp [joined] at member
    · simp [joined] at member
    · rcases List.mem_append.mp member with here | above
      · obtain ⟨left,right⟩ := mem_couples here
        exact ⟨.inl (mem_pad left),.inl (mem_pad right)⟩
      · obtain ⟨left,right⟩ := ih above
        exact ⟨.inr left.coupled,.inr right.coupled⟩

/-- Every index is climbed from some node, with siblings of the tree. -/
theorem exists_climb (branch : H → H → H) (rounds : Nat) (layer : List H) (filled : layer ≠ [])
    (index : Nat) :
    ∃ node ∈ layer, ∃ siblings, root branch rounds layer = some (climb branch node index siblings) ∧
      ∀ p ∈ climbed branch node index siblings, p ∈ joined branch rounds layer := by
  induction rounds generalizing layer index with
  | zero =>
    obtain ⟨first,rest,rfl⟩ := List.exists_cons_of_ne_nil filled
    refine ⟨first,List.mem_cons_self,[],?_,by simp [climbed]⟩
    cases rest <;> rfl
  | succ rounds ih =>
    rcases layer with _ | ⟨first,_ | ⟨second,rest⟩⟩
    · exact absurd rfl filled
    · exact ⟨first,List.mem_cons_self,[],rfl,by simp [climbed]⟩
    · have above : nextLayer branch (first :: second :: rest) ≠ [] := by
        apply List.ne_nil_of_length_pos
        rw [length_nextLayer,List.length_cons,List.length_cons]
        omega
      obtain ⟨node,member,siblings,ends,inside⟩ := ih _ above (index / 2)
      rw [nextLayer,pairs_eq_map] at member
      obtain ⟨p,coupled,rfl⟩ := List.mem_map.mp member
      obtain ⟨left,right⟩ := mem_couples coupled
      -- the index bit says which part of the couple the climb starts from
      obtain ⟨start,sibling,below,pair⟩ : ∃ start sibling, start ∈ first :: second :: rest ∧
          couple start index sibling = p := by
        by_cases even : index % 2 = 0
        · exact ⟨p.1,p.2,mem_pad left,by rw [couple,if_pos even]⟩
        · exact ⟨p.2,p.1,mem_pad right,by rw [couple,if_neg even]⟩
      refine ⟨start,below,sibling :: siblings,?_,?_⟩
      · rw [climb_cons,pair]
        exact ends
      · rw [climbed_cons,pair]
        exact List.forall_mem_cons.mpr ⟨List.mem_append_left _ coupled,
          fun q later => List.mem_append_right _ (inside q later)⟩

section Soundness

variable {s : Set (H × H)} (injective : Set.InjOn (fun p => branch p.1 p.2) s)

include injective

/-- The couple hashed at a place of the next layer stands under it. -/
theorem getElem?_of_nextLayer {layer : List H} {i : Nat} {p : H × H}
    (inside : ∀ q ∈ couples (pad layer), q ∈ s) (hashed : p ∈ s)
    (found : (nextLayer branch layer)[i]? = some (branch p.1 p.2)) :
    (pad layer)[2 * i]? = some p.1 ∧ (pad layer)[2 * i + 1]? = some p.2 := by
  rw [nextLayer,pairs_eq_map,List.getElem?_map,Option.map_eq_some_iff] at found
  obtain ⟨q,found,equal⟩ := found
  obtain rfl := injective (inside q (List.mem_of_getElem? found)) hashed equal
  exact couples_getElem? found

/-- Where a climb that ends at the root began: at its place in the layer, unless it is too short and
began at the hash of a couple, or too long and passed a leaf that is one. -/
theorem climb_cases {rounds : Nat} {layer siblings : List H} {acc : H} {index : Nat}
    (inside : ∀ p ∈ joined branch rounds layer, p ∈ s)
    (hashed : ∀ p ∈ climbed branch acc index siblings, p ∈ s) (enough : layer.length ≤ rounds + 1)
    (same : root branch rounds layer = some (climb branch acc index siblings)) :
    layer[place rounds layer.length index]? = some acc ∨
      (∃ p ∈ joined branch rounds layer, acc = branch p.1 p.2) ∨
      ∃ node ∈ layer, ∃ p ∈ climbed branch acc index siblings, node = branch p.1 p.2 := by
  induction rounds generalizing layer acc index siblings with
  | zero =>
    rcases layer with _ | ⟨top,_ | ⟨second,rest⟩⟩
    · cases same
    · cases siblings with
      | nil => exact .inl same
      | cons sibling rest =>
        obtain ⟨p,member,ends⟩ := climb_coupled branch acc index sibling rest
        exact .inr (.inr ⟨top,List.mem_cons_self,p,member,(Option.some.inj same).trans ends⟩)
    · simp at enough
  | succ rounds ih =>
    rcases layer with _ | ⟨top,_ | ⟨second,rest⟩⟩
    · cases same
    · cases siblings with
      | nil => exact .inl same
      | cons sibling rest =>
        obtain ⟨p,member,ends⟩ := climb_coupled branch acc index sibling rest
        exact .inr (.inr ⟨top,List.mem_cons_self,p,member,(Option.some.inj same).trans ends⟩)
    · obtain ⟨here,above⟩ := List.forall_mem_append.mp inside
      cases siblings with
      | nil =>
        have top : root branch rounds (nextLayer branch (top :: second :: rest)) = some acc := same
        exact .inr (.inl (root_node top).coupled)
      | cons sibling siblings =>
        rw [climbed_cons] at hashed ⊢
        rw [climb_cons] at same
        obtain ⟨own,later⟩ := List.forall_mem_cons.mp hashed
        have shorter : (nextLayer branch (top :: second :: rest)).length ≤ rounds + 1 := by
          rw [length_nextLayer]
          simp only [List.length_cons] at enough ⊢
          omega
        rcases ih above later shorter same with found | ⟨p,member,equal⟩ | ⟨node,member,p,passed,equal⟩
        · -- the couple one layer up is the one hashed from the layer at that place
          left
          rw [length_nextLayer] at found
          obtain ⟨left,right⟩ := getElem?_of_nextLayer injective here own found
          rw [place,if_neg (by simp)]
          refine getElem?_of_pad ?_
          unfold couple at left right
          rcases Nat.mod_two_eq_zero_or_one index with even | odd
          · rw [if_pos even] at left
            rwa [even]
          · rw [if_neg (by omega)] at right
            rwa [odd]
        · -- a climb that is too short began at a part of a couple further up
          obtain rfl := injective own (above p member) equal
          obtain ⟨left,right⟩ := joined_nodes member
          rcases couple_part acc index sibling with first | second
          · exact .inr (.inl (first ▸ left.coupled))
          · exact .inr (.inl (second ▸ right.coupled))
        · -- a climb that is too long passed the layer inside one of its couples
          right
          right
          rw [nextLayer,pairs_eq_map] at member
          obtain ⟨q,coupled,rfl⟩ := List.mem_map.mp member
          obtain rfl := injective (here q coupled) (later p passed) equal
          obtain ⟨left,right⟩ := mem_couples coupled
          obtain ⟨part,side,start⟩ := climbed_part branch passed
          refine ⟨part,?_,?_⟩
          · rcases side with rfl | rfl
            · exact mem_pad left
            · exact mem_pad right
          · rcases start with start | ⟨c,climbs,start⟩
            · exact ⟨_,List.mem_cons_self,start⟩
            · exact ⟨c,List.mem_cons_of_mem _ climbs,start⟩

/-- A leaf that is no hash of a couple, in a layer without such hashes, stands at its place. -/
theorem getElem?_of_climb {rounds : Nat} {layer siblings : List H} {leaf : H} {index : Nat}
    (inside : ∀ p ∈ joined branch rounds layer, p ∈ s)
    (hashed : ∀ p ∈ climbed branch leaf index siblings, p ∈ s) (enough : layer.length ≤ rounds + 1)
    (apart : ∀ node ∈ layer, ∀ p ∈ s, node ≠ branch p.1 p.2)
    (plain : ∀ p ∈ s, leaf ≠ branch p.1 p.2)
    (same : root branch rounds layer = some (climb branch leaf index siblings)) :
    layer[place rounds layer.length index]? = some leaf := by
  rcases climb_cases injective inside hashed enough same with
    found | ⟨p,member,equal⟩ | ⟨node,member,p,passed,equal⟩
  · exact found
  · exact absurd equal (plain p (inside p member))
  · exact absurd equal (apart node member p (hashed p passed))

end Soundness
end L1.MerkleTree
