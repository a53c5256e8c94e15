import L1.Header
import L1.MerkleMembership

/-! Membership proofs in the tree of the state crate. What `prove` makes is accepted, what is accepted
is a leaf, and the index of a proof says which one as long as it is an index of the list. -/
namespace L1.Merkle

variable [Blake3]

def coupleBytes (p : Hash × Hash) : Bytes := 1 :: (p.1.toList ++ p.2.toList)

omit [Blake3] in
theorem coupleBytes_injective {p q : Hash × Hash} (same : coupleBytes p = coupleBytes q) : p = q := by
  obtain ⟨first,second⟩ := List.append_inj (List.cons.inj same).2 (by simp)
  exact Prod.ext (toList_injective first) (toList_injective second)

def payloads (leaves : List Bytes) : List Bytes :=
  leaves.map (fun leaf => 0 :: leaf) ++
    (MerkleTree.joined hashBranch leaves.length (leaves.map hashLeaf)).map coupleBytes

def proofPayloads (leaf : Bytes) (proof : Proof) : List Bytes :=
  (0 :: leaf) ::
    (MerkleTree.climbed hashBranch (hashLeaf leaf) proof.leafIndex proof.siblings).map coupleBytes

/-- A proof is accepted if its climb ends at the root of the tree. -/
theorem verify_iff {leaves : List Bytes} (filled : leaves ≠ []) (leaf : Bytes) (proof : Proof) :
    verify leaf proof (computeRoot leaves) = true ↔
      MerkleTree.root hashBranch leaves.length (leaves.map hashLeaf) =
        some (MerkleTree.climb hashBranch (hashLeaf leaf) proof.leafIndex proof.siblings) := by
  obtain ⟨first,rest,rfl⟩ := List.exists_cons_of_ne_nil filled
  have top := MerkleTree.root_eq_climb hashBranch (first :: rest).length
    ((first :: rest).map hashLeaf) 0 (hashLeaf first) rfl (by simp)
  rw [verify,decide_eq_true_iff,computeRoot,top,Option.getD_some,Option.some.injEq]
  exact eq_comm

/-- Both roots of the repository are one function. -/
theorem merkleRoot_eq (leaves : List Bytes) : Hashing.merkleRoot leaves = computeRoot leaves := by
  have tag : DomainTag.merkle.apply = fun payload => ascii "L1/merkle" ++ 0 :: payload := by
    funext payload
    rfl
  unfold Hashing.merkleRoot computeRoot Hashing.hashBranch hashBranch Hashing.hashLeaf hashLeaf
    Hashing.dhash dhash
  rw [tag]

/-- Every leaf has a proof that is accepted, and the root of the types crate is the same. -/
theorem every_leaf_proved (leaves : List Bytes) :
    (∀ (index : Nat) (bound : index < leaves.length), ∃ proof, prove leaves index = some proof ∧
      verify (leaves.get ⟨index,bound⟩) proof (computeRoot leaves) = true) ∧
      Hashing.merkleRoot leaves = computeRoot leaves := by
  refine ⟨fun index bound => ?_,merkleRoot_eq leaves⟩
  have filled : leaves ≠ [] := List.ne_nil_of_length_pos (by omega)
  refine ⟨_,if_neg (by omega),(verify_iff filled _ _).mpr ?_⟩
  exact MerkleTree.root_eq_climb hashBranch _ _ _ _ (by simp [bound]) (by simp)

end L1.Merkle

/-! Three leaves: the last layer but one is padded. -/
namespace L1.Merkle.Sample

@[reducible] def blake3 : Blake3 := ⟨fun bytes => fixed 32 bytes⟩

attribute [local instance] blake3

def leaves : List Bytes := [[7],[8],[9]]

theorem last_leaf_proved : 2 < leaves.length ∧ ∃ proof, prove leaves 2 = some proof ∧
    verify [9] proof (computeRoot leaves) = true :=
  ⟨by decide,(every_leaf_proved leaves).1 2 (by decide)⟩

end L1.Merkle.Sample

namespace L1.Merkle

variable [Blake3]

section Soundness

variable {s : Set Bytes} (injective : Set.InjOn dhash s)

include injective

variable {leaf : Bytes} {leaves : List Bytes} {proof : Proof}

theorem hashLeaf_ne_hashBranch {p : Hash × Hash} (hashed : (0 :: leaf) ∈ s)
    (couple : coupleBytes p ∈ s) : hashLeaf leaf ≠ hashBranch p.1 p.2 := by
  intro same
  have bytes : (0 :: leaf) = coupleBytes p := injective hashed couple same
  exact absurd (List.cons.inj bytes).1 (by decide)

/-- A leaf that is proved stands at the place of the proof's index. -/
theorem getElem?_of_verify (filled : leaves ≠ [])
    (inside : ∀ p ∈ payloads leaves, p ∈ s) (climbed : ∀ p ∈ proofPayloads leaf proof, p ∈ s)
    (accepted : verify leaf proof (computeRoot leaves) = true) :
    leaves[MerkleTree.place leaves.length leaves.length proof.leafIndex]? = some leaf := by
  obtain ⟨own,steps⟩ := List.forall_mem_cons.mp climbed
  obtain ⟨plain,coupled⟩ := List.forall_mem_append.mp inside
  have leafIn (l : Bytes) (listed : l ∈ leaves) : (0 :: l) ∈ s :=
    plain _ (List.mem_map.mpr ⟨l,listed,rfl⟩)
  have found := MerkleTree.getElem?_of_climb (s := {p | coupleBytes p ∈ s})
    (fun p left q right same => coupleBytes_injective (injective left right same))
    (fun p joined => coupled _ (List.mem_map.mpr ⟨p,joined,rfl⟩))
    (fun p step => steps _ (List.mem_map.mpr ⟨p,step,rfl⟩)) (by simp)
    (fun node listed p couple => by
      obtain ⟨l,here,rfl⟩ := List.mem_map.mp listed
      exact hashLeaf_ne_hashBranch injective (leafIn l here) couple)
    (fun p couple => hashLeaf_ne_hashBranch injective own couple)
    ((verify_iff filled leaf proof).mp accepted)
  rw [List.length_map,List.getElem?_map,Option.map_eq_some_iff] at found
  obtain ⟨l,found,same⟩ := found
  have bytes := injective (leafIn l (List.mem_of_getElem? found)) own same
  rwa [(List.cons.inj bytes).2] at found

theorem verify_sound (filled : leaves ≠ [])
    (inside : ∀ p ∈ payloads leaves, p ∈ s) (climbed : ∀ p ∈ proofPayloads leaf proof, p ∈ s)
    (accepted : verify leaf proof (computeRoot leaves) = true) : leaf ∈ leaves :=
  List.mem_of_getElem? (getElem?_of_verify injective filled inside climbed accepted)

end Soundness

/-- For every index some leaf has a proof with it, and checking that proof hashes nothing new. -/
theorem exists_verify {leaves : List Bytes} (filled : leaves ≠ []) (index : Nat) :
    ∃ leaf siblings, verify leaf ⟨index,siblings⟩ (computeRoot leaves) = true ∧
      ∀ p ∈ proofPayloads leaf ⟨index,siblings⟩, p ∈ payloads leaves := by
  obtain ⟨node,member,siblings,ends,inside⟩ := MerkleTree.exists_climb hashBranch
    leaves.length (leaves.map hashLeaf) (by simpa using filled) index
  obtain ⟨leaf,listed,rfl⟩ := List.mem_map.mp member
  refine ⟨leaf,siblings,(verify_iff filled leaf _).mpr ends,List.forall_mem_cons.mpr ⟨?_,?_⟩⟩
  · exact List.mem_append_left _ (List.mem_map.mpr ⟨leaf,listed,rfl⟩)
  · intro p step
    obtain ⟨q,climbed,rfl⟩ := List.mem_map.mp step
    exact List.mem_append_right _ (List.mem_map.mpr ⟨q,inside q climbed,rfl⟩)

/-- The proofs with an index bind its position exactly if it is an index of the list: the verifier does
not know how many leaves there are. -/
theorem position_iff (leaves : List Bytes) (filled : leaves ≠ []) (s : Set Bytes)
    (injective : Set.InjOn dhash s) (inside : ∀ p ∈ payloads leaves, p ∈ s) (index : Nat) :
    (∀ (leaf : Bytes) (siblings : List Hash), (∀ p ∈ proofPayloads leaf ⟨index,siblings⟩, p ∈ s) →
      verify leaf ⟨index,siblings⟩ (computeRoot leaves) = true →
        index < leaves.length ∧ leaves[index]? = some leaf) ↔ index < leaves.length := by
  constructor
  · intro bound
    obtain ⟨leaf,siblings,accepted,known⟩ := exists_verify filled index
    exact (bound leaf siblings (fun p member => inside p (known p member)) accepted).1
  · intro bound leaf siblings climbed accepted
    have found := getElem?_of_verify injective filled inside climbed accepted
    rw [MerkleTree.place_of_lt bound (by omega)] at found
    exact ⟨bound,found⟩

end L1.Merkle

namespace L1.Merkle.Sample

attribute [local instance] blake3

theorem dhash_injOn : Set.InjOn dhash {p | p ∈ payloads leaves} := by
  have apart : ∀ p ∈ payloads leaves, ∀ q ∈ payloads leaves, dhash p = dhash q → p = q := by
    decide +kernel
  exact fun p left q right => apart p left q right

theorem fourth_of_three : leaves ≠ [] ∧ Set.InjOn dhash {p | p ∈ payloads leaves} ∧
    ((∀ (leaf : Bytes) (siblings : List Hash),
      (∀ p ∈ proofPayloads leaf ⟨3,siblings⟩, p ∈ {p | p ∈ payloads leaves}) →
        verify leaf ⟨3,siblings⟩ (computeRoot leaves) = true →
          3 < leaves.length ∧ leaves[3]? = some leaf) ↔ 3 < leaves.length) :=
  ⟨by decide,dhash_injOn,
    position_iff leaves (by decide) {p | p ∈ payloads leaves} dhash_injOn (fun _ member => member) 3⟩

/-- The last leaf beside its own copy is accepted as a fourth one. -/
theorem copy_accepted : Set.InjOn dhash {p | p ∈ payloads leaves} ∧
    ∃ siblings, (∀ p ∈ proofPayloads [9] ⟨3,siblings⟩, p ∈ payloads leaves) ∧
      verify [9] ⟨3,siblings⟩ (computeRoot leaves) = true ∧ ¬ 3 < leaves.length := by
  refine ⟨dhash_injOn,[hashLeaf [9],hashBranch (hashLeaf [7]) (hashLeaf [8])],?_⟩
  decide +kernel

end L1.Merkle.Sample
