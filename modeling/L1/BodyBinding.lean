import L1.MerkleBinding
import L1.Sync

/-! What a header says about the block below it. The leaves of the transaction root are envelopes
without signature and key, and a root does not tell a layer from its padded form. -/
namespace L1

theorem StakeKind.tag_injective {a b : StakeKind} (same : a.tag = b.tag) : a = b := by
  cases a <;> cases b <;> first | rfl | exact absurd same (by decide)

theorem StakeKind.tag_other (kind : StakeKind) : kind.tag ≠ 0 ∧ kind.tag ≠ 6 ∧ kind.tag ≠ 7 := by
  cases kind <;> decide

namespace Tx

/-- The tag comes first and the parts of fixed width before the rest. -/
theorem variantBytes_injective {p q : TxPayload} (same : variantBytes p = variantBytes q) : p = q := by
  cases p with
  | transfer t => cases q with
    | transfer t' =>
      obtain ⟨addr,amount⟩ := t
      obtain ⟨addr',amount'⟩ := t'
      simp only [variantBytes,List.cons.injEq,true_and] at same
      obtain ⟨addrs,amounts⟩ := List.append_inj same (by simp)
      rw [toList_injective addrs,toBeBytes_injective 16 (by decide) amounts]
    | stake s' => exact absurd (List.cons.inj same).1.symm s'.kind.tag_other.1
    | deploy d' => simp [variantBytes] at same
    | call c' => simp [variantBytes] at same
  | stake s => cases q with
    | transfer t' => exact absurd (List.cons.inj same).1 s.kind.tag_other.1
    | stake s' =>
      obtain ⟨kind,validator,amount,target⟩ := s
      obtain ⟨kind',validator',amount',target'⟩ := s'
      simp only [variantBytes,List.cons.injEq] at same
      obtain ⟨tag,rest⟩ := same
      obtain rfl := StakeKind.tag_injective tag
      cases validator with
      | none =>
        obtain rfl := target'.mpr (target.mp rfl)
        rw [toBeBytes_injective 16 (by decide) rest]
      | some id => cases validator' with
        | none => cases target.mpr (target'.mp rfl)
        | some id' =>
          obtain ⟨ids,amounts⟩ := List.append_inj rest (by simp)
          obtain rfl := toList_injective ids
          rw [toBeBytes_injective 16 (by decide) amounts]
    | deploy d' => exact absurd (List.cons.inj same).1 s.kind.tag_other.2.1
    | call c' => exact absurd (List.cons.inj same).1 s.kind.tag_other.2.2
  | deploy d => cases q with
    | transfer t' => simp [variantBytes] at same
    | stake s' => exact absurd (List.cons.inj same).1.symm s'.kind.tag_other.2.1
    | deploy d' =>
      obtain ⟨code⟩ := d
      obtain ⟨code'⟩ := d'
      simp only [variantBytes,List.cons.injEq,true_and] at same
      obtain ⟨-,codes⟩ := List.append_inj same (by simp)
      rw [codes]
    | call c' => simp [variantBytes] at same
  | call c => cases q with
    | transfer t' => simp [variantBytes] at same
    | stake s' => exact absurd (List.cons.inj same).1.symm s'.kind.tag_other.2.2
    | deploy d' => simp [variantBytes] at same
    | call c' =>
      obtain ⟨addr,data⟩ := c
      obtain ⟨addr',data'⟩ := c'
      simp only [variantBytes,List.cons.injEq,true_and] at same
      obtain ⟨addrs,rest⟩ := List.append_inj same (by simp)
      obtain ⟨-,datas⟩ := List.append_inj rest (by simp)
      rw [toList_injective addrs,datas]

/-- The bytes of an envelope determine it, whatever their length. -/
theorem encode_injective {a b : Tx} (same : a.encode = b.encode) : a = b := by
  have payload := Encoding.encode_injective same
  obtain ⟨chain,nonce,gas,fee,variant⟩ := a
  obtain ⟨chain',nonce',gas',fee',variant'⟩ := b
  simp only [payloadBytes] at payload
  obtain ⟨chains,payload⟩ := List.append_inj payload (by simp)
  obtain ⟨nonces,payload⟩ := List.append_inj payload (by simp)
  obtain ⟨gases,payload⟩ := List.append_inj payload (by simp)
  obtain ⟨fees,variants⟩ := List.append_inj payload (by simp)
  rw [toBeBytes_injective 8 (by decide) chains,toBeBytes_injective 8 (by decide) nonces,
    toBeBytes_injective 8 (by decide) gases,toBeBytes_injective 16 (by decide) fees,
    variantBytes_injective variants]

end Tx

namespace Hashing

variable [Blake3]

/-- What is hashed for a root: the leaves, and the couples above them. -/
def payloads (leaves : List Bytes) : List Bytes :=
  leaves.map (fun leaf => 0 :: leaf) ++
    (MerkleTree.joined hashBranch leaves.length (leaves.map hashLeaf)).map fun couple =>
      1 :: (couple.1.toList ++ couple.2.toList)

theorem merkleRoot_injective {a b : List Bytes} (size : a.length = b.length)
    (injective : Set.InjOn dhash {p | p ∈ payloads a ++ payloads b})
    (same : merkleRoot a = merkleRoot b) : a = b := by
  have leaf : Set.InjOn hashLeaf {leaf | leaf ∈ a ++ b} := by
    intro x left y right equal
    have member (z : Bytes) (held : z ∈ a ++ b) : (0 :: z) ∈ payloads a ++ payloads b := by
      simp only [payloads,List.mem_append,List.mem_map] at held ⊢
      rcases held with held | held
      · exact .inl (.inl ⟨z,held,rfl⟩)
      · exact .inr (.inl ⟨z,held,rfl⟩)
    exact (List.cons.inj (injective (member x left) (member y right) equal)).2
  let branches := MerkleTree.joined hashBranch a.length (a.map hashLeaf) ++
    MerkleTree.joined hashBranch b.length (b.map hashLeaf)
  have branch : Set.InjOn (fun p : Hash × Hash => hashBranch p.1 p.2) {p | p ∈ branches} := by
    intro x left y right equal
    have member (z : Hash × Hash) (held : z ∈ branches) :
        (1 :: (z.1.toList ++ z.2.toList)) ∈ payloads a ++ payloads b := by
      simp only [branches,payloads,List.mem_append,List.mem_map] at held ⊢
      rcases held with held | held
      · exact .inl (.inr ⟨z,held,rfl⟩)
      · exact .inr (.inr ⟨z,held,rfl⟩)
    have bytes := (List.cons.inj (injective (member x left) (member y right) equal)).2
    obtain ⟨first,second⟩ := List.append_inj bytes (by simp)
    exact Prod.ext (toList_injective first) (toList_injective second)
  cases a with
  | nil => exact (List.length_eq_zero_iff.mp size.symm).symm
  | cons x a => cases b with
    | nil => simp at size
    | cons y b =>
      have top (first : Bytes) (rest : List Bytes) : ∃ h,
          MerkleTree.root hashBranch (first :: rest).length ((first :: rest).map hashLeaf) = some h :=
        ⟨_,MerkleTree.root_eq_climb hashBranch _ _ 0 (hashLeaf first) rfl (by simp)⟩
      obtain ⟨h,left⟩ := top x a
      obtain ⟨h',right⟩ := top y b
      rw [merkleRoot,merkleRoot,left,right,Option.getD_some,Option.getD_some] at same
      have layers := MerkleTree.root_injective hashBranch branch (x :: a).length _ _
        (by simpa using size) (by simp) (fun p member => List.mem_append_left _ member)
        (fun p member => List.mem_append_right _ (size ▸ member))
        (left.trans (by rw [same,size,right]))
      exact MerkleTree.map_injective_on leaf (fun z member => List.mem_append_left _ member)
        (fun z member => List.mem_append_right _ member) layers

end Hashing

section Bodies

variable [Blake3]

open Hashing

def Block.leaves (block : Block) : List Bytes := block.txs.map fun s => s.tx.encode

/-- The part of the transactions that no leaf holds. -/
def Block.signatures (block : Block) : List (Vector UInt8 64 × Vector UInt8 32) :=
  block.txs.map fun s => (s.signature,s.publicKey)

omit [Blake3] in
theorem txs_eq {block block' : Block} (leaves : block.leaves = block'.leaves)
    (signatures : block.signatures = block'.signatures) : block.txs = block'.txs := by
  apply List.ext_getElem?
  intro i
  have leaf := congrArg (·[i]?) leaves
  have signature := congrArg (·[i]?) signatures
  simp only [Block.leaves,Block.signatures,List.getElem?_map] at leaf signature
  cases left : block.txs[i]? with
  | none => cases right : block'.txs[i]? with
    | none => rfl
    | some t' => simp [left,right] at leaf
  | some t => cases right : block'.txs[i]? with
    | none => simp [left,right] at leaf
    | some t' =>
      simp only [left,right,Option.map_some,Option.some.injEq,Prod.mk.injEq] at leaf signature
      obtain ⟨signed,key⟩ := signature
      have envelope := Tx.encode_injective leaf
      obtain ⟨_,_,_⟩ := t
      obtain ⟨_,_,_⟩ := t'
      simp only at envelope signed key
      rw [envelope,signed,key]

/-- Two bodies accepted under one header are the same exactly if their signatures and keys agree,
one by one, and they have as many receipts. -/
theorem header_determines_body_iff (header : Header) (block block' : Block)
    (receipts receipts' : List Bytes) (first : ingestBlock header block receipts = .ok ())
    (second : ingestBlock header block' receipts' = .ok ())
    (injective : Set.InjOn dhash {p | p ∈ payloads block.leaves ++ payloads block'.leaves ++
      (payloads receipts ++ payloads receipts')}) :
    (block.txs = block'.txs ∧ receipts = receipts') ↔
      block.signatures = block'.signatures ∧ receipts.length = receipts'.length := by
  obtain ⟨-,txs,results⟩ := Sync.ingestBlock_ok first
  obtain ⟨-,txs',results'⟩ := Sync.ingestBlock_ok second
  constructor
  · rintro ⟨same,rfl⟩
    exact ⟨by rw [Block.signatures,Block.signatures,same],rfl⟩
  · rintro ⟨signatures,count⟩
    have size : block.leaves.length = block'.leaves.length := by
      simpa [Block.leaves,Block.signatures] using congrArg List.length signatures
    have roots : merkleRoot block.leaves = merkleRoot block'.leaves := by
      have same := txs.symm.trans txs'
      rw [txRootSigned,txRootSigned,txRoot,txRoot,List.map_map,List.map_map] at same
      exact same
    have leaves := merkleRoot_injective size
      (injective.mono fun p member => List.mem_append_left _ member) roots
    refine ⟨txs_eq leaves signatures,?_⟩
    exact merkleRoot_injective count (injective.mono fun p member => List.mem_append_right _ member)
      (results.symm.trans results')

end Bodies

namespace BodyBinding.Sample

attribute [local instance] LoneSigner.blake3

def payment (mark : UInt8) : SignedTx :=
  ⟨⟨1,0,Spec.gasTransfer,1,.transfer ⟨zeroHash,10⟩⟩,Vector.replicate 64 mark,Vector.replicate 32 mark⟩

def block (mark : UInt8) : Block := ⟨LoneSigner.header.fields,[payment mark]⟩

def receipts : List Bytes := [[2],[3],[6]]

def header : Header :=
  { LoneSigner.header with txRoot := txRootSigned [payment 0],receiptsRoot := receiptsRoot receipts }

def padded : List Bytes := receipts ++ [[6]]

theorem accepted : ingestBlock header (block 0) receipts = .ok () := by decide +kernel

theorem accepted_padded : ingestBlock header (block 9) padded = .ok () := by decide +kernel

theorem no_collision : Set.InjOn Hashing.dhash {p | p ∈ Hashing.payloads (block 0).leaves ++
    Hashing.payloads (block 9).leaves ++ (Hashing.payloads receipts ++ Hashing.payloads padded)} := by
  have apart : ∀ p ∈ Hashing.payloads (block 0).leaves ++ Hashing.payloads (block 9).leaves ++
      (Hashing.payloads receipts ++ Hashing.payloads padded),
      ∀ q ∈ Hashing.payloads (block 0).leaves ++ Hashing.payloads (block 9).leaves ++
        (Hashing.payloads receipts ++ Hashing.payloads padded),
      Hashing.dhash p = Hashing.dhash q → p = q := by
    decide +kernel
  exact fun p left q right same => apart p left q right same

/-- The signatures and the number of receipts tell two bodies of one header apart. -/
theorem bodies_told_apart :
    ((block 0).txs = (block 9).txs ∧ receipts = padded) ↔
      (block 0).signatures = (block 9).signatures ∧ receipts.length = padded.length :=
  header_determines_body_iff header (block 0) (block 9) receipts padded accepted accepted_padded
    no_collision

/-- One header takes two blocks with different keys, and the last receipt once or twice. -/
theorem two_bodies_accepted :
    ingestBlock header (block 0) receipts = .ok () ∧ ingestBlock header (block 9) padded = .ok () ∧
      Set.InjOn Hashing.dhash {p | p ∈ Hashing.payloads (block 0).leaves ++
        Hashing.payloads (block 9).leaves ++ (Hashing.payloads receipts ++ Hashing.payloads padded)} ∧
      (block 0).txs ≠ (block 9).txs ∧ receipts ≠ padded :=
  ⟨accepted,accepted_padded,no_collision,by decide +kernel,by decide⟩

end BodyBinding.Sample
end L1
