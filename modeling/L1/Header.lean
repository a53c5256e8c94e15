import L1.MerkleTree
import L1.Tx

/-! Merkle roots, block headers and block bodies. -/
namespace L1

namespace Hashing

variable [Blake3]

def dhash (payload : Bytes) : Hash := hashToArray (ascii "L1/merkle" ++ 0 :: payload)

def hashLeaf (leaf : Bytes) : Hash := dhash (0 :: leaf)

def hashBranch (left right : Hash) : Hash := dhash (1 :: (left.toList ++ right.toList))

def merkleRoot (leaves : List Bytes) : Hash :=
  (MerkleTree.root hashBranch leaves.length (leaves.map hashLeaf)).getD (dhash [])

end Hashing

/-! The tree of the state crate. Only the spelling of the domain differs from the one above. -/

namespace Merkle

variable [Blake3]

def dhash (payload : Bytes) : Hash := hashToArray (DomainTag.merkle.apply payload)

def hashLeaf (leaf : Bytes) : Hash := dhash (0 :: leaf)

def hashBranch (left right : Hash) : Hash := dhash (1 :: (left.toList ++ right.toList))

def computeRoot (leaves : List Bytes) : Hash :=
  (MerkleTree.root hashBranch leaves.length (leaves.map hashLeaf)).getD (dhash [])

structure Proof where
  leafIndex : Nat
  siblings : List Hash
  deriving DecidableEq, Repr

def prove (leaves : List Bytes) (index : Nat) : Option Proof :=
  if leaves.length ≤ index then none
  else some ⟨index,MerkleTree.siblings hashBranch leaves.length (leaves.map hashLeaf) index⟩

def verify (leaf : Bytes) (proof : Proof) (root : Hash) : Bool :=
  decide (MerkleTree.climb hashBranch (hashLeaf leaf) proof.leafIndex proof.siblings = root)

end Merkle

open Hashing

structure HeaderFields where
  height : Height
  round : Round
  proposer : ValidatorId
  timestampMs : U64
  deriving DecidableEq, Repr

/-- A proposal may not run ahead of the local clock by more than the drift, nor,
after genesis, fall behind its predecessor. -/
def timestampInBounds (now : U64) (height : Height) (prev proposed maxDrift : U64) : Bool :=
  if height ≠ 0 ∧ proposed < prev then false
  else decide (proposed ≤ saturatingAdd now maxDrift)

namespace HeaderFields

def new (now : U64) (height : Height) (round : Round) (proposer : ValidatorId)
    (prev timestamp : U64) : Option HeaderFields :=
  if timestampInBounds now height prev timestamp Spec.maxTimestampDriftMs
  then some ⟨height,round,proposer,timestamp⟩ else none

end HeaderFields

/-- Merkle root over the validator set, in identifier order. -/
def validatorsHash [Blake3] (validators : Map ValidatorId VotingPower) : Hash :=
  merkleRoot (validators.toList.map fun (id,power) => id.toList ++ toBeBytes 8 power)

structure Header where
  fields : HeaderFields
  txRoot : Hash
  stateRoot : Hash
  receiptsRoot : Hash
  validatorsHash : Hash
  daRoot : Hash
  deriving DecidableEq, Repr

namespace Header

/-- Bytes hashed under the header domain. -/
def hashPreimage (h : Header) : Bytes :=
  toBeBytes 8 h.fields.height ++ toBeBytes 4 h.fields.round ++ h.fields.proposer.toList ++
  toBeBytes 8 h.fields.timestampMs ++ h.txRoot.toList ++ h.stateRoot.toList ++
  h.receiptsRoot.toList ++ h.validatorsHash.toList ++ h.daRoot.toList

def hash [Blake3] (h : Header) : Hash := hashToArray (DomainTag.header.apply h.hashPreimage)

@[simp] theorem length_hashPreimage (h : Header) : h.hashPreimage.length = 228 := by
  simp [hashPreimage]

/-- Every field has a fixed width, so the preimage determines the header. -/
theorem hashPreimage_injective {g h : Header} (same : g.hashPreimage = h.hashPreimage) : g = h := by
  obtain ⟨⟨height,round,proposer,timestamp⟩,tx,state,receipts,validators,da⟩ := g
  obtain ⟨⟨height',round',proposer',timestamp'⟩,tx',state',receipts',validators',da'⟩ := h
  simp only [hashPreimage] at same
  obtain ⟨same,da⟩ := List.append_inj' same (by simp)
  obtain ⟨same,validators⟩ := List.append_inj' same (by simp)
  obtain ⟨same,receipts⟩ := List.append_inj' same (by simp)
  obtain ⟨same,state⟩ := List.append_inj' same (by simp)
  obtain ⟨same,tx⟩ := List.append_inj' same (by simp)
  obtain ⟨same,timestamp⟩ := List.append_inj' same (by simp)
  obtain ⟨same,proposer⟩ := List.append_inj' same (by simp)
  obtain ⟨height,round⟩ := List.append_inj' same (by simp)
  rw [toBeBytes_injective 8 (by decide) height,toBeBytes_injective 4 (by decide) round,
    toList_injective proposer,toBeBytes_injective 8 (by decide) timestamp,toList_injective tx,
    toList_injective state,toList_injective receipts,toList_injective validators,
    toList_injective da]

end Header

section Body

variable [Blake3]

def txRoot (txs : List Tx) : Hash := merkleRoot (txs.map Tx.encode)

def txRootSigned (txs : List SignedTx) : Hash := txRoot (txs.map SignedTx.tx)

def receiptsRoot (encodedReceipts : List Bytes) : Hash := merkleRoot encodedReceipts

/-- Two-leaf root of the account and the contract storage tries. -/
def stateRoot (accountRoot contractRoot : Hash) : Hash :=
  merkleRoot [accountRoot.toList,contractRoot.toList]

end Body

structure Block where
  headerFields : HeaderFields
  txs : List SignedTx
  deriving DecidableEq

end L1
