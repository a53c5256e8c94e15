import L1.Qc

/-! Who relies on a quorum certificate, and what an accepted one is worth. -/
namespace L1

inductive LightError where
  | qc | headerMismatch | proof | source | checkpoint | gap
  deriving DecidableEq, Repr

inductive TopicError where
  | codec | proposal | vote (reason : VerifyError) | block
  deriving DecidableEq, Repr

inductive ValidError where
  | gossip (reason : TopicError) | qc (reason : QcError) | qcMismatch
  deriving DecidableEq, Repr

section Gates

variable [Blake3]

/-- The inclusion proof of the first leaf, checked against the root. An empty list is
compared with the empty root, and a one-leaf tree stands in for the proof. -/
def verifyRoot (leaves : List Bytes) (root : Hash) : Except TopicError Unit :=
  match leaves with
  | [] =>
    if Merkle.computeRoot [] ≠ root then .error .block
    else match Merkle.prove [[]] 0 with
      | none => .error .block
      | some proof =>
        if Merkle.verify [] proof (Merkle.computeRoot [[]]) then .ok () else .error .block
  | first :: _ => match Merkle.prove leaves 0 with
    | none => .error .block
    | some proof => if Merkle.verify first proof root then .ok () else .error .block

/-- Check the fields and the transaction and receipt roots of a gossiped block. -/
def ingestBlock (header : Header) (block : Block) (receiptLeaves : List Bytes) :
    Except TopicError Unit := do
  if header.fields ≠ block.headerFields then throw .block
  if txRoot (block.txs.map SignedTx.tx) ≠ header.txRoot then throw .block
  verifyRoot (block.txs.map fun s => s.tx.encode) header.txRoot
  if receiptsRoot receiptLeaves ≠ header.receiptsRoot then throw .block
  verifyRoot receiptLeaves header.receiptsRoot

variable [Bls]

/-- The light client: the certificate names this header, and verifies. -/
def verifyQc (header : Header) (qc : QuorumCertificate) (validators : ValidatorSet) :
    Option (Except LightError Unit) :=
  if qc.block ≠ .block header.hash then some (.error .headerMismatch)
  else if qc.height ≠ header.fields.height ∨ qc.round ≠ header.fields.round then
    some (.error .headerMismatch)
  else match Qc.verify qc validators with
    | none => none
    | some (.error _) => some (.error .qc)
    | some (.ok ()) => some (.ok ())

def validBlockConsensus (header : Header) (block : Block) (receiptLeaves : List Bytes)
    (qc : QuorumCertificate) (validators : ValidatorSet) : Option (Except ValidError Unit) :=
  match ingestBlock header block receiptLeaves with
  | .error e => some (.error (.gossip e))
  | .ok () => match Qc.verify qc validators with
    | none => none
    | some (.error e) => some (.error (.qc e))
    | some (.ok ()) =>
      if qc.block ≠ .block header.hash ∨ qc.height ≠ header.fields.height then
        some (.error .qcMismatch)
      else some (.ok ())

end Gates

namespace Qc

/-- Distinct members with more than two thirds of the power signed the certified precommit. -/
def Certified (signed : ValidatorId → Bytes → Prop) (validators : ValidatorSet)
    (qc : QuorumCertificate) : Prop :=
  ∃ s ⊆ validators.members, 2 * validators.power < 3 * validators.powerOf s ∧
    ∀ id ∈ s, signed id (message qc)

def listedMembers (validators : ValidatorSet) (qc : QuorumCertificate) : Finset ValidatorId :=
  validators.members.filter (· ∈ qc.signers)

theorem powerOf_mono (validators : ValidatorSet) {s t : Finset ValidatorId} (sub : s ⊆ t) :
    validators.powerOf s ≤ validators.powerOf t := Finset.sum_le_sum_of_subset sub

variable [Bls]

/-- An accepted certificate proves a quorum of signatures under unforgeability exactly
when the members it lists, each counted once, are a quorum. Verification itself compares
only the power that the certificate claims. -/
theorem verify_sound_iff (qc : QuorumCertificate) (validators : ValidatorSet)
    (accepted : verify qc validators = some (.ok ())) :
    (∀ signed, Genuine (fun _ => True) signed qc → Certified signed validators qc) ↔
      2 * validators.power < 3 * validators.powerOf (listedMembers validators qc) := by
  constructor
  · intro sound
    -- the history in which only the listed signers signed explains the certificate
    obtain ⟨s,members,quorum,signed⟩ :=
      sound (fun id _ => id ∈ qc.signers) fun _ _ _ _ _ id listed _ => listed
    have inside : s ⊆ listedMembers validators qc := by
      intro id chosen
      exact Finset.mem_filter.mpr ⟨members chosen,signed id chosen⟩
    have := powerOf_mono validators inside
    omega
  · intro quorum signed genuine
    refine ⟨listedMembers validators qc,Finset.filter_subset _ _,quorum,?_⟩
    intro id chosen
    exact genuine.signed accepted id (Finset.mem_filter.mp chosen).2 trivial

end Qc

/-! A closed instance. Its scheme accepts every signature, so what was signed is only what
a history says. -/
namespace LoneSigner

@[reducible] def bls : Bls where
  SecretKey := Unit
  PublicKey := Unit
  Signature := Unit
  sign _ _ := ()
  verify _ _ _ := true
  publicKeyFromBytes _ := some ()
  signatureFromBytes _ := some ()
  signatureToBytes _ := Vector.replicate 96 0
  addPublicKey _ _ := some ()
  addSignature _ _ := some ()

@[reducible] def blake3 : Blake3 := ⟨fun bytes => Vector.replicate 32 (bytes.foldl (· + ·) 0)⟩

attribute [local instance] bls blake3

def validator (tag : UInt8) : ValidatorId := Vector.replicate 48 tag

def validators : ValidatorSet := Std.ExtTreeMap.ofList
  [(validator 1,1),(validator 2,1),(validator 3,1)] compare

def header : Header := {
  fields := ⟨0,0,validator 1,0⟩
  txRoot := zeroHash
  stateRoot := zeroHash
  receiptsRoot := zeroHash
  validatorsHash := zeroHash
  daRoot := zeroHash }

def certificate (power : VotingPower) : QuorumCertificate := {
  height := 0
  round := 0
  block := .block header.hash
  signers := [validator 1]
  aggSig := (Vote.precommit () (validator 1) 0 0 header).signature
  power }

def alone : ValidatorSet := Std.ExtTreeMap.ofList [(validator 1,1)] compare

/-- Where the signer holds all the power, the certificate means what it says. -/
theorem sole_validator_certified :
    Qc.verify (certificate 1) alone = some (.ok ()) ∧
    ∀ signed, Qc.Genuine (fun _ => True) signed (certificate 1) →
      Qc.Certified signed alone (certificate 1) :=
  ⟨by decide +kernel,(Qc.verify_sound_iff _ _ (by decide +kernel)).mpr (by decide +kernel)⟩

/-- One validator of three makes a certificate that the light client takes for final. -/
theorem lone_signer_certified :
    verifyQc header (certificate 3) validators = some (.ok ()) ∧
    Qc.verify (certificate 3) validators = some (.ok ()) ∧
    Qc.Genuine (fun _ => True) (fun id _ => id = validator 1) (certificate 3) ∧
    ¬ Qc.Certified (fun id _ => id = validator 1) validators (certificate 3) := by
  refine ⟨by decide +kernel,by decide +kernel,?_,?_⟩
  · intro _ _ _ _ _ id listed _
    exact List.mem_singleton.mp listed
  · rintro ⟨s,-,quorum,signed⟩
    have sole : s ⊆ {validator 1} := fun id chosen => Finset.mem_singleton.mpr (signed id chosen)
    have few := Qc.powerOf_mono validators sole
    have one : validators.powerOf {validator 1} = 1 := by decide +kernel
    have three : validators.power = 3 := by decide +kernel
    omega

end LoneSigner
end L1
