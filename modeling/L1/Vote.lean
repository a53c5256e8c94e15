import L1.Header

/-! BLS votes: the signed message, the replay log and equivocation evidence. The
signature scheme itself is a parameter. -/
namespace L1

/-- BLS12-381 keys and signatures as the blst crate offers them. -/
class Bls where
  SecretKey : Type
  PublicKey : Type
  Signature : Type
  sign : SecretKey → Bytes → Signature
  verify : PublicKey → Bytes → Signature → Bool
  publicKeyFromBytes : Vector UInt8 48 → Option PublicKey
  signatureFromBytes : Vector UInt8 96 → Option Signature
  signatureToBytes : Signature → Vector UInt8 96
  addPublicKey : PublicKey → PublicKey → Option PublicKey
  addSignature : Signature → Signature → Option Signature

namespace Bls

variable [Bls]

def aggregate : List Signature → Option Signature
  | [] => none
  | first :: rest => rest.foldlM addSignature first

/-- Verify when every signer signed the same message. The outer `none` is the panic
on an empty list of keys. -/
def verifyFastAggregate (agg : Signature) : List PublicKey → Bytes → Option Bool
  | [], _ => none
  | first :: rest, msg =>
    match rest.foldlM addPublicKey first with
    | none => some false
    | some key => some (verify key msg agg)

end Bls

inductive VoteKind where
  | prevote | precommit
  deriving DecidableEq, Repr

def VoteKind.byte : VoteKind → UInt8
  | prevote => 0 | precommit => 1

/-- What a vote is for. Nil is explicit, not an omitted hash. -/
inductive VoteBlock where
  | nil
  | block (hash : Hash)
  deriving DecidableEq, Repr

namespace VoteBlock

def encode : VoteBlock → Bytes
  | nil => [0]
  | block hash => 1 :: hash.toList

theorem encode_injective {a b : VoteBlock} (same : a.encode = b.encode) : a = b := by
  cases a <;> cases b <;> simp [encode] at same ⊢
  exact toList_injective same

/-- The derived order: nil first, then by hash. -/
instance : Ord VoteBlock := ⟨compareOn encode⟩

instance : Std.TransOrd VoteBlock := inferInstanceAs (Std.TransCmp (compareOn encode))

instance : Std.LawfulEqOrd VoteBlock where
  compare_self {a} := by
    change compare a.encode a.encode = .eq
    exact Std.ReflCmp.compare_self
  eq_of_compare {a b} same := by
    change compare a.encode b.encode = .eq at same
    exact encode_injective (Std.LawfulEqCmp.eq_of_compare same)

end VoteBlock

structure Vote where
  height : Height
  round : Round
  kind : VoteKind
  block : VoteBlock
  signer : ValidatorId
  signature : Vector UInt8 96
  deriving DecidableEq, Repr

def signedMessage (height : Height) (round : Round) (kind : VoteKind) (block : VoteBlock) : Bytes :=
  DomainTag.vote.apply (toBeBytes 8 height ++ toBeBytes 4 round ++ [kind.byte] ++ block.encode)

theorem VoteKind.byte_injective {a b : VoteKind} (same : a.byte = b.byte) : a = b := by
  cases a <;> cases b <;> first | rfl | exact absurd same (by decide)

/-- A slot and a value before them are read back from fixed widths. -/
theorem slot_injective {h h' : Height} {r r' : Round} {k k' : VoteKind} {b b' : Bytes}
    (same : toBeBytes 8 h ++ toBeBytes 4 r ++ [k.byte] ++ b =
      toBeBytes 8 h' ++ toBeBytes 4 r' ++ [k'.byte] ++ b') :
    h = h' ∧ r = r' ∧ k = k' ∧ b = b' := by
  obtain ⟨same,block⟩ := List.append_inj same (by simp)
  obtain ⟨same,kind⟩ := List.append_inj same (by simp)
  obtain ⟨height,round⟩ := List.append_inj same (by simp)
  exact ⟨toBeBytes_injective 8 (by decide) height,toBeBytes_injective 4 (by decide) round,
    VoteKind.byte_injective (by simpa using kind),block⟩

theorem signedMessage_injective {h h' : Height} {r r' : Round} {k k' : VoteKind} {b b' : VoteBlock}
    (same : signedMessage h r k b = signedMessage h' r' k' b') :
    h = h' ∧ r = r' ∧ k = k' ∧ b = b' := by
  obtain ⟨-,same⟩ := DomainTag.apply_injective same
  obtain ⟨height,round,kind,block⟩ := slot_injective same
  exact ⟨height,round,kind,VoteBlock.encode_injective block⟩

def Vote.message (v : Vote) : Bytes := signedMessage v.height v.round v.kind v.block

section Signing

variable [Bls]

def signVote (sk : Bls.SecretKey) (signer : ValidatorId) (height : Height) (round : Round)
    (kind : VoteKind) (block : VoteBlock) : Vote :=
  ⟨height,round,kind,block,signer,
    Bls.signatureToBytes (Bls.sign sk (signedMessage height round kind block))⟩

variable [Blake3]

namespace Vote

def prevote (sk : Bls.SecretKey) (signer : ValidatorId) (height : Height) (round : Round)
    (header : Header) : Vote := signVote sk signer height round .prevote (.block header.hash)

def precommit (sk : Bls.SecretKey) (signer : ValidatorId) (height : Height) (round : Round)
    (header : Header) : Vote := signVote sk signer height round .precommit (.block header.hash)

def nil (sk : Bls.SecretKey) (signer : ValidatorId) (height : Height) (round : Round)
    (kind : VoteKind) : Vote := signVote sk signer height round kind .nil

end Vote
end Signing

section Replay

variable [Blake3]

def replayPreimage (signer : ValidatorId) (height : Height) (round : Round) (kind : VoteKind)
    (blockId : Bytes) : Bytes :=
  DomainTag.vote.apply
    (signer.toList ++ (toBeBytes 8 height ++ toBeBytes 4 round ++ [kind.byte] ++ blockId))

/-- Same signer, height, round and kind give the same key. -/
def replayKey (signer : ValidatorId) (height : Height) (round : Round) (kind : VoteKind) : Hash :=
  hashToArray (replayPreimage signer height round kind [])

def voteHash (signer : ValidatorId) (height : Height) (round : Round) (kind : VoteKind)
    (blockId : Bytes) : Hash :=
  hashToArray (replayPreimage signer height round kind blockId)

omit [Blake3] in
theorem replayPreimage_injective {s s' : ValidatorId} {h h' : Height} {r r' : Round}
    {k k' : VoteKind} {b b' : Bytes}
    (same : replayPreimage s h r k b = replayPreimage s' h' r' k' b') :
    s = s' ∧ h = h' ∧ r = r' ∧ k = k' ∧ b = b' := by
  obtain ⟨-,same⟩ := DomainTag.apply_injective same
  obtain ⟨signer,same⟩ := List.append_inj same (by simp)
  exact ⟨toList_injective signer,slot_injective same⟩

inductive VerifyError where
  | signature | replaySlot | equivocation
  deriving DecidableEq, Repr

/-- Seen replay keys with the hash of the vote body. -/
abbrev VoteReplayLog := Map Hash Hash

def Vote.key (v : Vote) : Hash := replayKey v.signer v.height v.round v.kind

def Vote.body (v : Vote) : Hash := voteHash v.signer v.height v.round v.kind v.block.encode

/-- Record the vote or detect equivocation; an error leaves the log as it was. -/
def VoteReplayLog.observe (log : VoteReplayLog) (vote : Vote) : Except VerifyError VoteReplayLog :=
  match log[vote.key]? with
  | some prev => if prev ≠ vote.body then .error .equivocation else .ok log
  | none => .ok (log.insert vote.key vote.body)

theorem VoteReplayLog.observe_ok {log log' : VoteReplayLog} {vote : Vote}
    (accepted : log.observe vote = .ok log') :
    log'[vote.key]? = some vote.body ∧ ∀ key body : Hash, log[key]? = some body → log'[key]? = some body := by
  unfold VoteReplayLog.observe at accepted
  split at accepted
  · rename_i prev seen
    split at accepted
    · cases accepted
    · rename_i same
      cases accepted
      exact ⟨by rw [seen,not_not.mp same],fun _ _ kept => kept⟩
  · rename_i fresh
    cases accepted
    refine ⟨by simp,?_⟩
    intro key body held
    rw [Map.get?_insert]
    split
    · rename_i same
      rw [same,fresh] at held
      cases held
    · exact held

end Replay

section Verifying

variable [Bls]

def verifySignature (vote : Vote) : Except VerifyError Unit :=
  match Bls.publicKeyFromBytes vote.signer with
  | none => .error .signature
  | some pk => match Bls.signatureFromBytes vote.signature with
    | none => .error .signature
    | some sig => if Bls.verify pk vote.message sig then .ok () else .error .signature

variable [Blake3]

def Vote.verify (vote : Vote) (expectedHeight : Height) (expectedRound : Round)
    (log : VoteReplayLog) : Except VerifyError VoteReplayLog :=
  match verifySignature vote with
  | .error e => .error e
  | .ok () =>
    if vote.height ≠ expectedHeight ∨ vote.round ≠ expectedRound then .error .replaySlot
    else log.observe vote

theorem Vote.verify_ok {vote : Vote} {height : Height} {round : Round} {log log' : VoteReplayLog}
    (accepted : vote.verify height round log = .ok log') :
    verifySignature vote = .ok () ∧ vote.height = height ∧ vote.round = round ∧
      log.observe vote = .ok log' := by
  unfold Vote.verify at accepted
  split at accepted
  · cases accepted
  · rename_i signed
    split at accepted
    · cases accepted
    · rename_i slot
      push Not at slot
      exact ⟨signed,slot.1,slot.2,accepted⟩

end Verifying

/-- Portable proof of a double vote. -/
structure Evidence where
  a : Vote
  b : Vote
  deriving DecidableEq

def votePayload (v : Vote) : Bytes :=
  v.signer.toList ++ toBeBytes 8 v.height ++ toBeBytes 4 v.round ++ [v.kind.byte] ++
  v.block.encode ++ v.signature.toList

def Evidence.encode (ev : Evidence) : Bytes :=
  Encoding.encode (BigEndian.encode 4 (votePayload ev.a).length ++ votePayload ev.a ++
    BigEndian.encode 4 (votePayload ev.b).length ++ votePayload ev.b)

section Evidence

variable [Bls] [Blake3]

/-- Build evidence if the two votes are a double sign. Both signatures must verify. -/
def equivocation (a b : Vote) : Except VerifyError Evidence := do
  verifySignature a
  verifySignature b
  if a.signer ≠ b.signer ∨ a.height ≠ b.height ∨ a.round ≠ b.round ∨ a.kind ≠ b.kind then
    throw .replaySlot
  if a.key ≠ b.key then throw .replaySlot
  if a.body = b.body then throw .replaySlot
  return ⟨a,b⟩

/-- Both votes pass the signature check on their own, then as a pair. -/
def submitEvidence (ev : Evidence) : Except VerifyError Evidence := do
  verifySignature ev.a
  verifySignature ev.b
  let _ ← equivocation ev.a ev.b
  return ev

end Evidence
end L1
