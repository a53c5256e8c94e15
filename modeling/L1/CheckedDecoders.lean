import L1.CheckedReads
import L1.GossipFormats

/-! The decoders with every index checked. A slice or an array access of the source that is out of
range would stop the program; no input makes one do so. -/
namespace L1

open Codec

namespace Checked

/-! Decoders. -/

def decode (buf : Bytes) : Checked TypesError Bytes := do
  rejectIf (buf.length < 5) .codecTruncated
  let version ← index buf 0
  rejectIf (version ≠ Encoding.codecVersion) (.codecVersion version)
  let len ← field 4 buf 1 5
  let rest ← tail buf 5
  rejectIf (rest.length ≠ BigEndian.decode len) (.codecLength (BigEndian.decode len) rest.length)
  return rest

/-- The fields of a header that stand in front of a preimage and of a body. -/
def headerFields (p : Bytes) : Checked TypesError HeaderFields := do
  let height ← field 8 p 0 8
  let round ← field 4 p 8 12
  let proposer ← field 48 p 12 60
  let timestampMs ← field 8 p 60 68
  return {
    height := fromBeBytes 64 height
    round := fromBeBytes 32 round
    proposer := fixed 48 proposer
    timestampMs := fromBeBytes 64 timestampMs }

def headerFromPreimage (p : Bytes) : Checked TypesError Header := do
  rejectIf (p.length ≠ headerPreimageLen) (.badLength headerPreimageLen p.length)
  let fields ← headerFields p
  let txRoot ← field 32 p 68 100
  let stateRoot ← field 32 p 100 132
  let receiptsRoot ← field 32 p 132 164
  let validatorsHash ← field 32 p 164 196
  let daRoot ← field 32 p 196 228
  return {
    fields
    txRoot := fixed 32 txRoot
    stateRoot := fixed 32 stateRoot
    receiptsRoot := fixed 32 receiptsRoot
    validatorsHash := fixed 32 validatorsHash
    daRoot := fixed 32 daRoot }

def decodeTargeted (raw : Bytes) (kind : StakeKind) (other : kind ≠ .withdraw) :
    Checked TypesError TxPayload := do
  rejectIf (raw.length ≠ 41 + 48 + 16) (.badLength 105 raw.length)
  let vid ← field 48 raw 41 89
  let amount ← field 16 raw 89 105
  return Tx.stakeWith kind other (fixed 48 vid) (fromBeBytes 128 amount)

def decodeTransfer (raw : Bytes) : Checked TypesError TxPayload := do
  rejectIf (raw.length ≠ 41 + 32 + 16) (.badLength 89 raw.length)
  let target ← field 32 raw 41 73
  let amount ← field 16 raw 73 89
  return .transfer ⟨fixed 32 target,fromBeBytes 128 amount⟩

def decodeWithdraw (raw : Bytes) : Checked TypesError TxPayload := do
  rejectIf (raw.length ≠ 41 + 16) (.badLength 57 raw.length)
  let amount ← field 16 raw 41 57
  return .stake ⟨.withdraw,none,fromBeBytes 128 amount,StakeKind.withdraw_bare⟩

def decodeDeploy (raw : Bytes) : Checked TypesError TxPayload := do
  rejectIf (raw.length < 45) (.badLength 45 raw.length)
  let n ← field 4 raw 41 45
  rejectIf (raw.length ≠ 45 + BigEndian.decode n) (.badLength (45 + BigEndian.decode n) raw.length)
  let code ← tail raw 45
  return .deploy ⟨code⟩

def decodeCall (raw : Bytes) : Checked TypesError TxPayload := do
  rejectIf (raw.length < 41 + 32 + 4) (.badLength 77 raw.length)
  let target ← field 32 raw 41 73
  let n ← field 4 raw 73 77
  rejectIf (raw.length ≠ 77 + BigEndian.decode n) (.badLength (77 + BigEndian.decode n) raw.length)
  let data ← tail raw 77
  return .call ⟨fixed 32 target,data⟩

def decodeVariant (tag : UInt8) (raw : Bytes) : Checked TypesError TxPayload :=
  if tag = 0 then decodeTransfer raw
  else if tag = 1 then decodeTargeted raw .bond StakeKind.bond_ne
  else if tag = 2 then decodeTargeted raw .unbond StakeKind.unbond_ne
  else if tag = 3 then decodeTargeted raw .delegate StakeKind.delegate_ne
  else if tag = 4 then decodeTargeted raw .undelegate StakeKind.undelegate_ne
  else if tag = 5 then decodeWithdraw raw
  else if tag = 6 then decodeDeploy raw
  else if tag = 7 then decodeCall raw
  else throw (.kv "unknown tx payload tag")

def decodeTx (buf : Bytes) : Checked TypesError Tx := do
  let raw ← decode buf
  rejectIf (raw.length < 8 + 8 + 8 + 16 + 1) (.badLength 41 raw.length)
  let chainId ← field 8 raw 0 8
  let nonce ← field 8 raw 8 16
  let gasLimit ← field 8 raw 16 24
  let maxFee ← field 16 raw 24 40
  let tag ← index raw 40
  let payload ← decodeVariant tag raw
  return {
    chainId := fromBeBytes 64 chainId
    nonce := fromBeBytes 64 nonce
    gasLimit := fromBeBytes 64 gasLimit
    maxFee := fromBeBytes 128 maxFee
    payload }

def decodeSignedTx (buf : Bytes) : Checked TypesError SignedTx := do
  let p ← decode buf
  rejectIf (p.length < 4 + 64 + 32) (.badLength 100 p.length)
  let tlen := BigEndian.decode (← field 4 p 0 4)
  let need := 4 + tlen + 64 + 32
  rejectIf (p.length ≠ need) (.badLength need p.length)
  let tx ← decodeTx (← range p 4 (4 + tlen))
  let signature ← field 64 p (4 + tlen) (4 + tlen + 64)
  let publicKey ← field 32 p (4 + tlen + 64) need
  return { tx, signature := fixed 64 signature, publicKey := fixed 32 publicKey }

def decodeTxs (p : Bytes) : Nat → Nat → Checked TypesError (List SignedTx × Nat)
  | 0, i => return ([],i)
  | n + 1, i => do
    let (bytes,i) ← takePart .codecTruncated p i
    let tx ← decodeSignedTx bytes
    let (txs,i) ← decodeTxs p n i
    return (tx :: txs,i)

def decodeBlockBody (buf : Bytes) : Checked TypesError Block := do
  let p ← decode buf
  rejectIf (p.length < 8 + 4 + 48 + 8 + 4) (.badLength 72 p.length)
  let fields ← headerFields p
  let n ← field 4 p 68 72
  let (txs,i) ← decodeTxs p (BigEndian.decode n) 72
  rejectIf (i ≠ p.length) (.codecLength i p.length)
  return { headerFields := fields, txs }

def decodeFrame (buf : Bytes) : Checked TypesError Gossip.GossipFrame := do
  let p ← decode buf
  rejectIf (p.length = 0) .codecTruncated
  let first ← index p 0
  match Gossip.GossipKind.fromU8 first with
  | none => throw .codecTruncated
  | some kind =>
    let inner ← tail p 1
    return ⟨kind,inner⟩

def decodeVoteBlock (p : Bytes) : Checked TypesError (VoteBlock × Nat) := do
  let tag ← index p 61
  if tag = 0 then return (.nil,62)
  else if tag = 1 then
    rejectIf (p.length < 62 + 32 + 96) .codecTruncated
    let h ← field 32 p 62 94
    return (.block (fixed 32 h),94)
  else throw .codecTruncated

def decodeVote (buf : Bytes) : Checked TypesError Vote := do
  let p ← decode buf
  rejectIf (p.length < 48 + 8 + 4 + 1 + 1 + 96) .codecTruncated
  let signer ← field 48 p 0 48
  let height ← field 8 p 48 56
  let round ← field 4 p 56 60
  let tag ← index p 60
  match Gossip.voteKindFromU8 tag with
  | none => throw .codecTruncated
  | some kind =>
    let (block,sigOff) ← decodeVoteBlock p
    rejectIf (p.length ≠ sigOff + 96) .codecTruncated
    let signature ← sized 96 (← tail p sigOff)
    return {
      height := fromBeBytes 64 height
      round := fromBeBytes 32 round
      kind, block
      signer := fixed 48 signer
      signature := fixed 96 signature }

def decodeProposal (buf : Bytes) : Checked TypesError Proposal := do
  let p ← decode buf
  rejectIf (p.length < 8 + 4 + 4) .codecTruncated
  let height ← field 8 p 0 8
  let round ← field 4 p 8 12
  let preLen := BigEndian.decode (← field 4 p 12 16)
  rejectIf (p.length ≠ 16 + preLen + 32 + 48 + 48 + 80 + 96) .codecTruncated
  let header ← headerFromPreimage (← range p 16 (16 + preLen))
  let off := 16 + preLen
  let app ← field 32 p off (off + 32)
  let proposer ← field 48 p (off + 32) (off + 80)
  let vrfSource ← field 48 p (off + 80) (off + 128)
  let proof ← field 80 p (off + 128) (off + 208)
  let signature ← field 96 p (off + 208) (off + 304)
  return {
    height := fromBeBytes 64 height
    round := fromBeBytes 32 round
    header
    appHash := fixed 32 app
    proposer := fixed 48 proposer
    vrfSource := fixed 48 vrfSource
    vrfProof := fixed 80 proof
    signature := fixed 96 signature }

def siblings (p : Bytes) : Nat → Nat → Checked TypesError (List Hash)
  | 0, _ => return []
  | n + 1, i => do
    let s ← field 32 p i (i + 32)
    let others ← siblings p n (i + 32)
    return fixed 32 s :: others

def decodeDaChunk (buf : Bytes) : Checked TypesError Da.ProvenChunk := do
  let p ← decode buf
  rejectIf (p.length < 2 + 4) .codecTruncated
  let index ← field 2 p 0 2
  let plen := BigEndian.decode (← field 4 p 2 6)
  rejectIf (p.length < 6 + plen + 8) .codecTruncated
  let payload ← range p 6 (6 + plen)
  let i := 6 + plen
  let leafIndex ← field 4 p i (i + 4)
  let n := BigEndian.decode (← field 4 p (i + 4) (i + 8))
  rejectIf (i + 8 + n * 32 ≠ p.length) .codecTruncated
  let listed ← siblings p n (i + 8)
  return {
    shard := ⟨fromBeBytes 16 index,payload⟩
    proof := ⟨BigEndian.decode leafIndex,listed⟩ }

/-- The parts of a record; `corrupt` is the error of a cut record, `store` wraps those of the parts. -/
def decodeRecord {ε : Type} (corrupt : ε) (store : TypesError → ε) (p : Bytes) :
    Checked ε BodyOffer := do
  rejectIf (p.length < 4) corrupt
  let (pre,i) ← takePart corrupt p 0
  let header ← mapError store (headerFromPreimage pre)
  let (body,i) ← takePart corrupt p i
  let block ← mapError store (decodeBlockBody body)
  let (app,i) ← take corrupt p i 32
  let app ← sized 32 app
  let (n,i) ← takeNumber corrupt p i
  let (receipts,i) ← takeParts corrupt p n i
  rejectIf (i ≠ p.length) corrupt
  return ⟨header,block,receipts,fixed 32 app⟩

def decodeBodyOffer (inner : Bytes) : Checked WireError BodyOffer :=
  decodeRecord .gossip (fun _ => .gossip) inner

def decodeWal (buf : Bytes) : Checked Wal.WalError BodyOffer := do
  let p ← mapError .store (decode buf)
  decodeRecord .corrupt .store p

/-! No decoder stops. -/

theorem decode_eq (buf : Bytes) : decode buf = returned (Encoding.decode buf) := by
  unfold decode Encoding.decode
  refine rejectIf_bind fun long => ?_
  rw [index_eq (by omega),pure_bind]
  refine rejectIf_bind fun _ => ?_
  rw [field_eq rfl (by omega),pure_bind,tail_eq (by omega),pure_bind]
  exact rejectIf_bind fun _ => rfl

variable {p : Bytes} {n i : Nat}

theorem headerFields_eq (long : 68 ≤ p.length) : headerFields p = pure (fieldsAt p) := by
  unfold headerFields
  rw [field_eq rfl (by omega),pure_bind,field_eq rfl (by omega),pure_bind,field_eq rfl (by omega),
    pure_bind,field_eq rfl (by omega),pure_bind]
  rfl

theorem headerFromPreimage_eq (p : Bytes) :
    headerFromPreimage p = returned (Codec.headerFromPreimage p) := by
  unfold headerFromPreimage Codec.headerFromPreimage
  refine rejectIf_bind fun whole => ?_
  have length : p.length = 228 := not_not.mp whole
  rw [headerFields_eq (by omega),pure_bind,field_eq rfl (by omega),pure_bind,
    field_eq rfl (by omega),pure_bind,field_eq rfl (by omega),pure_bind,field_eq rfl (by omega),
    pure_bind,field_eq rfl (by omega),pure_bind]
  rfl

theorem decodeVariant_eq (tag : UInt8) (raw : Bytes) :
    decodeVariant tag raw = returned (Tx.decodeVariant tag raw) := by
  have targeted (kind : StakeKind) (other : kind ≠ .withdraw) : decodeTargeted raw kind other =
      returned (if raw.length ≠ 41 + 48 + 16 then .error (.badLength 105 raw.length) else
        .ok (Tx.stakeWith kind other (fixed 48 (slice raw 41 89)) (fromBeBytes 128 (slice raw 89 105)))) := by
    unfold decodeTargeted
    refine rejectIf_bind fun whole => ?_
    rw [field_eq rfl (by omega),pure_bind,field_eq rfl (by omega),pure_bind]
    rfl
  have transfer : decodeTransfer raw = returned (if raw.length ≠ 41 + 32 + 16 then
      .error (.badLength 89 raw.length) else
        .ok (.transfer ⟨fixed 32 (slice raw 41 73),fromBeBytes 128 (slice raw 73 89)⟩)) := by
    unfold decodeTransfer
    refine rejectIf_bind fun whole => ?_
    rw [field_eq rfl (by omega),pure_bind,field_eq rfl (by omega),pure_bind]
    rfl
  have withdraw : decodeWithdraw raw = returned (if raw.length ≠ 41 + 16 then
      .error (.badLength 57 raw.length) else
        .ok (.stake ⟨.withdraw,none,fromBeBytes 128 (slice raw 41 57),StakeKind.withdraw_bare⟩)) := by
    unfold decodeWithdraw
    refine rejectIf_bind fun whole => ?_
    rw [field_eq rfl (by omega),pure_bind]
    rfl
  have deploy : decodeDeploy raw = returned (if raw.length < 45 then .error (.badLength 45 raw.length)
      else if raw.length ≠ 45 + BigEndian.decode (slice raw 41 45) then
        .error (.badLength (45 + BigEndian.decode (slice raw 41 45)) raw.length)
      else .ok (.deploy ⟨raw.drop 45⟩)) := by
    unfold decodeDeploy
    refine rejectIf_bind fun long => ?_
    rw [field_eq rfl (by omega),pure_bind]
    refine rejectIf_bind fun _ => ?_
    rw [tail_eq (by omega),pure_bind]
    rfl
  have call : decodeCall raw = returned (if raw.length < 41 + 32 + 4 then
        .error (.badLength 77 raw.length)
      else if raw.length ≠ 77 + BigEndian.decode (slice raw 73 77) then
        .error (.badLength (77 + BigEndian.decode (slice raw 73 77)) raw.length)
      else .ok (.call ⟨fixed 32 (slice raw 41 73),raw.drop 77⟩)) := by
    unfold decodeCall
    refine rejectIf_bind fun long => ?_
    rw [field_eq rfl (by omega),pure_bind,field_eq rfl (by omega),pure_bind]
    refine rejectIf_bind fun _ => ?_
    rw [tail_eq (by omega),pure_bind]
    rfl
  unfold decodeVariant Tx.decodeVariant
  simp only [targeted,transfer,withdraw,deploy,call,← returned_error,← apply_ite returned]

theorem decodeTx_eq (buf : Bytes) : decodeTx buf = returned (Tx.decode buf) := by
  unfold decodeTx Tx.decode
  rw [decode_eq]
  cases Encoding.decode buf with
  | error e => rfl
  | ok raw =>
    rw [returned_ok,pure_bind]
    refine rejectIf_bind fun long => ?_
    rw [field_eq rfl (by omega),pure_bind,field_eq rfl (by omega),pure_bind,field_eq rfl (by omega),
      pure_bind,field_eq rfl (by omega),pure_bind,index_eq (by omega),pure_bind,decodeVariant_eq]
    cases Tx.decodeVariant (raw.getD 40 0) raw <;> rfl

theorem decodeSignedTx_eq (buf : Bytes) : decodeSignedTx buf = returned (Codec.decodeSignedTx buf) := by
  unfold decodeSignedTx Codec.decodeSignedTx
  rw [decode_eq]
  cases Encoding.decode buf with
  | error e => rfl
  | ok p =>
    rw [returned_ok,pure_bind]
    refine rejectIf_bind fun long => ?_
    rw [field_eq rfl (by omega),pure_bind]
    refine rejectIf_bind fun whole => ?_
    rw [range_eq (by omega) (by omega),pure_bind,decodeTx_eq]
    cases Tx.decode (slice p 4 (4 + BigEndian.decode (slice p 0 4))) with
    | error e => rfl
    | ok tx =>
      rw [returned_ok,pure_bind,field_eq rfl (by omega),pure_bind,field_eq rfl (by omega),pure_bind]
      rfl

/-- The loop with a cursor reads what the loop over the remaining bytes reads. -/
theorem decodeTxs_eq (within : i ≤ p.length) :
    (∀ e, Codec.decodeTxs n (p.drop i) = .error e → decodeTxs p n i = throw e) ∧
    (∀ txs rest, Codec.decodeTxs n (p.drop i) = .ok (txs,rest) →
      ∃ k, decodeTxs p n i = pure (txs,k) ∧ k ≤ p.length ∧ rest = p.drop k) := by
  induction n generalizing i with
  | zero =>
    refine ⟨fun e failed => (by cases failed),fun txs rest read => ?_⟩
    cases read
    exact ⟨i,rfl,within,rfl⟩
  | succ n ih =>
    unfold Codec.decodeTxs decodeTxs
    cases taken : takeChunk (p.drop i) with
    | none =>
      rw [takePart_none taken,throw_bind]
      refine ⟨fun e failed => ?_,fun txs rest read => by cases read⟩
      cases failed
      rfl
    | some found =>
      obtain ⟨bytes,rest⟩ := found
      obtain ⟨k,part,inside,rfl⟩ := takePart_some (e := TypesError.codecTruncated) taken
      rw [part,pure_bind]
      dsimp only
      rw [decodeSignedTx_eq]
      cases Codec.decodeSignedTx bytes with
      | error e =>
        refine ⟨fun e' failed => ?_,fun txs rest read => by cases read⟩
        cases failed
        rfl
      | ok tx =>
        rw [returned_ok,pure_bind]
        dsimp only
        obtain ⟨failing,reading⟩ := ih inside
        cases others : Codec.decodeTxs n (p.drop k) with
        | error e =>
          rw [failing e others]
          refine ⟨fun e' failed => ?_,fun txs rest read => by cases read⟩
          cases failed
          rfl
        | ok found =>
          obtain ⟨txs,rest⟩ := found
          obtain ⟨last,same,final,rfl⟩ := reading txs rest others
          rw [same]
          refine ⟨fun e' failed => (by cases failed),fun txs rest read => ?_⟩
          cases read
          exact ⟨last,rfl,final,rfl⟩

theorem decodeBlockBody_eq (buf : Bytes) :
    decodeBlockBody buf = returned (Codec.decodeBlockBody buf) := by
  unfold decodeBlockBody Codec.decodeBlockBody
  rw [decode_eq]
  cases Encoding.decode buf with
  | error e => rfl
  | ok p =>
    rw [returned_ok,pure_bind]
    refine rejectIf_bind fun long => ?_
    rw [headerFields_eq (by omega),pure_bind,field_eq rfl (by omega),pure_bind]
    obtain ⟨failing,reading⟩ := decodeTxs_eq (n := BigEndian.decode (slice p 68 72)) (i := 72)
      (p := p) (by omega)
    cases listed : Codec.decodeTxs (BigEndian.decode (slice p 68 72)) (p.drop 72) with
    | error e =>
      rw [failing e listed]
      rfl
    | ok found =>
      obtain ⟨txs,rest⟩ := found
      obtain ⟨k,same,inside,rfl⟩ := reading txs rest listed
      have length : p.length - (p.drop k).length = k := by
        rw [List.length_drop]
        omega
      have ended : p.drop k ≠ [] ↔ k ≠ p.length := by
        rw [ne_eq,List.drop_eq_nil_iff]
        omega
      rw [same,pure_bind]
      dsimp only
      rw [length,if_congr ended rfl rfl]
      exact rejectIf_bind fun _ => rfl

theorem decodeFrame_eq (buf : Bytes) : decodeFrame buf = returned (Gossip.decodeFrame buf) := by
  unfold decodeFrame Gossip.decodeFrame
  rw [decode_eq]
  cases Encoding.decode buf with
  | error e => rfl
  | ok p =>
    rw [returned_ok,pure_bind]
    cases p with
    | nil => rfl
    | cons first inner =>
      rw [rejectIf,if_neg (by simp),pure_bind,index_eq (by simp),pure_bind]
      cases known : Gossip.GossipKind.fromU8 first with
      | none =>
        simp only [List.getD_cons_zero,known]
        rfl
      | some kind =>
        simp only [List.getD_cons_zero,known]
        rw [tail_eq (by simp),pure_bind]
        rfl

theorem decodeVoteBlock_eq (long : 62 ≤ p.length) :
    decodeVoteBlock p = returned ((Gossip.decodeVoteBlock p).elim (.error .codecTruncated) .ok) := by
  unfold decodeVoteBlock Gossip.decodeVoteBlock
  rw [index_eq (by omega),pure_bind]
  generalize p.getD 61 0 = tag
  by_cases zero : tag = 0
  · subst zero
    rfl
  by_cases one : tag = 1
  · subst one
    rw [if_neg zero,if_pos rfl]
    by_cases short : p.length < 62 + 32 + 96
    · simp only [rejectIf,if_pos short]
      rfl
    · simp only [rejectIf,if_neg short]
      rw [pure_bind,field_eq rfl (by omega),pure_bind]
      rfl
  · rw [if_neg zero,if_neg one]
    split
    · exact absurd rfl zero
    · exact absurd rfl one
    · rfl

theorem decodeVote_eq (buf : Bytes) : decodeVote buf = returned (Gossip.decodeVote buf) := by
  unfold decodeVote Gossip.decodeVote
  rw [decode_eq]
  cases Encoding.decode buf with
  | error e => rfl
  | ok p =>
    rw [returned_ok,pure_bind]
    refine rejectIf_bind fun long => ?_
    rw [field_eq rfl (by omega),pure_bind,field_eq rfl (by omega),pure_bind,field_eq rfl (by omega),
      pure_bind,index_eq (by omega),pure_bind]
    dsimp only
    cases Gossip.voteKindFromU8 (p.getD 60 0) with
    | none => rfl
    | some kind =>
      dsimp only
      rw [decodeVoteBlock_eq (by omega)]
      cases value : Gossip.decodeVoteBlock p with
      | none => rfl
      | some found =>
        obtain ⟨block,sigOff⟩ := found
        show rejectIf (p.length ≠ sigOff + 96) TypesError.codecTruncated >>= _ = _
        refine rejectIf_bind fun size => ?_
        rw [tail_eq (by omega),pure_bind,sized,if_pos (by rw [List.length_drop]; omega),pure_bind]
        rfl

theorem slice_of_drop (p : Bytes) (k i j : Nat) : slice (p.drop k) i j = slice p (k + i) (k + j) := by
  rw [slice,slice,List.drop_drop,Nat.add_sub_add_left]

theorem decodeProposal_eq (buf : Bytes) :
    decodeProposal buf = returned (Gossip.decodeProposal buf) := by
  unfold decodeProposal Gossip.decodeProposal
  rw [decode_eq]
  cases Encoding.decode buf with
  | error e => rfl
  | ok p =>
    rw [returned_ok,pure_bind]
    refine rejectIf_bind fun long => ?_
    rw [field_eq rfl (by omega),pure_bind,field_eq rfl (by omega),pure_bind,field_eq rfl (by omega),
      pure_bind]
    refine rejectIf_bind fun whole => ?_
    rw [range_eq (by omega) (by omega),pure_bind,headerFromPreimage_eq]
    cases Codec.headerFromPreimage (slice p 16 (16 + BigEndian.decode (slice p 12 16))) with
    | error e => rfl
    | ok header =>
      rw [returned_ok,pure_bind]
      dsimp only
      rw [field_eq rfl (by omega),pure_bind,field_eq rfl (by omega),pure_bind,
        field_eq rfl (by omega),pure_bind,field_eq rfl (by omega),pure_bind,
        field_eq rfl (by omega),pure_bind]
      simp only [slice_of_drop]
      rfl

theorem siblings_eq (within : i + 32 * n ≤ p.length) :
    siblings p n i = pure (Gossip.siblingsAt p i n) := by
  induction n generalizing i with
  | zero => rfl
  | succ n ih =>
    have shifted (k : Nat) : i + 32 * (k + 1) = i + 32 + 32 * k := by omega
    rw [siblings,field_eq rfl (by omega),pure_bind,ih (by omega),pure_bind,Gossip.siblingsAt,
      Gossip.siblingsAt,List.range_succ_eq_map,List.map_cons,List.map_map]
    simp only [Function.comp_def,shifted,Nat.mul_zero,Nat.add_zero,Nat.succ_eq_add_one]

theorem decodeDaChunk_eq (buf : Bytes) : decodeDaChunk buf = returned (Gossip.decodeDaChunk buf) := by
  unfold decodeDaChunk Gossip.decodeDaChunk
  rw [decode_eq]
  cases Encoding.decode buf with
  | error e => rfl
  | ok p =>
    rw [returned_ok,pure_bind]
    refine rejectIf_bind fun head => ?_
    rw [field_eq rfl (by omega),pure_bind,field_eq rfl (by omega),pure_bind]
    refine rejectIf_bind fun middle => ?_
    rw [range_eq (by omega) (by omega),pure_bind]
    dsimp only
    rw [field_eq rfl (by omega),pure_bind,field_eq rfl (by omega),pure_bind]
    refine rejectIf_bind fun size => ?_
    rw [siblings_eq (by omega),pure_bind]
    rfl

theorem takeParts_eq {ε : Type} (e : ε) (within : i ≤ p.length) :
    (Wal.takeChunks n (p.drop i) = none → takeParts e p n i = throw e) ∧
    (∀ parts rest, Wal.takeChunks n (p.drop i) = some (parts,rest) →
      ∃ k, takeParts e p n i = pure (parts,k) ∧ k ≤ p.length ∧ rest = p.drop k) := by
  induction n generalizing i with
  | zero =>
    refine ⟨fun failed => (by cases failed),fun parts rest read => ?_⟩
    cases read
    exact ⟨i,rfl,within,rfl⟩
  | succ n ih =>
    unfold Wal.takeChunks takeParts
    cases taken : takeChunk (p.drop i) with
    | none =>
      rw [takePart_none taken,throw_bind]
      exact ⟨fun _ => rfl,fun parts rest read => by cases read⟩
    | some found =>
      obtain ⟨bytes,rest⟩ := found
      obtain ⟨k,part,inside,rfl⟩ := takePart_some (e := e) taken
      obtain ⟨failing,reading⟩ := ih inside
      rw [part,pure_bind]
      dsimp only
      cases others : Wal.takeChunks n (p.drop k) with
      | none =>
        rw [failing others]
        exact ⟨fun _ => rfl,fun parts rest read => by cases read⟩
      | some found =>
        obtain ⟨parts,rest⟩ := found
        obtain ⟨last,same,final,rfl⟩ := reading parts rest others
        rw [same]
        refine ⟨fun failed => (by cases failed),fun parts rest read => ?_⟩
        cases read
        exact ⟨last,rfl,final,rfl⟩

/-- The steps of both readers of records, on the remaining bytes. -/
def readRecord {ε : Type} (corrupt : ε) (store : TypesError → ε) (p : Bytes) : Except ε BodyOffer :=
  match takeChunk p with
  | none => .error corrupt
  | some (pre,p) => match Codec.headerFromPreimage pre with
    | .error e => .error (store e)
    | .ok header => match takeChunk p with
      | none => .error corrupt
      | some (body,p) => match Codec.decodeBlockBody body with
        | .error e => .error (store e)
        | .ok block =>
          if p.length < 32 then .error corrupt
          else match takeU32 (p.drop 32) with
            | none => .error corrupt
            | some (n,rest) => match Wal.takeChunks n rest with
              | none => .error corrupt
              | some (receipts,rest) =>
                if rest ≠ [] then .error corrupt
                else .ok ⟨header,block,receipts,fixed 32 (p.take 32)⟩

theorem readRecord_offer (inner : Bytes) :
    Gossip.decodeBodyOffer inner = readRecord .gossip (fun _ => .gossip) inner := rfl

theorem readRecord_wal {buf : Bytes} (opened : Encoding.decode buf = .ok p) :
    Wal.decodeWal buf = readRecord .corrupt .store p := by
  unfold Wal.decodeWal
  rw [opened]
  rfl

theorem takeChunk_short (short : p.length < 4) : takeChunk p = none := by
  rw [takeChunk,takeU32,if_pos short]

theorem decodeRecord_eq {ε : Type} (corrupt : ε) (store : TypesError → ε) (p : Bytes) :
    decodeRecord corrupt store p = returned (readRecord corrupt store p) := by
  unfold decodeRecord
  by_cases few : p.length < 4
  · rw [rejectIf,if_pos few,throw_bind]
    simp only [readRecord,takeChunk_short few]
    rfl
  rw [rejectIf,if_neg few,pure_bind]
  unfold readRecord
  have start : takeChunk p = takeChunk (p.drop 0) := rfl
  cases first : takeChunk p with
  | none =>
    rw [takePart_none (start ▸ first)]
    rfl
  | some found =>
    obtain ⟨pre,rest⟩ := found
    obtain ⟨i,part,_,rfl⟩ := takePart_some (e := corrupt) (i := 0) (start ▸ first)
    rw [part,pure_bind]
    dsimp only
    rw [headerFromPreimage_eq,mapError_returned]
    cases Codec.headerFromPreimage pre with
    | error e => rfl
    | ok header =>
      show takePart corrupt p i >>= _ = _
      dsimp only
      cases second : takeChunk (p.drop i) with
      | none =>
        rw [takePart_none second]
        rfl
      | some found =>
        obtain ⟨body,rest⟩ := found
        obtain ⟨j,part,inside,rfl⟩ := takePart_some (e := corrupt) second
        rw [part,pure_bind]
        dsimp only
        rw [decodeBlockBody_eq,mapError_returned]
        cases Codec.decodeBlockBody body with
        | error e => rfl
        | ok block =>
          show take corrupt p j 32 >>= _ = _
          dsimp only
          by_cases short : (p.drop j).length < 32
          · rw [if_pos short,take_short (by rw [List.length_drop] at short; omega)]
            rfl
          rw [List.length_drop] at short
          rw [if_neg (by rw [List.length_drop]; exact short),take_eq (by omega),pure_bind]
          dsimp only
          rw [sized,if_pos (by rw [length_slice (by omega)]; omega),pure_bind,slice_drop_take,
            List.drop_drop]
          cases count : takeU32 (p.drop (j + 32)) with
          | none =>
            rw [takeNumber_none count]
            rfl
          | some found =>
            obtain ⟨n,rest⟩ := found
            obtain ⟨number,within,rfl⟩ := takeNumber_some (e := corrupt) count
            rw [number,pure_bind]
            dsimp only
            obtain ⟨failing,reading⟩ := takeParts_eq corrupt (n := n) within
            cases listed : Wal.takeChunks n (p.drop (j + 32 + 4)) with
            | none =>
              rw [failing listed]
              rfl
            | some found =>
              obtain ⟨receipts,rest⟩ := found
              obtain ⟨k,same,final,rfl⟩ := reading receipts rest listed
              have ended : p.drop k ≠ [] ↔ k ≠ p.length := by
                rw [ne_eq,List.drop_eq_nil_iff]
                omega
              rw [same,pure_bind]
              dsimp only
              rw [if_congr ended rfl rfl]
              exact rejectIf_bind fun _ => rfl

theorem decodeBodyOffer_eq (inner : Bytes) :
    decodeBodyOffer inner = returned (Gossip.decodeBodyOffer inner) := by
  rw [decodeBodyOffer,decodeRecord_eq,readRecord_offer]

theorem decodeWal_eq (buf : Bytes) : decodeWal buf = returned (Wal.decodeWal buf) := by
  rw [decodeWal,decode_eq,mapError_returned]
  cases opened : Encoding.decode buf with
  | error e =>
    unfold Wal.decodeWal
    rw [opened]
    rfl
  | ok p =>
    rw [readRecord_wal opened,← decodeRecord_eq]
    rfl

end Checked

/-- The formats of gossip messages and log records are exact, and no decoder takes an index that is
out of range. -/
theorem gossip_formats_exact :
    ((Exact (fun f : Gossip.GossipFrame => Gossip.encodeFrame f.kind f.inner) Gossip.decodeFrame
      fun f => f.inner.length + 1 < 2^32) ∧
    (Exact Gossip.encodeVote Gossip.decodeVote fun _ => True) ∧
    (Exact Gossip.encodeProposal Gossip.decodeProposal fun _ => True) ∧
    (Exact Gossip.encodeDaChunk Gossip.decodeDaChunk
      fun c => c.proof.leafIndex < 2^32 ∧ (Gossip.daChunkPayload c).length < 2^32) ∧
    (Exact Gossip.encodeBodyOffer Gossip.decodeBodyOffer BodyOffer.Fits) ∧
    (Exact Wal.encodeWal Wal.decodeWal fun record => (Wal.walPayload record).length < 2^32)) ∧
    (∀ bytes, Checked.decodeFrame bytes = Checked.returned (Gossip.decodeFrame bytes) ∧
      Checked.decodeVote bytes = Checked.returned (Gossip.decodeVote bytes) ∧
      Checked.decodeProposal bytes = Checked.returned (Gossip.decodeProposal bytes) ∧
      Checked.decodeDaChunk bytes = Checked.returned (Gossip.decodeDaChunk bytes) ∧
      Checked.decodeBodyOffer bytes = Checked.returned (Gossip.decodeBodyOffer bytes) ∧
      Checked.decodeWal bytes = Checked.returned (Wal.decodeWal bytes)) :=
  ⟨⟨Gossip.exact_frame,Gossip.exact_vote,Gossip.exact_proposal,Gossip.exact_daChunk,
    Gossip.exact_bodyOffer,Wal.exact_wal⟩,
    fun bytes => ⟨Checked.decodeFrame_eq bytes,Checked.decodeVote_eq bytes,
      Checked.decodeProposal_eq bytes,Checked.decodeDaChunk_eq bytes,
      Checked.decodeBodyOffer_eq bytes,Checked.decodeWal_eq bytes⟩⟩

end L1
