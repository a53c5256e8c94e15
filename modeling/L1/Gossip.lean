import L1.Mempool
import L1.Wal

/-! What nodes send each other: frames, votes, proposals and block offers as bytes. -/
namespace L1.Gossip

open Codec

inductive GossipKind where
  | tx | proposal | vote | block | evidence | header | daChunk
  deriving DecidableEq, Repr

namespace GossipKind

def byte : GossipKind → UInt8
  | tx => 1 | proposal => 2 | vote => 3 | block => 4 | evidence => 5 | header => 6 | daChunk => 7

def fromU8 : UInt8 → Option GossipKind
  | 1 => some tx
  | 2 => some proposal
  | 3 => some vote
  | 4 => some block
  | 5 => some evidence
  | 6 => some header
  | 7 => some daChunk
  | _ => none

theorem fromU8_byte (kind : GossipKind) : fromU8 kind.byte = some kind := by
  cases kind <;> rfl

end GossipKind

structure GossipFrame where
  kind : GossipKind
  inner : Bytes
  deriving DecidableEq

def encodeFrame (kind : GossipKind) (inner : Bytes) : Bytes := Encoding.encode (kind.byte :: inner)

def decodeFrame (buf : Bytes) : Except TypesError GossipFrame :=
  match Encoding.decode buf with
  | .error e => .error e
  | .ok [] => .error .codecTruncated
  | .ok (first :: inner) => match GossipKind.fromU8 first with
    | none => .error .codecTruncated
    | some kind => .ok ⟨kind,inner⟩

def encodeVote (v : Vote) : Bytes := Encoding.encode (votePayload v)

def voteKindFromU8 : UInt8 → Option VoteKind
  | 0 => some .prevote
  | 1 => some .precommit
  | _ => none

def decodeVoteBlock (p : Bytes) : Option (VoteBlock × Nat) :=
  match p.getD 61 0 with
  | 0 => some (.nil,62)
  | 1 => if p.length < 62 + 32 + 96 then none else some (.block (fixed 32 (slice p 62 94)),94)
  | _ => none

def decodeVote (buf : Bytes) : Except TypesError Vote :=
  match Encoding.decode buf with
  | .error e => .error e
  | .ok p =>
    if p.length < 48 + 8 + 4 + 1 + 1 + 96 then .error .codecTruncated
    else match voteKindFromU8 (p.getD 60 0) with
      | none => .error .codecTruncated
      | some kind => match decodeVoteBlock p with
        | none => .error .codecTruncated
        | some (block,sigOff) =>
          if p.length ≠ sigOff + 96 then .error .codecTruncated
          else .ok {
            height := fromBeBytes 64 (slice p 48 56)
            round := fromBeBytes 32 (slice p 56 60)
            kind
            block
            signer := fixed 48 (slice p 0 48)
            signature := fixed 96 (p.drop sigOff) }

def proposalPayload (p : Proposal) : Bytes :=
  toBeBytes 8 p.height ++ (toBeBytes 4 p.round ++ (chunk p.header.hashPreimage ++
    (p.appHash.toList ++ (p.proposer.toList ++ (p.vrfSource.toList ++ (p.vrfProof.toList ++
      p.signature.toList))))))

def encodeProposal (p : Proposal) : Bytes := Encoding.encode (proposalPayload p)

def decodeProposal (buf : Bytes) : Except TypesError Proposal :=
  match Encoding.decode buf with
  | .error e => .error e
  | .ok p =>
    if p.length < 8 + 4 + 4 then .error .codecTruncated
    else
      let preLen := BigEndian.decode (slice p 12 16)
      if p.length ≠ 16 + preLen + 32 + 48 + 48 + 80 + 96 then .error .codecTruncated
      else match headerFromPreimage (slice p 16 (16 + preLen)) with
        | .error e => .error e
        | .ok header =>
          let rest := p.drop (16 + preLen)
          .ok {
            height := fromBeBytes 64 (slice p 0 8)
            round := fromBeBytes 32 (slice p 8 12)
            header
            appHash := fixed 32 (slice rest 0 32)
            proposer := fixed 48 (slice rest 32 80)
            vrfSource := fixed 48 (slice rest 80 128)
            vrfProof := fixed 80 (slice rest 128 208)
            signature := fixed 96 (slice rest 208 304) }

/-- An offer has the layout of a log record, without the envelope. -/
def encodeBodyOffer (offer : BodyOffer) : Bytes := Wal.walPayload offer

def decodeBodyOffer (inner : Bytes) : Except WireError BodyOffer :=
  match takeChunk inner with
  | none => .error .gossip
  | some (pre,rest) => match headerFromPreimage pre with
    | .error _ => .error .gossip
    | .ok header => match takeChunk rest with
      | none => .error .gossip
      | some (body,rest) => match decodeBlockBody body with
        | .error _ => .error .gossip
        | .ok block =>
          if rest.length < 32 then .error .gossip
          else match takeU32 (rest.drop 32) with
            | none => .error .gossip
            | some (n,after) => match Wal.takeChunks n after with
              | none => .error .gossip
              | some (receipts,after) =>
                if after ≠ [] then .error .gossip
                else .ok ⟨header,block,receipts,fixed 32 (rest.take 32)⟩

inductive Message where
  | tx (signed : SignedTx)
  | vote (v : Vote)
  | proposal (p : Proposal)
  | block (offer : BodyOffer)

/-- Bytes that are not a frame, frames of other kinds and payloads that cannot be read say nothing. -/
def read (data : Bytes) : Option Message :=
  match decodeFrame data with
  | .error _ => none
  | .ok ⟨.tx,inner⟩ => (decodeSignedTx inner).toOption.map .tx
  | .ok ⟨.vote,inner⟩ => (decodeVote inner).toOption.map .vote
  | .ok ⟨.proposal,inner⟩ => (decodeProposal inner).toOption.map .proposal
  | .ok ⟨.block,inner⟩ => (decodeBodyOffer inner).toOption.map .block
  | .ok _ => none

/-! What is sent can be read. -/

theorem decodeFrame_of_payload {buf inner : Bytes} {kind : GossipKind}
    (decoded : Encoding.decode buf = .ok (kind.byte :: inner)) :
    decodeFrame buf = .ok ⟨kind,inner⟩ := by
  simp only [decodeFrame,decoded,GossipKind.fromU8_byte]

theorem decodeFrame_encodeFrame (kind : GossipKind) (inner : Bytes) (fits : inner.length + 1 < 2^32) :
    decodeFrame (encodeFrame kind inner) = .ok ⟨kind,inner⟩ :=
  decodeFrame_of_payload (Encoding.decode_encode (kind.byte :: inner) (by simpa using fits))

theorem voteKindFromU8_byte (kind : VoteKind) : voteKindFromU8 kind.byte = some kind := by
  cases kind <;> rfl

def voteHead (v : Vote) : Bytes :=
  v.signer.toList ++ (toBeBytes 8 v.height ++ (toBeBytes 4 v.round ++ [v.kind.byte]))

theorem votePayload_eq (v : Vote) :
    votePayload v = voteHead v ++ (v.block.encode ++ v.signature.toList) := by
  simp [votePayload,voteHead]

@[simp] theorem length_voteHead (v : Vote) : (voteHead v).length = 61 := by
  simp [voteHead]

theorem decodeVote_of_payload {buf p : Bytes} {kind : VoteKind} {block : VoteBlock} {sigOff : Nat}
    (decoded : Encoding.decode buf = .ok p) (length : p.length = sigOff + 96)
    (long : ¬ p.length < 48 + 8 + 4 + 1 + 1 + 96) (here : voteKindFromU8 (p.getD 60 0) = some kind)
    (value : decodeVoteBlock p = some (block,sigOff)) :
    decodeVote buf = .ok ⟨fromBeBytes 64 (slice p 48 56),fromBeBytes 32 (slice p 56 60),kind,block,
      fixed 48 (slice p 0 48),fixed 96 (p.drop sigOff)⟩ := by
  simp only [decodeVote,decoded,here,value]
  rw [if_neg long,if_neg (not_not.mpr length)]

theorem decodeVoteBlock_votePayload (v : Vote) :
    decodeVoteBlock (votePayload v) = some (v.block,61 + v.block.encode.length) := by
  rw [votePayload_eq]
  cases v.block <;> simp [decodeVoteBlock,VoteBlock.encode]

theorem decodeVote_encodeVote (v : Vote) : decodeVote (encodeVote v) = .ok v := by
  have size : (votePayload v).length = 61 + v.block.encode.length + 96 := by
    rw [votePayload_eq]
    simp
    omega
  have narrow : 1 ≤ v.block.encode.length ∧ v.block.encode.length ≤ 33 := by
    cases v.block <;> simp [VoteBlock.encode]
  have kind : (votePayload v).getD 60 0 = v.kind.byte := by
    simp [votePayload,List.getElem?_append_right]
  have signature : (votePayload v).drop (61 + v.block.encode.length) = v.signature.toList := by
    rw [votePayload_eq]
    simp
  rw [encodeVote,decodeVote_of_payload (Encoding.decode_encode (votePayload v) (by omega)) size
    (by omega) (by rw [kind]; exact voteKindFromU8_byte v.kind) (decodeVoteBlock_votePayload v),
    signature]
  simp [votePayload,fromBeBytes_toBeBytes]

theorem decodeProposal_of_payload {buf p : Bytes} {header : Header} {n : Nat}
    (decoded : Encoding.decode buf = .ok p) (count : BigEndian.decode (slice p 12 16) = n)
    (length : p.length = 16 + n + 32 + 48 + 48 + 80 + 96)
    (head : headerFromPreimage (slice p 16 (16 + n)) = .ok header) : decodeProposal buf = .ok {
      height := fromBeBytes 64 (slice p 0 8)
      round := fromBeBytes 32 (slice p 8 12)
      header
      appHash := fixed 32 (slice (p.drop (16 + n)) 0 32)
      proposer := fixed 48 (slice (p.drop (16 + n)) 32 80)
      vrfSource := fixed 48 (slice (p.drop (16 + n)) 80 128)
      vrfProof := fixed 80 (slice (p.drop (16 + n)) 128 208)
      signature := fixed 96 (slice (p.drop (16 + n)) 208 304) } := by
  have long : ¬ p.length < 8 + 4 + 4 := by omega
  simp only [decodeProposal,decoded,if_neg long,count,head]
  rw [if_neg (not_not.mpr length)]

theorem decodeProposal_encodeProposal (p : Proposal) : decodeProposal (encodeProposal p) = .ok p := by
  have pre : p.header.hashPreimage.length = 228 := p.header.length_hashPreimage
  have size : (proposalPayload p).length = 16 + 228 + 32 + 48 + 48 + 80 + 96 := by
    simp [proposalPayload,pre]
  have count : BigEndian.decode (slice (proposalPayload p) 12 16) = 228 := by
    simp [proposalPayload,chunk,pre,BigEndian.decode_encode_of_lt]
  have head : slice (proposalPayload p) 16 (16 + 228) = p.header.hashPreimage := by
    simp [proposalPayload,chunk,pre]
  rw [encodeProposal,decodeProposal_of_payload (Encoding.decode_encode (proposalPayload p) (by omega))
    count size (head.symm ▸ headerFromPreimage_hashPreimage p.header)]
  simp [proposalPayload,chunk,pre,fromBeBytes_toBeBytes]

theorem read_proposal (p : Proposal) :
    read (encodeFrame .proposal (encodeProposal p)) = some (.proposal p) := by
  have short : (encodeProposal p).length + 1 < 2^32 := by
    have pre : p.header.hashPreimage.length = 228 := p.header.length_hashPreimage
    rw [encodeProposal,Encoding.length_encode]
    simp [proposalPayload,pre]
  have said {data inner : Bytes} (frame : decodeFrame data = .ok ⟨.proposal,inner⟩)
      (payload : decodeProposal inner = .ok p) : read data = some (.proposal p) := by
    simp only [read,frame,payload]
    rfl
  exact said (decodeFrame_encodeFrame .proposal _ short) (decodeProposal_encodeProposal p)

theorem read_vote (v : Vote) : read (encodeFrame .vote (encodeVote v)) = some (.vote v) := by
  have short : (encodeVote v).length + 1 < 2^32 := by
    have narrow : v.block.encode.length ≤ 33 := by
      cases v.block <;> simp [VoteBlock.encode]
    rw [encodeVote,Encoding.length_encode,votePayload_eq]
    simp
    omega
  have said {data inner : Bytes} (frame : decodeFrame data = .ok ⟨.vote,inner⟩)
      (payload : decodeVote inner = .ok v) : read data = some (.vote v) := by
    simp only [read,frame,payload]
    rfl
  exact said (decodeFrame_encodeFrame .vote _ short) (decodeVote_encodeVote v)

end L1.Gossip
