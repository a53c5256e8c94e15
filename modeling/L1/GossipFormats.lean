import L1.DataAvailability
import L1.Gossip
import L1.StoredFormats

/-! The formats of gossip messages and log records are exact. -/
namespace L1

open Codec

/-- The chunks that were read, each behind its length, and the rest make up the bytes. -/
theorem Wal.chunks_written {n : Nat} {bytes rest : Bytes} {l : List Bytes}
    (read : Wal.takeChunks n bytes = some (l,rest)) :
    l.length = n ∧ (∀ part ∈ l, part.length < 2^32) ∧ bytes = l.flatMap chunk ++ rest := by
  induction n generalizing bytes l with
  | zero =>
    cases read
    exact ⟨rfl,by simp,rfl⟩
  | succ n ih =>
    unfold Wal.takeChunks at read
    split at read
    · cases read
    rename_i found after taken
    split at read
    · cases read
    rename_i more rest' others
    cases read
    obtain ⟨short,rfl⟩ := takeChunk_eq_some taken
    obtain ⟨count,shorts,rfl⟩ := ih others
    refine ⟨by rw [List.length_cons,count],List.forall_mem_cons.mpr ⟨short,shorts⟩,?_⟩
    rw [List.flatMap_cons,List.append_assoc]

structure BodyOffer.Fits (offer : BodyOffer) : Prop where
  body : (encodeBlockBody offer.block).length < 2^32
  count : offer.receipts.length < 2^32
  receipts : ∀ r ∈ offer.receipts, r.length < 2^32

/-! A record is read by the same steps in the log and in an offer. -/
section Records

variable {bytes pre behind body rest tail : Bytes} {header : Header} {block : Block}
  {receipts : List Bytes} {n : Nat}

/-- What these steps found is what the bytes were written for. -/
theorem record_written (first : takeChunk bytes = some (pre,behind))
    (head : headerFromPreimage pre = .ok header) (second : takeChunk behind = some (body,rest))
    (inner : decodeBlockBody body = .ok block) (long : ¬ rest.length < 32)
    (count : takeU32 (rest.drop 32) = some (n,tail))
    (listed : Wal.takeChunks n tail = some (receipts,[])) :
    BodyOffer.Fits ⟨header,block,receipts,fixed 32 (rest.take 32)⟩ ∧
    bytes = Wal.walPayload ⟨header,block,receipts,fixed 32 (rest.take 32)⟩ := by
  obtain ⟨-,rfl⟩ := takeChunk_eq_some first
  obtain ⟨-,rfl⟩ := exact_header.sound _ _ head
  obtain ⟨short,rfl⟩ := takeChunk_eq_some second
  obtain ⟨-,rfl⟩ := exact_body.sound _ _ inner
  obtain ⟨small,split⟩ := takeU32_eq_some count
  obtain ⟨rfl,shorts,rfl⟩ := Wal.chunks_written listed
  refine ⟨⟨short,small,shorts⟩,?_⟩
  have app : (fixed 32 (rest.take 32)).toList = rest.take 32 := toList_fixed _ (by simp; omega)
  rw [List.append_nil] at split
  rw [Wal.walPayload,app,← split,List.take_append_drop]

theorem record_read (offer : BodyOffer) (fits : offer.Fits) :
    ∃ behind rest tail, takeChunk (Wal.walPayload offer) = some (offer.header.hashPreimage,behind) ∧
      takeChunk behind = some (encodeBlockBody offer.block,rest) ∧
      decodeBlockBody (encodeBlockBody offer.block) = .ok offer.block ∧ ¬ rest.length < 32 ∧
      takeU32 (rest.drop 32) = some (offer.receipts.length,tail) ∧
      Wal.takeChunks offer.receipts.length tail = some (offer.receipts,[]) ∧
      fixed 32 (rest.take 32) = offer.appHash := by
  have body : (bodyPayload offer.block).length < 2^32 := by
    have short := fits.body
    rw [encodeBlockBody,Encoding.length_encode] at short
    omega
  have listed := Wal.takeChunks_flatMap offer.receipts [] fits.receipts
  rw [List.append_nil] at listed
  refine ⟨_,_,_,takeChunk_chunk _ _ (by rw [Header.length_hashPreimage]; decide),
    takeChunk_chunk _ _ fits.body,decodeBlockBody_encodeBlockBody offer.block body,by simp,?_,listed,?_⟩
  · simpa using takeU32_encode _ _ fits.count
  · rw [List.take_left' offer.appHash.length_toList,fixed_toList]

end Records

namespace Wal

theorem exact_wal : Exact encodeWal decodeWal fun record => (walPayload record).length < 2^32 where
  complete := decodeWal_encodeWal
  sound bytes record read := by
    unfold decodeWal at read
    split at read
    · cases read
    rename_i p opened
    obtain ⟨fits,rfl⟩ := (Encoding.decode_ok_iff _ _).mp opened
    split at read
    · cases read
    rename_i first
    split at read
    · cases read
    rename_i head
    split at read
    · cases read
    rename_i second
    split at read
    · cases read
    rename_i inner
    split at read
    · cases read
    rename_i long
    split at read
    · cases read
    rename_i count
    split at read
    · cases read
    rename_i listed
    split at read
    · cases read
    rename_i empty
    obtain rfl := not_not.mp empty
    cases read
    have written := (record_written first head second inner long count listed).2
    exact ⟨written ▸ fits,congrArg Encoding.encode written⟩

end Wal

namespace Gossip

variable {p : Bytes} {n : Nat} {b : UInt8} {kind : VoteKind} {block : VoteBlock}

theorem decodeBodyOffer_of_payload {bytes pre behind body rest tail : Bytes} {header : Header}
    {block : Block} {receipts : List Bytes} (first : takeChunk bytes = some (pre,behind))
    (head : headerFromPreimage pre = .ok header) (second : takeChunk behind = some (body,rest))
    (inner : decodeBlockBody body = .ok block) (long : ¬ rest.length < 32)
    (count : takeU32 (rest.drop 32) = some (n,tail))
    (listed : Wal.takeChunks n tail = some (receipts,[])) :
    decodeBodyOffer bytes = .ok ⟨header,block,receipts,fixed 32 (rest.take 32)⟩ := by
  simp only [decodeBodyOffer,first,head,second,inner,if_neg long,count,listed,ne_eq,
    not_true_eq_false,if_false]

theorem exact_bodyOffer : Exact encodeBodyOffer decodeBodyOffer BodyOffer.Fits where
  complete offer fits := by
    obtain ⟨behind,rest,tail,first,second,inner,long,count,listed,app⟩ := record_read offer fits
    have read := decodeBodyOffer_of_payload first (headerFromPreimage_hashPreimage _) second inner long
      count listed
    rw [app] at read
    exact read
  sound bytes offer read := by
    unfold decodeBodyOffer at read
    split at read
    · cases read
    rename_i first
    split at read
    · cases read
    rename_i head
    split at read
    · cases read
    rename_i second
    split at read
    · cases read
    rename_i inner
    split at read
    · cases read
    rename_i long
    split at read
    · cases read
    rename_i count
    split at read
    · cases read
    rename_i listed
    split at read
    · cases read
    rename_i empty
    obtain rfl := not_not.mp empty
    cases read
    exact record_written first head second inner long count listed

theorem GossipKind.byte_of_fromU8 {kind : GossipKind} (read : fromU8 b = some kind) :
    b = kind.byte := by
  unfold fromU8 at read
  split at read <;> cases read <;> rfl

theorem exact_frame : Exact (fun f : GossipFrame => encodeFrame f.kind f.inner) decodeFrame
    fun f => f.inner.length + 1 < 2^32 where
  complete f fits := decodeFrame_encodeFrame f.kind f.inner fits
  sound bytes f read := by
    unfold decodeFrame at read
    split at read
    · cases read
    · cases read
    rename_i first inner opened
    obtain ⟨fits,rfl⟩ := (Encoding.decode_ok_iff _ _).mp opened
    split at read
    · cases read
    rename_i kind found
    cases read
    rw [GossipKind.byte_of_fromU8 found] at fits ⊢
    exact ⟨fits,rfl⟩

theorem byte_of_voteKindFromU8 (read : voteKindFromU8 b = some kind) : b = kind.byte := by
  unfold voteKindFromU8 at read
  split at read <;> cases read <;> rfl

theorem voteBlock_written {sigOff : Nat}
    (read : decodeVoteBlock p = some (block,sigOff)) (size : p.length = sigOff + 96) :
    block.encode ++ p.drop sigOff = p.drop 61 := by
  rw [drop_getD (p := p) (i := 61) (by omega)]
  unfold decodeVoteBlock at read
  split at read
  · rename_i first
    cases read
    rw [first]
    rfl
  · rename_i first
    split at read
    · cases read
    cases read
    have hash : (fixed 32 (slice p 62 94)).toList = slice p 62 94 := fixed_slice (by omega) rfl
    rw [first,VoteBlock.encode,hash,List.cons_append,← slice_drop p 94 rfl,
      slice_append_slice p (by omega) (by omega),slice_drop p 62 rfl]
  · cases read

theorem voteHead_written {signature : Vector UInt8 96}
    (long : 62 ≤ p.length) (read : voteKindFromU8 (p.getD 60 0) = some kind) :
    voteHead ⟨fromBeBytes 64 (slice p 48 56),fromBeBytes 32 (slice p 56 60),kind,block,
      fixed 48 (slice p 0 48),signature⟩ = slice p 0 61 := by
  have tag : [kind.byte] = slice p 60 61 := by
    rw [slice,drop_getD (by omega),← byte_of_voteKindFromU8 read]
    rfl
  simp (disch := omega) only [voteHead,tag,fixed_slice,toBeBytes_slice,slice_append_slice]

theorem exact_vote : Exact encodeVote decodeVote fun _ => True where
  complete v _ := decodeVote_encodeVote v
  sound bytes v read := by
    unfold decodeVote at read
    split at read
    · cases read
    rename_i p opened
    obtain ⟨fits,rfl⟩ := (Encoding.decode_ok_iff _ _).mp opened
    split at read
    · cases read
    rename_i long
    split at read
    · cases read
    rename_i kind tag
    split at read
    · cases read
    rename_i block sigOff value
    split at read
    · cases read
    rename_i size
    have size := not_not.mp size
    cases read
    refine ⟨trivial,congrArg Encoding.encode ?_⟩
    have signature : (fixed 96 (p.drop sigOff)).toList = p.drop sigOff := toList_fixed _ (by simp; omega)
    rw [votePayload_eq,voteHead_written (by omega) tag,signature,
      voteBlock_written value size]
    exact (List.take_append_drop 61 p).symm

theorem exact_proposal : Exact encodeProposal decodeProposal fun _ => True where
  complete p _ := decodeProposal_encodeProposal p
  sound bytes proposal read := by
    unfold decodeProposal at read
    split at read
    · cases read
    rename_i p opened
    obtain ⟨fits,rfl⟩ := (Encoding.decode_ok_iff _ _).mp opened
    split at read
    · cases read
    rename_i long
    dsimp only at read
    split at read
    · cases read
    rename_i size
    have size := not_not.mp size
    split at read
    · cases read
    rename_i header head
    cases read
    generalize count : BigEndian.decode (slice p 12 16) = n at size head ⊢
    refine ⟨trivial,congrArg Encoding.encode ?_⟩
    have length : BigEndian.encode 4 (slice p 16 (16 + n)).length = slice p 12 16 := by
      rw [length_slice (by omega),Nat.add_sub_cancel_left,← count]
      exact encode_decode_slice (by omega) rfl
    -- the five parts behind the header
    generalize rest : p.drop (16 + n) = tail
    have whole : tail.length = 304 := by
      rw [← rest,List.length_drop]
      omega
    have behind : slice tail 0 304 = slice p (16 + n) p.length := by
      rw [slice_zero tail whole,← rest,slice_drop p (16 + n) rfl]
    simp (disch := omega) only [proposalPayload,← (exact_header.sound _ _ head).2,chunk,length,
      toBeBytes_slice,fixed_slice,slice_append_slice,behind,slice_zero]

/-! Chunks of data availability. -/

def daChunkPayload (c : Da.ProvenChunk) : Bytes :=
  toBeBytes 2 c.shard.index ++ (chunk c.shard.payload ++ (BigEndian.encode 4 c.proof.leafIndex ++
    (BigEndian.encode 4 c.proof.siblings.length ++ c.proof.siblings.flatMap Vector.toList)))

def encodeDaChunk (c : Da.ProvenChunk) : Bytes := Encoding.encode (daChunkPayload c)

def siblingsAt (p : Bytes) (start n : Nat) : List Hash :=
  (List.range n).map fun k => fixed 32 (slice p (start + 32 * k) (start + 32 * k + 32))

def decodeDaChunk (buf : Bytes) : Except TypesError Da.ProvenChunk :=
  match Encoding.decode buf with
  | .error e => .error e
  | .ok p =>
    if p.length < 2 + 4 then .error .codecTruncated
    else
      let plen := BigEndian.decode (slice p 2 6)
      if p.length < 6 + plen + 8 then .error .codecTruncated
      else
        let i := 6 + plen
        let n := BigEndian.decode (slice p (i + 4) (i + 8))
        if i + 8 + n * 32 ≠ p.length then .error .codecTruncated
        else .ok {
          shard := ⟨fromBeBytes 16 (slice p 0 2),slice p 6 i⟩
          proof := ⟨BigEndian.decode (slice p i (i + 4)),siblingsAt p (i + 8) n⟩ }

theorem siblings_written {start : Nat} (within : start + 32 * n ≤ p.length) :
    (siblingsAt p start n).flatMap Vector.toList = slice p start (start + 32 * n) := by
  induction n with
  | zero => simp [siblingsAt,slice]
  | succ n ih =>
    have last : (fixed 32 (slice p (start + 32 * n) (start + 32 * n + 32))).toList =
        slice p (start + 32 * n) (start + 32 * n + 32) := fixed_slice (by omega) (by omega)
    unfold siblingsAt at ih ⊢
    rw [List.range_succ,List.map_append,List.flatMap_append,ih (by omega),List.map_singleton,
      List.flatMap_singleton,last,slice_append_slice p (by omega) (by omega)]
    rfl

theorem siblingsAt_read (front : Bytes) (siblings : List Hash) :
    siblingsAt (front ++ siblings.flatMap Vector.toList) front.length siblings.length = siblings := by
  apply List.ext_getElem
  · simp [siblingsAt]
  · intro k inside bound
    have split : siblings.flatMap Vector.toList = (siblings.take k).flatMap Vector.toList ++
        (siblings[k].toList ++ (siblings.drop (k + 1)).flatMap Vector.toList) := by
      rw [← List.flatMap_cons,← List.drop_eq_getElem_cons bound,← List.flatMap_append,
        List.take_append_drop]
    have before : (front ++ (siblings.take k).flatMap Vector.toList).length = front.length + 32 * k := by
      simp [List.length_flatMap,Nat.min_eq_left bound.le]
      omega
    simp only [siblingsAt,List.getElem_map,List.getElem_range]
    rw [split,← List.append_assoc,slice_middle _ before (by simp),fixed_toList]

structure ChunkLayout (p : Bytes) (c : Da.ProvenChunk) : Prop where
  index : slice p 0 2 = toBeBytes 2 c.shard.index
  length : slice p 2 6 = BigEndian.encode 4 c.shard.payload.length
  payload : slice p 6 (6 + c.shard.payload.length) = c.shard.payload
  leaf : slice p (6 + c.shard.payload.length) (6 + c.shard.payload.length + 4) =
    BigEndian.encode 4 c.proof.leafIndex
  count : slice p (6 + c.shard.payload.length + 4) (6 + c.shard.payload.length + 8) =
    BigEndian.encode 4 c.proof.siblings.length
  siblings : siblingsAt p (6 + c.shard.payload.length + 8) c.proof.siblings.length = c.proof.siblings
  size : p.length = 6 + c.shard.payload.length + 8 + c.proof.siblings.length * 32

theorem daChunkPayload_layout (c : Da.ProvenChunk) : ChunkLayout (daChunkPayload c) c := by
  generalize index : toBeBytes 2 c.shard.index = first
  generalize length : BigEndian.encode 4 c.shard.payload.length = second
  generalize leaf : BigEndian.encode 4 c.proof.leafIndex = third
  generalize count : BigEndian.encode 4 c.proof.siblings.length = fourth
  have two : first.length = 2 := index ▸ length_toBeBytes ..
  have four : second.length = 4 ∧ third.length = 4 ∧ fourth.length = 4 :=
    ⟨length ▸ BigEndian.length_encode ..,leaf ▸ BigEndian.length_encode ..,
      count ▸ BigEndian.length_encode ..⟩
  have whole : daChunkPayload c = first ++ (second ++ (c.shard.payload ++ (third ++ (fourth ++
      c.proof.siblings.flatMap Vector.toList)))) := by
    simp only [daChunkPayload,chunk,index,length,leaf,count,List.append_assoc]
  have before : (first ++ (second ++ (c.shard.payload ++ (third ++ fourth)))).length =
      6 + c.shard.payload.length + 8 := by
    simp only [List.length_append]
    omega
  have listed := siblingsAt_read (first ++ (second ++ (c.shard.payload ++ (third ++ fourth))))
    c.proof.siblings
  rw [before] at listed
  rw [whole]
  constructor
  · simp [index,two]
  · rw [length]
    exact slice_middle _ two (by omega)
  · rw [← List.append_assoc]
    exact slice_middle _ (by rw [List.length_append]; omega) rfl
  · rw [leaf,← List.append_assoc,← List.append_assoc]
    exact slice_middle _ (by simp only [List.length_append]; omega) (by omega)
  · rw [count,← List.append_assoc,← List.append_assoc,← List.append_assoc]
    exact slice_middle _ (by simp only [List.length_append]; omega) (by omega)
  · simpa only [List.append_assoc] using listed
  · simp [List.length_flatMap]
    omega

theorem decodeDaChunk_of_payload {buf : Bytes} {c : Da.ProvenChunk}
    (opened : Encoding.decode buf = .ok p) (at_ : ChunkLayout p c) (leaf : c.proof.leafIndex < 2^32)
    (short : p.length < 2^32) : decodeDaChunk buf = .ok c := by
  have size := at_.size
  have plen : BigEndian.decode (slice p 2 6) = c.shard.payload.length := by
    rw [at_.length,BigEndian.decode_encode_of_lt 4 _ (by omega)]
  have count : BigEndian.decode (slice p (6 + c.shard.payload.length + 4)
      (6 + c.shard.payload.length + 8)) = c.proof.siblings.length := by
    rw [at_.count,BigEndian.decode_encode_of_lt 4 _ (by omega)]
  have leafRead : BigEndian.decode (slice p (6 + c.shard.payload.length)
      (6 + c.shard.payload.length + 4)) = c.proof.leafIndex := by
    rw [at_.leaf,BigEndian.decode_encode_of_lt 4 _ (by omega)]
  simp only [decodeDaChunk,opened]
  rw [if_neg (by omega),plen,if_neg (by omega),count,if_neg (by omega),leafRead,at_.index,at_.payload,
    at_.siblings,fromBeBytes_toBeBytes 2 c.shard.index (by decide)]

theorem exact_daChunk : Exact encodeDaChunk decodeDaChunk
    fun c => c.proof.leafIndex < 2^32 ∧ (daChunkPayload c).length < 2^32 where
  complete c fits := decodeDaChunk_of_payload (Encoding.decode_encode _ fits.2)
    (daChunkPayload_layout c) fits.1 fits.2
  sound bytes c read := by
    unfold decodeDaChunk at read
    split at read
    · cases read
    rename_i p opened
    obtain ⟨fits,rfl⟩ := (Encoding.decode_ok_iff _ _).mp opened
    split at read
    · cases read
    rename_i head
    dsimp only at read
    generalize first : BigEndian.decode (slice p 2 6) = plen at read
    split at read
    · cases read
    rename_i middle
    generalize second : BigEndian.decode (slice p (6 + plen + 4) (6 + plen + 8)) = n at read
    split at read
    · cases read
    rename_i size
    cases read
    have length : BigEndian.encode 4 (slice p 6 (6 + plen)).length = slice p 2 6 := by
      rw [length_slice (by omega),Nat.add_sub_cancel_left,← first]
      exact encode_decode_slice (by omega) rfl
    have count : BigEndian.encode 4 (siblingsAt p (6 + plen + 8) n).length =
        slice p (6 + plen + 4) (6 + plen + 8) := by
      rw [siblingsAt,List.length_map,List.length_range,← second]
      exact encode_decode_slice (by omega) (by omega)
    have written : daChunkPayload ⟨⟨fromBeBytes 16 (slice p 0 2),slice p 6 (6 + plen)⟩,
        ⟨BigEndian.decode (slice p (6 + plen) (6 + plen + 4)),siblingsAt p (6 + plen + 8) n⟩⟩ = p := by
      simp (disch := omega) only [daChunkPayload,chunk,toBeBytes_slice,length,encode_decode_slice,count,
        siblings_written,slice_append_slice,slice_zero]
    exact ⟨⟨decode_slice_lt (by omega) (by omega),written.symm ▸ fits⟩,
      congrArg Encoding.encode written.symm⟩

end Gossip
end L1
