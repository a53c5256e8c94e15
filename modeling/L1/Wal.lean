import L1.Store

/-! The write-ahead log around the commit of a block, and recovery from it. -/
namespace L1

/-- A block with its header, receipts and application hash. -/
structure BodyOffer where
  header : Header
  block : Block
  receipts : List Bytes
  appHash : Hash
  deriving DecidableEq

namespace Wal

open Codec Blocks Replay

inductive WalError where
  | store (reason : TypesError) | replay (reason : ReplayError) | corrupt
  deriving DecidableEq, Repr

def walPayload (record : BodyOffer) : Bytes :=
  chunk record.header.hashPreimage ++ (chunk (encodeBlockBody record.block) ++
    (record.appHash.toList ++ (BigEndian.encode 4 record.receipts.length ++
      record.receipts.flatMap chunk)))

def encodeWal (record : BodyOffer) : Bytes := Encoding.encode (walPayload record)

def takeChunks : Nat → Bytes → Option (List Bytes × Bytes)
  | 0, rest => some ([],rest)
  | n + 1, rest => match takeChunk rest with
    | none => none
    | some (bytes,rest) => match takeChunks n rest with
      | none => none
      | some (more,rest) => some (bytes :: more,rest)

def decodeWal (buf : Bytes) : Except WalError BodyOffer :=
  match Encoding.decode buf with
  | .error e => .error (.store e)
  | .ok p => match takeChunk p with
    | none => .error .corrupt
    | some (pre,p) => match headerFromPreimage pre with
      | .error e => .error (.store e)
      | .ok header => match takeChunk p with
        | none => .error .corrupt
        | some (body,p) => match decodeBlockBody body with
          | .error e => .error (.store e)
          | .ok block =>
            if p.length < 32 then .error .corrupt
            else match takeU32 (p.drop 32) with
              | none => .error .corrupt
              | some (n,rest) => match takeChunks n rest with
                | none => .error .corrupt
                | some (receipts,rest) =>
                  if rest ≠ [] then .error .corrupt
                  else .ok ⟨header,block,receipts,fixed 32 (p.take 32)⟩

def writeWalOps (record : BodyOffer) : List BatchOp := [.put keyWal (encodeWal record)]

def clearWalOps : List BatchOp := [.delete keyWal]

def writeWal (store : Store) (record : BodyOffer) : Store := applyBatch store (writeWalOps record)

def clearWal (store : Store) : Store := applyBatch store clearWalOps

section Recovery

variable [Blake3] {W R : Type} (apply : W → Block → Option (W × List R × Hash))

def replayed (store : Store) (g : Genesis) (world : W) : Option (Except WalError W × Store) :=
  match replayFromGenesis apply store g world with
  | none => none
  | some (.error e) => some (.error (.replay e),store)
  | some (.ok (world,_)) => some (.ok world,store)

/-- Finish the commit that the log records; if the body is already stored, drop the log. -/
def recover (store : Store) (g : Genesis) (world : W) : Option (Except WalError W × Store) :=
  match store[keyWal]? with
  | none => replayed apply store g world
  | some bytes => match decodeWal bytes with
    | .error e => some (.error e,store)
    | .ok record => match getBlock store record.header.fields.height with
      | .error e => some (.error (.store e),store)
      | .ok (some _) => replayed apply (clearWal store) g world
      | .ok none => match replayFromGenesis apply store g world with
        | none => none
        | some (.error e) => some (.error (.replay e),store)
        | some (.ok (world,_)) => match apply world record.block with
          | none => none
          | some (post,_,app) =>
            if app ≠ record.appHash then some (.error .corrupt,store)
            else match putBlock store record.header record.block record.receipts record.appHash with
              | none => none
              | some store => some (.ok post,clearWal store)

end Recovery

theorem takeChunks_flatMap (l : List Bytes) (rest : Bytes) (fits : ∀ bytes ∈ l, bytes.length < 2^32) :
    takeChunks l.length (l.flatMap chunk ++ rest) = some (l,rest) := by
  induction l with
  | nil => rfl
  | cons bytes l ih =>
    have later := ih fun other listed => fits other (List.mem_cons_of_mem _ listed)
    rw [List.flatMap_cons,List.append_assoc,List.length_cons,takeChunks]
    simp only [takeChunk_chunk _ _ (fits bytes (List.mem_cons_self ..)),later]

theorem decodeWal_of_payload {buf pre body rest p p' tail : Bytes} {header : Header} {block : Block}
    {receipts : List Bytes} {n : Nat} (decoded : Encoding.decode buf = .ok p)
    (first : takeChunk p = some (pre,p')) (head : headerFromPreimage pre = .ok header)
    (second : takeChunk p' = some (body,rest)) (inner : decodeBlockBody body = .ok block)
    (long : ¬ rest.length < 32) (count : takeU32 (rest.drop 32) = some (n,tail))
    (listed : takeChunks n tail = some (receipts,[])) :
    decodeWal buf = .ok ⟨header,block,receipts,fixed 32 (rest.take 32)⟩ := by
  simp only [decodeWal,decoded,first,head,second,inner,if_neg long,count,listed,ne_eq,
    not_true_eq_false,if_false]

theorem decodeWal_encodeWal (record : BodyOffer) (fits : (walPayload record).length < 2^32) :
    decodeWal (encodeWal record) = .ok record := by
  have parts := fits
  simp only [walPayload,List.length_append,length_chunk,BigEndian.length_encode,
    record.appHash.length_toList] at parts
  have body : (bodyPayload record.block).length < 2^32 := by
    rw [encodeBlockBody,Encoding.length_encode] at parts
    omega
  have each : ∀ bytes ∈ record.receipts, bytes.length < 2^32 := by
    intro bytes listed
    have one := length_le_flatMap chunk listed
    rw [length_chunk] at one
    omega
  have many : record.receipts.length < 2^32 := by
    have all := count_le_flatMap chunk (fun bytes => by simp) record.receipts
    omega
  have listed := takeChunks_flatMap record.receipts [] each
  rw [List.append_nil] at listed
  have read := decodeWal_of_payload (Encoding.decode_encode _ fits)
    (takeChunk_chunk _ _ (by rw [Header.length_hashPreimage]; decide))
    (headerFromPreimage_hashPreimage record.header)
    (takeChunk_chunk _ _ (by omega)) (decodeBlockBody_encodeBlockBody record.block body)
    (by simp) (by simpa using takeU32_encode _ _ many) listed
  simpa [encodeWal] using read

theorem decodeWal_wide {record : BodyOffer} (wide : ¬ (walPayload record).length < 2^32) :
    ∃ e, decodeWal (encodeWal record) = .error e := by
  obtain ⟨e,failed⟩ := decode_encode_wide wide
  have unread {buf : Bytes} (failed : Encoding.decode buf = .error e) :
      decodeWal buf = .error (.store e) := by
    simp only [decodeWal,failed]
  exact ⟨_,unread failed⟩

end Wal
end L1
