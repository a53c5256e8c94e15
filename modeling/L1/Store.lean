import L1.Batch
import L1.Codec
import L1.Tries

/-! The chain in a key-value store: headers, bodies, indexes, and the replay of them. -/
namespace L1

/-- A store whose single operations do not fail. -/
abbrev Store := Map Bytes Bytes

abbrev BatchOp := Batch.Op Bytes Bytes

/-- The operations one by one; without a failure nothing is rolled back. -/
def applyBatch (store : Store) (ops : List BatchOp) : Store := Batch.run store ops

namespace Codec

def headerHeightKey (height : Height) : Bytes := ascii "h/" ++ toBeBytes 8 height
def headerHashKey (hash : Hash) : Bytes := ascii "H/" ++ hash.toList
def blockKey (height : Height) : Bytes := ascii "b/" ++ toBeBytes 8 height
def txIndexKey (hash : Hash) : Bytes := ascii "t/" ++ hash.toList
def receiptKey (hash : Hash) : Bytes := ascii "r/" ++ hash.toList
def appHashKey (height : Height) : Bytes := ascii "a/" ++ toBeBytes 8 height
def keyTip : Bytes := ascii "m/tip"
def keyGenesis : Bytes := ascii "m/genesis"
def keyWal : Bytes := ascii "w/exec"

def txHash [Blake3] (tx : Tx) : Hash := hashToArray tx.encode

def encodeTxLocator (height : Height) (index : U32) : Bytes := toBeBytes 8 height ++ toBeBytes 4 index

end Codec

open Codec

/-- The keys by what they stand for. -/
inductive StoreKey where
  | header (height : Height) | headerHash (hash : Hash) | body (height : Height) | tx (hash : Hash)
  | receipt (hash : Hash) | app (height : Height) | tip | genesis | wal
  deriving DecidableEq

namespace StoreKey

def bytes : StoreKey → Bytes
  | header height => headerHeightKey height
  | headerHash hash => headerHashKey hash
  | body height => blockKey height
  | tx hash => txIndexKey hash
  | receipt hash => receiptKey hash
  | app height => appHashKey height
  | tip => keyTip
  | genesis => keyGenesis
  | wal => keyWal

/-- No two entries of the store share a key. -/
theorem bytes_injective {a b : StoreKey} (same : a.bytes = b.bytes) : a = b := by
  cases a <;> cases b <;>
    simp [bytes,headerHeightKey,headerHashKey,blockKey,txIndexKey,receiptKey,appHashKey,keyTip,
      keyGenesis,keyWal,ascii] at same ⊢
  all_goals first
    | exact toBeBytes_injective 8 (by decide) same
    | exact toList_injective same

theorem bytes_inj {a b : StoreKey} : a.bytes = b.bytes ↔ a = b := ⟨bytes_injective,fun h => h ▸ rfl⟩

end StoreKey

namespace Blocks

section Writes

variable [Blake3]

/-- A header by its height, and the height by its hash. -/
def putHeaderOps (header : Header) : List BatchOp := [
  .put (headerHeightKey header.fields.height) header.hashPreimage,
  .put (headerHashKey header.hash) (toBeBytes 8 header.fields.height)]

def putHeader (store : Store) (header : Header) : Store := applyBatch store (putHeaderOps header)

def txIndexOps (height : Height) (block : Block) : List BatchOp :=
  block.txs.zipIdx.map fun (signed,i) =>
    .put (txIndexKey (txHash signed.tx)) (encodeTxLocator height (BitVec.ofNat 32 i))

def receiptPutOps (block : Block) (encoded : List Bytes) : List BatchOp :=
  (block.txs.zip encoded).map fun (signed,receipt) => .put (receiptKey (txHash signed.tx)) receipt

/-- Header, body, indexes, application hash and, last, the tip. -/
def putBlockOps (header : Header) (block : Block) (receipts : List Bytes) (appHash : Hash) :
    List BatchOp :=
  putHeaderOps header ++ .put (blockKey header.fields.height) (encodeBlockBody block) ::
    (txIndexOps header.fields.height block ++ (receiptPutOps block receipts ++ [
      .put (appHashKey header.fields.height) appHash.toList,
      .put keyTip (toBeBytes 8 header.fields.height)]))

/-- Store a block. `none` is the assertion that every transaction has a receipt. -/
def putBlock (store : Store) (header : Header) (block : Block) (receipts : List Bytes)
    (appHash : Hash) : Option Store :=
  if block.txs.length ≠ receipts.length then none
  else some (applyBatch store (putBlockOps header block receipts appHash))

def putGenesisHash (store : Store) (g : Genesis) : Store :=
  applyBatch store [.put keyGenesis g.hash.toList]

end Writes

def getHeader (store : Store) (height : Height) : Except TypesError (Option Header) :=
  match store[headerHeightKey height]? with
  | none => .ok none
  | some bytes => match headerFromPreimage bytes with
    | .error e => .error e
    | .ok header => .ok (some header)

def getBlock (store : Store) (height : Height) : Except TypesError (Option Block) :=
  match store[blockKey height]? with
  | none => .ok none
  | some bytes => match decodeBlockBody bytes with
    | .error e => .error e
    | .ok block => .ok (some block)

def getAppHash (store : Store) (height : Height) : Except TypesError (Option Hash) :=
  match store[appHashKey height]? with
  | none => .ok none
  | some bytes =>
    if bytes.length = 32 then .ok (some (fixed 32 bytes)) else .error (.kv "corrupt app_hash")

def tip (store : Store) : Except TypesError (Option Height) :=
  match store[keyTip]? with
  | none => .ok none
  | some bytes =>
    if bytes.length = 8 then .ok (some (fromBeBytes 64 bytes)) else .error (.kv "corrupt tip")

def getGenesisHash (store : Store) : Except TypesError (Option Hash) :=
  match store[keyGenesis]? with
  | none => .ok none
  | some bytes =>
    if bytes.length = 32 then .ok (some (fixed 32 bytes)) else .error (.kv "corrupt genesis hash")

end Blocks

/-! Replay runs whatever block transition it is given. -/
namespace Replay

open Blocks

inductive ReplayError where
  | store (reason : TypesError)
  | genesisMismatch
  | missingBlock
  | appHashMismatch (height : Nat) (expected got : Hash)
  deriving DecidableEq, Repr

variable {W R : Type} (apply : W → Block → Option (W × List R × Hash))

def replayOne (store : Store) (h : Nat) (world : W) : Option (Except ReplayError (W × Hash)) :=
  let height := BitVec.ofNat 64 h
  match getBlock store height with
  | .error e => some (.error (.store e))
  | .ok none => some (.error .missingBlock)
  | .ok (some block) => match getAppHash store height with
    | .error e => some (.error (.store e))
    | .ok none => some (.error .missingBlock)
    | .ok (some stored) => match apply world block with
      | none => none
      | some (next,_,app) =>
        if app ≠ stored then some (.error (.appHashMismatch h stored app)) else some (.ok (next,app))

/-- The next heights in order. The counter leaves its range after the last height. -/
def replayBlocks (store : Store) : Nat → Nat → W → Hash → Option (Except ReplayError (W × Hash))
  | 0, _, world, app => some (.ok (world,app))
  | n + 1, h, world, _ => match replayOne apply store h world with
    | none => none
    | some (.error e) => some (.error e)
    | some (.ok (world,app)) =>
      if h + 1 < 2^64 then replayBlocks store n (h + 1) world app else none

variable [Blake3]

/-- Apply the stored blocks from genesis to the tip. -/
def replayFromGenesis (store : Store) (g : Genesis) (world : W) :
    Option (Except ReplayError (W × Hash)) :=
  match getGenesisHash store with
  | .error e => some (.error (.store e))
  | .ok none => some (.error .genesisMismatch)
  | .ok (some stored) =>
    if stored ≠ g.hash then some (.error .genesisMismatch)
    else match tip store with
      | .error e => some (.error (.store e))
      | .ok none => some (.ok (world,g.hash))
      | .ok (some last) => replayBlocks apply store (last.toNat + 1) 0 world g.hash

end Replay
end L1
