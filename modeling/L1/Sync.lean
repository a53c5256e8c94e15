import L1.Conservation
import L1.Mempool
import L1.StoredChain

/-! Catching up with a chain that others offer: headers and bodies, the path on which a block
is stored, replay, and the bootstrap from a checkpoint. -/
namespace L1.Sync

open Codec Blocks Replay Wal

structure Checkpoint where
  height : Height
  headerHash : Hash
  deriving DecidableEq

/-- The heights of a block locator: dense below the tip, then in doubling steps. -/
def locatorHeights : Nat → Nat → Nat → Nat → List Nat
  | 0, _, _, _ => []
  | n + 1, count, index, step =>
    index :: if index = 0 then [] else
      let step := if 10 ≤ count + 1 then max (min (step * 2) (2^64 - 1)) 1 else step
      locatorHeights n (count + 1) (index - min step index) step

section Functions

variable [Blake3]

def headerHashes (store : Store) : List Nat → Except TypesError (List Hash)
  | [] => .ok []
  | h :: rest => match getHeader store (BitVec.ofNat 64 h) with
    | .error e => .error e
    | .ok found => match headerHashes store rest with
      | .error e => .error e
      | .ok hashes => .ok ((found.map Header.hash).toList ++ hashes)

/-- Sparse list of known header hashes, the tip first. The 33rd entry is the last. -/
def locator (store : Store) : Except TypesError (List Hash) :=
  match tip store with
  | .error e => .error e
  | .ok none => .ok []
  | .ok (some top) => headerHashes store (locatorHeights 33 0 top.toNat 1)

/-- Headers of unknown heights are stored as they come. -/
def acceptHeaders (store : Store) : List Header → Except TopicError Unit × Store
  | [] => (.ok (),store)
  | h :: rest => match getHeader store h.fields.height with
    | .error _ => (.error .codec,store)
    | .ok (some _) => acceptHeaders store rest
    | .ok none => acceptHeaders (putHeader store h) rest

/-- Each body is checked against the header it comes with, and stored. -/
def acceptBodies (store : Store) : List BodyOffer → Option (Except TopicError Unit × Store)
  | [] => some (.ok (),store)
  | offer :: rest => match ingestBlock offer.header offer.block offer.receipts with
    | .error e => some (.error e,store)
    | .ok () => match putBlock store offer.header offer.block offer.receipts offer.appHash with
      | none => none
      | some store => acceptBodies store rest

def headersThenBodies (store : Store) (remoteHeaders : List Header) (bodies : List BodyOffer) :
    Option (Except TopicError (Option Height) × Store) :=
  match locator store with
  | .error _ => some (.error .codec,store)
  | .ok _ => match acceptHeaders store remoteHeaders with
    | (.error e,store) => some (.error e,store)
    | (.ok (),store) => match acceptBodies store bodies with
      | none => none
      | some (.error e,store) => some (.error e,store)
      | some (.ok (),store) => match tip store with
        | .error _ => some (.error .codec,store)
        | .ok top => some (.ok top,store)

/-- Check a block, log it, store it and drop the log; the block is then passed on. -/
def persistThenBroadcast (store : Store) (offer : BodyOffer) : Option (Except WireError Unit × Store) :=
  match ingestBlock offer.header offer.block offer.receipts with
  | .error _ => some (.error .gossip,store)
  | .ok () =>
    match putBlock (writeWal store offer) offer.header offer.block offer.receipts offer.appHash with
    | none => none
    | some store => some (.ok (),clearWal store)

def persistAll (store : Store) : List BodyOffer → Option (Except WireError Unit × Store)
  | [] => some (.ok (),store)
  | offer :: rest => match persistThenBroadcast store offer with
    | none => none
    | some (.error e,store) => some (.error e,store)
    | some (.ok (),store) => persistAll store rest

/-- The offers are tried on an empty store first; the headers go nowhere else. -/
def wireSync (store : Store) (remoteHeaders : List Header) (bodies : List BodyOffer) :
    Option (Except WireError (Option Height) × Store) :=
  match headersThenBodies ∅ remoteHeaders bodies with
  | none => none
  | some (.error _,_) => some (.error .gossip,store)
  | some (.ok _,_) => match persistAll store bodies with
    | none => none
    | some (.error e,store) => some (.error e,store)
    | some (.ok (),store) => match tip store with
      | .error _ => some (.error .store,store)
      | .ok top => some (.ok top,store)

variable [Wasm] [Ed25519]

def catchup (g : Genesis) (store : Store) (remoteHeaders : List Header) (bodies : List BodyOffer) :
    Option (Except WireError Hash × Store) :=
  match wireSync store remoteHeaders bodies with
  | none => none
  | some (.error e,store) => some (.error e,store)
  | some (.ok _,store) => match replayFromGenesis Seq.applyBlock store g (.fromGenesis g) with
    | none => none
    | some (.error _) => some (.error .store,store)
    | some (.ok (_,app)) => some (.ok app,store)

/-- Catch up, if the first remote header at the height of the checkpoint has its hash. -/
def bootstrap (g : Genesis) (store : Store) (checkpoint : Checkpoint) (remoteHeaders : List Header)
    (bodies : List BodyOffer) : Option (Except WireError Hash × Store) :=
  match remoteHeaders.find? (fun h => h.fields.height = checkpoint.height) with
  | none => some (.error .gossip,store)
  | some h =>
    if h.hash ≠ checkpoint.headerHash then some (.error .gossip,store)
    else catchup g store remoteHeaders bodies

end Functions

/-! What a block that passed the gate looks like, and where it is found afterwards. -/

section Gate

variable [Blake3]

variable {block : Block} {key : StoreKey} {h : Height} {g : Genesis} {app : Hash}

theorem ingestBlock_ok {header : Header} {receipts : List Bytes}
    (passed : ingestBlock header block receipts = .ok ()) :
    header.fields = block.headerFields ∧ header.txRoot = txRootSigned block.txs ∧
      header.receiptsRoot = receiptsRoot receipts := by
  unfold ingestBlock at passed
  by_cases fields : header.fields = block.headerFields
  · by_cases txs : txRoot (block.txs.map SignedTx.tx) = header.txRoot
    · by_cases rs : receiptsRoot receipts = header.receiptsRoot
      · exact ⟨fields,txs.symm,rs.symm⟩
      · exfalso
        simp only [fields,txs,rs,ne_eq,not_true_eq_false,if_false,not_false_eq_true,if_true] at passed
        cases checked : verifyRoot (block.txs.map fun s => s.tx.encode) header.txRoot with
        | error e =>
          rw [checked] at passed
          cases passed
        | ok _ =>
          rw [checked] at passed
          cases passed
    · exfalso
      simp only [fields,txs,ne_eq,not_true_eq_false,if_false,not_false_eq_true,if_true] at passed
      cases passed
  · exfalso
    simp only [fields,ne_eq,not_false_eq_true,if_true] at passed
    cases passed

def persisted (store : Store) (offer : BodyOffer) : Store :=
  clearWal (applyBatch (writeWal store offer) (offerOps offer))

variable {store store' : Store} {bodies : List BodyOffer} {offer : BodyOffer}
  {remoteHeaders : List Header}

theorem persistThenBroadcast_ok (done : persistThenBroadcast store offer = some (.ok (),store')) :
    ingestBlock offer.header offer.block offer.receipts = .ok () ∧ store' = persisted store offer := by
  unfold persistThenBroadcast at done
  split at done
  · cases done
  rename_i passed
  split at done
  · cases done
  rename_i stored
  cases done
  unfold putBlock at stored
  split at stored
  · cases stored
  · cases stored
    exact ⟨passed,rfl⟩

theorem persistAll_ok (done : persistAll store bodies = some (.ok (),store')) :
    (∀ offer ∈ bodies, ingestBlock offer.header offer.block offer.receipts = .ok ()) ∧
      store' = bodies.foldl persisted store := by
  induction bodies generalizing store with
  | nil =>
    cases done
    exact ⟨by simp,rfl⟩
  | cons offer rest ih =>
    rw [persistAll] at done
    split at done
    · cases done
    · cases done
    rename_i one
    obtain ⟨passed,rfl⟩ := persistThenBroadcast_ok one
    obtain ⟨others,rfl⟩ := ih done
    exact ⟨List.forall_mem_cons.mpr ⟨passed,others⟩,rfl⟩

theorem get?_persisted_ne (store : Store) (offer : BodyOffer) {key : Bytes} (apart : key ≠ keyWal) :
    (persisted store offer)[key]? = (applyBatch store (offerOps offer))[key]? := by
  have kept : ∀ op ∈ clearWalOps, op.key ≠ key := by
    intro op listed
    cases List.mem_singleton.mp listed
    exact apart.symm
  rw [persisted,clearWal,applyBatch,Batch.get?_run_other _ _ kept,applyBatch,Batch.get?_run,
    applyBatch,Batch.get?_run]
  have before : (writeWal store offer)[key]? = store[key]? := by
    change (store.insert keyWal (encodeWal offer))[key]? = _
    rw [Map.get?_insert,if_neg apart]
  rw [before]

theorem get?_persisted (store : Store) (offer : BodyOffer) (other : key ≠ .wal) :
    (persisted store offer)[key.bytes]? = (applyBatch store (offerOps offer))[key.bytes]? :=
  get?_persisted_ne store offer fun same => other (StoreKey.bytes_injective same)

def lastAt (h : Height) : List BodyOffer → Option BodyOffer
  | [] => none
  | offer :: rest => (lastAt h rest).or (if offer.header.fields.height = h then some offer else none)

omit [Blake3] in
theorem lastAt_some
    (found : lastAt h bodies = some offer) : offer ∈ bodies ∧ offer.header.fields.height = h := by
  induction bodies with
  | nil => cases found
  | cons first rest ih =>
    rw [lastAt] at found
    rcases Option.or_eq_some_iff.mp found with later | ⟨-,here⟩
    · exact ⟨List.mem_cons_of_mem _ (ih later).1,(ih later).2⟩
    · split at here
      · rename_i height
        cases here
        exact ⟨List.mem_cons_self ..,height⟩
      · cases here

/-- Under the keys of a height stands what the last offer there wrote, or what was there before. -/
theorem get?_synced (store : Store) (bodies : List BodyOffer) (h : Height)
    (other : key ≠ .wal) (value : BodyOffer → Bytes)
    (rule : ∀ store offer, (applyBatch store (offerOps offer))[key.bytes]? =
      if h = offer.header.fields.height then some (value offer) else store[key.bytes]?) :
    (bodies.foldl persisted store)[key.bytes]? = ((lastAt h bodies).map value).or store[key.bytes]? := by
  induction bodies generalizing store with
  | nil => rfl
  | cons offer rest ih =>
    rw [List.foldl_cons,ih,get?_persisted store offer other,rule,lastAt]
    cases lastAt h rest with
    | some later => rfl
    | none =>
      by_cases same : h = offer.header.fields.height
      · simp [same]
      · simp [same,Ne.symm same]

theorem getHeader_synced (store : Store) (bodies : List BodyOffer) (h : Height) :
    getHeader (bodies.foldl persisted store) h = match lastAt h bodies with
      | some offer => .ok (some offer.header)
      | none => getHeader store h := by
  have stored : (bodies.foldl persisted store)[headerHeightKey h]? =
      ((lastAt h bodies).map fun offer => offer.header.hashPreimage).or store[headerHeightKey h]? :=
    get?_synced store bodies h (by simp : StoreKey.header h ≠ .wal) _ fun s o => get?_header s o h
  unfold getHeader
  rw [stored]
  cases lastAt h bodies with
  | none => rfl
  | some offer =>
    rw [Option.map_some,Option.some_or]
    dsimp only
    rw [headerFromPreimage_hashPreimage]

/-- The body of an offer is what it gave, whenever it can be read. -/
theorem getBlock_synced (last : lastAt h bodies = some offer)
    (read : getBlock (bodies.foldl persisted store) h = .ok (some block)) : block = offer.block := by
  have stored : (bodies.foldl persisted store)[blockKey h]? = some (encodeBlockBody offer.block) := by
    refine (get?_synced store bodies h (by simp : StoreKey.body h ≠ .wal) _
      fun s o => get?_body s o h).trans ?_
    rw [last]
    rfl
  exact ((getBlock_stored stored).mp read).2

theorem wireSync_ok
    {top : Option Height} (done : wireSync store remoteHeaders bodies = some (.ok top,store')) :
    (∀ offer ∈ bodies, ingestBlock offer.header offer.block offer.receipts = .ok ()) ∧
      store' = bodies.foldl persisted store := by
  unfold wireSync at done
  split at done
  · cases done
  · cases done
  split at done
  · cases done
  · cases done
  rename_i all
  split at done
  · cases done
  · cases done
    exact persistAll_ok all

variable [Wasm] [Ed25519]

theorem catchup_ok (done : catchup g store remoteHeaders bodies = some (.ok app,store')) :
    (∀ offer ∈ bodies, ingestBlock offer.header offer.block offer.receipts = .ok ()) ∧
      store' = bodies.foldl persisted store ∧
      ∃ world, replayFromGenesis Seq.applyBlock store' g (.fromGenesis g) = some (.ok (world,app)) := by
  unfold catchup at done
  split at done
  · cases done
  · cases done
  rename_i synced
  obtain ⟨passed,same⟩ := wireSync_ok synced
  split at done
  · cases done
  · cases done
  · rename_i world _ ran
    cases done
    exact ⟨passed,same,world,ran⟩

theorem bootstrap_ok {checkpoint : Checkpoint}
    (done : bootstrap g store checkpoint remoteHeaders bodies = some (.ok app,store')) :
    catchup g store remoteHeaders bodies = some (.ok app,store') := by
  unfold bootstrap at done
  split at done
  · cases done
  split at done
  · cases done
  · exact done

/-- A bootstrap that succeeds leaves the header of the checkpoint at its height, if and only if
the last offer at that height carries it, or where there is none, it was stored before. The
remote headers, with which the checkpoint is compared, do not matter. -/
theorem bootstrap_anchored_iff (g : Genesis) (store store' : Store) (checkpoint : Checkpoint)
    (remoteHeaders : List Header) (bodies : List BodyOffer) (app : Hash)
    (done : bootstrap g store checkpoint remoteHeaders bodies = some (.ok app,store')) :
    (∃ header, getHeader store' checkpoint.height = .ok (some header) ∧
      header.hash = checkpoint.headerHash) ↔
    match lastAt checkpoint.height bodies with
    | some offer => offer.header.hash = checkpoint.headerHash
    | none => ∃ header, getHeader store checkpoint.height = .ok (some header) ∧
        header.hash = checkpoint.headerHash := by
  obtain ⟨-,rfl,-⟩ := catchup_ok (bootstrap_ok done)
  rw [getHeader_synced]
  cases lastAt checkpoint.height bodies with
  | none => rfl
  | some offer => simp

end Gate

namespace Sample

open Holdings.Sample

attribute [local instance] Holdings.Sample.blake3 ed25519 wasm

def origin : World := .fromGenesis genesis

def block (proposer : ValidatorId) : Block := ⟨⟨0,0,proposer,0⟩,[]⟩

def applied (proposer : ValidatorId) : World × List Receipt × Hash :=
  (Seq.applyBlock origin (block proposer)).get rfl

def offer (proposer : ValidatorId) : BodyOffer where
  header := {
    fields := (block proposer).headerFields
    txRoot := txRootSigned []
    stateRoot := (applied proposer).1.commitStateRoot
    receiptsRoot := receiptsRoot []
    validatorsHash := zeroHash
    daRoot := zeroHash }
  block := block proposer
  receipts := []
  appHash := (applied proposer).2.2

def fresh : Store := putGenesisHash ∅ genesis

def trusted : BodyOffer := offer (LoneSigner.validator 1)
def other : BodyOffer := offer (LoneSigner.validator 2)

def checkpoint : Checkpoint := ⟨0,trusted.header.hash⟩

def synced : Except WireError Hash × Store :=
  (bootstrap genesis fresh checkpoint [trusted.header] [trusted]).get (by decide +kernel)

/-- Where the offer carries the header of the checkpoint, it is stored. -/
theorem trusted_offer_anchored :
    bootstrap genesis fresh checkpoint [trusted.header] [trusted] =
      some (.ok trusted.appHash,synced.2) ∧
    ∃ header, getHeader synced.2 checkpoint.height = .ok (some header) ∧
      header.hash = checkpoint.headerHash := by
  have accepted : synced.1 = .ok trusted.appHash := by decide +kernel
  have whole : bootstrap genesis fresh checkpoint [trusted.header] [trusted] = some synced :=
    (Option.some_get _).symm
  have done : bootstrap genesis fresh checkpoint [trusted.header] [trusted] =
      some (.ok trusted.appHash,synced.2) := by
    rw [whole,← accepted]
  have last : lastAt checkpoint.height [trusted] = some trusted := by decide +kernel
  refine ⟨done,(bootstrap_anchored_iff _ _ _ _ _ _ _ done).mpr ?_⟩
  rw [last]
  rfl

/-- The remote headers show the block of the checkpoint, and the offers another one. -/
theorem other_history_stored :
    (bootstrap genesis fresh checkpoint [trusted.header] [other]).map (fun r =>
      (r.1,(getHeader r.2 0).toOption)) = some (.ok other.appHash,some (some other.header)) ∧
    other.header.hash ≠ checkpoint.headerHash := by
  decide +kernel

end Sample
end L1.Sync
