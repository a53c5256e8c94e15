import L1.Folds
import L1.Footprint

/-! The Block-STM pipeline: every transaction is run ahead on the pre-block world, conflicts are
found from the keys it read and wrote, and the commit in block order keeps a result while the
versions it observed are the latest. `none` is a panic. -/
namespace L1.Stm

open VersionedSlots

structure SpecTx where
  index : Nat
  reads : OrdSet Bytes
  writes : OrdSet Bytes
  observed : Map Bytes U64
  specWorld : World
  receipt : Receipt

/-- Latest version, found by validating one version after the other. -/
def latestVersion (slots : VersionedSlots) (key : Bytes) : Option U64 := slots.scan key (2^64) 0

def seedValue (world : World) (key : Bytes) : Option Bytes :=
  if key.length = 32 then (world.accounts[fixed 32 key]?).map Account.encode
  else if key.length = 64 then world.storage[key]?
  else none

def seedSlot (slots : VersionedSlots) (key : Bytes) : Option Bytes → Option VersionedSlots
  | none => some slots
  | some value => match slots.validate key 0 with
    | none => none
    | some false => some slots
    | some true => (slots.write key value).map Prod.fst

def observeKey (slots : VersionedSlots) (observed : Map Bytes U64) (key : Bytes) :
    Option (Map Bytes U64) :=
  (latestVersion slots key).map (observed.insert key)

def seedKey (world : World) (state : VersionedSlots × Map Bytes U64) (key : Bytes) :
    Option (VersionedSlots × Map Bytes U64) :=
  if key = stakingSlot then
    match state.1.validate key 0 with
    | none => none
    | some true => some (state.1,state.2.insert key 0)
    | some false => some state
  else match seedSlot state.1 key (seedValue world key) with
    | none => none
    | some slots => (observeKey slots state.2 key).map fun observed => (slots,observed)

/-- Seed slots from the pre-block world, then read each key. -/
def seedAndRead (slots : VersionedSlots) (world : World) (keys : OrdSet Bytes) :
    Option (VersionedSlots × Map Bytes U64) :=
  keys.toList.foldlM (seedKey world) (slots,∅)

/-- A transaction that failed wrote nothing; any other may have written all that it read. -/
def writesFrom (receipt : Receipt) (reads : OrdSet Bytes) : OrdSet Bytes :=
  if receipt.success then reads else ∅

/-- Versions seen before are kept. -/
def observeNew (slots : VersionedSlots) (observed : Map Bytes U64) (key : Bytes) :
    Option (Map Bytes U64) :=
  if key ∈ observed then some observed else observeKey slots observed key

section Speculate

variable [Blake3] [Ed25519] [Wasm]

/-- Speculate one transaction on a copy of the pre-block world. -/
def speculateOne (index : Nat) (pre : World) (signed : SignedTx) (slots : VersionedSlots) :
    Option SpecTx := do
  let keys := inferredKeys signed
  let observed ← keys.toList.foldlM (observeKey slots) ∅
  let (specWorld,receipt) ← Seq.applyTx pre signed
  let reads := keys ∪ specWorld.storageReads
  let observed ← reads.toList.foldlM (observeNew slots) observed
  let writes := writesFrom receipt reads ∪ specWorld.storageWrites
  return { index, reads, writes, observed, specWorld, receipt }

/-- The threads share nothing that they write, and their results are taken in block order. -/
def speculate (pre : World) (slots : VersionedSlots) : Nat → List SignedTx → Option (List SpecTx)
  | _, [] => some []
  | index, signed :: rest => do
    let spec ← speculateOne index pre signed slots
    let specs ← speculate pre slots (index + 1) rest
    return spec :: specs

end Speculate

/-- Undirected adjacency, and the directed edges `(writer, reader or writer)`. -/
structure ConflictGraph where
  adj : Map Nat (OrdSet Nat) := ∅
  directed : OrdSet (Nat × Nat) := ∅

def unionRw (s : SpecTx) : OrdSet Bytes := s.reads ∪ s.writes

def hit (a b : SpecTx) : OrdSet Bytes := a.writes ∩ unionRw b

def addNeighbor (adj : Map Nat (OrdSet Nat)) (i j : Nat) : Option (Map Nat (OrdSet Nat)) :=
  match adj[i]? with
  | none => none
  | some nbrs => some (adj.insert i (nbrs.insert j))

def addConflict (g : ConflictGraph) (a b : SpecTx) : Option ConflictGraph :=
  if a.index = b.index ∨ (hit a b).isEmpty then some g
  else do
    let adj ← addNeighbor g.adj a.index b.index
    let adj ← addNeighbor adj b.index a.index
    return { adj, directed := g.directed.insert (a.index,b.index) }

def isolated (specs : List SpecTx) : ConflictGraph :=
  { adj := specs.foldl (fun adj s => adj.insertIfNew s.index ∅) ∅ }

def conflictGraph (specs : List SpecTx) : Option ConflictGraph :=
  specs.foldlM (fun g a => specs.foldlM (fun g b => addConflict g a b) g) (isolated specs)

structure Schedule where
  waves : List (List Nat)

/-- One wave. The candidates ascend, so it comes sorted. -/
def pickWave (graph : ConflictGraph) (blocked : OrdSet Nat) : List Nat → List Nat
  | [] => []
  | i :: cand =>
    if i ∈ blocked then pickWave graph blocked cand
    else i :: pickWave graph (blocked ∪ (graph.adj[i]?).getD ∅) cand

/-- Waves while there are candidates; the first one is in the next wave, so there are no more
waves than candidates. -/
def pickWaves (graph : ConflictGraph) : Nat → List Nat → Option (List (List Nat))
  | 0, remaining => if remaining = [] then some [] else none
  | fuel + 1, remaining =>
    if remaining = [] then some []
    else
      let wave := pickWave graph ∅ remaining
      (pickWaves graph fuel (remaining.filter (· ∉ wave))).map (wave :: ·)

/-- Greedy independent sets among the first indices, as many as the graph has vertices. -/
def schedule (graph : ConflictGraph) : Option Schedule :=
  (pickWaves graph graph.adj.size (List.range graph.adj.size)).map Schedule.mk

def outdated (slots : VersionedSlots) (observed : Map Bytes U64) : List Bytes → Option Bool
  | [] => some false
  | key :: rest => match observed[key]? with
    | none => outdated slots observed rest
    | some obs => match slots.validate key obs with
      | none => none
      | some false => some true
      | some true => match latestVersion slots key with
        | none => none
        | some _ => outdated slots observed rest

/-- Flag transactions whose observed versions are no longer latest. -/
def validate (specs : List SpecTx) (slots : VersionedSlots) (_sched : Schedule) :
    Option (OrdSet Nat) :=
  specs.foldlM (fun indices s => (outdated slots s.observed s.reads.toList).map fun flag =>
    if flag then indices.insert s.index else indices) ∅

/-- Mark a transaction stale if an earlier one wrote a slot it read or wrote. -/
def staleFromEarlierWrites (specs : List SpecTx) : OrdSet Nat :=
  specs.foldl (fun indices j => specs.foldl (fun indices i =>
    if j.index ≤ i.index ∨ (hit i j).isEmpty then indices else indices.insert j.index) indices) ∅

def copyEntry {K V : Type} [Ord K] [Std.TransOrd K] (src dst : Map K V) (key : K) : Map K V :=
  match src[key]? with
  | some value => dst.insert key value
  | none => dst

def mergeKey (spec dst : World) (key : Bytes) : World :=
  if key = stakingSlot then { dst with staking := spec.staking }
  else if key.length = 64 then { dst with storage := copyEntry spec.storage dst.storage key }
  else if key.length = 32 then
    let addr : Address := fixed 32 key
    { dst with
      accounts := copyEntry spec.accounts dst.accounts addr
      code := copyEntry spec.code dst.code addr }
  else dst

/-- The written entries of a speculative world are copied. -/
def mergeSpec (dst : World) (spec : SpecTx) : World :=
  spec.writes.toList.foldl (mergeKey spec.specWorld) dst

def bumpValue (world : World) (key : Bytes) : Option Bytes :=
  if key = stakingSlot then some (ascii "s")
  else if key.length = 64 then some ((world.storage[key]?).getD [])
  else if key.length = 32 then some (world.account (fixed 32 key)).encode
  else none

def bumpKey (world : World) (slots : VersionedSlots) (key : Bytes) : VersionedSlots :=
  match bumpValue world key with
  | none => slots
  | some value => match slots.write key value with
    | none => slots
    | some (slots,_) => slots

def bumpWrites (slots : VersionedSlots) (world : World) (writes : OrdSet Bytes) : VersionedSlots :=
  writes.toList.foldl (bumpKey world) slots

section Engine

variable [Blake3] [Ed25519] [Wasm]

/-- The next transaction: its speculative result is merged, or it is run on the committed world. -/
def commitNext (world : World) (slots : VersionedSlots) (need : Bool) (signed : SignedTx)
    (spec : SpecTx) : Option (World × VersionedSlots × Receipt) :=
  if need then do
    let (world,r) ← Seq.applyTx world signed
    let writes := (if r.success then inferredKeys signed else ∅) ∪ world.storageWrites
    return (world,bumpWrites slots world writes,r)
  else
    let world := mergeSpec world spec
    some (world,bumpWrites slots world spec.writes,spec.receipt)

def revalidate (slots : VersionedSlots) (stale : OrdSet Nat) (rest : List SpecTx) :
    Option (OrdSet Nat) :=
  if rest = [] then some stale
  else do
    let graph ← conflictGraph rest
    let sched ← schedule graph
    let more ← validate rest slots sched
    return stale ∪ more

/-- Commit in block order: reuse speculation while its snapshot is valid, otherwise run again. -/
def reexecSequential (world : World) (slots : VersionedSlots) (stale : OrdSet Nat) (i : Nat) :
    List SignedTx → List SpecTx → Option (World × List Receipt)
  | [], _ => some (world,[])
  | _ :: _, [] => none
  | signed :: txs, spec :: rest => do
    let (world,slots,rec) ← commitNext world slots (i ∈ stale) signed spec
    let stale ← revalidate slots stale rest
    let (world,receipts) ← reexecSequential world slots stale (i + 1) txs rest
    return (world,rec :: receipts)

/-- The commit without the sequential comparison. -/
def applyBlockEngine (pre : World) (block : Block) : Option (World × List Receipt × Hash) := do
  let keys := block.txs.foldl (fun keys tx => keys ∪ inferredKeys tx) ∅
  let (slots,_) ← seedAndRead ∅ pre keys
  let specs ← speculate pre slots 0 block.txs
  let graph ← conflictGraph specs
  let sched ← schedule graph
  let flagged ← validate specs slots sched
  let stale := staleFromEarlierWrites specs ∪ flagged
  let (world,receipts) ← reexecSequential pre slots stale 0 block.txs specs
  return (world,receipts,Seq.appHash world.commitStateRoot (txRootSigned block.txs)
    (receiptsRoot (receipts.map Receipt.encode)))

/-- Parallel apply: a mismatch with the sequential result panics. -/
def applyBlock (pre : World) (block : Block) : Option (World × List Receipt × Hash) := do
  let seqOut ← Seq.applyBlock pre block
  let stmOut ← applyBlockEngine pre block
  if stmOut.2.1.map Receipt.encode = seqOut.2.1.map Receipt.encode ∧ stmOut.2.2 = seqOut.2.2 ∧
      stmOut.1.commitStateRoot = seqOut.1.commitStateRoot then
    some stmOut
  else none

end Engine

end L1.Stm
