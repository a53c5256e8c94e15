import L1.Mempool

/-! Local assembly of a block: the order in which the pool hands out transactions, the limits
of a block, and its execution. -/
namespace L1

open L1.Seq

/-- Fee per unit of gas, in units of `2^-64`. -/
def feePriority (tx : Tx) : Except GasError U128 :=
  match gasMeter tx with
  | .error e => .error e
  | .ok gas => .ok (saturatingMul tx.maxFee (BitVec.ofNat 128 (2^64)) /
      BitVec.ofNat 128 (max gas.toNat 1))

def sizeU32 (tx : Tx) : U32 := BitVec.ofNat 32 (min tx.encode.length (2^32 - 1))

namespace Mempool

def txCount (pool : Mempool) : Nat := (pool.queued.toList.map fun e => e.2.size).sum

/-- Whether a candidate displaces the best one so far; ties go to the lower address. -/
def displaces (best : Option (U128 × Address × SignedTx)) (p : U128) (addr : Address) : Bool :=
  match best with
  | none => true
  | some (bp,ba,_) => decide (bp < p) || (decide (p = bp) && (compare addr ba).isLT)

def consider (localNonce : Map Address Nonce) (skip : OrdSet (Address × Nonce))
    (best : Option (U128 × Address × SignedTx)) (entry : Address × Map Nonce SignedTx) :
    Option (U128 × Address × SignedTx) :=
  let n := (localNonce[entry.1]?).getD 0
  match entry.2[n]? with
  | none => best
  | some signed =>
    if (entry.1,n) ∈ skip then best
    else match feePriority signed.tx with
      | .error _ => best
      | .ok p => if displaces best p entry.1 then some (p,entry.1,signed) else best

def peekBestReady (pool : Mempool) (localNonce : Map Address Nonce)
    (skip : OrdSet (Address × Nonce)) : Option (Address × SignedTx) :=
  (pool.queued.toList.foldl (consider localNonce skip) none).map Prod.snd

/-- Drop one transaction, and the queue of its sender if it was the last. -/
def remove (pool : Mempool) (addr : Address) (nonce : Nonce) : Mempool where
  queued := match pool.queued[addr]? with
    | none => pool.queued
    | some queue =>
      if (queue.erase nonce).isEmpty then pool.queued.erase addr
      else pool.queued.insert addr (queue.erase nonce)
  accountNonce := pool.accountNonce
  minFee := pool.minFee
  maxTxs := pool.maxTxs
  maxBytes := pool.maxBytes
  keyed := by
    intro other found n signed listed held
    split at listed
    · exact pool.keyed other found n signed listed held
    · rename_i queue before
      split at listed
      · rw [Map.get?_erase] at listed
        split at listed
        · cases listed
        · exact pool.keyed other found n signed listed held
      · rw [Map.get?_insert] at listed
        split at listed
        · cases listed
          rw [Map.get?_erase] at held
          split at held
          · cases held
          · exact pool.keyed addr queue n signed before held
        · exact pool.keyed other found n signed listed held

/-- Take ready transactions while they fit. Each turn removes or skips a queued one, so as many
turns as there are transactions are enough. -/
def takeLoop (maxGas : U64) (maxBytes : U32) : Nat → Mempool → Map Address Nonce →
    OrdSet (Address × Nonce) → U64 → U32 → List SignedTx × Mempool
  | 0, pool, _, _, _, _ => ([],pool)
  | fuel + 1, pool, localNonce, skip, gas, bytes =>
    match pool.peekBestReady localNonce skip with
    | none => ([],pool)
    | some (addr,signed) =>
      let nonce := signed.tx.nonce
      match gasMeter signed.tx with
      | .error _ => takeLoop maxGas maxBytes fuel pool localNonce (skip.insert (addr,nonce)) gas bytes
      | .ok g =>
        let b := sizeU32 signed.tx
        if maxGas < saturatingAdd gas g ∨ maxBytes < saturatingAdd bytes b then
          takeLoop maxGas maxBytes fuel pool localNonce (skip.insert (addr,nonce)) gas bytes
        else
          let (rest,pool) := takeLoop maxGas maxBytes fuel (pool.remove addr nonce)
            (localNonce.insert addr (nextNonce nonce)) skip (saturatingAdd gas g) (saturatingAdd bytes b)
          (signed :: rest,pool)

end Mempool

/-- A source of ready transactions, in the order of their fees. -/
class ReadyTxs (R : Type) where
  takeReady : R → U64 → U32 → List SignedTx × R

instance : ReadyTxs Mempool where
  takeReady pool maxGas maxBytes :=
    Mempool.takeLoop maxGas maxBytes pool.txCount pool pool.accountNonce ∅ 0 0

structure BuiltBlock where
  block : Block
  header : Header
  world : World
  receipts : List Receipt
  appHash : Hash

namespace BuiltBlock

def encodedReceipts (b : BuiltBlock) : List Bytes := b.receipts.map Receipt.encode

end BuiltBlock

namespace Builder

def selectTxs (maxGas : U64) (maxBytes : U32) : List SignedTx → U64 → U32 → List SignedTx
  | [], _, _ => []
  | signed :: rest, gasUsed, bytesUsed => match gasMeter signed.tx with
    | .error _ => selectTxs maxGas maxBytes rest gasUsed bytesUsed
    | .ok g =>
      let b := sizeU32 signed.tx
      if maxGas < saturatingAdd gasUsed g then selectTxs maxGas maxBytes rest gasUsed bytesUsed
      else if maxBytes < saturatingAdd bytesUsed b then selectTxs maxGas maxBytes rest gasUsed bytesUsed
      else signed :: selectTxs maxGas maxBytes rest (saturatingAdd gasUsed g) (saturatingAdd bytesUsed b)

variable [Wasm] [Blake3] [Ed25519]

/-- Execute a block and fill in its header. `none` is a panic: of the execution, or of the
assertion on the application hash. -/
def executeBlock (g : Genesis) (pre : World) (block : Block) : Option BuiltBlock :=
  match applyBlock pre block with
  | none => none
  | some (world,receipts,app) =>
    let txRoot := txRootSigned block.txs
    let recRoot := receiptsRoot (receipts.map Receipt.encode)
    let st := world.commitStateRoot
    if app ≠ Seq.appHash st txRoot recRoot then none
    else some {
      block
      header := {
        fields := block.headerFields
        txRoot
        stateRoot := st
        receiptsRoot := recRoot
        validatorsHash := validatorsHash g.validators
        daRoot := zeroHash }
      world
      receipts
      appHash := app }

/-- Assemble and execute a block. `none` is a panic. -/
def buildLocal {R : Type} [ReadyTxs R] (pool : R) (g : Genesis) (pre : World)
    (fields : HeaderFields) : Option (BuiltBlock × R) :=
  match g.params.registry.get .maxGas with
  | none => none
  | some maxGas => match g.params.registry.get .maxBlockBytes with
    | none => none
    | some maxBytes =>
      let (candidates,pool) := ReadyTxs.takeReady pool maxGas (maxBytes.setWidth 32)
      let txs := selectTxs maxGas (maxBytes.setWidth 32) candidates 0 0
      (executeBlock g pre ⟨fields,txs⟩).map fun built => (built,pool)

/-- What a built block is: its execution, with the roots in the header. -/
structure Executes (g : Genesis) (pre : World) (built : BuiltBlock) : Prop where
  applied : applyBlock pre built.block = some (built.world,built.receipts,built.appHash)
  header : built.header = {
    fields := built.block.headerFields
    txRoot := txRootSigned built.block.txs
    stateRoot := built.world.commitStateRoot
    receiptsRoot := receiptsRoot built.encodedReceipts
    validatorsHash := validatorsHash g.validators
    daRoot := zeroHash }

variable {g : Genesis} {pre : World} {built : BuiltBlock}

theorem executeBlock_some {block : Block}
    (done : executeBlock g pre block = some built) : built.block = block ∧ Executes g pre built := by
  unfold executeBlock at done
  split at done
  · cases done
  rename_i applied
  dsimp only at done
  split at done
  · cases done
  cases done
  exact ⟨rfl,applied,rfl⟩

theorem buildLocal_spec {R : Type} [ReadyTxs R] {pool pool' : R} {fields : HeaderFields}
    (done : buildLocal pool g pre fields = some (built,pool')) :
    ∃ maxGas maxBytes, g.params.registry.get .maxGas = some maxGas ∧
      g.params.registry.get .maxBlockBytes = some maxBytes ∧
      executeBlock g pre ⟨fields,selectTxs maxGas (maxBytes.setWidth 32)
        (ReadyTxs.takeReady pool maxGas (maxBytes.setWidth 32)).1 0 0⟩ = some built := by
  unfold buildLocal at done
  split at done
  · cases done
  rename_i maxGas gas
  split at done
  · cases done
  rename_i maxBytes bytes
  obtain ⟨b,executed,same⟩ := Option.map_eq_some_iff.mp done
  cases same
  exact ⟨maxGas,maxBytes,gas,bytes,executed⟩

theorem buildLocal_some {R : Type} [ReadyTxs R] {pool pool' : R} {fields : HeaderFields}
    (done : buildLocal pool g pre fields = some (built,pool')) :
    built.block.headerFields = fields ∧ Executes g pre built := by
  obtain ⟨maxGas,maxBytes,-,-,executed⟩ := buildLocal_spec done
  obtain ⟨block,executes⟩ := executeBlock_some executed
  exact ⟨by rw [block],executes⟩

end Builder
end L1
