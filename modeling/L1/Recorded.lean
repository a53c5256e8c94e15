import L1.StoredChain
import L1.Totality

/-! A chain that is executed and stored block by block, and its replay. -/
namespace L1

namespace Seq

variable [Blake3] [Wasm] [Ed25519]

theorem length_applyTxs {world after : World} {txs : List SignedTx} {receipts : List Receipt}
    (done : applyTxs world txs = some (after,receipts)) : receipts.length = txs.length := by
  induction txs generalizing world receipts with
  | nil =>
    cases done
    rfl
  | cons signed rest ih =>
    rw [applyTxs] at done
    split at done
    · cases done
    split at done
    · cases done
    rename_i later
    cases done
    rw [List.length_cons,List.length_cons,ih later]

theorem length_receipts {world after : World} {block : Block} {receipts : List Receipt} {app : Hash}
    (done : applyBlock world block = some (after,receipts,app)) :
    receipts.length = block.txs.length := by
  unfold applyBlock at done
  split at done
  · cases done
  rename_i applied
  cases done
  exact length_applyTxs applied

end Seq

namespace Replay

open Codec Blocks

/-- A live world with the application hash of its last block and the store behind it. -/
structure Ledger where
  world : World
  app : Hash
  store : Store

namespace Ledger

variable [Blake3] [Wasm] [Ed25519]

/-- A block is applied to the live world and stored under the height of its header. -/
def commit (l : Ledger) (header : Header) (block : Block) : Option Ledger :=
  match Seq.applyBlock l.world block with
  | none => none
  | some (world,receipts,app) =>
    match putBlock l.store header block (receipts.map Receipt.encode) app with
    | none => none
    | some store => some ⟨world,app,store⟩

def commitAll (l : Ledger) : List (Header × Block) → Option Ledger
  | [] => some l
  | (header,block) :: rest => match l.commit header block with
    | none => none
    | some l => l.commitAll rest

/-- The store holds a chain whose execution gives the live world. -/
structure Records (g : Genesis) (l : Ledger) (chain : List BodyOffer) : Prop where
  kept : Keeps g l.store chain
  executed : execute Seq.applyBlock (.fromGenesis g) g.hash (chain.map BodyOffer.step) =
    some (l.world,l.app)

variable {l l' : Ledger} {g : Genesis} {header : Header} {block : Block} {chain : List BodyOffer}

theorem commit_some (done : l.commit header block = some l') :
    ∃ receipts, Seq.applyBlock l.world block = some (l'.world,receipts,l'.app) ∧
      l'.store = applyBatch l.store (offerOps ⟨header,block,receipts.map Receipt.encode,l'.app⟩) := by
  unfold Ledger.commit at done
  split at done
  · cases done
  rename_i world receipts app applied
  split at done
  · cases done
  rename_i store put
  cases done
  unfold putBlock at put
  split at put
  · cases put
  · exact ⟨receipts,applied,(Option.some.inj put).symm⟩

theorem Records.commit (records : Records g l chain) (next : header.fields.height.toNat = chain.length)
    (done : l.commit header block = some l') :
    ∃ offer : BodyOffer, offer.block = block ∧ Records g l' (chain ++ [offer]) := by
  obtain ⟨receipts,applied,stored⟩ := commit_some done
  refine ⟨⟨header,block,receipts.map Receipt.encode,l'.app⟩,rfl,?_,?_⟩
  · rw [stored]
    exact records.kept.put next
  · rw [List.map_append,execute_append,records.executed]
    simp only [List.map_cons,List.map_nil,BodyOffer.step,Option.bind_some,execute,applied,if_true]

/-- A run of commits at consecutive heights leaves a store that holds its blocks. -/
theorem Records.commitAll {blocks : List (Header × Block)} (records : Records g l chain)
    (heights : ∀ (i : Nat) (header : Header) (block : Block), blocks[i]? = some (header,block) →
      header.fields.height.toNat = chain.length + i)
    (done : l.commitAll blocks = some l') :
    ∃ more : List BodyOffer, more.map BodyOffer.block = blocks.map Prod.snd ∧
      Records g l' (chain ++ more) := by
  induction blocks generalizing l chain with
  | nil =>
    cases done
    exact ⟨[],rfl,by rwa [List.append_nil]⟩
  | cons first rest ih =>
    obtain ⟨header,block⟩ := first
    rw [Ledger.commitAll] at done
    split at done
    · cases done
    rename_i l₁ one
    obtain ⟨offer,same,records₁⟩ := records.commit (heights 0 header block rfl) one
    have later : ∀ (i : Nat) (header : Header) (block : Block), rest[i]? = some (header,block) →
        header.fields.height.toNat = (chain ++ [offer]).length + i := by
      intro i header block listed
      rw [heights (i + 1) header block listed,List.length_append,List.length_singleton]
      omega
    obtain ⟨more,rest_same,records₂⟩ := ih records₁ later done
    refine ⟨offer :: more,?_,?_⟩
    · rw [List.map_cons,List.map_cons,same,rest_same]
    · rwa [List.append_assoc,List.singleton_append] at records₂

def origin (g : Genesis) (store : Store) : Ledger := ⟨.fromGenesis g,g.hash,store⟩

theorem records_origin {store : Store}
    (genesis : store[keyGenesis]? = some g.hash.toList) (fresh : store[keyTip]? = none) :
    Records g (origin g store) [] where
  kept := ⟨genesis,fresh,by simp,by simp,by simp,by simp⟩
  executed := rfl

/-- Replay gives the live world and its application hash, if and only if every stored body is
shorter than its length field allows and the counter of heights does not run out. -/
theorem replay_live_iff (g : Genesis) (store : Store)
    (genesis : store[keyGenesis]? = some g.hash.toList) (fresh : store[keyTip]? = none)
    (blocks : List (Header × Block))
    (heights : ∀ (i : Nat) (header : Header) (block : Block), blocks[i]? = some (header,block) →
      header.fields.height.toNat = i)
    (l : Ledger) (done : (origin g store).commitAll blocks = some l) :
    replayFromGenesis Seq.applyBlock l.store g (.fromGenesis g) = some (.ok (l.world,l.app)) ↔
      (∀ stored ∈ blocks, (bodyPayload stored.2).length < 2^32) ∧ blocks.length < 2^64 := by
  obtain ⟨chain,same,records⟩ := (records_origin genesis fresh).commitAll
    (fun i header block listed => by rw [heights i header block listed]; exact (Nat.zero_add i).symm)
    done
  rw [List.nil_append] at records
  have count : chain.length = blocks.length := by
    simpa using congrArg List.length same
  have bodies : (∀ offer ∈ chain, offer.BodyFits) ↔
      ∀ stored ∈ blocks, (bodyPayload stored.2).length < 2^32 := by
    have each : (∀ block ∈ chain.map BodyOffer.block, (bodyPayload block).length < 2^32) ↔
        ∀ block ∈ blocks.map Prod.snd, (bodyPayload block).length < 2^32 := by rw [same]
    rwa [List.forall_mem_map,List.forall_mem_map] at each
  rw [records.kept.replay_ok_iff,bodies,count]
  exact ⟨fun ⟨fits,short,_⟩ => ⟨fits,short⟩,fun ⟨fits,short⟩ => ⟨fits,short,records.executed⟩⟩

/-- Blocks from the first height on can always be committed. -/
theorem commitAll_total (sound : l.world.Sound) (blocks : List (Header × Block)) :
    ∃ l', l.commitAll blocks = some l' := by
  induction blocks generalizing l with
  | nil => exact ⟨l,rfl⟩
  | cons first rest ih =>
    obtain ⟨header,block⟩ := first
    obtain ⟨world,receipts,app,applied,after⟩ := Seq.applyBlock_total sound block
    have counted : block.txs.length = (receipts.map Receipt.encode).length := by
      rw [List.length_map,Seq.length_receipts applied]
    have one : ∃ store, l.commit header block = some ⟨world,app,store⟩ := by
      simp only [commit,applied,putBlock,counted,ne_eq,not_true_eq_false,if_false]
      exact ⟨_,rfl⟩
    obtain ⟨store,one⟩ := one
    obtain ⟨l',rest_done⟩ := ih (l := ⟨world,app,store⟩) after
    exact ⟨l',by rw [commitAll,one]; exact rest_done⟩

end Ledger

namespace Sample

open Holdings.Sample

attribute [local instance] Holdings.Sample.blake3 ed25519 wasm

def header : Header := LoneSigner.header

def store : Store := putGenesisHash ∅ genesis

def start : Ledger := .origin genesis store

def chain (txs : List SignedTx) : List (Header × Block) := [(header,⟨header.fields,txs⟩)]

theorem heights (txs : List SignedTx) (i : Nat) (h : Header) (block : Block)
    (listed : (chain txs)[i]? = some (h,block)) : h.fields.height.toNat = i := by
  cases i with
  | zero =>
    cases listed
    rfl
  | succ i => simp [chain] at listed

theorem records_start : Ledger.Records genesis start [] :=
  Ledger.records_origin (by decide +kernel) (by decide +kernel)

def payment : SignedTx := sign 1 0 1 (.transfer ⟨address 2,10⟩)

def paid : Ledger := (start.commitAll (chain [payment])).get (by decide +kernel)

/-- The payment is in the replayed world. -/
theorem payment_replayed :
    (paid.world.account (address 2)).balance = 10 ∧
    replayFromGenesis Seq.applyBlock paid.store genesis (.fromGenesis genesis) =
      some (.ok (paid.world,paid.app)) := by
  refine ⟨by decide +kernel,(Ledger.replay_live_iff genesis store (by decide +kernel)
    (by decide +kernel) (chain [payment]) (heights _) paid (Option.some_get _).symm).mpr
    ⟨?_,by decide⟩⟩
  intro stored member
  cases List.mem_singleton.mp member
  decide +kernel

def deployment (code : Bytes) : SignedTx :=
  ⟨⟨1,0,0,0,.deploy ⟨code⟩⟩,Vector.replicate 64 0,Vector.replicate 32 0⟩

theorem length_deployment (code : Bytes) :
    (signedTxPayload (deployment code)).length = 150 + code.length := by
  simp [signedTxPayload,deployment,chunk,Tx.encode,Encoding.encode,Tx.payloadBytes,Tx.variantBytes]
  omega

/-- A block with a transaction so long that its envelope can be read, and the body around it
cannot. -/
theorem wide_not_replayed {tx : SignedTx} (long : (signedTxPayload tx).length + 1 = 2^32) :
    decodeSignedTx (encodeSignedTx tx) = .ok tx ∧
    ∃ l, start.commitAll (chain [tx]) = some l ∧
      ∀ r, replayFromGenesis Seq.applyBlock l.store genesis (.fromGenesis genesis) ≠
        some (.ok r) := by
  refine ⟨decodeSignedTx_encodeSignedTx tx (by omega),?_⟩
  obtain ⟨l,done⟩ := Ledger.commitAll_total (l := start) (Execution.sound_start genesis) (chain [tx])
  refine ⟨l,done,fun r replayed => ?_⟩
  obtain ⟨more,same,records⟩ := records_start.commitAll
    (fun i h block listed => (heights _ i h block listed).trans (Nat.zero_add i).symm) done
  obtain ⟨offer,rfl⟩ : ∃ offer, more = [offer] :=
    List.length_eq_one_iff.mp (by simpa [chain] using congrArg List.length same)
  have block : offer.block = ⟨header.fields,[tx]⟩ := by simpa [chain] using same
  have fits : (bodyPayload offer.block).length < 2^32 :=
    (records.kept.replay_ok_iff.mp replayed).1 offer (by simp)
  rw [block] at fits
  have size : (encodeSignedTx tx).length ≤ (bodyPayload ⟨header.fields,[tx]⟩).length := by
    simp [bodyPayload,chunk]
    omega
  have envelope : (encodeSignedTx tx).length = (signedTxPayload tx).length + 5 := by
    simp [encodeSignedTx,Encoding.encode]
    omega
  omega

theorem wide_block_not_replayed : ∃ tx,
    decodeSignedTx (encodeSignedTx tx) = .ok tx ∧
    ∃ l, start.commitAll (chain [tx]) = some l ∧
      ∀ r, replayFromGenesis Seq.applyBlock l.store genesis (.fromGenesis genesis) ≠
        some (.ok r) := by
  refine ⟨deployment (List.replicate (2^32 - 151) 0),wide_not_replayed ?_⟩
  rw [length_deployment,List.length_replicate]
  decide

end Sample
end Replay
end L1
