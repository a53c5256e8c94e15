import L1.Buffers
import L1.Catchup
import L1.CheckedDecoders
import L1.GenesisFile
import L1.OfferedChains

/-! What gossip can do to a node that is not a validator. All offers that it has collected are one
chain to it or nothing, and the chain is stored before anything has counted the receipts. -/
namespace L1

open Wire Steps

/-! Reading a message with every index checked. -/
namespace Checked

def heard {ε α : Type} (say : α → Gossip.Message) (payload : Checked ε α) : Option (Option Gossip.Message) :=
  payload.run.map fun result => result.toOption.map say

theorem heard_returned {ε α : Type} (say : α → Gossip.Message) (result : Except ε α) :
    heard say (returned result) = some (result.toOption.map say) := rfl

/-- What bytes say. The outer `none` is a panic. -/
def read (data : Bytes) : Option (Option Gossip.Message) :=
  match (decodeFrame data).run with
  | none => none
  | some (.error _) => some none
  | some (.ok ⟨.tx,inner⟩) => heard .tx (decodeSignedTx inner)
  | some (.ok ⟨.vote,inner⟩) => heard .vote (decodeVote inner)
  | some (.ok ⟨.proposal,inner⟩) => heard .proposal (decodeProposal inner)
  | some (.ok ⟨.block,inner⟩) => heard .block (decodeBodyOffer inner)
  | some (.ok _) => some none

theorem read_eq (data : Bytes) : read data = some (Gossip.read data) := by
  unfold read Gossip.read
  rw [decodeFrame_eq]
  cases Gossip.decodeFrame data with
  | error e => rfl
  | ok frame =>
    obtain ⟨kind,inner⟩ := frame
    cases kind with
    | tx => exact (congrArg _ (decodeSignedTx_eq inner)).trans (heard_returned ..)
    | vote => exact (congrArg _ (decodeVote_eq inner)).trans (heard_returned ..)
    | proposal => exact (congrArg _ (decodeProposal_eq inner)).trans (heard_returned ..)
    | block => exact (congrArg _ (decodeBodyOffer_eq inner)).trans (heard_returned ..)
    | _ => rfl

end Checked

namespace Builder

variable [Wasm] [Blake3] [Ed25519]

theorem Executes.sound {g : Genesis} {pre : World} {built : BuiltBlock} (executes : Executes g pre built)
    (sound : pre.Sound) : built.world.Sound := by
  obtain ⟨world,receipts,app,applied,after⟩ := Seq.applyBlock_total sound built.block
  rw [executes.applied] at applied
  cases applied
  exact after

theorem executeBlock_total (g : Genesis) {pre : World} (sound : pre.Sound) (block : Block) :
    ∃ built, executeBlock g pre block = some built := by
  obtain ⟨world,receipts,app,applied,-⟩ := Seq.applyBlock_total sound block
  have hash : app = Seq.appHash world.commitStateRoot (txRootSigned block.txs)
      (receiptsRoot (receipts.map Receipt.encode)) := Sync.applyBlock_roots applied
  simp only [executeBlock,applied,ne_eq,hash,not_true_eq_false,if_false]
  exact ⟨_,rfl⟩

theorem buildLocal_total {R : Type} [ReadyTxs R] (pool : R) {g : Genesis} {pre : World} (sound : pre.Sound)
    (fields : HeaderFields) {maxGas maxBytes : U64} (gas : g.params.registry.get .maxGas = some maxGas)
    (size : g.params.registry.get .maxBlockBytes = some maxBytes) :
    ∃ result, buildLocal pool g pre fields = some result := by
  simp only [buildLocal,gas,size]
  obtain ⟨built,executed⟩ := executeBlock_total g sound ⟨fields,selectTxs maxGas (maxBytes.setWidth 32)
    (ReadyTxs.takeReady pool maxGas (maxBytes.setWidth 32)).1 0 0⟩
  rw [executed]
  exact ⟨_,rfl⟩

end Builder

namespace Wire

variable [Wasm] [Blake3] [Ed25519]

omit [Wasm] [Blake3] [Ed25519] in
theorem made_limits {registry : ParamsRegistry} (made : Config.Made registry) :
    ∃ maxGas maxBytes, registry.get .maxGas = some maxGas ∧
      registry.get .maxBlockBytes = some maxBytes := by
  obtain ⟨sets,rfl⟩ := made
  have held (id : ParamId) (default : ParamsRegistry.new.get id ≠ none) :
      ∃ value, ParamsRegistry.get (Map.fill ParamsRegistry.new sets) id = some value :=
    Option.ne_none_iff_exists'.mp (Map.get?_fill_ne_none default)
  obtain ⟨maxGas,gas⟩ := held .maxGas (by decide +kernel)
  obtain ⟨maxBytes,size⟩ := held .maxBlockBytes (by decide +kernel)
  exact ⟨maxGas,maxBytes,gas,size⟩

theorem builtFromProposal_total {g : Genesis} {world : World} (made : Config.Made g.params.registry)
    (sound : world.Sound) (p : Proposal) : builtFromProposal g world p ≠ none := by
  obtain ⟨maxGas,maxBytes,gas,size⟩ := made_limits made
  simp only [builtFromProposal,Mempool.new,Mempool.minFeeFloor,gas]
  obtain ⟨⟨rebuilt,rest⟩,assembled⟩ := Builder.buildLocal_total (Mempool.withLimits Spec.minTxFee
    Spec.mempoolMaxTxs.toNat Spec.maxBlockBytes.toNat) sound p.header.fields gas size
  rw [assembled]
  dsimp only
  split <;> simp

theorem builtFromProposal_executes {g : Genesis} {world : World} {p : Proposal} {built : BuiltBlock}
    (rebuilt : builtFromProposal g world p = some (some built)) : Builder.Executes g world built := by
  unfold builtFromProposal at rebuilt
  split at rebuilt
  · cases rebuilt
  split at rebuilt
  · cases rebuilt
  rename_i assembled
  split at rebuilt
  · cases rebuilt
  · cases rebuilt
    exact (Builder.buildLocal_some assembled).2

end Wire

namespace Live

section Runs

variable [Bls] [Blake3] [Wasm] [Ed25519] {cfg : NodeConfig}

/-- What holds of a node all through a run: its store has the genesis, offers stand under their own
height, the world can execute every block, and the block in hand was executed on such a world. -/
structure Kept (cfg : NodeConfig) (node : Live) : Prop where
  config : node.cfg = cfg
  genesis : node.store[Codec.keyGenesis]? = some cfg.genesis.hash.toList
  offers : ∀ (h : U64) (offer : BodyOffer), node.syncOffers[h]? = some offer →
    offer.header.fields.height = h
  world : node.world.Sound
  built : ∀ p b, node.pending = some (p,b) → ∃ pre, pre.Sound ∧ Builder.Executes node.cfg.genesis pre b

theorem kept_fresh (cfg : NodeConfig) (pool : Mempool) : Kept cfg (fresh cfg pool) where
  config := rfl
  genesis := by
    change ((∅ : Store).insert Codec.keyGenesis cfg.genesis.hash.toList)[Codec.keyGenesis]? = _
    rw [Map.get?_insert,if_pos rfl]
  offers h offer held := by
    change (∅ : Map U64 BodyOffer)[h]? = _ at held
    simp at held
  world := Execution.sound_start cfg.genesis
  built p b held := by cases held

def withOffer (node : Live) (offer : BodyOffer) : Live :=
  { node with syncOffers := node.syncOffers.insert offer.header.fields.height offer }

variable {node after : Live}

theorem Kept.withOffer (kept : Kept cfg node) (offer : BodyOffer) :
    Kept cfg (node.withOffer offer) := by
  refine ⟨kept.config,kept.genesis,fun h other held => ?_,kept.world,kept.built⟩
  change (node.syncOffers.insert _ _)[h]? = _ at held
  rw [Map.get?_insert] at held
  split at held
  · rename_i same
    cases held
    exact same.symm
  · exact kept.offers h other held

variable [Vrf]

omit [Vrf] in
theorem Kept.catchup (kept : Kept cfg node) (done : node.tryCatchup = some after) :
    Kept cfg after := by
  rcases tryCatchup_cases done with rfl | ⟨bodies,result,store,-,caught,⟨⟨e,rfl⟩,rfl⟩ |
    ⟨app,last,world,rfl,-,replayed,rfl⟩⟩
  · exact kept
  · refine ⟨kept.config,?_,kept.offers,kept.world,kept.built⟩
    rcases Sync.catchup_error caught with failed | ⟨-,rfl⟩
    · rw [(Sync.wireSync_error failed).1]
      exact kept.genesis
    · exact (Sync.get?_genesis_synced node.store bodies).trans kept.genesis
  · obtain ⟨-,rfl,-⟩ := Sync.catchup_ok caught
    refine ⟨kept.config,(Sync.get?_genesis_synced node.store bodies).trans kept.genesis,kept.offers,?_,
      kept.built⟩
    have origin : (World.fromGenesis node.cfg.genesis).Sound := Execution.sound_start _
    obtain ⟨-,⟨-,same⟩ | ⟨-,steps,-,-,-,-,ran⟩⟩ := Replay.replayFromGenesis_ok_iff.mp replayed
    · cases same
      exact origin
    · exact Replay.execute_ok Sync.total_applyBlock origin ran

theorem kept_move {e : NodeEvent} {votes : List Vote}
    (move : Move e node after votes) (kept : Kept cfg node) : Kept cfg after := by
  cases move with
  | pool pool => exact ⟨kept.config,kept.genesis,kept.offers,kept.world,kept.built⟩
  | vote v said =>
    obtain ⟨replay,-,same | ⟨-,-,⟨-,same⟩ | ⟨-,same⟩⟩⟩ := receiveVote_cases node v
    all_goals
      rw [same]
      exact ⟨kept.config,kept.genesis,kept.offers,kept.world,kept.built⟩
  | proposal p built said height round free rebuilt =>
    refine ⟨kept.config,kept.genesis,kept.offers,kept.world,fun p' b held => ?_⟩
    cases held
    exact ⟨node.world,kept.world,builtFromProposal_executes rebuilt⟩
  | offer offer said => exact kept.withOffer offer
  | catchup _ said outsider done => exact kept.catchup done
  | propose src srcPk proof readings p built pool source key free done =>
    refine ⟨kept.config,kept.genesis,kept.offers,kept.world,fun p' b held => ?_⟩
    cases held
    obtain ⟨-,-,-,-,-,-,-,-,assembled,-⟩ := wirePropose_ok done
    exact ⟨node.world,kept.world,(Builder.buildLocal_some assembled).2⟩
  | prevote prop built held =>
    obtain ⟨replay,prevotes,same⟩ := castPrevote_frame node prop
    rw [same]
    exact ⟨kept.config,kept.genesis,kept.offers,kept.world,kept.built⟩
  | precommit prop built held =>
    obtain ⟨replay,precommits,same⟩ := castPrecommit_frame node prop
    rw [same]
    exact ⟨kept.config,kept.genesis,kept.offers,kept.world,kept.built⟩
  | commit prop built member held _ done =>
    rcases tryCommit_cases done with rfl | ⟨f,commits,-,rfl | ⟨store,stored,rfl⟩⟩
    · exact kept
    · exact ⟨kept.config,kept.genesis,kept.offers,kept.world,kept.built⟩
    · obtain ⟨-,rfl⟩ := Sync.persistThenBroadcast_ok stored
      obtain ⟨pre,sound,executes⟩ := kept.built prop built held
      refine ⟨kept.config,?_,kept.offers,executes.sound sound,fun p b none => by cases none⟩
      exact (Sync.get?_genesis_synced node.store [_]).trans kept.genesis

theorem kept_moves {e : NodeEvent} {votes : List Vote}
    (moves : Moves e node after votes) (kept : Kept cfg node) : Kept cfg after := by
  induction moves with
  | done => exact kept
  | next _ move ih => exact kept_move move ih

theorem kept_run (started : start cfg = some node)
    (events : List NodeEvent) : Kept cfg (Runs.run advance (node,[]) events).1 := by
  obtain ⟨pool,rfl⟩ := start_eq started
  exact @Runs.keep _ _ advance (fresh cfg pool,[]) (fun s => Kept cfg s.1) (fun _ _ => True)
    (kept_fresh cfg pool)
    (fun s e kept _ => advance_keep (P := fun s => Kept cfg s.1) kept fun _ _ _ _ => kept_move)
    events fun _ _ _ => trivial

end Runs

/-! What the offers make of an outsider. -/

section Offers

variable [Bls] [Blake3] [Wasm] [Ed25519] {cfg : NodeConfig}

/-- The offers make a chain on which the node panics: of a wrong number of receipts, or of all
heights there are. -/
def Crashing (node : Live) : Prop :=
  ∃ bodies, node.offeredChain = some bodies ∧
    (Sync.Miscounted bodies ∨ Sync.Valid node.cfg.genesis bodies ∧ bodies.length = 2^64)

variable {node : Live} {bodies : List BodyOffer}

/-- The offers of a chain stand at the heights from 0 on. -/
theorem offeredChain_some (kept : Kept cfg node) (offered : node.offeredChain = some bodies) :
    bodies ≠ [] ∧ Sync.Contiguous bodies ∧ ∀ offer : BodyOffer,
      offer ∈ bodies ↔ node.syncOffers[offer.header.fields.height]? = some offer := by
  unfold offeredChain at offered
  dsimp only at offered
  split at offered
  · cases offered
  rename_i filled
  split at offered
  · rename_i heights
    cases offered
    have place (i : Nat) (entry : U64 × BodyOffer) (here : node.syncOffers.toList[i]? = some entry) :
        entry.1.toNat = i ∧ node.syncOffers[entry.1]? = some entry.2 := by
      have same := congrArg (·[i]?) heights
      simp only [List.getElem?_map,here,Option.map_some] at same
      obtain ⟨inside,-⟩ := List.getElem?_eq_some_iff.mp here
      rw [List.getElem?_range inside,Option.some.injEq] at same
      exact ⟨same,Std.ExtTreeMap.mem_toList_iff_getElem?_eq_some.mp (List.mem_of_getElem? here)⟩
    refine ⟨by simpa using filled,?_,?_⟩
    · intro i offer here
      rw [List.getElem?_map,Option.map_eq_some_iff] at here
      obtain ⟨entry,here,rfl⟩ := here
      obtain ⟨height,held⟩ := place i entry here
      rw [kept.offers entry.1 entry.2 held,height]
    · intro offer
      constructor
      · intro member
        obtain ⟨entry,there,rfl⟩ := List.mem_map.mp member
        have held := Std.ExtTreeMap.mem_toList_iff_getElem?_eq_some.mp there
        rw [kept.offers entry.1 entry.2 held]
        exact held
      · intro held
        exact List.mem_map.mpr ⟨_,Std.ExtTreeMap.mem_toList_iff_getElem?_eq_some.mpr held,rfl⟩
  · cases offered

theorem tryCatchup_none_iff (kept : Kept cfg node) : node.tryCatchup = none ↔ node.Crashing := by
  obtain rfl := kept.config
  unfold tryCatchup Crashing
  cases offered : node.offeredChain with
  | none => simp
  | some bodies =>
    obtain ⟨some_,contiguous,-⟩ := offeredChain_some kept offered
    have stops := Sync.catchup_none_iff contiguous some_ kept.genesis (bodies.map BodyOffer.header)
    simp only [Option.some.injEq,exists_eq_left']
    rw [← stops]
    cases caught : Sync.catchup node.cfg.genesis node.store (bodies.map BodyOffer.header) bodies with
    | none => simp
    | some result =>
      obtain ⟨verdict,store⟩ := result
      cases verdict with
      | error e => simp
      | ok app =>
        obtain ⟨-,-,world,replayed⟩ := Sync.catchup_ok caught
        simp only [replayed,reduceCtorEq,iff_false]
        cases bodies.getLast? <;> simp

/-- Offers that can all be stored do not crash the node, as long as heights are left. -/
theorem not_crashing (offered : node.offeredChain = some bodies)
    (storable : Sync.Storable bodies) (short : bodies.length < 2^64) : ¬ node.Crashing := by
  rintro ⟨others,again,crash⟩
  cases offered.symm.trans again
  rcases crash with miscount | ⟨-,long⟩
  · exact storable.not_miscounted miscount
  · omega

/-- A valid chain of offers moves the node behind its last block. -/
theorem tryCatchup_moves (kept : Kept cfg node)
    (offered : node.offeredChain = some bodies) (valid : Sync.Valid cfg.genesis bodies)
    (short : bodies.length < 2^64) :
    ∃ after, node.tryCatchup = some after ∧ after.height.toNat = bodies.length := by
  obtain rfl := kept.config
  obtain ⟨some_,contiguous,-⟩ := offeredChain_some kept offered
  obtain ⟨app,store,caught⟩ := (Sync.catchup_ok_iff contiguous some_ kept.genesis
    (bodies.map BodyOffer.header)).mpr ⟨valid,short⟩
  obtain ⟨-,-,world,replayed⟩ := Sync.catchup_ok caught
  obtain ⟨before,last,rfl⟩ := (List.eq_nil_or_concat bodies).resolve_left some_
  rw [List.concat_eq_append] at *
  have height := contiguous before.length last (by simp)
  have final : (before ++ [last]).getLast? = some last := by simp
  have next : (saturatingNext last.header.fields.height).toNat = (before ++ [last]).length := by
    have one : (1 : Height).toNat = 1 := rfl
    rw [List.length_append,List.length_singleton] at short ⊢
    rw [saturatingNext,toNat_saturatingAdd,height,one]
    omega
  refine ⟨_,by simp only [tryCatchup,offered,caught,final,replayed]; rfl,next⟩

/-- Chains that a node has as part of its offers come first in what it is offered. -/
theorem offeredChain_extends (kept : Kept cfg node) {chain : List BodyOffer}
    (contiguous : Sync.Contiguous chain)
    (received : ∀ offer ∈ chain, node.syncOffers[offer.header.fields.height]? = some offer)
    (offered : node.offeredChain = some bodies) : ∃ extra, bodies = chain ++ extra := by
  obtain ⟨-,places,listed⟩ := offeredChain_some kept offered
  have first : chain <+: bodies := by
    rw [List.prefix_iff_getElem?]
    intro i inside
    obtain ⟨j,here⟩ := List.mem_iff_getElem?.mp ((listed _).mpr (received _ (List.getElem_mem inside)))
    have own := contiguous i _ (List.getElem?_eq_getElem inside)
    rw [places j _ here] at own
    subst own
    exact here
  obtain ⟨extra,same⟩ := first
  exact ⟨extra,same.symm⟩

end Offers

section Gossip

variable [Bls] [Blake3] [Wasm] [Ed25519] [Vrf]

/-- Handle the bytes of one message, read with every index checked. `none` is a panic. -/
def handleChecked (node : Live) (data : Bytes) : Option Live :=
  match Checked.read data with
  | none => none
  | some none => some node
  | some (some message) => node.receive message

omit [Vrf] in
theorem handleChecked_eq (node : Live) (data : Bytes) :
    node.handleChecked data = node.handleBytes data := by
  unfold handleChecked handleBytes
  rw [Checked.read_eq]
  cases Gossip.read data <;> rfl

/-- In every run and for all bytes: a node panics on them exactly if it is no validator and they offer
it a block with which its offers become a chain that crashes it. -/
theorem gossip_panics_iff (cfg : NodeConfig) (made : Config.Made cfg.genesis.params.registry)
    (node : Live) (started : start cfg = some node) (events : List NodeEvent) (data : Bytes) :
    (Runs.run advance (node,[]) events).1.handleChecked data = none ↔
      (Runs.run advance (node,[]) events).1.isValidator = false ∧
        ∃ offer, Gossip.read data = some (.block offer) ∧
          ((Runs.run advance (node,[]) events).1.withOffer offer).Crashing := by
  have kept := kept_run started events
  generalize (Runs.run advance (node,[]) events).1 = s at kept ⊢
  rw [handleChecked_eq,handleBytes]
  cases said : Gossip.read data with
  | none => simp
  | some message =>
    cases message with
    | tx signed => simp [receive]
    | vote v => simp [receive]
    | proposal p =>
      have rebuilt := Wire.builtFromProposal_total (kept.config ▸ made) kept.world p
      simp only [receive,receiveProposal,Option.some.injEq,reduceCtorEq,false_and]
      split
      · split
        · rename_i stopped
          exact absurd stopped rebuilt
        · simp
        · simp
      · simp
    | block offer =>
      change s.receiveOffer offer = none ↔ _
      have stops := tryCatchup_none_iff (kept.withOffer offer)
      simp only [Option.some.injEq,Gossip.Message.block.injEq,exists_eq_left',← stops]
      change (if s.isValidator = true then some (s.withOffer offer) else (s.withOffer offer).tryCatchup) =
        none ↔ _
      cases s.isValidator <;> simp

/-- In every run, a node that has the offers of a valid chain moves behind it on a catch-up, if and
only if its other offers continue the chain without a gap and are valid too, or it was there
before and nothing crashes it. -/
theorem junk_offers_iff (cfg : NodeConfig) (node : Live) (started : start cfg = some node)
    (events : List NodeEvent) (chain : List BodyOffer) (contiguous : Sync.Contiguous chain)
    (valid : Sync.Valid cfg.genesis chain)
    (received : ∀ offer ∈ chain,
      (Runs.run advance (node,[]) events).1.syncOffers[offer.header.fields.height]? = some offer) :
    (∃ after, (Runs.run advance (node,[]) events).1.tryCatchup = some after ∧
        chain.length ≤ after.height.toNat) ↔
      (∃ extra, (Runs.run advance (node,[]) events).1.offeredChain = some (chain ++ extra) ∧
        Sync.Valid cfg.genesis (chain ++ extra) ∧ (chain ++ extra).length < 2^64) ∨
      chain.length ≤ (Runs.run advance (node,[]) events).1.height.toNat ∧
        ¬ (Runs.run advance (node,[]) events).1.Crashing := by
  have kept := kept_run started events
  generalize (Runs.run advance (node,[]) events).1 = s at kept received ⊢
  constructor
  · rintro ⟨after,done,reached⟩
    have calm : ¬ s.Crashing := by
      rw [← tryCatchup_none_iff kept,done]
      simp
    rcases tryCatchup_cases done with rfl | ⟨bodies,result,store,offered,caught,⟨-,rfl⟩ |
      ⟨app,last,world,rfl,-⟩⟩
    · exact .inr ⟨reached,calm⟩
    · exact .inr ⟨reached,calm⟩
    · obtain ⟨extra,rfl⟩ := offeredChain_extends kept contiguous received offered
      obtain ⟨some_,places,-⟩ := offeredChain_some kept offered
      obtain rfl := kept.config
      exact .inl ⟨extra,offered,(Sync.catchup_ok_iff places some_ kept.genesis _).mp ⟨_,_,caught⟩⟩
  · rintro (⟨extra,offered,whole,short⟩ | ⟨there,calm⟩)
    · obtain ⟨after,done,height⟩ := tryCatchup_moves kept offered whole short
      exact ⟨after,done,by rw [height,List.length_append]; omega⟩
    · cases done : s.tryCatchup with
      | none => exact absurd ((tryCatchup_none_iff kept).mp done) calm
      | some after =>
        refine ⟨after,rfl,?_⟩
        rcases tryCatchup_cases done with rfl | ⟨bodies,result,store,offered,caught,⟨-,rfl⟩ |
          ⟨app,last,world,rfl,-⟩⟩
        · exact there
        · exact there
        · obtain ⟨extra,rfl⟩ := offeredChain_extends kept contiguous received offered
          obtain ⟨some_,places,-⟩ := offeredChain_some kept offered
          obtain rfl := kept.config
          obtain ⟨whole,short⟩ := (Sync.catchup_ok_iff places some_ kept.genesis _).mp ⟨_,_,caught⟩
          obtain ⟨after',again,height⟩ := tryCatchup_moves kept offered whole short
          cases done.symm.trans again
          rw [height,List.length_append]
          omega

end Gossip
end Live

namespace Gossip

theorem read_block {offer : BodyOffer} (fits : offer.Fits)
    (short : (encodeBodyOffer offer).length + 1 < 2^32) :
    read (encodeFrame .block (encodeBodyOffer offer)) = some (.block offer) := by
  have said {data inner : Bytes} (frame : decodeFrame data = .ok ⟨.block,inner⟩)
      (decoded : decodeBodyOffer inner = .ok offer) : read data = some (.block offer) := by
    simp only [read,frame,decoded]
    rfl
  exact said (decodeFrame_encodeFrame .block _ short) (exact_bodyOffer.complete offer fits)

end Gossip
end L1

namespace L1.Devnet

open Steps Wire Live LoneSigner

attribute [local instance] ScalarBls.bls LoneSigner.blake3 Holdings.Sample.ed25519
  Holdings.Sample.wasm Agreement.Solo.vrf

def plain : BodyOffer := ⟨stray.header,stray.block,stray.encodedReceipts,stray.appHash⟩

def miscounted : BodyOffer :=
  { plain with
    header := { plain.header with receiptsRoot := receiptsRoot [[1]] }
    receipts := [[1]] }

def junk : BodyOffer := { plain with header := { plain.header with fields := ⟨5,0,validator 3,0⟩ } }

def offerBytes (offer : BodyOffer) : Bytes := Gossip.encodeFrame .block (Gossip.encodeBodyOffer offer)

theorem made : Config.Made genesis.params.registry := ⟨[],rfl⟩

theorem stray_parts : stray.block = ⟨⟨0,0,validator 3,0⟩,[]⟩ ∧ stray.encodedReceipts = [] := by
  decide +kernel

/-- Offers of that block are short, whatever hashes they carry. -/
theorem read_stray {offer : BodyOffer} (block : offer.block = stray.block)
    (few : offer.receipts = [] ∨ offer.receipts = [[1]]) :
    Gossip.read (offerBytes offer) = some (.block offer) := by
  rw [stray_parts.1] at block
  have body : (Codec.encodeBlockBody offer.block).length = 77 := by
    rw [block]
    decide +kernel
  have count : offer.receipts.length ≤ 1 := by
    rcases few with none | one
    · simp [none]
    · simp [one]
  have receipts : ∀ r ∈ offer.receipts, r.length ≤ 1 := by
    rcases few with none | one
    · simp [none]
    · simp [one]
  have listed : (offer.receipts.flatMap chunk).length ≤ 5 := by
    rcases few with none | one
    · simp [none]
    · simp [one]
  refine Gossip.read_block ⟨by omega,by omega,fun r inside => ?_⟩ ?_
  · have short := receipts r inside
    omega
  · simp only [Gossip.encodeBodyOffer,Wal.walPayload,List.length_append,length_chunk,
      Header.length_hashPreimage,Vector.length_toList,BigEndian.length_encode]
    omega

theorem read_plain : Gossip.read (offerBytes plain) = some (.block plain) :=
  read_stray (by simp only [plain]) (.inl (by simp only [plain,stray_parts]))

theorem read_miscounted : Gossip.read (offerBytes miscounted) = some (.block miscounted) :=
  read_stray (by simp only [miscounted,plain]) (.inr (by simp only [miscounted]))

theorem read_junk : Gossip.read (offerBytes junk) = some (.block junk) :=
  read_stray (by simp only [junk,plain]) (.inl (by simp only [junk,plain,stray_parts]))

/-- The fourth node is no validator. An offer with a receipt too many makes it panic. -/
theorem miscounted_offer_crashes :
    Live.start (config 4) = some (node 4) ∧ (node 4).isValidator = false ∧
    (Runs.run advance (node 4,[]) []).1.handleChecked (offerBytes miscounted) = none := by
  refine ⟨start_node 4,by decide +kernel,?_⟩
  rw [handleChecked_eq,handleBytes,read_miscounted]
  decide +kernel

theorem valid_plain : Sync.Valid genesis [plain] :=
  Sync.valid_singleton (by decide +kernel) (by decide +kernel)
    (by decide +kernel : (Codec.bodyPayload plain.block).length < 2^32) (by decide +kernel)

theorem contiguous_plain : Sync.Contiguous [plain] := Sync.contiguous_singleton (by decide +kernel)

/-- The offer of the block itself is harmless. -/
theorem plain_offer_handled :
    (Runs.run advance (node 4,[]) []).1.handleChecked (offerBytes plain) ≠ none := by
  intro stopped
  obtain ⟨-,offer,said,crash⟩ :=
    (gossip_panics_iff (config 4) made (node 4) (start_node 4) [] (offerBytes plain)).mp stopped
  rw [read_plain,Option.some.injEq,Gossip.Message.block.injEq] at said
  have whole : ((node 4).withOffer plain).offeredChain = some [plain] := by decide +kernel
  exact not_crashing whole valid_plain.storable (by decide) (said ▸ crash)

def moved : Live := ((node 4).receiveOffer plain).getD (node 4)

def misled : Live := ((node 4).receiveOffer junk).getD (node 4)
def stuck : Live := (misled.receiveOffer plain).getD misled

theorem advance_offer {n : Live} {data : Bytes} {offer : BodyOffer}
    (said : Gossip.read data = some (.block offer)) :
    advance (n,[]) (.bytes data) = ((n.receiveOffer offer).getD n,[]) := by
  rw [advance_bytes,handleBytes,said]
  rfl

theorem run_plain : Runs.run advance (node 4,[]) [.bytes (offerBytes plain)] = (moved,[]) := by
  rw [Runs.run_singleton,advance_offer read_plain,moved]

theorem run_junk_plain :
    Runs.run advance (node 4,[]) ([.bytes (offerBytes junk)] ++ [.bytes (offerBytes plain)]) =
      (stuck,[]) := by
  rw [Runs.run_append_singleton,Runs.run_singleton,advance_offer read_junk,advance_offer read_plain,
    stuck,misled]

/-- With the block alone, the node moves behind it. -/
theorem plain_offer_reached :
    ∃ after, (Runs.run advance (node 4,[]) [.bytes (offerBytes plain)]).1.tryCatchup = some after ∧
      [plain].length ≤ after.height.toNat := by
  refine (junk_offers_iff (config 4) (node 4) (start_node 4) [.bytes (offerBytes plain)] [plain]
    contiguous_plain valid_plain ?_).mpr (.inl ⟨[],?_,valid_plain,by decide⟩)
  · rw [run_plain]
    exact List.forall_mem_singleton.mpr (by decide +kernel)
  · rw [run_plain]
    decide +kernel

/-- The valid offer for height 0 is there, and so is one at height 5: the node stays where it is. -/
theorem junk_offer_blocks :
    Live.start (config 4) = some (node 4) ∧
    Runs.run advance (node 4,[]) ([.bytes (offerBytes junk)] ++ [.bytes (offerBytes plain)]) =
      (stuck,[]) ∧
    stuck.isValidator = false ∧ Sync.Contiguous [plain] ∧ Sync.Valid genesis [plain] ∧
    stuck.syncOffers[plain.header.fields.height]? = some plain ∧
    junk.header.fields.height ≠ plain.header.fields.height ∧
    stuck.tryCatchup.map Live.height = some 0 :=
  ⟨start_node 4,run_junk_plain,by decide +kernel,contiguous_plain,valid_plain,by decide +kernel,
    by decide +kernel,by decide +kernel⟩

end L1.Devnet
