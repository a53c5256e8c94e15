import L1.LightClient
import L1.Outsiders
import L1.Recorded

/-! The clock of a leader. A header that the leader cannot date is a panic, and it cannot date one
whenever its clock is behind the last block. Nothing else stops a tick. -/
namespace L1

open Steps Wire

/-- A certificate made of votes does not stop its verification: without signers it has no quorum. -/
theorem Qc.Aggregated.verify_ne_none [Bls] {votes : List Vote} {validators : ValidatorSet}
    {qc : QuorumCertificate} (built : Aggregated votes validators qc) : verify qc validators ≠ none := by
  intro stopped
  obtain ⟨quorum,-,empty⟩ := Light.verify_none_iff.mp stopped
  have enough := ValidatorSet.quorum_exact quorum
  have power := built.power
  rw [empty] at power
  simp [ValidatorSet.powerOf] at power
  omega

namespace Steps

variable [Bls] [Blake3]

theorem commit_ne_none (precommits : List Vote) (validators : ValidatorSet) (reachable : VotingPower)
    (proposal : Proposal) (log : CommitLog) :
    commit precommits validators reachable proposal log ≠ none := by
  unfold commit
  split
  · simp
  split
  · simp
  · simp
  split
  · simp
  split
  · simp
  rename_i aggregated
  have sound := (Qc.aggregate_ok aggregated).verify_ne_none
  split
  · rename_i stopped
    exact absurd stopped sound
  · simp
  · dsimp only
    split <;> simp

end Steps

namespace Wire

variable [Bls] [Blake3]

theorem wireCommit_ne_none {precommits : List Vote} {validators : ValidatorSet}
    {reachable : VotingPower} {proposal : Proposal} {commits : CommitLog} {store : Store} {block : Block}
    {receipts : List Bytes} (counted : block.txs.length = receipts.length) :
    wireCommit precommits validators reachable proposal commits store block receipts ≠ none := by
  unfold wireCommit
  split
  · rename_i stopped
    exact (commit_ne_none _ _ _ _ _ stopped).elim
  · simp
  · simp
  · have stored (offer : BodyOffer) (counted : offer.Counted) : Sync.persistThenBroadcast store offer ≠ none := by
      unfold Sync.persistThenBroadcast
      split
      · simp
      · rw [BodyOffer.Counted] at counted
        simp [Blocks.putBlock,counted]
    split
    · rename_i stopped
      exact absurd stopped (stored _ counted)
    · simp
    · simp

variable [Wasm] [Ed25519] [Vrf]

/-- Proposing panics exactly when the lottery is won with a clock that is out of bounds. -/
theorem wirePropose_none_iff {g : Genesis} {sk : Bls.SecretKey} {ourId src : ValidatorId}
    {srcPk : Vector UInt8 32} {proof : VrfProof} {seed : VrfSeed} {height : Height}
    {round : Round} {ts now lastTs : U64} {world : World} {pool : Mempool}
    (made : Config.Made g.params.registry) (sound : world.Sound) :
    wirePropose g sk ourId src srcPk proof seed height round ts now lastTs world pool = none ↔
      weightedLeader srcPk seed src proof g.validators = .ok ourId ∧
        timestampInBounds now height lastTs ts Spec.maxTimestampDriftMs = false := by
  obtain ⟨maxGas,maxBytes,gas,size⟩ := made_limits made
  unfold wirePropose propose
  cases lottery : weightedLeader srcPk seed src proof g.validators with
  | error e => simp
  | ok winner =>
    by_cases ours : winner = ourId
    · subst ours
      cases dated : timestampInBounds now height lastTs ts Spec.maxTimestampDriftMs with
      | false => simp [HeaderFields.new,dated]
      | true =>
        obtain ⟨⟨built,rest⟩,assembled⟩ :=
          Builder.buildLocal_total pool sound ⟨height,round,winner,ts⟩ gas size
        simp only [HeaderFields.new,dated,if_true,assembled,ne_eq,not_true_eq_false,if_false]
        split <;> simp
    · simp [ours]

end Wire

namespace Live

variable [Bls] [Blake3] [Wasm] [Ed25519]

variable {cfg : NodeConfig} {node : Live}

theorem tryCommit_ne_none (kept : Kept cfg node) {prop : Proposal}
    {built : BuiltBlock} (held : node.pending = some (prop,built)) : node.tryCommit prop built ≠ none := by
  obtain ⟨pre,-,executes⟩ := kept.built prop built held
  have counted : built.block.txs.length = built.encodedReceipts.length := by
    rw [BuiltBlock.encodedReceipts,List.length_map,Seq.length_receipts executes.applied]
  unfold tryCommit
  split
  · split
    · rename_i stopped
      exact absurd stopped (wireCommit_ne_none counted)
    · simp
    · simp
  · simp

variable [Vrf]

theorem maybeVoteAndCommit_ne_none (kept : Kept cfg node) : node.maybeVoteAndCommit ≠ none := by
  unfold maybeVoteAndCommit
  split
  · simp
  rename_i prop built held
  dsimp only
  obtain ⟨replay₁,prevotes,first⟩ := castPrevote_frame node prop
  obtain ⟨replay₂,precommits,second⟩ := castPrecommit_frame (node.castPrevote prop).1 prop
  have one := kept_move (e := .bytes []) (.prevote prop built held) kept
  have two := kept_move (e := .bytes []) (.precommit prop built (by rw [first]; exact held)) one
  rw [Ne,Option.map_eq_none_iff]
  exact tryCommit_ne_none two (by rw [second,first]; exact held)

def Elected (node : Live) : Prop :=
  ∃ src srcPk output proof, roundVrfSource node.validators node.round = some src ∧
    node.cfg.vrfPks[src]? = some srcPk ∧
    leaderProve ((node.cfg.vrfSecrets[src]?).getD node.cfg.vrfSk) node.seed src = .ok (output,proof) ∧
    weightedLeader srcPk node.seed src proof node.validators = .ok node.cfg.ourId

/-- The clock is out of bounds for the next header of the node: behind the last block, or set back
between its two readings. -/
def OutOfBounds (node : Live) (readings : Readings) : Prop :=
  timestampInBounds readings.now node.height node.lastTs readings.ts Spec.maxTimestampDriftMs = false

theorem maybePropose_none_iff (kept : Kept cfg node)
    (made : Config.Made cfg.genesis.params.registry) (readings : Readings) :
    node.maybePropose readings = none ↔
      node.Elected ∧ node.pending = none ∧ node.OutOfBounds readings := by
  obtain rfl := kept.config
  unfold maybePropose
  constructor
  · intro stopped
    split at stopped
    · cases stopped
    rename_i src source
    split at stopped
    · cases stopped
    rename_i srcPk key
    split at stopped
    · cases stopped
    rename_i output proof proved
    split at stopped
    · cases stopped
    rename_i winner selected
    split at stopped
    · rename_i ours
      obtain ⟨rfl,free⟩ := ours
      split at stopped
      · rename_i stuck
        have late := ((wirePropose_none_iff made kept.world).mp stuck).2
        exact ⟨⟨src,srcPk,output,proof,source,key,proved,selected⟩,Option.isNone_iff_eq_none.mp free,late⟩
      · cases stopped
      · cases stopped
    · cases stopped
  · rintro ⟨⟨src,srcPk,output,proof,source,key,proved,selected⟩,free,late⟩
    have stuck : wirePropose node.cfg.genesis node.cfg.blsSk node.cfg.ourId src srcPk proof node.seed
        node.height node.round readings.ts readings.now node.lastTs node.world node.pool = none :=
      (wirePropose_none_iff made kept.world).mpr ⟨selected,late⟩
    simp only [source,key,proved,selected,free,stuck,Option.isNone_none,and_self,if_true]

/-- In every run and for all readings of the clock: a tick panics exactly if the node is a validator,
the timers have run out, it wins the lottery with the slot free, and its clock is out of bounds;
and so does proposing, if it wins. -/
theorem clock_panics_iff (cfg : NodeConfig) (made : Config.Made cfg.genesis.params.registry)
    (node : Live) (started : start cfg = some node) (events : List NodeEvent) (readings : Readings) :
    ((Runs.run advance (node,[]) events).1.tick readings = none ↔
      (Runs.run advance (node,[]) events).1.isValidator = true ∧ readings.warm = true ∧
        readings.paced = true ∧ (Runs.run advance (node,[]) events).1.Elected ∧
        (Runs.run advance (node,[]) events).1.pending = none ∧
        (Runs.run advance (node,[]) events).1.OutOfBounds readings) ∧
    ∀ src srcPk proof, wirePropose cfg.genesis cfg.blsSk cfg.ourId src srcPk proof
        (Runs.run advance (node,[]) events).1.seed (Runs.run advance (node,[]) events).1.height
        (Runs.run advance (node,[]) events).1.round readings.ts readings.now
        (Runs.run advance (node,[]) events).1.lastTs (Runs.run advance (node,[]) events).1.world
        (Runs.run advance (node,[]) events).1.pool = none ↔
      weightedLeader srcPk (Runs.run advance (node,[]) events).1.seed src proof cfg.genesis.validators =
          .ok cfg.ourId ∧ (Runs.run advance (node,[]) events).1.OutOfBounds readings := by
  have kept := kept_run started events
  generalize (Runs.run advance (node,[]) events).1 = s at kept ⊢
  refine ⟨?_,fun src srcPk proof => wirePropose_none_iff made kept.world⟩
  have proposing := maybePropose_none_iff kept made readings
  unfold tick
  cases member : s.isValidator with
  | false => simp
  | true =>
    rcases warm : readings.warm with _ | _
    · simp [maybeVoteAndCommit_ne_none kept]
    rcases paced : readings.paced with _ | _
    · simp [maybeVoteAndCommit_ne_none kept]
    simp only [Bool.true_eq_false,if_false,or_self,true_and,← proposing]
    cases proposed : s.maybePropose readings with
    | none => simp
    | some result =>
      cases result with
      | none => simp
      | some after =>
        obtain ⟨moves,-⟩ := moves_maybePropose (e := .tick readings) proposed
        simp [maybeVoteAndCommit_ne_none (kept_moves moves kept)]

end Live
end L1

namespace L1.Devnet

open Steps Wire Live LoneSigner

attribute [local instance] ScalarBls.bls LoneSigner.blake3 Holdings.Sample.ed25519
  Holdings.Sample.wasm Agreement.Solo.vrf

def at_ (time : U64) : Readings := ⟨true,true,time,time⟩

def dated : Live := (advance (node 1,[]) (.tick (at_ 1000))).1

def datedHeader : Header := (dated.pending.map fun held => held.1.header).getD header

def others : List NodeEvent := [
  .bytes (voteBytes (Vote.prevote (2 : UInt8) (validator 2) 0 0 datedHeader)),
  .bytes (voteBytes (Vote.prevote (3 : UInt8) (validator 3) 0 0 datedHeader)),
  .bytes (voteBytes (Vote.precommit (2 : UInt8) (validator 2) 0 0 datedHeader)),
  .bytes (voteBytes (Vote.precommit (3 : UInt8) (validator 3) 0 0 datedHeader))]

/-- The leader commits its block, in a run of honest validators only. -/
def honestRun : List NodeEvent := .tick (at_ 1000) :: others ++ [.tick ⟨false,false,1000,1000⟩]

theorem run_honestRun (start : Live) : Runs.run advance (start,[]) honestRun =
    let led := advance (start,[]) (.tick (at_ 1000))
    advance ((((led.1.receiveVote (Vote.prevote (2 : UInt8) (validator 2) 0 0 datedHeader)).receiveVote
      (Vote.prevote (3 : UInt8) (validator 3) 0 0 datedHeader)).receiveVote
      (Vote.precommit (2 : UInt8) (validator 2) 0 0 datedHeader)).receiveVote
      (Vote.precommit (3 : UInt8) (validator 3) 0 0 datedHeader),led.2)
      (.tick ⟨false,false,1000,1000⟩) := by
  simp only [honestRun,others,Runs.run,List.cons_append,List.nil_append,List.foldl_cons,List.foldl_nil]
  generalize advance (start,[]) (.tick (at_ 1000)) = led
  obtain ⟨node,sent⟩ := led
  simp only [advance_vote]

theorem honestRun_ends : (Runs.run advance (node 1,[]) honestRun).1.height = 1 ∧
    (Runs.run advance (node 1,[]) honestRun).1.lastTs = 1000 ∧
    (Runs.run advance (node 1,[]) honestRun).1.tick (at_ 0) = none := by
  rw [run_honestRun]
  decide +kernel

/-- With a clock that stands still, its next tick passes. -/
theorem clock_still_passes :
    (Runs.run advance (node 1,[]) honestRun).1.tick (at_ 1000) ≠ none := by
  intro stopped
  obtain ⟨-,-,-,-,-,late⟩ := (clock_panics_iff (config 1) made (node 1) (start_node 1) honestRun
    (at_ 1000)).1.mp stopped
  have dated : timestampInBounds 1000 (Runs.run advance (node 1,[]) honestRun).1.height
      (Runs.run advance (node 1,[]) honestRun).1.lastTs 1000 Spec.maxTimestampDriftMs = true := by
    rw [honestRun_ends.1,honestRun_ends.2.1]
    decide
  exact absurd (late.symm.trans dated) (by decide)

/-- With a clock set back to 0, its next tick panics. -/
theorem clock_set_back_panics :
    Live.start (config 1) = some (node 1) ∧
    (Runs.run advance (node 1,[]) honestRun).1.height = 1 ∧
    (Runs.run advance (node 1,[]) honestRun).1.lastTs = 1000 ∧
    (Runs.run advance (node 1,[]) honestRun).1.tick (at_ 0) = none :=
  ⟨start_node 1,honestRun_ends⟩

end L1.Devnet
