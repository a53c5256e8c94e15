import L1.Live

/-! Chains of blocks, and that every world a node holds is the execution of one. -/
namespace L1

namespace Seq

variable [Wasm] [Blake3] [Ed25519]

def applyBlocks (world : World) : List Block → Option World
  | [] => some world
  | block :: rest => match applyBlock world block with
    | none => none
    | some (world,_,_) => applyBlocks world rest

def worldAfter (world : World) (txs : List SignedTx) : Option World :=
  (applyTxs world txs).map Prod.fst

theorem worldAfter_cons (world : World) (signed : SignedTx) (rest : List SignedTx) :
    worldAfter world (signed :: rest) = (applyTx world signed).bind fun r => worldAfter r.1 rest := by
  rw [worldAfter,applyTxs]
  cases applyTx world signed with
  | none => rfl
  | some r =>
    obtain ⟨middle,receipt⟩ := r
    dsimp only [Option.bind_some]
    rw [worldAfter]
    cases applyTxs middle rest <;> rfl

theorem worldAfter_append (world : World) (txs more : List SignedTx) :
    worldAfter world (txs ++ more) = (worldAfter world txs).bind fun w => worldAfter w more := by
  induction txs generalizing world with
  | nil => rfl
  | cons signed rest ih =>
    rw [List.cons_append,worldAfter_cons,worldAfter_cons,Option.bind_assoc]
    congr 1
    funext r
    exact ih r.1

theorem applyBlocks_eq (world : World) (blocks : List Block) :
    applyBlocks world blocks = worldAfter world (blocks.flatMap Block.txs) := by
  induction blocks generalizing world with
  | nil => rfl
  | cons block rest ih =>
    rw [List.flatMap_cons,worldAfter_append,applyBlocks,applyBlock,worldAfter]
    cases applyTxs world block.txs with
    | none => rfl
    | some r => exact ih r.1

theorem applyBlocks_append (world : World) (blocks more : List Block) :
    applyBlocks world (blocks ++ more) = (applyBlocks world blocks).bind (applyBlocks · more) := by
  simp only [applyBlocks_eq,List.flatMap_append,worldAfter_append]

/-- What every outcome keeps, every chain keeps. -/
theorem worldAfter_keep {P : World → Prop} {txs : List SignedTx} {world world' : World}
    (keeps : ∀ world signed world' receipt, signed ∈ txs → applyTx world signed = some (world',receipt) →
      P world → P world')
    (reached : worldAfter world txs = some world') (holds : P world) : P world' := by
  induction txs generalizing world with
  | nil =>
    cases reached
    exact holds
  | cons signed rest ih =>
    rw [worldAfter_cons] at reached
    obtain ⟨⟨middle,receipt⟩,applied,later⟩ := Option.bind_eq_some_iff.mp reached
    exact ih (fun w s w' r listed => keeps w s w' r (List.mem_cons_of_mem _ listed)) later
      (keeps world signed middle receipt (List.mem_cons_self ..) applied holds)

end Seq

namespace Replay

variable [Wasm] [Blake3] [Ed25519]

theorem applyBlocks_of_execute {world : World} {app : Hash} {steps : List (Block × Hash)}
    {r : World × Hash} (ran : execute Seq.applyBlock world app steps = some r) :
    Seq.applyBlocks world (steps.map Prod.fst) = some r.1 := by
  induction steps generalizing world app with
  | nil =>
    cases ran
    rfl
  | cons step rest ih =>
    obtain ⟨block,expected⟩ := step
    rw [execute] at ran
    rw [List.map_cons,Seq.applyBlocks]
    split at ran
    · cases ran
    rename_i applied
    split at ran
    · rw [applied]
      exact ih ran
    · cases ran

/-- A replayed world is the execution of the stored blocks. -/
theorem replayed_executed {store : Store} {g : Genesis} {world : World} {app : Hash}
    (done : replayFromGenesis Seq.applyBlock store g (.fromGenesis g) = some (.ok (world,app))) :
    ∃ blocks, Seq.applyBlocks (.fromGenesis g) blocks = some world := by
  obtain ⟨-,⟨-,same⟩ | ⟨last,steps,-,-,-,-,ran⟩⟩ := replayFromGenesis_ok_iff.mp done
  · cases same
    exact ⟨[],rfl⟩
  · exact ⟨_,applyBlocks_of_execute ran⟩

end Replay

namespace Live

open Wire

variable [Bls] [Wasm] [Blake3] [Ed25519]

/-- The world of a node is the execution of a chain, for a validator of the blocks it has
committed; and the pending block extends it. -/
structure Follows (cfg : NodeConfig) (s : Live × List Vote) : Prop where
  config : s.1.cfg = cfg
  chain : ∃ blocks, Seq.applyBlocks (.fromGenesis cfg.genesis) blocks = some s.1.world ∧
    (s.1.isValidator = true → blocks = s.1.committed.map BodyOffer.block)
  pending : s.1.isValidator = true → ∀ p built, s.1.pending = some (p,built) →
    Builder.Executes cfg.genesis s.1.world built

namespace Follows

variable {cfg : NodeConfig} {node : Live} {sent sent' : List Vote}

theorem frame {after : Live} (follows : Follows cfg (node,sent)) (config : after.cfg = node.cfg)
    (world : after.world = node.world) (committed : after.committed = node.committed)
    (pending : after.pending = node.pending) : Follows cfg (after,sent') := by
  obtain ⟨given,⟨blocks,ran,own⟩,waiting⟩ := follows
  have member : after.isValidator = node.isValidator := by rw [isValidator,validators,config]; rfl
  refine ⟨config.trans given,⟨blocks,?_,fun inside => ?_⟩,fun inside p built held => ?_⟩
  · rw [world]
    exact ran
  · rw [committed]
    exact own (member ▸ inside)
  · rw [world]
    exact waiting (member ▸ inside) p built (pending ▸ held)

theorem adopt (follows : Follows cfg (node,sent)) {p : Proposal} {built : BuiltBlock}
    (executes : Builder.Executes node.cfg.genesis node.world built) :
    Follows cfg (node.adopt p built,sent') := by
  refine ⟨follows.config,follows.chain,fun _ p' built' held => ?_⟩
  cases held
  rw [← follows.config]
  exact executes

end Follows

variable [Vrf]

theorem follows_move {e : NodeEvent} {node after : Live} {votes sent : List Vote}
    {cfg : NodeConfig} (move : Move e node after votes) (before : Follows cfg (node,sent)) :
    Follows cfg (after,votes ++ sent) := by
  cases move with
  | pool pool => exact before.frame rfl rfl rfl rfl
  | vote v said =>
    obtain ⟨replay,-,same | ⟨-,-,⟨-,same⟩ | ⟨-,same⟩⟩⟩ := receiveVote_cases node v
    all_goals
      rw [same]
      exact before.frame rfl rfl rfl rfl
  | proposal p built said height round free rebuilt =>
    exact before.adopt (builtFromProposal_some rebuilt).2.1
  | offer offer said => exact before.frame rfl rfl rfl rfl
  | catchup after said outsider done =>
    rcases tryCatchup_cases done with rfl | ⟨bodies,result,store,-,-,⟨-,rfl⟩ |
      ⟨app,last,world,-,-,replayed,rfl⟩⟩
    · exact before.frame rfl rfl rfl rfl
    · exact before.frame rfl rfl rfl rfl
    · have never {p : Prop} (member : node.isValidator = true) : p :=
        absurd (outsider.symm.trans member) (by decide)
      rw [before.config] at replayed
      obtain ⟨blocks,ran⟩ := Replay.replayed_executed replayed
      exact ⟨before.config,⟨blocks,ran,never⟩,fun member => never member⟩
  | propose src srcPk proof readings p built pool source key free done =>
    obtain ⟨-,-,-,-,-,-,-,-,made,-⟩ := wirePropose_ok done
    have same : Follows cfg ({ node with pool },sent) := before.frame rfl rfl rfl rfl
    exact same.adopt (Builder.buildLocal_some made).2
  | prevote prop built held =>
    obtain ⟨replay,prevotes,same⟩ := castPrevote_frame node prop
    rw [same]
    exact before.frame rfl rfl rfl rfl
  | precommit prop built held =>
    obtain ⟨replay,precommits,same⟩ := castPrecommit_frame node prop
    rw [same]
    exact before.frame rfl rfl rfl rfl
  | commit prop built member held after done =>
    rcases tryCommit_cases done with rfl | ⟨f,commits,-,rfl | ⟨store,-,rfl⟩⟩
    · exact before.frame rfl rfl rfl rfl
    · exact before.frame rfl rfl rfl rfl
    · obtain ⟨blocks,ran,own⟩ := before.chain
      refine ⟨before.config,⟨_,?_,fun _ => rfl⟩,fun _ p b none => nomatch none⟩
      dsimp only
      rw [List.map_append,Seq.applyBlocks_append,← own member,ran]
      simp only [List.map_cons,List.map_nil,Option.bind_some,Seq.applyBlocks,
        (before.pending member prop built held).applied]

/-- A node holds the execution of a chain at all times. -/
theorem follows_run {cfg : NodeConfig} {node : Live} (started : start cfg = some node)
    (events : List NodeEvent) : Follows cfg (Runs.run advance (node,[]) events) := by
  have first : Follows cfg (node,[]) := by
    obtain ⟨pool,-,rfl⟩ := Option.map_eq_some_iff.mp started
    exact ⟨rfl,⟨[],rfl,fun _ => rfl⟩,fun _ _ _ none => nomatch none⟩
  have keeps (s : Live × List Vote) (e : NodeEvent) (held : Follows cfg s) (_ : True) :
      Follows cfg (advance s e) := advance_keep held fun _ _ _ _ => follows_move
  exact Runs.keep first keeps fun _ _ _ => trivial

end Live
end L1
