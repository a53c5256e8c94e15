import L1.Gossip
import L1.Runs
import L1.Wire

/-! The event loop of a node: gossip bytes, ticks of the clock, and what each does to the state. -/
namespace L1

open Steps Wire

section Node

variable [Bls]

structure NodeConfig where
  genesis : Genesis
  blsSk : Bls.SecretKey
  ourId : ValidatorId
  vrfSk : Vector UInt8 32
  vrfSecrets : Map ValidatorId (Vector UInt8 32)
  vrfPks : Map ValidatorId (Vector UInt8 32)

structure Live where
  cfg : NodeConfig
  store : Store
  pool : Mempool
  world : World
  replay : VoteReplayLog
  commits : CommitLog
  height : Height
  round : Round
  lastHash : Hash
  lastTs : U64
  pending : Option (Proposal × BuiltBlock)
  prevotes : List Vote
  precommits : List Vote
  committed : List BodyOffer
  syncOffers : Map U64 BodyOffer

structure Readings where
  /-- Two seconds since the start. -/
  warm : Bool
  /-- The least time between blocks since the last commit. -/
  paced : Bool
  ts : U64
  now : U64

inductive NodeEvent where
  | bytes (data : Bytes)
  | tick (readings : Readings)

/-- What an event says, if it is a message. -/
def NodeEvent.message : NodeEvent → Option Gossip.Message
  | .bytes data => Gossip.read data
  | .tick _ => none

namespace Live

def validators (node : Live) : ValidatorSet := node.cfg.genesis.validators

def isValidator (node : Live) : Bool := (node.validators[node.cfg.ourId]?).isSome

section Start

variable [Blake3]

def fresh (cfg : NodeConfig) (pool : Mempool) : Live where
  cfg
  store := initStore ∅ cfg.genesis
  pool
  world := .fromGenesis cfg.genesis
  replay := ∅
  commits := ∅
  height := 0
  round := 0
  lastHash := cfg.genesis.hash
  lastTs := 0
  pending := none
  prevotes := []
  precommits := []
  committed := []
  syncOffers := ∅

/-- Starting panics on a registry without a gas limit. -/
def start (cfg : NodeConfig) : Option Live :=
  (Mempool.new cfg.genesis.params.registry).map (fresh cfg)

def seed (node : Live) : VrfSeed := roundSeed node.lastHash

def adopt (node : Live) (proposal : Proposal) (built : BuiltBlock) : Live :=
  { node with pending := some (proposal,built), prevotes := [], precommits := [] }

/-- A vote from gossip. The verdict on it is dropped; only the slot decides. -/
def receiveVote (node : Live) (v : Vote) : Live :=
  let node := { node with replay := (wireIngestVote v node.replay).toOption.getD node.replay }
  if v.height = node.height ∧ v.round = node.round then
    match v.kind with
    | .prevote => { node with prevotes := insertVoteSorted node.prevotes v }
    | .precommit => { node with precommits := insertVoteSorted node.precommits v }
  else node

end Start

section Gossip

variable [Wasm] [Blake3] [Ed25519]

/-- A transaction from gossip, checked against the account of its sender. -/
def receiveTx (node : Live) (signed : SignedTx) : Live :=
  let account := match Mempool.senderAddress signed with
    | .ok addr => node.world.account addr
    | .error _ => .empty
  match Mempool.wireMempool signed account node.pool with
  | .ok pool => { node with pool }
  | .error _ => node

/-- A proposal from gossip takes the free slot if its block can be rebuilt. -/
def receiveProposal (node : Live) (p : Proposal) : Option Live :=
  if p.height = node.height ∧ p.round = node.round ∧ node.pending.isNone then
    match builtFromProposal node.cfg.genesis node.world p with
    | none => none
    | some none => some node
    | some (some built) => some (node.adopt p built)
  else some node

def offeredChain (node : Live) : Option (List BodyOffer) :=
  let entries := node.syncOffers.toList
  if entries = [] then none
  else if (entries.map fun e => e.1.toNat) = List.range entries.length then
    some (entries.map Prod.snd)
  else none

def tryCatchup (node : Live) : Option Live :=
  match node.offeredChain with
  | none => some node
  | some bodies => match Sync.catchup node.cfg.genesis node.store (bodies.map BodyOffer.header) bodies with
    | none => none
    | some (.error _,store) => some { node with store }
    | some (.ok _,store) => match bodies.getLast? with
      | none => some { node with store }
      | some last =>
        match Replay.replayFromGenesis Seq.applyBlock store node.cfg.genesis
          (.fromGenesis node.cfg.genesis) with
        | none => none
        | some replayed => some { node with
            store
            world := match replayed with
              | .ok (world,_) => world
              | .error _ => node.world
            height := saturatingNext last.header.fields.height
            lastHash := last.header.hash
            lastTs := last.header.fields.timestampMs }

def receiveOffer (node : Live) (offer : BodyOffer) : Option Live :=
  let node := { node with syncOffers := node.syncOffers.insert offer.header.fields.height offer }
  if node.isValidator then some node else node.tryCatchup

def receive (node : Live) : Gossip.Message → Option Live
  | .tx signed => some (node.receiveTx signed)
  | .vote v => some (node.receiveVote v)
  | .proposal p => node.receiveProposal p
  | .block offer => node.receiveOffer offer

/-- Handle the bytes of one gossip message. `none` is a panic. -/
def handleBytes (node : Live) (data : Bytes) : Option Live :=
  match Gossip.read data with
  | none => some node
  | some message => node.receive message

end Gossip

section Votes

variable [Blake3] [Vrf]

/-- Prevote the pending proposal unless a prevote under our name is there. The vote returned is
the one that was sent. -/
def castPrevote (node : Live) (prop : Proposal) : Live × List Vote :=
  if node.prevotes.all fun v => v.signer ≠ node.cfg.ourId then
    match wireVote node.validators node.cfg.blsSk node.cfg.ourId prop node.cfg.vrfPks node.seed
      node.height node.round none node.replay with
    | (.ok v,replay) => ({ node with replay, prevotes := insertVoteSorted node.prevotes v },[v])
    | (.error _,replay) => ({ node with replay },[])
  else (node,[])

/-- Precommit once three prevotes are there, whatever they are. -/
def castPrecommit (node : Live) (prop : Proposal) : Live × List Vote :=
  if 3 ≤ node.prevotes.length ∧ (node.precommits.all fun v => v.signer ≠ node.cfg.ourId) then
    match wirePrecommit node.validators node.cfg.blsSk node.cfg.ourId node.height node.round
      node.prevotes prop.header node.replay with
    | (.ok (pc,_),replay) => ({ node with replay, precommits := insertVoteSorted node.precommits pc },[pc])
    | (.error _,replay) => ({ node with replay },[])
  else (node,[])

/-- Commit once three precommits are there, and move to the next height. -/
def tryCommit (node : Live) (prop : Proposal) (built : BuiltBlock) : Option Live :=
  if 3 ≤ node.precommits.length then
    match wireCommit node.precommits node.validators node.validators.totalPower prop node.commits
      node.store built.block built.encodedReceipts with
    | none => none
    | some (.ok (some f),commits,store) => some { node with
        commits
        store
        world := built.world
        lastHash := f.blockHash
        lastTs := prop.header.fields.timestampMs
        height := saturatingNext f.height
        round := 0
        pending := none
        prevotes := []
        precommits := []
        committed := node.committed ++ [⟨prop.header,built.block,built.encodedReceipts,f.appHash⟩] }
    | some (_,commits,store) => some { node with commits, store }
  else some node

/-- Drive the pending proposal as far as the votes allow. -/
def maybeVoteAndCommit (node : Live) : Option (Live × List Vote) :=
  match node.pending with
  | none => some (node,[])
  | some (prop,built) =>
    let (node,prevotes) := node.castPrevote prop
    let (node,precommits) := node.castPrecommit prop
    (node.tryCommit prop built).map fun node => (node,precommits ++ prevotes)

end Votes

section Tick

variable [Wasm] [Blake3] [Ed25519] [Vrf]

/-- Propose if the slot is free and the lottery selects us. The inner `none` is a lottery that
gives no answer, which ends the tick. -/
def maybePropose (node : Live) (readings : Readings) : Option (Option Live) :=
  match roundVrfSource node.validators node.round with
  | none => some none
  | some src => match node.cfg.vrfPks[src]? with
    | none => some none
    | some srcPk =>
      match leaderProve ((node.cfg.vrfSecrets[src]?).getD node.cfg.vrfSk) node.seed src with
      | .error _ => some none
      | .ok (_,proof) => match weightedLeader srcPk node.seed src proof node.validators with
        | .error _ => some none
        | .ok winner =>
          if winner = node.cfg.ourId ∧ node.pending.isNone then
            match wirePropose node.cfg.genesis node.cfg.blsSk node.cfg.ourId src srcPk proof node.seed
              node.height node.round readings.ts readings.now node.lastTs node.world node.pool with
            | none => none
            | some (.ok (p,built),pool) => some (some ({ node with pool }.adopt p built))
            | some (.error _,pool) => some (some { node with pool })
          else some (some node)

/-- One turn of the clock, with the votes it sent. `none` is a panic. -/
def tick (node : Live) (readings : Readings) : Option (Live × List Vote) :=
  if node.isValidator = false then some (node,[])
  else if readings.warm = false ∨ readings.paced = false then node.maybeVoteAndCommit
  else match node.maybePropose readings with
    | none => none
    | some none => some (node,[])
    | some (some node) => node.maybeVoteAndCommit

def step (node : Live) : NodeEvent → Option (Live × List Vote)
  | .bytes data => (node.handleBytes data).map fun node => (node,[])
  | .tick readings => node.tick readings

/-- A node with the votes it has sent. An event that panics has no next state. -/
def advance (s : Live × List Vote) (e : NodeEvent) : Live × List Vote :=
  match s.1.step e with
  | none => s
  | some (node,votes) => (node,votes ++ s.2)

end Tick
/-! All that an event can do, as a sequence of moves. -/

section Moves

variable [Wasm] [Blake3] [Ed25519] [Vrf]

inductive Move (e : NodeEvent) (node : Live) : Live → List Vote → Prop where
  | pool (pool : Mempool) : Move e node { node with pool } []
  | vote (v : Vote) (said : e.message = some (.vote v)) : Move e node (node.receiveVote v) []
  | proposal (p : Proposal) (built : BuiltBlock) (said : e.message = some (.proposal p))
      (height : p.height = node.height) (round : p.round = node.round) (free : node.pending = none)
      (rebuilt : builtFromProposal node.cfg.genesis node.world p = some (some built)) :
      Move e node (node.adopt p built) []
  | offer (offer : BodyOffer) (said : e.message = some (.block offer)) :
      Move e node
        { node with syncOffers := node.syncOffers.insert offer.header.fields.height offer } []
  | catchup (after : Live) (said : ∃ offer, e.message = some (.block offer))
      (outsider : node.isValidator = false) (done : node.tryCatchup = some after) : Move e node after []
  | propose (src : ValidatorId) (srcPk : Vector UInt8 32) (proof : VrfProof) (readings : Readings)
      (p : Proposal) (built : BuiltBlock) (pool : Mempool)
      (source : roundVrfSource node.validators node.round = some src)
      (key : node.cfg.vrfPks[src]? = some srcPk) (free : node.pending = none)
      (done : wirePropose node.cfg.genesis node.cfg.blsSk node.cfg.ourId src srcPk proof node.seed
        node.height node.round readings.ts readings.now node.lastTs node.world node.pool =
          some (.ok (p,built),pool)) :
      Move e node ({ node with pool }.adopt p built) []
  | prevote (prop : Proposal) (built : BuiltBlock) (held : node.pending = some (prop,built)) :
      Move e node (node.castPrevote prop).1 (node.castPrevote prop).2
  | precommit (prop : Proposal) (built : BuiltBlock) (held : node.pending = some (prop,built)) :
      Move e node (node.castPrecommit prop).1 (node.castPrecommit prop).2
  | commit (prop : Proposal) (built : BuiltBlock) (member : node.isValidator = true)
      (held : node.pending = some (prop,built)) (after : Live)
      (done : node.tryCommit prop built = some after) : Move e node after []

/-- Moves one after the other; the votes sent last come first. -/
inductive Moves (e : NodeEvent) (node : Live) : Live → List Vote → Prop where
  | done : Moves e node node []
  | next {middle after : Live} {earlier later : List Vote} (moves : Moves e node middle earlier)
      (move : Move e middle after later) : Moves e node after (later ++ earlier)

variable {node after : Live} {e : NodeEvent} {votes : List Vote}

theorem Moves.one (move : Move e node after votes) : Moves e node after votes := by
  simpa using Moves.done.next move

omit [Wasm] [Ed25519] in
theorem castPrevote_frame (node : Live) (prop : Proposal) :
    ∃ replay prevotes, (node.castPrevote prop).1 = { node with replay, prevotes } := by
  unfold castPrevote
  split
  · split <;> exact ⟨_,_,rfl⟩
  · exact ⟨_,_,rfl⟩

omit [Wasm] [Ed25519] [Vrf] in
theorem castPrecommit_frame (node : Live) (prop : Proposal) :
    ∃ replay precommits, (node.castPrecommit prop).1 = { node with replay, precommits } := by
  unfold castPrecommit
  split
  · split <;> exact ⟨_,_,rfl⟩
  · exact ⟨_,_,rfl⟩

theorem moves_maybeVoteAndCommit {start : Live} {before : List Vote}
    (moved : Moves e start node before) (member : node.isValidator = true)
    (done : node.maybeVoteAndCommit = some (after,votes)) :
    Moves e start after (votes ++ before) := by
  unfold maybeVoteAndCommit at done
  split at done
  · cases done
    exact moved
  rename_i prop built held
  dsimp only at done
  obtain ⟨node',committed,same⟩ := Option.map_eq_some_iff.mp done
  cases same
  obtain ⟨replay₁,prevotes,first⟩ := castPrevote_frame node prop
  obtain ⟨replay₂,precommits,second⟩ := castPrecommit_frame (node.castPrevote prop).1 prop
  have one := moved.next (.prevote prop built held)
  have two := one.next (.precommit prop built (by rw [first]; exact held))
  have three := two.next (.commit prop built (by rw [second,first]; exact member)
    (by rw [second,first]; exact held) after committed)
  simpa using three

omit [Wasm] [Vrf] in
theorem receiveTx_frame (node : Live) (signed : SignedTx) :
    ∃ pool, node.receiveTx signed = { node with pool } := by
  unfold receiveTx
  dsimp only
  split
  · exact ⟨_,rfl⟩
  · exact ⟨node.pool,rfl⟩

omit [Vrf] in
theorem receiveProposal_cases {p : Proposal} (done : node.receiveProposal p = some after) :
    after = node ∨ (p.height = node.height ∧ p.round = node.round ∧ node.pending = none ∧
      ∃ built, builtFromProposal node.cfg.genesis node.world p = some (some built) ∧
        after = node.adopt p built) := by
  unfold receiveProposal at done
  split at done
  · rename_i slot
    split at done
    · cases done
    · cases done
      exact .inl rfl
    · rename_i built rebuilt
      cases done
      exact .inr ⟨slot.1,slot.2.1,Option.isNone_iff_eq_none.mp slot.2.2,built,rebuilt,rfl⟩
  · cases done
    exact .inl rfl

theorem moves_receive {message : Gossip.Message}
    (said : e.message = some message) (done : node.receive message = some after) :
    Moves e node after [] := by
  cases message with
  | tx signed =>
    cases done
    obtain ⟨pool,same⟩ := receiveTx_frame node signed
    rw [same]
    exact .one (.pool pool)
  | vote v =>
    cases done
    exact .one (.vote v said)
  | proposal p =>
    rcases receiveProposal_cases done with rfl | ⟨height,round,free,built,rebuilt,rfl⟩
    · exact .done
    · exact .one (.proposal p built said height round free rebuilt)
  | block offer =>
    have one := Moves.one (.offer offer said : Move e node _ [])
    change node.receiveOffer offer = _ at done
    unfold receiveOffer at done
    dsimp only at done
    split at done
    · cases done
      exact one
    · rename_i outsider
      exact one.next (.catchup after ⟨offer,said⟩ (by simpa using outsider) done)

theorem moves_maybePropose {readings : Readings}
    (done : node.maybePropose readings = some (some after)) :
    Moves e node after [] ∧ after.cfg = node.cfg := by
  unfold maybePropose at done
  split at done
  · cases done
  rename_i src source
  split at done
  · cases done
  rename_i srcPk key
  split at done
  · cases done
  rename_i proof proved
  split at done
  · cases done
  rename_i winner elected
  split at done
  · rename_i free
    split at done
    · cases done
    · rename_i p built pool proposed
      cases done
      exact ⟨.one (.propose src srcPk proof readings p built pool source key
        (Option.isNone_iff_eq_none.mp free.2) proposed),rfl⟩
    · cases done
      exact ⟨.one (.pool _),rfl⟩
  · cases done
    exact ⟨.done,rfl⟩

theorem moves_step (done : node.step e = some (after,votes)) : Moves e node after votes := by
  cases e with
  | bytes data =>
    obtain ⟨node',handled,same⟩ := Option.map_eq_some_iff.mp done
    cases same
    unfold handleBytes at handled
    split at handled
    · cases handled
      exact .done
    · rename_i message said
      exact moves_receive said handled
  | tick readings =>
    change node.tick readings = _ at done
    unfold tick at done
    split at done
    · cases done
      exact .done
    rename_i member
    have member : node.isValidator = true := by simpa using member
    split at done
    · simpa using moves_maybeVoteAndCommit .done member done
    split at done
    · cases done
    · cases done
      exact .done
    · rename_i middle proposed
      obtain ⟨moved,same⟩ := moves_maybePropose proposed
      simpa using moves_maybeVoteAndCommit moved
        (by rw [isValidator,validators,same]; exact member) done

/-- What every move keeps, every event keeps. -/
theorem advance_keep {P : Live × List Vote → Prop} {s : Live × List Vote} (before : P s)
    (keeps : ∀ node after votes sent, Move e node after votes → P (node,sent) →
      P (after,votes ++ sent)) : P (advance s e) := by
  unfold advance
  split
  · exact before
  rename_i stepped
  have moves := moves_step stepped
  clear stepped
  induction moves with
  | done => exact before
  | next _ move ih =>
    rw [List.append_assoc]
    exact keeps _ _ _ _ move ih

theorem advance_bytes (node : Live) (sent : List Vote) (data : Bytes) :
    advance (node,sent) (.bytes data) = ((node.handleBytes data).getD node,sent) := by
  simp only [advance,step]
  cases node.handleBytes data <;> rfl

end Moves

/-! The moves in terms of the fields they change. -/

section Effects

variable [Blake3]

omit [Bls] [Blake3] in
theorem mem_insertVoteSorted {votes : List Vote} {v w : Vote} : w ∈ insertVoteSorted votes v ↔
      w ∈ votes ∨ (w = v ∧ ∀ x ∈ votes, x.signer = v.signer → x.kind ≠ v.kind) := by
  unfold insertVoteSorted
  split
  · rename_i taken
    obtain ⟨x,listed,same⟩ := List.any_eq_true.mp taken
    have both : x.signer = v.signer ∧ x.kind = v.kind := by simpa using same
    constructor
    · exact .inl
    · rintro (old | ⟨-,free⟩)
      · exact old
      · exact absurd both.2 (free x listed both.1)
  · rename_i open_
    have free : ∀ x ∈ votes, x.signer = v.signer → x.kind ≠ v.kind := by simpa using open_
    rw [List.mem_insertionSort,List.mem_append,List.mem_singleton]
    constructor
    · rintro (old | same)
      · exact .inl old
      · exact .inr ⟨same,free⟩
    · rintro (old | ⟨same,-⟩)
      · exact .inl old
      · exact .inr same

theorem receiveVote_cases (node : Live) (v : Vote) : ∃ replay, Extends node.replay replay ∧
      (node.receiveVote v = { node with replay } ∨
      (v.height = node.height ∧ v.round = node.round ∧
        ((v.kind = .prevote ∧
          node.receiveVote v = { node with replay, prevotes := insertVoteSorted node.prevotes v }) ∨
        (v.kind = .precommit ∧
          node.receiveVote v = { node with replay, precommits := insertVoteSorted node.precommits v })))) := by
  refine ⟨(wireIngestVote v node.replay).toOption.getD node.replay,?_,?_⟩
  · cases checked : wireIngestVote v node.replay with
    | error e => exact Extends.rfl
    | ok log =>
      unfold wireIngestVote at checked
      split at checked
      · cases checked
      · rename_i passed
        cases checked
        exact (VoteReplayLog.observe_ok (ingestVote_ok passed).2).2
  · by_cases slot : v.height = node.height ∧ v.round = node.round
    · refine .inr ⟨slot.1,slot.2,?_⟩
      cases kind : v.kind with
      | prevote => exact .inl ⟨rfl,by simp only [receiveVote,slot,kind,and_self,if_true]⟩
      | precommit => exact .inr ⟨rfl,by simp only [receiveVote,slot,kind,and_self,if_true]⟩
    · exact .inl (by simp only [receiveVote,slot,if_false])

theorem castPrecommit_cases (node : Live) (prop : Proposal) : ∃ replay, Extends node.replay replay ∧
      (node.castPrecommit prop = ({ node with replay },[]) ∨
      ∃ v, Released node.validators node.cfg.ourId node.height node.round .precommit v replay ∧
        (v.block = .nil ∨ (v.block = .block prop.header.hash ∧
          polka node.prevotes node.validators = some (.block prop.header.hash))) ∧
        node.castPrecommit prop =
          ({ node with replay, precommits := insertVoteSorted node.precommits v },[v])) := by
  unfold castPrecommit
  split
  · split
    · rename_i v lock replay returned
      obtain ⟨grown,sent⟩ := wirePrecommit_spec returned
      obtain ⟨released,block⟩ := sent v lock rfl
      exact ⟨replay,grown,.inr ⟨v,released,block,rfl⟩⟩
    · rename_i replay returned
      exact ⟨replay,(wirePrecommit_spec returned).1,.inl rfl⟩
  · exact ⟨node.replay,Extends.rfl,.inl rfl⟩

/-- A commit either happens as a whole, or leaves at most its record. -/
theorem tryCommit_cases {node after : Live} {prop : Proposal} {built : BuiltBlock}
    (done : node.tryCommit prop built = some after) : after = node ∨
    ∃ f commits, commit node.precommits node.validators node.validators.totalPower prop node.commits =
        some (.ok (some (f,commits))) ∧
      (after = { node with commits } ∨
      ∃ store, Sync.persistThenBroadcast node.store
          ⟨prop.header,built.block,built.encodedReceipts,f.appHash⟩ = some (.ok (),store) ∧
        after = { node with
          commits
          store
          world := built.world
          lastHash := f.blockHash
          lastTs := prop.header.fields.timestampMs
          height := saturatingNext f.height
          round := 0
          pending := none
          prevotes := []
          precommits := []
          committed := node.committed ++ [⟨prop.header,built.block,built.encodedReceipts,f.appHash⟩] }) := by
  unfold tryCommit at done
  split at done
  · split at done
    · cases done
    · rename_i f commits store returned
      cases done
      rcases wireCommit_spec returned with ⟨-,-,never⟩ | ⟨f',committed,⟨-,never⟩ | ⟨same,stored⟩⟩
      · exact absurd rfl (never f)
      · exact absurd rfl (never f)
      · cases same
        exact .inr ⟨f,commits,committed,.inr ⟨store,stored,rfl⟩⟩
    · rename_i r commits store never returned
      cases done
      rcases wireCommit_spec returned with ⟨rfl,rfl,-⟩ | ⟨f,committed,⟨rfl,-⟩ | ⟨same,-⟩⟩
      · exact .inl rfl
      · exact .inr ⟨f,commits,committed,.inl rfl⟩
      · exact absurd same (never f)
  · cases done
    exact .inl rfl

theorem castPrevote_cases [Vrf] (node : Live) (prop : Proposal) :
    ∃ replay, Extends node.replay replay ∧
      (node.castPrevote prop = ({ node with replay },[]) ∨
      ∃ v, Released node.validators node.cfg.ourId node.height node.round .prevote v replay ∧
        v.block = .block prop.header.hash ∧
        ingestValidatorProposal node.validators prop = .ok () ∧
        (∃ pk, node.cfg.vrfPks[prop.vrfSource]? = some pk ∧
          verifyLeader prop pk node.seed node.validators = true) ∧
        node.castPrevote prop =
          ({ node with replay, prevotes := insertVoteSorted node.prevotes v },[v])) := by
  unfold castPrevote
  split
  · split
    · rename_i v replay returned
      obtain ⟨grown,sent⟩ := wireVote_spec returned
      obtain ⟨released,block,accepted,leader⟩ := sent v rfl
      exact ⟨replay,grown,.inr ⟨v,released,block,accepted,leader,rfl⟩⟩
    · rename_i replay returned
      exact ⟨replay,(wireVote_spec returned).1,.inl rfl⟩
  · exact ⟨node.replay,Extends.rfl,.inl rfl⟩

/-- Catching up touches the chain and the place in it, and nothing that was voted on. -/
theorem tryCatchup_cases [Wasm] [Ed25519] {node after : Live} (done : node.tryCatchup = some after) :
    after = node ∨
    ∃ bodies result store, node.offeredChain = some bodies ∧
      Sync.catchup node.cfg.genesis node.store (bodies.map BodyOffer.header) bodies =
        some (result,store) ∧
      (((∃ e, result = .error e) ∧ after = { node with store }) ∨
      ∃ app last world, result = .ok app ∧ bodies.getLast? = some last ∧
        Replay.replayFromGenesis Seq.applyBlock store node.cfg.genesis (.fromGenesis node.cfg.genesis) =
          some (.ok (world,app)) ∧
        after = { node with
          store
          world
          height := saturatingNext last.header.fields.height
          lastHash := last.header.hash
          lastTs := last.header.fields.timestampMs }) := by
  unfold tryCatchup at done
  split at done
  · cases done
    exact .inl rfl
  rename_i bodies offered
  right
  split at done
  · cases done
  · rename_i e store failed
    cases done
    exact ⟨bodies,_,store,offered,failed,.inl ⟨⟨e,rfl⟩,rfl⟩⟩
  rename_i app store caught
  have replayed : ∃ world, Replay.replayFromGenesis Seq.applyBlock store node.cfg.genesis
      (.fromGenesis node.cfg.genesis) = some (.ok (world,app)) := by
    unfold Sync.catchup at caught
    split at caught
    · cases caught
    · cases caught
    split at caught
    · cases caught
    · cases caught
    rename_i replayed
    cases caught
    exact ⟨_,replayed⟩
  obtain ⟨world,replayed⟩ := replayed
  refine ⟨bodies,.ok app,store,offered,caught,?_⟩
  split at done
  · rename_i none
    -- an offered chain has an entry
    unfold offeredChain at offered
    dsimp only at offered
    split at offered
    · cases offered
    rename_i filled
    split at offered
    · cases offered
      rw [List.getLast?_eq_none_iff,List.map_eq_nil_iff] at none
      exact absurd none filled
    · cases offered
  rename_i last found
  rw [replayed] at done
  cases done
  exact .inr ⟨app,last,world,rfl,found,replayed,rfl⟩

end Effects

end Live
end Node
end L1
