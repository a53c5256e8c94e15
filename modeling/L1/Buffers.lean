import L1.Followers

/-! What a node holds while it waits for a commit: the votes in its buffers and the pending
proposal. Gossip fills both without a check of signatures. -/
namespace L1.Live

open Steps Wire

section Buffers

variable [Bls]

def Buffered (node : Live) (v : Vote) : Prop := v ∈ node.prevotes ∨ v ∈ node.precommits

/-- A vote of the current slot with a signature of its own, by a member, and by this node only if
it was sent. -/
structure Authentic (s : Live × List Vote) (v : Vote) : Prop where
  height : v.height = s.1.height
  round : v.round = s.1.round
  verified : verifySignature v = .ok ()
  member : v.signer ∈ s.1.validators.members
  own : v.signer = s.1.cfg.ourId → v ∈ s.2

def VotesAuthentic (s : Live × List Vote) : Prop := ∀ v, s.1.Buffered v → Authentic s v

def bufferOf (node : Live) : VoteKind → List Vote
  | .prevote => node.prevotes
  | .precommit => node.precommits

/-- A vote for which there is room: of the current slot, and the first of its signer. -/
def HasRoom (node : Live) (v : Vote) : Prop :=
  v.height = node.height ∧ v.round = node.round ∧
    ∀ x ∈ node.bufferOf v.kind, x.signer = v.signer → x.kind ≠ v.kind

/-- What a node can vote for: signed by the proposer, who leads the current slot. -/
structure Votable [Blake3] [Vrf] (node : Live) (p : Proposal) : Prop where
  signed : SignedByProposer p
  height : p.height = node.height
  round : p.round = node.round
  leader : ∃ pk, node.cfg.vrfPks[p.vrfSource]? = some pk ∧
    verifyLeader p pk node.seed node.validators = true

section Vote

variable [Blake3]

theorem buffered_receiveVote (node : Live) (v w : Vote) :
    (node.receiveVote v).Buffered w ↔ node.Buffered w ∨ (w = v ∧ node.HasRoom v) := by
  unfold Buffered HasRoom receiveVote
  dsimp only
  by_cases slot : v.height = node.height ∧ v.round = node.round
  · rw [if_pos slot]
    cases kind : v.kind with
    | prevote =>
      simp only [mem_insertVoteSorted,bufferOf,kind,slot,true_and]
      tauto
    | precommit =>
      simp only [mem_insertVoteSorted,bufferOf,kind,slot,true_and]
      tauto
  · rw [if_neg slot]
    tauto

theorem receiveVote_frame (node : Live) (v : Vote) :
    (node.receiveVote v).height = node.height ∧ (node.receiveVote v).round = node.round ∧
    (node.receiveVote v).cfg = node.cfg ∧ (node.receiveVote v).pending = node.pending ∧
    (node.receiveVote v).lastHash = node.lastHash := by
  obtain ⟨replay,-,same | ⟨-,-,⟨-,same⟩ | ⟨-,same⟩⟩⟩ := receiveVote_cases node v <;>
    simp [same]

/-- A vote from gossip leaves the buffers authentic exactly when it is authentic itself, or there
is no room for it. -/
theorem votesAuthentic_receiveVote {node : Live} {sent : List Vote} (v : Vote)
    (before : VotesAuthentic (node,sent)) : VotesAuthentic (node.receiveVote v,sent) ↔
      (node.HasRoom v → verifySignature v = .ok () ∧ v.signer ∈ node.validators.members ∧
        (v.signer = node.cfg.ourId → v ∈ sent)) := by
  obtain ⟨height,round,cfg,-,-⟩ := receiveVote_frame node v
  have moved {w : Vote} : Authentic (node.receiveVote v,sent) w ↔ Authentic (node,sent) w := by
    constructor
    · rintro ⟨h,r,signed,member,own⟩
      exact ⟨h.trans height,r.trans round,signed,by simpa [validators,cfg] using member,
        by simpa [cfg] using own⟩
    · rintro ⟨h,r,signed,member,own⟩
      exact ⟨h.trans height.symm,r.trans round.symm,signed,by simpa [validators,cfg] using member,
        by simpa [cfg] using own⟩
  constructor
  · intro after room
    have mine := moved.mp (after v ((buffered_receiveVote node v v).mpr (.inr ⟨rfl,room⟩)))
    exact ⟨mine.verified,mine.member,mine.own⟩
  · intro authentic w held
    rw [moved]
    rcases (buffered_receiveVote node v w).mp held with old | ⟨rfl,room⟩
    · exact before w old
    · obtain ⟨signed,member,own⟩ := authentic room
      exact ⟨room.1,room.2.1,signed,member,own⟩

end Vote

section Ticks

variable [Wasm] [Blake3] [Ed25519] [Vrf]

variable {node after : Live} {sent : List Vote} {v : Vote} {readings : Readings} {p : Proposal}

omit [Wasm] [Ed25519] [Vrf] in
theorem Authentic.released {kind : VoteKind} {replay : VoteReplayLog} (sent : List Vote)
    (released : Released node.validators node.cfg.ourId node.height node.round kind v replay) :
    Authentic (node,v :: sent) v :=
  ⟨released.slot.1,released.slot.2.1,released.verified,released.member,fun _ => List.mem_cons_self ..⟩

omit [Wasm] [Blake3] [Ed25519] [Vrf] in
theorem Authentic.grow {more : List Vote}
    (authentic : Authentic (node,sent) v) : Authentic (node,more ++ sent) v :=
  { authentic with own := fun mine => List.mem_append_right _ (authentic.own mine) }

/-- The clock alone never brings in a vote that is not authentic. -/
theorem votesAuthentic_tick {votes : List Vote}
    (move : Move (.tick readings) node after votes) (before : VotesAuthentic (node,sent)) :
    VotesAuthentic (after,votes ++ sent) := by
  cases move with
  | pool pool => exact fun v held => { before v held with }
  | vote v said => cases said
  | proposal p built said => cases said
  | offer offer said => cases said
  | catchup after said =>
    obtain ⟨offer,said⟩ := said
    cases said
  | propose =>
    rintro v (held | held)
    · cases held
    · cases held
  | prevote prop built held =>
    obtain ⟨replay,-,same | ⟨v,released,-,-,-,same⟩⟩ := castPrevote_cases node prop
    · rw [same]
      exact fun v held => { before v held with }
    · rw [same]
      rintro w (listed | listed)
      · rcases mem_insertVoteSorted.mp listed with old | ⟨rfl,-⟩
        · exact { (before w (.inl old)).grow with }
        · exact { Authentic.released sent released with }
      · exact { (before w (.inr listed)).grow with }
  | precommit prop built held =>
    obtain ⟨replay,-,same | ⟨v,released,-,same⟩⟩ := castPrecommit_cases node prop
    · rw [same]
      exact fun v held => { before v held with }
    · rw [same]
      rintro w (listed | listed)
      · exact { (before w (.inl listed)).grow with }
      · rcases mem_insertVoteSorted.mp listed with old | ⟨rfl,-⟩
        · exact { (before w (.inr old)).grow with }
        · exact { Authentic.released sent released with }
  | commit prop built _ held after done =>
    rcases tryCommit_cases done with rfl | ⟨f,commits,-,rfl | ⟨store,-,rfl⟩⟩
    · exact before
    · exact fun v held => { before v held with }
    · rintro v (held | held)
      · cases held
      · cases held

omit [Vrf] in
theorem receiveOffer_frame {offer : BodyOffer} (done : node.receiveOffer offer = some after) :
    after.prevotes = node.prevotes ∧ after.precommits = node.precommits ∧
      after.pending = node.pending ∧ after.round = node.round ∧ after.cfg = node.cfg := by
  unfold receiveOffer at done
  dsimp only at done
  split at done
  · cases done
    exact ⟨rfl,rfl,rfl,rfl,rfl⟩
  · rcases tryCatchup_cases done with rfl | ⟨bodies,result,store,-,-,⟨-,rfl⟩ | ⟨app,last,world,-,-,-,rfl⟩⟩
      <;> exact ⟨rfl,rfl,rfl,rfl,rfl⟩

def VoteCondition (s : Live × List Vote) (e : NodeEvent) : Prop :=
  match e.message with
  | some (.vote v) => s.1.HasRoom v → verifySignature v = .ok () ∧
      v.signer ∈ s.1.validators.members ∧ (v.signer = s.1.cfg.ourId → v ∈ s.2)
  | some (.block offer) => ∀ after, s.1.receiveOffer offer = some after →
      after.height = s.1.height ∨ ∀ v, ¬ s.1.Buffered v
  | _ => True

omit [Vrf] in
/-- An offer keeps the buffers authentic if it keeps the height, or if they are empty. -/
theorem votesAuthentic_receiveOffer (offer : BodyOffer) (before : VotesAuthentic (node,sent)) :
    VotesAuthentic ((node.receiveOffer offer).getD node,sent) ↔
      ∀ after, node.receiveOffer offer = some after →
        after.height = node.height ∨ ∀ v, ¬ node.Buffered v := by
  cases taken : node.receiveOffer offer with
  | none =>
          refine iff_of_true before fun _ same => ?_
          cases same
  | some after =>
    obtain ⟨prevotes,precommits,-,round,cfg⟩ := receiveOffer_frame taken
    have buffers (v : Vote) : after.Buffered v ↔ node.Buffered v := by
      rw [Buffered,Buffered,prevotes,precommits]
    simp only [Option.getD_some,Option.some.injEq,forall_eq']
    constructor
    · intro still
      by_contra moved
      push Not at moved
      obtain ⟨height,v,held⟩ := moved
      have here := before v held
      have there := still v ((buffers v).mpr held)
      exact height (there.height.symm.trans here.height)
    · intro kept v held
      rcases kept with height | empty
      · have here := before v ((buffers v).mp held)
        exact ⟨here.height.trans height.symm,here.round.trans round.symm,here.verified,
          by simpa [validators,cfg] using here.member,by simpa [cfg] using here.own⟩
      · exact absurd ((buffers v).mp held) (empty v)

omit [Vrf] in
theorem voteCondition_vote {s : Live × List Vote} {data : Bytes}
    (said : Gossip.read data = some (.vote v)) : VoteCondition s (.bytes data) ↔
      (s.1.HasRoom v → verifySignature v = .ok () ∧ v.signer ∈ s.1.validators.members ∧
        (v.signer = s.1.cfg.ourId → v ∈ s.2)) := by
  simp only [VoteCondition,NodeEvent.message,said]

theorem votesAuthentic_advance (s : Live × List Vote) (e : NodeEvent) (before : VotesAuthentic s) :
    VotesAuthentic (advance s e) ↔ VoteCondition s e := by
  obtain ⟨node,sent⟩ := s
  cases e with
  | tick readings =>
    exact iff_of_true (advance_keep before fun _ _ _ _ => votesAuthentic_tick) trivial
  | bytes data =>
    rw [advance_bytes]
    cases said : Gossip.read data with
    | none =>
      simp only [handleBytes,said,VoteCondition,NodeEvent.message,iff_true]
      exact before
    | some message =>
      simp only [handleBytes,said,VoteCondition,NodeEvent.message]
      cases message with
      | tx signed =>
        obtain ⟨pool,same⟩ := receiveTx_frame node signed
        simp only [receive,same,iff_true]
        exact fun v held => { before v held with }
      | vote v => exact votesAuthentic_receiveVote v before
      | proposal p =>
        simp only [receive,iff_true]
        cases taken : node.receiveProposal p with
        | none => exact before
        | some after =>
          rcases receiveProposal_cases taken with rfl | ⟨-,-,-,built,-,rfl⟩
          · exact before
          · rintro v (held | held)
            · cases held
            · cases held
      | block offer => exact votesAuthentic_receiveOffer offer before

omit [Bls] [Wasm] [Ed25519] [Vrf] in
theorem start_eq [Bls] {cfg : NodeConfig} {node : Live} (started : start cfg = some node) :
    ∃ pool, node = fresh cfg pool := by
  obtain ⟨pool,-,rfl⟩ := Option.map_eq_some_iff.mp started
  exact ⟨pool,rfl⟩

/-- The votes counted in a run are all authentic exactly when no event brings in one that is not,
and none moves the node to another height while it holds votes. -/
theorem votes_authentic_iff (cfg : NodeConfig) (node : Live) (started : start cfg = some node)
    (events : List NodeEvent) :
    (∀ done, done <+: events → VotesAuthentic (Runs.run advance (node,[]) done)) ↔
      ∀ done e, done ++ [e] <+: events → VoteCondition (Runs.run advance (node,[]) done) e := by
  obtain ⟨pool,rfl⟩ := start_eq started
  refine Runs.always_iff ?_ votesAuthentic_advance events
  rintro v (held | held)
  · cases held
  · cases held

def PendingVotable (s : Live × List Vote) : Prop :=
  ∀ p built, s.1.pending = some (p,built) → Votable s.1 p

/-- The slot is free for a proposal, and its block can be rebuilt. -/
def Takes (node : Live) (p : Proposal) : Prop :=
  p.height = node.height ∧ p.round = node.round ∧ node.pending = none ∧
    ∃ built, builtFromProposal node.cfg.genesis node.world p = some (some built)

def ProposalCondition (s : Live × List Vote) (e : NodeEvent) : Prop :=
  match e.message with
  | some (.proposal p) => s.1.Takes p → Votable s.1 p
  | some (.block offer) => ∀ after p built, s.1.receiveOffer offer = some after →
      s.1.pending = some (p,built) → Votable after p
  | _ => True

omit [Wasm] [Ed25519] in
theorem Votable.frame (votable : Votable node p)
    (height : after.height = node.height) (round : after.round = node.round)
    (cfg : after.cfg = node.cfg) (last : after.lastHash = node.lastHash) : Votable after p := by
  refine ⟨votable.signed,votable.height.trans height.symm,votable.round.trans round.symm,?_⟩
  rw [seed,validators,cfg,last]
  exact votable.leader

/-- A proposal of one's own is votable: the lottery was won and the signature checked. -/
theorem votable_propose {src : ValidatorId} {srcPk : Vector UInt8 32} {proof : VrfProof}
    {built : BuiltBlock} {pool : Mempool} (key : node.cfg.vrfPks[src]? = some srcPk)
    (done : wirePropose node.cfg.genesis node.cfg.blsSk node.cfg.ourId src srcPk proof node.seed
      node.height node.round readings.ts readings.now node.lastTs node.world node.pool =
        some (.ok (p,built),pool)) : Votable node p := by
  obtain ⟨height,round,-,-,proposer,source,given,elected,-,accepted⟩ := wirePropose_ok done
  refine ⟨((ingestProposal_ok_iff p).mp accepted).2.2,height,round,srcPk,source ▸ key,?_⟩
  rw [verifyLeader,source,given,validators,elected,proposer]
  exact decide_eq_true rfl

theorem pendingVotable_tick {votes : List Vote}
    (move : Move (.tick readings) node after votes) (before : PendingVotable (node,sent)) :
    PendingVotable (after,votes ++ sent) := by
  intro p built held
  cases move with
  | pool pool => exact (before p built held).frame rfl rfl rfl rfl
  | vote v said => cases said
  | proposal p built said => cases said
  | offer offer said => cases said
  | catchup after said =>
    obtain ⟨offer,said⟩ := said
    cases said
  | propose src srcPk proof readings p' built' pool source key free done =>
    cases held
    exact (votable_propose key done).frame rfl rfl rfl rfl
  | prevote prop _ _ =>
    obtain ⟨replay,prevotes,same⟩ := castPrevote_frame node prop
    rw [same] at held ⊢
    exact (before p built held).frame rfl rfl rfl rfl
  | precommit prop _ _ =>
    obtain ⟨replay,precommits,same⟩ := castPrecommit_frame node prop
    rw [same] at held ⊢
    exact (before p built held).frame rfl rfl rfl rfl
  | commit prop built' _ waiting after done =>
    rcases tryCommit_cases done with rfl | ⟨f,commits,-,rfl | ⟨store,-,rfl⟩⟩
    · exact before p built held
    · exact (before p built held).frame rfl rfl rfl rfl
    · cases held

theorem proposalCondition_proposal {s : Live × List Vote} {data : Bytes}
    (said : Gossip.read data = some (.proposal p)) :
    ProposalCondition s (.bytes data) ↔ (s.1.Takes p → Votable s.1 p) := by
  simp only [ProposalCondition,NodeEvent.message,said]

theorem pendingVotable_advance (s : Live × List Vote) (e : NodeEvent) (before : PendingVotable s) :
    PendingVotable (advance s e) ↔ ProposalCondition s e := by
  obtain ⟨node,sent⟩ := s
  cases e with
  | tick readings =>
    exact iff_of_true (advance_keep before fun _ _ _ _ => pendingVotable_tick) trivial
  | bytes data =>
    rw [advance_bytes]
    cases said : Gossip.read data with
    | none =>
      simp only [handleBytes,said,ProposalCondition,NodeEvent.message,iff_true]
      exact before
    | some message =>
      simp only [handleBytes,said,ProposalCondition,NodeEvent.message]
      cases message with
      | tx signed =>
        obtain ⟨pool,same⟩ := receiveTx_frame node signed
        simp only [receive,same,iff_true]
        exact fun p built held => (before p built held).frame rfl rfl rfl rfl
      | vote v =>
        simp only [receive,iff_true]
        obtain ⟨height,round,cfg,pending,last⟩ := receiveVote_frame node v
        intro p built held
        exact (before p built (pending.symm.trans held)).frame height round cfg last
      | proposal p =>
        simp only [receive]
        constructor
        · rintro after ⟨height,round,free,built,rebuilt⟩
          have taken : node.receiveProposal p = some (node.adopt p built) := by
            simp only [receiveProposal,height,round,free,rebuilt,Option.isNone_none,and_self,if_true]
          rw [taken] at after
          exact (after p built rfl).frame rfl rfl rfl rfl
        · intro good
          cases taken : node.receiveProposal p with
          | none => exact before
          | some after =>
            rcases receiveProposal_cases taken with rfl | ⟨height,round,free,built,rebuilt,rfl⟩
            · exact before
            · intro p' built' held
              cases held
              exact (good ⟨height,round,free,built,rebuilt⟩).frame rfl rfl rfl rfl
      | block offer =>
        simp only [receive]
        cases taken : node.receiveOffer offer with
        | none =>
          refine iff_of_true before fun _ _ _ same => ?_
          cases same
        | some after =>
          obtain ⟨-,-,pending,-,-⟩ := receiveOffer_frame taken
          constructor
          · intro still a p built same held
            cases same
            exact still p built (pending.trans held)
          · intro kept p built held
            exact kept after p built rfl (pending.symm.trans held)

/-- The pending proposal is votable all through a run exactly when every proposal that gossip
brings into the slot is, and no catch-up moves the node away from the slot of the one it holds. -/
theorem pending_votable_iff (cfg : NodeConfig) (node : Live) (started : start cfg = some node)
    (events : List NodeEvent) :
    (∀ done, done <+: events → PendingVotable (Runs.run advance (node,[]) done)) ↔
      ∀ done e, done ++ [e] <+: events → ProposalCondition (Runs.run advance (node,[]) done) e := by
  obtain ⟨pool,rfl⟩ := start_eq started
  refine Runs.always_iff ?_ pendingVotable_advance events
  intro p built held
  cases held

end Ticks
end Buffers
end L1.Live

namespace L1.Devnet

open Steps Wire Live LoneSigner

attribute [local instance] ScalarBls.bls LoneSigner.blake3 Holdings.Sample.ed25519
  Holdings.Sample.wasm Agreement.Solo.vrf

def node (tag : UInt8) : Live := .fresh (config tag) emptyPool

theorem start_node (tag : UInt8) : Live.start (config tag) = some (node tag) := by
  have made : Mempool.new genesis.params.registry = some emptyPool := (Option.some_get _).symm
  change (Mempool.new genesis.params.registry).map (Live.fresh (config tag)) = _
  rw [made]
  rfl

def voteBytes (v : Vote) : Bytes := Gossip.encodeFrame .vote (Gossip.encodeVote v)

theorem read_voteBytes (v : Vote) : Gossip.read (voteBytes v) = some (.vote v) := Gossip.read_vote v

def forged : Vote := ⟨0,0,.prevote,.nil,validator 2,Vector.replicate 96 0⟩

def genuine : Vote := signVote (1 : UInt8) (validator 1) 0 0 .prevote .nil

theorem advance_vote (n : Live) (sent : List Vote) (v : Vote) :
    advance (n,sent) (.bytes (voteBytes v)) = (n.receiveVote v,sent) := by
  rw [advance_bytes,handleBytes,read_voteBytes]
  rfl

/-- A signed vote of another validator is counted. -/
theorem genuine_vote_counted :
    genuine ∈ (Runs.run advance (node 2,[]) [.bytes (voteBytes genuine)]).1.prevotes ∧
    VotesAuthentic (Runs.run advance (node 2,[]) [.bytes (voteBytes genuine)]) := by
  have said := read_voteBytes genuine
  have after := advance_vote (node 2) [] genuine
  generalize voteBytes genuine = data at said after ⊢
  refine ⟨?_,(votes_authentic_iff (config 2) (node 2) (start_node 2) [.bytes data]).mpr ?_ _
    List.prefix_rfl⟩
  · rw [Runs.run_singleton,after]
    decide +kernel
  · exact Runs.met_singleton ((voteCondition_vote said).mpr fun _ => by decide +kernel)

/-- An unsigned vote under the node's own name is counted. -/
theorem forged_vote_counted :
    Live.start (config 2) = some (node 2) ∧
    Runs.run advance (node 2,[]) [.bytes (voteBytes forged)] = ((node 2).receiveVote forged,[]) ∧
    ((node 2).receiveVote forged).prevotes = [forged] ∧
    forged.signer = (node 2).cfg.ourId ∧ verifySignature forged = .error .signature :=
  ⟨start_node 2,by rw [Runs.run_singleton,advance_vote],by decide +kernel,by decide +kernel,
    by decide +kernel⟩

def stray : BuiltBlock :=
  (Builder.executeBlock genesis origin ⟨⟨0,0,validator 3,0⟩,[]⟩).get (by decide +kernel)

/-- A proposal in the name of the third validator, without a signature. -/
def unsigned : Proposal where
  height := 0
  round := 0
  header := stray.header
  appHash := stray.appHash
  proposer := validator 3
  vrfSource := validator 1
  vrfProof := Vector.replicate 80 0
  signature := Vector.replicate 96 0

def proposalBytes (p : Proposal) : Bytes := Gossip.encodeFrame .proposal (Gossip.encodeProposal p)

theorem read_proposalBytes (p : Proposal) :
    Gossip.read (proposalBytes p) = some (.proposal p) := Gossip.read_proposal p

theorem advance_proposal (n : Live) (sent : List Vote) (p : Proposal) :
    advance (n,sent) (.bytes (proposalBytes p)) = ((n.receiveProposal p).getD n,sent) := by
  rw [advance_bytes,handleBytes,read_proposalBytes]
  rfl

/-- A proposal that nobody signed, in the name of a validator that does not lead, takes the slot. -/
theorem unsigned_proposal_pending :
    Live.start (config 2) = some (node 2) ∧
    (Runs.run advance (node 2,[]) [.bytes (proposalBytes unsigned)]).1.pending.map Prod.fst =
      some unsigned ∧
    ¬ SignedByProposer unsigned ∧
    verifyLeader unsigned zeroHash (node 2).seed validators = false := by
  refine ⟨start_node 2,?_,?_,by decide +kernel⟩
  · rw [Runs.run_singleton,advance_proposal]
    decide +kernel
  · rintro ⟨pk,sig,key,read,verified⟩
    cases key
    cases read
    exact absurd verified (by decide +kernel)

def led : Option (Proposal × BuiltBlock) :=
  match proposed emptyPool with
  | some (.ok pair,_) => some pair
  | _ => none

def signedProposal : Proposal := (led.get (by decide +kernel)).1

/-- The leader's signed proposal takes the slot. -/
theorem signed_proposal_pending :
    (Runs.run advance (node 2,[]) [.bytes (proposalBytes signedProposal)]).1.pending.map Prod.fst =
      some signedProposal ∧
    PendingVotable (Runs.run advance (node 2,[]) [.bytes (proposalBytes signedProposal)]) := by
  have said := read_proposalBytes signedProposal
  have after := advance_proposal (node 2) [] signedProposal
  generalize proposalBytes signedProposal = data at said after ⊢
  refine ⟨?_,(pending_votable_iff (config 2) (node 2) (start_node 2) [.bytes data]).mpr ?_ _
    List.prefix_rfl⟩
  · rw [Runs.run_singleton,after]
    decide +kernel
  have signed := ((ingestProposal_ok_iff signedProposal).mp (by decide +kernel)).2.2
  exact Runs.met_singleton ((proposalCondition_proposal said).mpr fun taken =>
    ⟨signed,taken.1,taken.2.1,zeroHash,by decide +kernel,by decide +kernel⟩)

end L1.Devnet
