import L1.Live

/-! What a validator signs while it runs the event loop, and what its commits rest on. Heights only
go up, and at each of them the node precommits no block but that of the proposal it holds. The last
height is the exception: the node stays there. -/
namespace L1.Live

open Steps Wire

section Heights

def HasNext (h : Height) : Prop := h.toNat + 1 < 2^64

theorem lt_saturatingNext {h : Height} (more : HasNext h) : h < saturatingNext h := by
  unfold HasNext at more
  rw [BitVec.lt_def,saturatingNext,toNat_saturatingAdd]
  change _ < min (h.toNat + 1) _
  omega

theorem le_saturatingNext (h : Height) : h ≤ saturatingNext h := by
  have := h.isLt
  rw [BitVec.le_def,saturatingNext,toNat_saturatingAdd]
  change _ ≤ min (h.toNat + 1) _
  omega

end Heights

/-- A log of commits gains the block that was recorded, and nothing else. -/
theorem record_ok {log log' : CommitLog} {f : Finalized} (recorded : log.record f = .ok log')
    (h : Height) (x : Hash) :
    log'[h]? = some x ↔ log[h]? = some x ∨ (h = f.height ∧ x = f.blockHash) := by
  unfold CommitLog.record at recorded
  split at recorded
  · rename_i prev held
    split at recorded
    · cases recorded
    rename_i same
    push Not at same
    cases recorded
    constructor
    · exact .inl
    · rintro (old | ⟨rfl,rfl⟩)
      · exact old
      · rw [held,same]
  · rename_i free
    cases recorded
    rw [Map.get?_insert]
    split
    · rename_i here
      constructor
      · intro found
        cases found
        exact .inr ⟨here,rfl⟩
      · rintro (old | ⟨-,rfl⟩)
        · rw [here,free] at old
          cases old
        · rfl
    · rename_i elsewhere
      simp [elsewhere]

section Precommits

variable [Bls]

/-- Votes for a block at a height, with power enough for a certificate that verifies. -/
def Backed (validators : ValidatorSet) (occurs : Vote → Prop) (h : Height) (x : Hash) : Prop :=
  ∃ votes qc, (∀ v ∈ votes, occurs v) ∧ Qc.aggregate votes validators = .ok qc ∧
    Qc.verify qc validators = some (.ok ()) ∧ qc.height = h ∧ qc.round = 0 ∧ qc.block = .block x

theorem Backed.mono {validators : ValidatorSet} {p q : Vote → Prop} {h : Height} {x : Hash}
    (backed : Backed validators p h x) (weaker : ∀ v, p v → q v) : Backed validators q h x := by
  obtain ⟨votes,qc,all,rest⟩ := backed
  exact ⟨votes,qc,fun v listed => weaker v (all v listed),rest⟩

variable [Blake3]

structure Casting (cfg : NodeConfig) (s : Live × List Vote) : Prop where
  signer : ∀ v ∈ s.2, v.signer = cfg.ourId
  round : ∀ v ∈ s.2, v.round = 0
  logged : ∀ v ∈ s.2, s.1.replay[v.key]? = some v.body
  below : ∀ v ∈ s.2, v.height ≤ s.1.height
  idle : s.1.pending = none → HasNext s.1.height → ∀ v ∈ s.2, v.height < s.1.height
  held : ∀ p b, s.1.pending = some (p,b) → HasNext s.1.height → ∀ v ∈ s.2, v.kind = .precommit →
    v.height = s.1.height → v.block = .nil ∨ v.block = .block p.header.hash
  unique : ∀ v ∈ s.2, ∀ w ∈ s.2, v.kind = .precommit → w.kind = .precommit → v.height = w.height →
    HasNext v.height → ∀ x y, v.block = .block x → w.block = .block y → x = y

/-- The place of a validator in the chain and the votes it counts. -/
structure Placed (cfg : NodeConfig) (delivered : Vote → Prop) (s : Live × List Vote) : Prop where
  configured : s.1.cfg = cfg
  round : s.1.round = 0
  pending : ∀ p b, s.1.pending = some (p,b) → p.height = s.1.height
  counted : ∀ v ∈ s.1.precommits, v.height = s.1.height ∧ v.round = 0 ∧ (v ∈ s.2 ∨ delivered v)
  backed : ∀ h x, s.1.commits[h]? = some x →
    Backed cfg.genesis.validators (fun v => v ∈ s.2 ∨ delivered v) h x

theorem casting_fresh (cfg : NodeConfig) (pool : Mempool) : Casting cfg (fresh cfg pool,[]) := by
  constructor <;> simp

theorem placed_fresh (cfg : NodeConfig) (delivered : Vote → Prop) (pool : Mempool) :
    Placed cfg delivered (fresh cfg pool,[]) := by
  constructor <;> simp [fresh]

section Votes

variable {cfg : NodeConfig} {delivered : Vote → Prop} {node : Live} {sent : List Vote}

variable {v : Vote}

theorem Casting.replay (casting : Casting cfg (node,sent)) {replay : VoteReplayLog}
    (grown : Extends node.replay replay) : Casting cfg ({ node with replay },sent) :=
  { casting with logged := fun v listed => grown _ _ (casting.logged v listed) }

/-- A vote of the current slot joins those sent before. One for a block must be for the block that
is held. -/
theorem Casting.send (casting : Casting cfg (node,sent)) {prop : Proposal} {built : BuiltBlock}
    (pending : node.pending = some (prop,built)) (round : node.round = 0) {kind : VoteKind}
    {replay : VoteReplayLog} (grown : Extends node.replay replay)
    (released : Released node.validators cfg.ourId node.height node.round kind v replay)
    (choice : kind = .precommit → v.block = .nil ∨ v.block = .block prop.header.hash) :
    Casting cfg ({ node with replay },v :: sent) := by
  obtain ⟨height,round',kind'⟩ := released.slot
  have older := casting.replay grown
  refine ⟨?_,?_,?_,?_,?_,?_,?_⟩
  · exact List.forall_mem_cons.mpr ⟨released.signer,casting.signer⟩
  · exact List.forall_mem_cons.mpr ⟨round'.trans round,casting.round⟩
  · exact List.forall_mem_cons.mpr ⟨released.logged,older.logged⟩
  · exact List.forall_mem_cons.mpr ⟨height ▸ BitVec.le_refl _,casting.below⟩
  · intro none
    rw [show ({ node with replay } : Live).pending = node.pending from rfl,pending] at none
    cases none
  · intro p b same more
    rw [show ({ node with replay } : Live).pending = node.pending from rfl,pending] at same
    cases same
    refine List.forall_mem_cons.mpr ⟨fun precommit _ => ?_,casting.held prop built pending more⟩
    exact choice (kind'.symm.trans precommit)
  · -- an earlier precommit of this height is for the same block
    have mine {w : Vote} (listed : w ∈ sent) (precommit : w.kind = .precommit)
        (ours : v.kind = .precommit) (same : w.height = v.height) (more : HasNext w.height) {x y : Hash}
        (left : w.block = .block x) (right : v.block = .block y) : x = y := by
      have here : w.height = node.height := same.trans height
      rcases casting.held prop built pending (here ▸ more) w listed precommit here with nil | block
      · rw [left] at nil
        cases nil
      · rcases choice (kind'.symm.trans ours) with nil | block'
        · rw [right] at nil
          cases nil
        · rw [left] at block
          rw [right] at block'
          cases block
          cases block'
          rfl
    intro a listed b listed' one other same more x y left right
    rcases List.mem_cons.mp listed with rfl | first
    · rcases List.mem_cons.mp listed' with rfl | second
      · rw [left] at right
        cases right
        rfl
      · exact (mine second other one same.symm (same ▸ more) right left).symm
    · rcases List.mem_cons.mp listed' with rfl | second
      · exact mine first one other same more left right
      · exact casting.unique a first b second one other same more x y left right

omit [Blake3] in
/-- More votes sent, and a vote in the buffer that is one of them or was delivered. -/
theorem Placed.count (placed : Placed cfg delivered (node,sent)) (more : List Vote)
    {replay : VoteReplayLog} {prevotes precommits : List Vote} (slot : v.height = node.height ∧ v.round = 0)
    (known : v ∈ more ++ sent ∨ delivered v) (same : ∀ w ∈ precommits, w ∈ node.precommits ∨ w = v) :
    Placed cfg delivered ({ node with replay, prevotes, precommits },more ++ sent) := by
  have weaker (w : Vote) (old : w ∈ sent ∨ delivered w) : w ∈ more ++ sent ∨ delivered w :=
    old.imp_left (List.mem_append_right more)
  refine ⟨placed.configured,placed.round,placed.pending,?_,fun h x found => (placed.backed h x found).mono weaker⟩
  intro w listed
  rcases same w listed with old | rfl
  · obtain ⟨height,round,known⟩ := placed.counted w old
    exact ⟨height,round,weaker w known⟩
  · exact ⟨slot.1,slot.2,known⟩

end Votes

section Moves

variable [Wasm] [Ed25519] [Vrf] {cfg : NodeConfig} {delivered : Vote → Prop} {node after : Live}
  {sent votes : List Vote} {e : NodeEvent}

omit [Wasm] [Ed25519] [Vrf] in
theorem Casting.receiveVote (casting : Casting cfg (node,sent)) (v : Vote) :
    Casting cfg (node.receiveVote v,sent) := by
  obtain ⟨replay,grown,same | ⟨-,-,⟨-,same⟩ | ⟨-,same⟩⟩⟩ := receiveVote_cases node v
  · rw [same]
    exact casting.replay grown
  · rw [same]
    exact { casting.replay grown with }
  · rw [same]
    exact { casting.replay grown with }

omit [Wasm] [Ed25519] [Vrf] in
theorem Placed.receiveVote (placed : Placed cfg delivered (node,sent)) {v : Vote} (said : delivered v) :
    Placed cfg delivered (node.receiveVote v,sent) := by
  obtain ⟨replay,-,same | ⟨height,round,⟨-,same⟩ | ⟨-,same⟩⟩⟩ := receiveVote_cases node v
  · rw [same]
    exact { placed with }
  · rw [same]
    exact { placed with }
  · rw [same]
    exact placed.count [] ⟨height,round.trans placed.round⟩ (.inr said) fun w listed =>
      (mem_insertVoteSorted.mp listed).imp_right And.left

omit [Wasm] [Ed25519] [Vrf] in
theorem Casting.adopt (casting : Casting cfg (node,sent)) (free : node.pending = none) (p : Proposal)
    (built : BuiltBlock) : Casting cfg (node.adopt p built,sent) where
  signer := casting.signer
  round := casting.round
  logged := casting.logged
  below := casting.below
  idle none := by cases none
  held _ _ _ more v listed _ here := by
    have lower := casting.idle free more v listed
    rw [show v.height = node.height from here] at lower
    exact absurd lower (BitVec.lt_irrefl _)
  unique := casting.unique

omit [Wasm] [Blake3] [Ed25519] [Vrf] in
theorem Placed.adopt (placed : Placed cfg delivered (node,sent)) {p : Proposal} (built : BuiltBlock)
    (height : p.height = node.height) : Placed cfg delivered (node.adopt p built,sent) where
  configured := placed.configured
  round := placed.round
  pending q b same := by
    cases same
    exact height
  counted _ listed := by cases listed
  backed := placed.backed

omit [Wasm] [Ed25519] [Vrf] in
/-- A commit leaves the height for good, if there is a next one. -/
theorem Casting.advance (casting : Casting cfg (node,sent)) (after : Live)
    (replay : after.replay = node.replay) (free : after.pending = none)
    (height : after.height = saturatingNext node.height) : Casting cfg (after,sent) where
  signer := casting.signer
  round := casting.round
  logged v listed := by
    rw [replay]
    exact casting.logged v listed
  below v listed := by
    rw [height]
    exact BitVec.le_trans (casting.below v listed) (le_saturatingNext _)
  idle _ more v listed := by
    rw [height] at more ⊢
    have here : HasNext node.height := by
      have le := le_saturatingNext node.height
      rw [BitVec.le_def] at le
      unfold HasNext at more ⊢
      omega
    have up := lt_saturatingNext here
    have low := casting.below v listed
    rw [BitVec.lt_def] at up ⊢
    rw [BitVec.le_def] at low
    exact low.trans_lt up
  held p b same := by
    rw [free] at same
    cases same
  unique := casting.unique

omit [Wasm] [Ed25519] [Vrf] in
/-- A record in the log of commits rests on the precommits in the buffer. -/
theorem Placed.commit (placed : Placed cfg delivered (node,sent)) {prop : Proposal} {built : BuiltBlock}
    (held : node.pending = some (prop,built)) {f : Finalized} {commits : CommitLog}
    {reachable : VotingPower}
    (done : Steps.commit node.precommits node.validators reachable prop node.commits =
      some (.ok (some (f,commits)))) :
    f.height = node.height ∧ ∀ h x, commits[h]? = some x →
      Backed cfg.genesis.validators (fun v => v ∈ sent ∨ delivered v) h x := by
  obtain ⟨qc,committed⟩ := commit_ok done
  have height : f.height = node.height := by
    rw [committed.finalized]
    exact placed.pending prop built held
  refine ⟨height,fun h x found => ?_⟩
  rcases (record_ok committed.recorded h x).mp found with old | ⟨rfl,rfl⟩
  · exact placed.backed h x old
  · -- the certificate is for the slot of the votes it was made of
    have built := Qc.aggregate_ok committed.aggregated
    have quorum := polka_quorum committed.polka
    have positive : 0 < votedPower node.validators (.block f.blockHash) node.precommits := by omega
    obtain ⟨v,listed,-⟩ := exists_vote_of_votedPower positive
    obtain ⟨-,height',round',-⟩ := built.votes v listed
    obtain ⟨here,zero,-⟩ := placed.counted v listed
    have members : node.validators = cfg.genesis.validators := by
      rw [validators,placed.configured]
    refine ⟨node.precommits,qc,fun w counted => (placed.counted w counted).2.2,?_,?_,?_,?_,committed.block⟩
    · rw [← members]
      exact committed.aggregated
    · rw [← members]
      exact committed.verified
    · rw [← height',here,height]
    · rw [← round',zero]

omit [Wasm] [Blake3] [Ed25519] [Vrf] in
theorem Placed.not_outsider (placed : Placed cfg delivered (node,sent))
    (member : (cfg.genesis.validators[cfg.ourId]?).isSome = true) : node.isValidator = true := by
  rw [isValidator,validators,placed.configured]
  exact member

theorem Casting.move (casting : Casting cfg (node,sent)) (placed : Placed cfg delivered (node,sent))
    (member : (cfg.genesis.validators[cfg.ourId]?).isSome = true) (move : Move e node after votes) :
    Casting cfg (after,votes ++ sent) := by
  cases move with
  | pool pool => exact { casting with }
  | vote v said => exact casting.receiveVote v
  | proposal p built said height round free rebuilt => exact casting.adopt free p built
  | offer offer said => exact { casting with }
  | catchup after said outsider done =>
    rw [placed.not_outsider member] at outsider
    cases outsider
  | propose src srcPk proof readings p built pool source key free done =>
    have stocked : Casting cfg ({ node with pool },sent) := { casting with }
    exact stocked.adopt free p built
  | prevote prop built held =>
    obtain ⟨replay,grown,same | ⟨v,released,-,-,-,same⟩⟩ := castPrevote_cases node prop
    · rw [same]
      exact casting.replay grown
    · rw [placed.configured] at released
      have next := casting.send held placed.round grown released fun kind => by cases kind
      rw [same]
      exact { next with }
  | precommit prop built held =>
    obtain ⟨replay,grown,same | ⟨v,released,block,same⟩⟩ := castPrecommit_cases node prop
    · rw [same]
      exact casting.replay grown
    · rw [placed.configured] at released
      have next := casting.send held placed.round grown released fun _ => block.imp_right And.left
      rw [same]
      exact { next with }
  | commit prop built validator held after done =>
    rcases tryCommit_cases done with rfl | ⟨f,commits,committed,rfl | ⟨store,-,rfl⟩⟩
    · exact casting
    · exact { casting with }
    · refine casting.advance _ rfl rfl ?_
      rw [(placed.commit held committed).1]

theorem Placed.move (placed : Placed cfg delivered (node,sent))
    (member : (cfg.genesis.validators[cfg.ourId]?).isSome = true)
    (said : ∀ v, e.message = some (.vote v) → delivered v) (move : Move e node after votes) :
    Placed cfg delivered (after,votes ++ sent) := by
  cases move with
  | pool pool => exact { placed with }
  | vote v heard => exact placed.receiveVote (said v heard)
  | proposal p built said height round free rebuilt => exact placed.adopt built height
  | offer offer said => exact { placed with }
  | catchup after said outsider done =>
    rw [placed.not_outsider member] at outsider
    cases outsider
  | propose src srcPk proof readings p built pool source key free done =>
    obtain ⟨height,-⟩ := wirePropose_ok done
    have stocked : Placed cfg delivered ({ node with pool },sent) := { placed with }
    exact stocked.adopt built height
  | prevote prop built held =>
    obtain ⟨replay,-,same | ⟨v,released,-,-,-,same⟩⟩ := castPrevote_cases node prop
    · rw [same]
      exact { placed with }
    · rw [same]
      exact placed.count [v] ⟨released.slot.1,released.slot.2.1.trans placed.round⟩
        (.inl (List.mem_cons_self ..)) fun w listed => .inl listed
  | precommit prop built held =>
    obtain ⟨replay,-,same | ⟨v,released,-,same⟩⟩ := castPrecommit_cases node prop
    · rw [same]
      exact { placed with }
    · rw [same]
      exact placed.count [v] ⟨released.slot.1,released.slot.2.1.trans placed.round⟩
        (.inl (List.mem_cons_self ..)) fun w listed =>
          (mem_insertVoteSorted.mp listed).imp_right And.left
  | commit prop built validator held after done =>
    rcases tryCommit_cases done with rfl | ⟨f,commits,committed,rfl | ⟨store,-,rfl⟩⟩
    · exact placed
    · exact { placed with backed := (placed.commit held committed).2 }
    · refine ⟨placed.configured,rfl,?_,?_,(placed.commit held committed).2⟩
      · intro _ _ same
        cases same
      · intro _ listed
        cases listed

structure Validating (cfg : NodeConfig) (delivered : Vote → Prop) (s : Live × List Vote) : Prop where
  casting : Casting cfg s
  placed : Placed cfg delivered s

theorem Validating.advance {s : Live × List Vote} (validating : Validating cfg delivered s)
    (member : (cfg.genesis.validators[cfg.ourId]?).isSome = true)
    (said : ∀ v, e.message = some (.vote v) → delivered v) : Validating cfg delivered (advance s e) := by
  refine advance_keep validating ?_
  intro node after votes sent move held
  exact ⟨held.casting.move held.placed member move,held.placed.move member said move⟩

theorem validating_run {pool : Mempool} {events : List NodeEvent}
    (member : (cfg.genesis.validators[cfg.ourId]?).isSome = true)
    (said : ∀ e ∈ events, ∀ v, e.message = some (.vote v) → delivered v) :
    Validating cfg delivered (Runs.run Live.advance (fresh cfg pool,[]) events) := by
  have keeps (s : Live × List Vote) (e : NodeEvent) (held : Validating cfg delivered s)
      (heard : ∀ v, e.message = some (.vote v) → delivered v) :
      Validating cfg delivered (Live.advance s e) := held.advance member heard
  refine Runs.keep ⟨casting_fresh cfg pool,placed_fresh cfg delivered pool⟩ keeps ?_
  intro done e within
  exact said e (within.subset (by simp))

end Moves
end Precommits
end L1.Live
