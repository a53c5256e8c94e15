import L1.Network

/-! The time of committed blocks. A leader checks the time of its own header against its clock and
the block before. Nobody else does, so the results here are about runs in which every proposal that
an honest validator holds at a tick would have passed that check. -/
namespace L1

open Steps Wire

theorem timestampInBounds_iff {now : U64} {height : Height} {prev proposed maxDrift : U64} :
    timestampInBounds now height prev proposed maxDrift = true ↔
      (height ≠ 0 → prev ≤ proposed) ∧ proposed ≤ saturatingAdd now maxDrift := by
  unfold timestampInBounds
  split
  · rename_i early
    constructor
    · intro never
      cases never
    · rintro ⟨late,-⟩
      exact absurd (late early.1) (BitVec.not_le.mpr early.2)
  · rename_i open_
    rw [decide_eq_true_iff]
    constructor
    · intro ahead
      refine ⟨fun later => ?_,ahead⟩
      by_contra early
      exact open_ ⟨later,BitVec.not_le.mp early⟩
    · exact And.right

namespace Wire

variable [Wasm] [Blake3] [Ed25519] [Bls] [Vrf]

theorem wirePropose_timely {g : Genesis} {sk : Bls.SecretKey} {ourId vrfSource : ValidatorId}
    {sourceVrfPk : Vector UInt8 32} {sourceProof : VrfProof} {seed : VrfSeed} {height : Height}
    {round : Round} {ts now lastTs : U64} {world : World} {pool pool' : Mempool}
    {proposal : Proposal} {built : BuiltBlock}
    (done : wirePropose g sk ourId vrfSource sourceVrfPk sourceProof seed height round ts now lastTs
      world pool = some (.ok (proposal,built),pool')) :
    timestampInBounds now height lastTs proposal.header.fields.timestampMs Spec.maxTimestampDriftMs =
      true := by
  obtain ⟨-,-,header,-,-,-,-,elected,assembled,-⟩ := wirePropose_ok done
  obtain ⟨-,-,executed⟩ := buildLocal_eq_some assembled
  obtain ⟨block,executes⟩ := Builder.executeBlock_some executed
  have time : proposal.header.fields.timestampMs = ts := by
    rw [header,executes.header,block]
  rw [time]
  by_contra late
  have stuck : HeaderFields.new now height round ourId lastTs ts = none := if_neg late
  simp [wirePropose,propose,elected,stuck] at done

end Wire

namespace Live

variable [Bls] [Blake3]

/-- The header that a node committed at a height; it commits them one after the other, from height 0
on. -/
def headerAt (node : Live) (h : Height) : Option Header :=
  node.committed[h.toNat]?.map BodyOffer.header

omit [Blake3] in
theorem headerAt_eq_some {node : Live} {h : Height} {header : Header}
    (found : node.headerAt h = some header) :
    ∃ offer, node.committed[h.toNat]? = some offer ∧ offer.header = header :=
  Option.map_eq_some_iff.mp found

/-- The proposal that a node holds would pass the check of a leader. -/
def Timely (node : Live) (now : U64) : Prop :=
  ∀ p built, node.pending = some (p,built) →
    timestampInBounds now node.height node.lastTs p.header.fields.timestampMs
      Spec.maxTimestampDriftMs = true

structure SameChain (node after : Live) : Prop where
  height : after.height = node.height
  lastTs : after.lastTs = node.lastTs
  commits : after.commits = node.commits
  committed : after.committed = node.committed

/-- The chain of a validator: what it has committed, in order of time, with the hashes it has
recorded. -/
structure Chronicle (held : Header → Prop) (node : Live) : Prop where
  reached : node.height.toNat ≤ node.committed.length
  counted : HasNext node.height → node.committed.length = node.height.toNat
  logged : ∀ (h : Height) (offer : BodyOffer), node.committed[h.toNat]? = some offer →
    node.commits[h]? = some offer.header.hash
  held : ∀ offer ∈ node.committed, held offer.header
  ordered : node.committed.Pairwise fun a b =>
    a.header.fields.timestampMs ≤ b.header.fields.timestampMs
  latest : ∀ offer ∈ node.committed, offer.header.fields.timestampMs ≤ node.lastTs

section Chain

variable {held : Header → Prop} {node after : Live}

theorem chronicle_fresh (cfg : NodeConfig) (pool : Mempool) : Chronicle held (fresh cfg pool) := by
  constructor <;> simp [fresh]

theorem Chronicle.same (chronicle : Chronicle held node) (same : SameChain node after) :
    Chronicle held after := by
  obtain ⟨height,lastTs,commits,committed⟩ := same
  constructor
  · rw [height,committed]
    exact chronicle.reached
  · rw [height,committed]
    exact chronicle.counted
  · rw [commits,committed]
    exact chronicle.logged
  · rw [committed]
    exact chronicle.held
  · rw [committed]
    exact chronicle.ordered
  · rw [lastTs,committed]
    exact chronicle.latest

theorem Chronicle.record (chronicle : Chronicle held node) {f : Finalized} {commits : CommitLog}
    (recorded : node.commits.record f = .ok commits) : Chronicle held { node with commits } :=
  { chronicle with
    logged := fun h offer found => (record_ok recorded h _).mpr (.inl (chronicle.logged h offer found)) }

theorem Chronicle.later (chronicle : Chronicle held node) {time : U64}
    (late : node.height ≠ 0 → node.lastTs ≤ time) :
    ∀ offer ∈ node.committed, offer.header.fields.timestampMs ≤ time := by
  intro offer listed
  by_cases first : node.height = 0
  · have empty : node.committed.length = 0 := by
      have more : HasNext node.height := by
        rw [first]
        unfold HasNext
        decide
      rw [chronicle.counted more,first]
      rfl
    rw [List.eq_nil_of_length_eq_zero empty] at listed
    cases listed
  · exact BitVec.le_trans (chronicle.latest offer listed) (late first)

theorem Chronicle.extend (chronicle : Chronicle held node) {f : Finalized} {commits : CommitLog}
    {offer : BodyOffer} (recorded : node.commits.record f = .ok commits)
    (height : f.height = node.height) (hash : f.blockHash = offer.header.hash)
    (late : node.height ≠ 0 → node.lastTs ≤ offer.header.fields.timestampMs)
    (kept : held offer.header) (moved : after.height = saturatingNext node.height)
    (time : after.lastTs = offer.header.fields.timestampMs) (log : after.commits = commits)
    (grown : after.committed = node.committed ++ [offer]) : Chronicle held after := by
  have next : after.height.toNat = min (node.height.toNat + 1) (2^64 - 1) := by
    rw [moved,saturatingNext,toNat_saturatingAdd]
    rfl
  have reached := chronicle.reached
  have counted := chronicle.counted
  unfold HasNext at counted
  constructor
  · rw [next,grown,List.length_append,List.length_singleton]
    omega
  · intro more
    unfold HasNext at more
    rw [next] at more ⊢
    rw [grown,List.length_append,List.length_singleton]
    omega
  · intro h entry found
    rw [log,record_ok recorded]
    rw [grown] at found
    by_cases old : h.toNat < node.committed.length
    · rw [List.getElem?_append_left old] at found
      exact .inl (chronicle.logged h entry found)
    · -- the new entry stands at its own height, also where the height does not go up any more
      rw [List.getElem?_append_right (not_lt.mp old)] at found
      obtain ⟨index,same⟩ : h.toNat - node.committed.length = 0 ∧ offer = entry := by
        simpa [List.getElem?_singleton] using found
      have top := h.isLt
      have here : h = node.height := BitVec.eq_of_toNat_eq (by omega)
      exact .inr ⟨here.trans height.symm,by rw [hash,same]⟩
  · rw [grown]
    intro entry listed
    rcases List.mem_append.mp listed with old | new
    · exact chronicle.held entry old
    · rw [List.mem_singleton.mp new]
      exact kept
  · rw [grown,List.pairwise_append]
    refine ⟨chronicle.ordered,List.pairwise_singleton ..,fun a listed b new => ?_⟩
    rw [List.mem_singleton.mp new]
    exact chronicle.later late a listed
  · rw [grown,time]
    intro entry listed
    rcases List.mem_append.mp listed with old | new
    · exact chronicle.later late entry old
    · rw [List.mem_singleton.mp new]
      exact BitVec.le_refl _

theorem Chronicle.tryCommit (chronicle : Chronicle held node) {p : Proposal} {built : BuiltBlock}
    (height : p.height = node.height)
    (late : node.height ≠ 0 → node.lastTs ≤ p.header.fields.timestampMs) (kept : held p.header)
    (done : node.tryCommit p built = some after) : Chronicle held after := by
  rcases tryCommit_cases done with rfl | ⟨f,commits,finished,outcome⟩
  · exact chronicle
  obtain ⟨qc,committed⟩ := commit_ok finished
  rcases outcome with rfl | ⟨store,-,rfl⟩
  · exact chronicle.record committed.recorded
  · have at_ : f.height = node.height := by
      rw [committed.finalized]
      exact height
    refine chronicle.extend committed.recorded at_ ?_ late kept ?_ rfl rfl rfl
    · rw [committed.finalized]
    · rw [← at_]

end Chain

/-! What an event does to the chain of a validator. -/

section Events

variable [Wasm] [Ed25519] [Vrf] {node after : Live} {votes : List Vote}

omit [Vrf] in
theorem handleBytes_same {data : Bytes} (member : node.isValidator = true)
    (done : node.handleBytes data = some after) : SameChain node after := by
  unfold handleBytes at done
  split at done
  · cases done
    exact ⟨rfl,rfl,rfl,rfl⟩
  rename_i message said
  cases message with
  | tx signed =>
    obtain ⟨pool,same⟩ := receiveTx_frame node signed
    cases done
    rw [same]
    exact ⟨rfl,rfl,rfl,rfl⟩
  | vote v =>
    cases done
    obtain ⟨replay,-,same | ⟨-,-,⟨-,same⟩ | ⟨-,same⟩⟩⟩ := receiveVote_cases node v
    all_goals
      rw [same]
      exact ⟨rfl,rfl,rfl,rfl⟩
  | proposal p =>
    rcases receiveProposal_cases done with rfl | ⟨-,-,-,built,-,rfl⟩
    · exact ⟨rfl,rfl,rfl,rfl⟩
    · exact ⟨rfl,rfl,rfl,rfl⟩
  | block offer =>
    change node.receiveOffer offer = _ at done
    unfold receiveOffer at done
    dsimp only at done
    split at done
    · cases done
      exact ⟨rfl,rfl,rfl,rfl⟩
    · rename_i outsider
      exact absurd member outsider

omit [Bls] [Wasm] [Blake3] [Ed25519] [Vrf] in
theorem length_insertVoteSorted (votes : List Vote) (v : Vote) :
    (insertVoteSorted votes v).length ≤ votes.length + 1 := by
  unfold insertVoteSorted
  split
  · exact Nat.le_succ _
  · rw [List.length_insertionSort,List.length_append,List.length_singleton]

omit [Wasm] [Ed25519] in
/-- The votes on a proposal come before the attempt to commit it. -/
theorem maybeVoteAndCommit_held {p : Proposal} {built : BuiltBlock}
    (pending : node.pending = some (p,built)) (done : node.maybeVoteAndCommit = some (after,votes)) :
    (∀ v ∈ votes, v.kind = .prevote → v.block = .block p.header.hash) ∧
    ∃ voted : Live, SameChain node voted ∧ voted.pending = node.pending ∧
      voted.precommits.length ≤ node.precommits.length + 1 ∧ voted.tryCommit p built = some after := by
  unfold maybeVoteAndCommit at done
  rw [pending] at done
  obtain ⟨node',committed,same⟩ := Option.map_eq_some_iff.mp done
  cases same
  obtain ⟨replay₁,-,first⟩ := castPrevote_cases node p
  obtain ⟨replay₂,-,second⟩ := castPrecommit_cases (node.castPrevote p).1 p
  have prevotes : ∀ v ∈ (node.castPrevote p).2, v.kind = .prevote → v.block = .block p.header.hash := by
    rcases first with same | ⟨v,released,block,-,-,same⟩
    · rw [same]
      exact fun _ never => by cases never
    · rw [same]
      intro w listed _
      rw [List.mem_singleton.mp listed]
      exact block
  have precommits : ∀ v ∈ ((node.castPrevote p).1.castPrecommit p).2, v.kind ≠ .prevote := by
    rcases second with same | ⟨v,released,-,same⟩
    · rw [same]
      exact fun _ never => by cases never
    · rw [same]
      intro w listed
      rw [List.mem_singleton.mp listed,released.slot.2.2]
      decide
  obtain ⟨replay,prevotes',frame⟩ := castPrevote_frame node p
  refine ⟨?_,((node.castPrevote p).1.castPrecommit p).1,?_,?_,?_,committed⟩
  · intro v listed kind
    rcases List.mem_append.mp listed with late | early
    · exact absurd kind (precommits v late)
    · exact prevotes v early kind
  · rcases second with same | ⟨v,-,-,same⟩
    · rw [same,frame]
      exact ⟨rfl,rfl,rfl,rfl⟩
    · rw [same,frame]
      exact ⟨rfl,rfl,rfl,rfl⟩
  · rcases second with same | ⟨v,-,-,same⟩
    · rw [same,frame]
    · rw [same,frame]
  · rcases second with same | ⟨v,-,-,same⟩
    · rw [same,frame]
      exact Nat.le_succ _
    · rw [same,frame]
      exact length_insertVoteSorted ..

theorem maybePropose_cases {readings : Readings} (done : node.maybePropose readings = some (some after)) :
    (∃ pool, after = { node with pool }) ∨
    ∃ p built pool, timestampInBounds readings.now node.height node.lastTs
        p.header.fields.timestampMs Spec.maxTimestampDriftMs = true ∧
      after = { node with pool }.adopt p built := by
  unfold maybePropose at done
  split at done
  · cases done
  split at done
  · cases done
  split at done
  · cases done
  split at done
  · cases done
  split at done
  · split at done
    · cases done
    · rename_i p built pool proposed
      cases done
      exact .inr ⟨p,built,pool,wirePropose_timely proposed,rfl⟩
    · cases done
      exact .inl ⟨_,rfl⟩
  · cases done
    exact .inl ⟨node.pool,rfl⟩

/-- A tick drives the proposal in hand. It may be one that the node has just made, in time by its
clock. -/
theorem tick_cases {readings : Readings} (done : node.tick readings = some (after,votes)) :
    (after = node ∧ votes = []) ∨
    ∃ poised : Live, SameChain node poised ∧ poised.maybeVoteAndCommit = some (after,votes) ∧
      (poised.pending = node.pending ∨
      (poised.precommits = [] ∧ ∃ p built, poised.pending = some (p,built) ∧
        timestampInBounds readings.now node.height node.lastTs p.header.fields.timestampMs
          Spec.maxTimestampDriftMs = true)) := by
  unfold tick at done
  split at done
  · cases done
    exact .inl ⟨rfl,rfl⟩
  split at done
  · exact .inr ⟨node,⟨rfl,rfl,rfl,rfl⟩,done,.inl rfl⟩
  split at done
  · cases done
  · cases done
    exact .inl ⟨rfl,rfl⟩
  rename_i poised proposed
  rcases maybePropose_cases proposed with ⟨pool,rfl⟩ | ⟨p,built,pool,timely,rfl⟩
  · exact .inr ⟨{ node with pool },⟨rfl,rfl,rfl,rfl⟩,done,.inl rfl⟩
  · exact .inr ⟨{ node with pool }.adopt p built,⟨rfl,rfl,rfl,rfl⟩,done,
      .inr ⟨rfl,p,built,rfl,timely⟩⟩

/-- A tick of a validator whose proposal is in time: the chain grows in order, and a prevote is for
a header in time. -/
theorem Chronicle.tick {held : Header → Prop} {readings : Readings} (chronicle : Chronicle held node)
    (slot : ∀ p built, node.pending = some (p,built) → p.height = node.height)
    (kept : ∀ p built, node.pending = some (p,built) → held p.header) (timely : node.Timely readings.now)
    (done : node.tick readings = some (after,votes)) :
    Chronicle held after ∧ ∀ v ∈ votes, v.kind = .prevote → ∃ p built,
      v.block = .block p.header.hash ∧
      p.header.fields.timestampMs ≤ saturatingAdd readings.now Spec.maxTimestampDriftMs ∧
      (node.pending = some (p,built) ∨ after.pending = some (p,built)) := by
  rcases tick_cases done with ⟨rfl,rfl⟩ | ⟨poised,same,driven,source⟩
  · exact ⟨chronicle,fun _ never => by cases never⟩
  have ready := chronicle.same same
  cases pending : poised.pending with
  | none =>
    unfold maybeVoteAndCommit at driven
    rw [pending] at driven
    cases driven
    exact ⟨ready,fun _ never => by cases never⟩
  | some held' =>
    obtain ⟨p,built⟩ := held'
    obtain ⟨prevotes,voted,alike,holding,few,tried⟩ := maybeVoteAndCommit_held pending driven
    rcases source with old | ⟨empty,p',built',new,bounds⟩
    · -- the proposal was there before the tick
      have before : node.pending = some (p,built) := old.symm.trans pending
      obtain ⟨late,ahead⟩ := timestampInBounds_iff.mp (timely p built before)
      refine ⟨(ready.same alike).tryCommit ?_ ?_ (kept p built before) tried,fun v listed kind =>
        ⟨p,built,prevotes v listed kind,ahead,.inl before⟩⟩
      · rw [alike.height,same.height]
        exact slot p built before
      · rw [alike.height,alike.lastTs,same.height,same.lastTs]
        exact late
    · -- it was made just now, with empty buffers
      obtain ⟨rfl,rfl⟩ : p' = p ∧ built' = built := by simpa [pending] using new.symm
      have short : ¬ 3 ≤ voted.precommits.length := by
        rw [empty,List.length_nil] at few
        omega
      unfold Live.tryCommit at tried
      rw [if_neg short] at tried
      cases tried
      exact ⟨ready.same alike,fun v listed kind => ⟨p',built',prevotes v listed kind,
        (timestampInBounds_iff.mp bounds).2,.inr (holding.trans pending)⟩⟩

end Events
end Live

namespace Deployment

open Live

section Time

variable [Bls] [Wasm] [Blake3] [Ed25519] [Vrf] (d : Deployment) (events : List (ValidatorId × NodeEvent))

def sends (id : ValidatorId) (e : NodeEvent) : List Vote :=
  match (d.node events id).1.step e with
  | none => []
  | some (_,votes) => votes

theorem node_own_sent (id : ValidatorId) (e : NodeEvent) :
    (d.node (events ++ [(id,e)]) id).2 = d.sends events id e ++ (d.node events id).2 := by
  rw [node_own,advance,sends]
  cases (d.node events id).1.step e <;> rfl

def Held (header : Header) : Prop :=
  ∃ id, d.Active id ∧ ∃ done, done <+: events ∧
    ∃ p built, (d.node done id).1.pending = some (p,built) ∧ p.header = header

def Distinct : Prop := ∀ a b, d.Held events a → d.Held events b → a.hash = b.hash → a = b

/-- At every tick of an honest validator the proposal that it holds is in time by its clock. -/
def Punctual : Prop :=
  ∀ id, d.Active id → ∀ done readings, done ++ [(id,.tick readings)] <+: events →
    (d.node done id).1.Timely readings.now

/-- The time of blocks goes up along the heights, and no block is ahead of the clock of an honest
validator that prevotes it by more than the drift. -/
structure BlockTime : Prop where
  monotone : ∀ i j, d.Active i → d.Active j → ∀ h h' : Height, h'.toNat = h.toNat + 1 → ∀ a b,
    (d.node events i).1.headerAt h = some a → (d.node events j).1.headerAt h' = some b →
    a.fields.timestampMs ≤ b.fields.timestampMs
  bounded : ∀ i j, d.Active i → d.Active j → ∀ h header,
    (d.node events i).1.headerAt h = some header →
    ∀ done readings, done ++ [(j,.tick readings)] <+: events →
    ∀ v ∈ d.sends done j (.tick readings), v.kind = .prevote → v.block = .block header.hash →
    header.fields.timestampMs.toNat ≤ readings.now.toNat + Spec.maxTimestampDriftMs.toNat

variable {d events}

variable {id : ValidatorId} {done : List (ValidatorId × NodeEvent)}

/-- The chain of an honest validator all along the run, and the prevotes on the way. -/
theorem chronicle (punctual : d.Punctual events) (active : d.Active id) (within : done <+: events) :
    Chronicle (d.Held events) (d.node done id).1 := by
  induction done using List.reverseRecOn with
  | nil => exact chronicle_fresh _ _
  | append_singleton done last ih =>
    obtain ⟨other,e⟩ := last
    have earlier : done <+: events := (List.prefix_append done _).trans within
    have before := ih earlier
    rw [node_snoc]
    split
    · rename_i mine
      subst mine
      cases stepped : (d.node done other).1.step e with
      | none =>
        rw [advance,stepped]
        exact before
      | some r =>
        rw [advance,stepped]
        have placed : Placed (d.config other) _ (d.node done other) := (validating active).placed
        cases e with
        | bytes data =>
          obtain ⟨after,handled,rfl⟩ := Option.map_eq_some_iff.mp stepped
          have member : (d.node done other).1.isValidator = true := placed.not_outsider active.configured
          exact before.same (handleBytes_same member handled)
        | tick readings =>
          exact (before.tick placed.pending (fun p built held => ⟨other,active,done,earlier,p,built,held,rfl⟩)
            (punctual other active done readings within) stepped).1
    · exact before

theorem prevote_held (punctual : d.Punctual events) (active : d.Active id) {readings : Readings}
    (within : done ++ [(id,.tick readings)] <+: events) {v : Vote}
    (sent : v ∈ d.sends done id (.tick readings)) (kind : v.kind = .prevote) :
    ∃ header, d.Held events header ∧ v.block = .block header.hash ∧
      header.fields.timestampMs ≤ saturatingAdd readings.now Spec.maxTimestampDriftMs := by
  have earlier : done <+: events := (List.prefix_append done _).trans within
  unfold sends at sent
  split at sent
  · cases sent
  rename_i after votes stepped
  have placed : Placed (d.config id) _ (d.node done id) := (validating active).placed
  obtain ⟨-,prevotes⟩ := (chronicle punctual active earlier).tick placed.pending
    (fun p built held => ⟨id,active,done,earlier,p,built,held,rfl⟩)
    (punctual id active done readings within) stepped
  obtain ⟨p,built,block,ahead,before | now⟩ := prevotes v sent kind
  · exact ⟨p.header,⟨id,active,done,earlier,p,built,before,rfl⟩,block,ahead⟩
  · refine ⟨p.header,⟨id,active,_,within,p,built,?_,rfl⟩,block,ahead⟩
    rw [node_own,advance,stepped]
    exact now

/-- In every run in which the proposals that honest validators hold at their ticks are in time, so
is the chain. -/
theorem block_time (d : Deployment) (events : List (ValidatorId × NodeEvent))
    (minority : 3 * d.byzantinePower < d.validators.power) (unforgeable : d.Unforgeable events)
    (separate : d.Separate events) (distinct : d.Distinct events) (punctual : d.Punctual events) :
    d.BlockTime events where
  monotone i j first second h h' next a b one other := by
    obtain ⟨offer,found,rfl⟩ := headerAt_eq_some one
    obtain ⟨later,found',rfl⟩ := headerAt_eq_some other
    have left := chronicle punctual first (List.prefix_refl events)
    have right := chronicle punctual second (List.prefix_refl events)
    -- the second validator has committed the height before, and the same header there
    rw [next] at found'
    obtain ⟨long,at_⟩ := List.getElem?_eq_some_iff.mp found'
    obtain ⟨middle,between⟩ : ∃ middle, (d.node events j).1.committed[h.toNat]? = some middle :=
      ⟨_,List.getElem?_eq_getElem (Nat.lt_of_succ_lt long)⟩
    have hashes := commits_agree minority unforgeable separate first second (left.logged h offer found)
      (right.logged h middle between)
    have same : offer.header = middle.header := distinct _ _
      (left.held offer (List.mem_of_getElem? found)) (right.held middle (List.mem_of_getElem? between)) hashes
    rw [same]
    obtain ⟨short,at_'⟩ := List.getElem?_eq_some_iff.mp between
    have ordered := List.pairwise_iff_getElem.mp right.ordered h.toNat (h.toNat + 1) short long
      (Nat.lt_succ_self _)
    rwa [at_,at_'] at ordered
  bounded i j first second h header committed done readings within v sent kind block := by
    obtain ⟨offer,found,rfl⟩ := headerAt_eq_some committed
    obtain ⟨header,held,block',ahead⟩ := prevote_held punctual second within sent kind
    have kept := (chronicle punctual first (List.prefix_refl events)).held offer
      (List.mem_of_getElem? found)
    rw [block] at block'
    have same : offer.header = header := distinct _ _ kept held (by simpa using block')
    rw [same]
    rw [BitVec.le_def,toNat_saturatingAdd] at ahead
    exact ahead.trans (min_le_left _ _)

end Time
end Deployment

/-! The leader of the sample dates its block a million milliseconds after the epoch. -/
namespace Quartet

open Live LoneSigner

attribute [local instance] ScalarBls.bls LoneSigner.blake3 Holdings.Sample.ed25519
  Holdings.Sample.wasm Agreement.Solo.vrf

variable {now : U64} {done : List (ValidatorId × NodeEvent)}

theorem node_within (within : done <+: events now) :
    ∃ k : Fin 8, deployment.node done (validator 2) = after k := by
  have taken : done = eventsOf now (script.take done.length) := by
    rw [eventsOf,List.map_take]
    exact List.prefix_iff_eq_take.mp within
  have short : done.length < 8 := Nat.lt_succ_of_le within.length_le
  exact ⟨⟨done.length,short⟩,(congrArg (fun done => deployment.node done (validator 2)) taken).trans
    (node_eventsOf now _)⟩

theorem pending_within (within : done <+: events now) {p : Proposal} {built : BuiltBlock}
    (held : (deployment.node done (validator 2)).1.pending = some (p,built)) :
    p.header = header ∧ (deployment.node done (validator 2)).1.height = 0 := by
  obtain ⟨k,same⟩ := node_within within
  have all := (run_events.2.2 k).2
  rw [same] at held ⊢
  rw [held] at all
  simpa using all

theorem distinct (now : U64) : deployment.Distinct (events now) := by
  have only {hd : Header} (held : deployment.Held (events now) hd) : hd = header := by
    obtain ⟨id,active,done,within,p,built,pending,rfl⟩ := held
    obtain rfl := active_eq active
    exact (pending_within within pending).1
  intro a b first second _
  rw [only first,only second]

theorem readings_now {id : ValidatorId} {readings : Readings}
    (listed : (id,.tick readings) ∈ events now) : readings.now = now := by
  obtain ⟨entry,-,same⟩ := List.mem_map.mp listed
  cases entry with
  | none =>
    cases same
    rfl
  | some data => cases same

theorem punctual : deployment.Punctual (events 1000000) := by
  intro id active done readings within p built held
  obtain rfl := active_eq active
  have listed : (validator 2,.tick readings) ∈ events 1000000 := within.subset (by simp)
  have now : readings.now = 1000000 := readings_now listed
  obtain ⟨same,first⟩ := pending_within ((List.prefix_append done _).trans within) held
  rw [timestampInBounds_iff,now,same]
  exact ⟨fun later => absurd first later,by decide⟩

theorem headerAt_after : (after 7).1.headerAt 0 = some header := by
  have committed := run_events.1.2
  unfold headerAt
  rw [← List.getElem?_map,committed]
  rfl

/-- The block is in time where the clock agrees with the leader. -/
theorem block_in_time :
    (deployment.node (events 1000000) (validator 2)).1.headerAt 0 = some header ∧
    deployment.BlockTime (events 1000000) := by
  refine ⟨?_,Deployment.block_time deployment (events 1000000) (by decide +kernel)
    (unforgeable 1000000) (separate 1000000) (distinct 1000000) punctual⟩
  rw [node_events]
  exact headerAt_after

/-- A clock at 0 does not keep the honest validator from prevoting and committing a block that is a
million milliseconds ahead. -/
theorem early_block_prevoted :
    3 * deployment.byzantinePower < deployment.validators.power ∧ deployment.Unforgeable (events 0) ∧
    deployment.Separate (events 0) ∧ deployment.Distinct (events 0) ∧
    ¬ deployment.BlockTime (events 0) := by
  refine ⟨by decide +kernel,unforgeable 0,separate 0,distinct 0,fun time => ?_⟩
  obtain ⟨⟨silent,v,listed,kind,block⟩,-⟩ := run_events.2
  have ticked : eventsOf 0 (script.take 3) ++ [(validator 2,event 0 none)] =
    eventsOf 0 (script.take 4) := rfl
  have sent : v ∈ deployment.sends (eventsOf 0 (script.take 3)) (validator 2) (event 0 none) := by
    have both := deployment.node_own_sent (eventsOf 0 (script.take 3)) (validator 2) (event 0 none)
    rw [ticked] at both
    change (after 4).2 = _ ++ (after 3).2 at both
    rw [silent,List.append_nil] at both
    rwa [← both]
  have within : eventsOf 0 (script.take 3) ++ [(validator 2,event 0 none)] <+: events 0 := by
    rw [ticked]
    exact (List.take_prefix 4 script).map _
  have committed : (deployment.node (events 0) (validator 2)).1.headerAt 0 = some header := by
    rw [node_events]
    exact headerAt_after
  have bound := time.bounded _ _ active active 0 header committed (eventsOf 0 (script.take 3))
    ⟨false,false,0,0⟩ within v sent kind block
  exact absurd bound (by decide)

end Quartet
end L1
