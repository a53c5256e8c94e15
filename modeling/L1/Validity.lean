import L1.Buffers
import L1.Timestamps

/-! What stands behind a header when a validator commits it: the slot, the leader of the slot and the
prevotes. Gossip fills the slot and the buffers unchecked, so the results here are about runs in
which what it brings in would pass the checks. -/
namespace L1

namespace Live

open Steps Wire

section Validity

variable [Bls] [Blake3] [Vrf]

/-- A proposal of the leader of the current slot, with a header of that slot. -/
structure Led (node : Live) (p : Proposal) : Prop where
  votable : Votable node p
  source : roundVrfSource node.validators node.round = some p.vrfSource
  height : p.header.fields.height = node.height
  round : p.header.fields.round = node.round

theorem Led.frame {node after : Live} {p : Proposal} (led : Led node p)
    (height : after.height = node.height) (round : after.round = node.round)
    (cfg : after.cfg = node.cfg) (last : after.lastHash = node.lastHash) : Led after p := by
  refine ⟨led.votable.frame height round cfg last,?_,led.height.trans height.symm,
    led.round.trans round.symm⟩
  rw [validators,cfg,round]
  exact led.source

/-- Prevotes of one slot by distinct signers, each with a signature of its own. -/
structure Tallied (known : Vote → Prop) (height : Height) (round : Round) (votes : List Vote) :
    Prop where
  distinct : (votes.map Vote.signer).Nodup
  slot : ∀ v ∈ votes, v.height = height ∧ v.round = round ∧ v.kind = .prevote
  verified : ∀ v ∈ votes, verifySignature v = .ok ()
  known : ∀ v ∈ votes, known v

/-- A validator that counts verified prevotes only, holds no proposal but the leader's, and has
precommitted no block without a quorum of such prevotes. -/
structure Vetted (delivered : Vote → Prop) (s : Live × List Vote) : Prop where
  pending : ∀ p built, s.1.pending = some (p,built) → Led s.1 p
  prevotes : Tallied (fun v => v ∈ s.2 ∨ delivered v) s.1.height s.1.round s.1.prevotes
  precommits : ∀ v ∈ s.2, v.kind = .precommit → ∀ x, v.block = .block x → ∃ prevotes,
    Tallied (fun v => v ∈ s.2 ∨ delivered v) v.height v.round prevotes ∧
      polka prevotes s.1.validators = some (.block x)

section Tallies

variable {votes : List Vote} {height : Height} {round : Round}

omit [Bls] [Blake3] [Vrf] in
theorem nodup_insertVoteSorted {v : Vote}
    (distinct : (votes.map Vote.signer).Nodup) (kinds : ∀ x ∈ votes, x.kind = v.kind) :
    ((insertVoteSorted votes v).map Vote.signer).Nodup := by
  unfold insertVoteSorted
  split
  · exact distinct
  · rename_i open_
    have free : ∀ x ∈ votes, x.signer = v.signer → x.kind ≠ v.kind := by simpa using open_
    have sorted := List.perm_insertionSort (fun a b : Vote => (compare a.signer b.signer).isLE)
      (votes ++ [v])
    rw [(sorted.map Vote.signer).nodup_iff,List.map_append,List.map_singleton]
    refine List.nodup_append.mpr ⟨distinct,List.nodup_singleton _,?_⟩
    intro id listed other single same
    obtain ⟨x,member,rfl⟩ := List.mem_map.mp listed
    rw [List.mem_singleton.mp single] at same
    exact free x member same (kinds x member)

omit [Blake3] [Vrf]

theorem Tallied.mono {p q : Vote → Prop}
    (tallied : Tallied p height round votes) (weaker : ∀ v, p v → q v) :
    Tallied q height round votes :=
  { tallied with known := fun v listed => weaker v (tallied.known v listed) }

theorem tallied_nil {known : Vote → Prop} : Tallied known height round [] := by
  constructor <;> simp

theorem Tallied.insert {known : Vote → Prop} (tallied : Tallied known height round votes) {v : Vote}
    (slot : v.height = height ∧ v.round = round ∧ v.kind = .prevote)
    (checked : (∀ x ∈ votes, x.signer = v.signer → x.kind ≠ v.kind) → verifySignature v = .ok ())
    (heard : known v) : Tallied known height round (insertVoteSorted votes v) where
  distinct := nodup_insertVoteSorted tallied.distinct fun x listed =>
    (tallied.slot x listed).2.2.trans slot.2.2.symm
  slot w listed := by
    rcases mem_insertVoteSorted.mp listed with old | ⟨rfl,-⟩
    · exact tallied.slot w old
    · exact slot
  verified w listed := by
    rcases mem_insertVoteSorted.mp listed with old | ⟨rfl,free⟩
    · exact tallied.verified w old
    · exact checked free
  known w listed := by
    rcases mem_insertVoteSorted.mp listed with old | ⟨rfl,-⟩
    · exact tallied.known w old
    · exact heard

/-- A polka of such prevotes has members with more than two thirds of the power behind it. -/
theorem Tallied.quorum {known : Vote → Prop}
    (tallied : Tallied known height round votes) {validators : ValidatorSet} {b : VoteBlock}
    (found : polka votes validators = some b) :
    ∃ s ⊆ validators.members, 2 * validators.power < 3 * validators.powerOf s ∧
      ∀ id ∈ s, ∃ v, known v ∧ v.signer = id ∧ verifySignature v = .ok () ∧
        v.message = signedMessage height round .prevote b := by
  obtain ⟨s,members,power,voted⟩ := @votedPower_members votes validators b tallied.distinct
  refine ⟨s,members,power ▸ polka_quorum found,fun id chosen => ?_⟩
  obtain ⟨v,listed,signer,block⟩ := voted id chosen
  obtain ⟨at_,in_,kind⟩ := tallied.slot v listed
  exact ⟨v,tallied.known v listed,signer,tallied.verified v listed,by
    rw [Vote.message,at_,in_,kind,block]⟩

end Tallies

section Moves

variable [Wasm] [Ed25519] {delivered : Vote → Prop} {node after : Live} {sent votes : List Vote}

/-- What gossip brings into a buffer or into the slot would pass the checks. -/
def Checked (node : Live) (e : NodeEvent) : Prop :=
  match e.message with
  | some (.vote v) => node.HasRoom v → verifySignature v = .ok ()
  | some (.proposal p) => node.Takes p → Led node p
  | _ => True

omit [Wasm] [Ed25519] in
theorem vetted_fresh (cfg : NodeConfig) (pool : Mempool) : Vetted delivered (fresh cfg pool,[]) := by
  refine ⟨?_,tallied_nil,?_⟩
  · intro p built held
    cases held
  · intro v listed
    cases listed

omit [Wasm] [Ed25519] in
theorem Vetted.frame (vetted : Vetted delivered (node,sent)) (height : after.height = node.height)
    (round : after.round = node.round) (cfg : after.cfg = node.cfg) (last : after.lastHash = node.lastHash)
    (pending : after.pending = node.pending) (prevotes : after.prevotes = node.prevotes) :
    Vetted delivered (after,sent) := by
  refine ⟨fun p built held => ?_,?_,?_⟩
  · exact (vetted.pending p built (pending.symm.trans held)).frame height round cfg last
  · rw [height,round,prevotes]
    exact vetted.prevotes
  · rw [validators,cfg]
    exact vetted.precommits

variable {p : Proposal} {readings : Readings} {s : Live × List Vote} {e : NodeEvent}

omit [Wasm] [Ed25519] in
theorem Vetted.adopt (vetted : Vetted delivered (node,sent)) (built : BuiltBlock)
    (led : Led node p) : Vetted delivered (node.adopt p built,sent) := by
  refine ⟨fun q b held => ?_,tallied_nil,vetted.precommits⟩
  cases held
  exact led.frame rfl rfl rfl rfl

omit [Wasm] [Ed25519] in
theorem Vetted.send (vetted : Vetted delivered (node,sent)) {v : Vote} {replay : VoteReplayLog}
    {prevotes precommits : List Vote}
    (counted : Tallied (fun w => w ∈ v :: sent ∨ delivered w) node.height node.round prevotes)
    (choice : v.kind = .precommit → ∀ x, v.block = .block x → ∃ prevotes,
      Tallied (fun w => w ∈ v :: sent ∨ delivered w) v.height v.round prevotes ∧
        polka prevotes node.validators = some (.block x)) :
    Vetted delivered ({ node with replay, prevotes, precommits },v :: sent) := by
  refine ⟨fun p built held => (vetted.pending p built held).frame rfl rfl rfl rfl,counted,?_⟩
  refine List.forall_mem_cons.mpr ⟨choice,fun w listed kind x block => ?_⟩
  obtain ⟨older,tallied,found⟩ := vetted.precommits w listed kind x block
  exact ⟨older,tallied.mono fun u => Or.imp_left (List.mem_cons_of_mem v),found⟩

theorem led_propose {src : ValidatorId} {srcPk : Vector UInt8 32} {proof : VrfProof}
    {built : BuiltBlock} {pool : Mempool}
    (source : roundVrfSource node.validators node.round = some src)
    (key : node.cfg.vrfPks[src]? = some srcPk)
    (done : wirePropose node.cfg.genesis node.cfg.blsSk node.cfg.ourId src srcPk proof node.seed
      node.height node.round readings.ts readings.now node.lastTs node.world node.pool =
        some (.ok (p,built),pool)) : Led node p := by
  obtain ⟨-,-,header,-,-,drawn,-,-,local_,-⟩ := wirePropose_ok done
  obtain ⟨fields,executes⟩ := Builder.buildLocal_some local_
  have made : p.header.fields = ⟨node.height,node.round,node.cfg.ourId,readings.ts⟩ := by
    rw [header,executes.header,fields]
  refine ⟨votable_propose key done,by rw [source,drawn],?_,?_⟩
  · rw [made]
  · rw [made]

theorem vetted_tick (move : Move (.tick readings) node after votes)
    (vetted : Vetted delivered (node,sent)) : Vetted delivered (after,votes ++ sent) := by
  cases move with
  | pool pool => exact vetted.frame rfl rfl rfl rfl rfl rfl
  | vote v said => cases said
  | proposal p built said => cases said
  | offer offer said => cases said
  | catchup after said =>
    obtain ⟨offer,said⟩ := said
    cases said
  | propose src srcPk proof readings p built pool source key free done =>
    have stocked : Vetted delivered ({ node with pool },sent) := vetted.frame rfl rfl rfl rfl rfl rfl
    exact stocked.adopt built ((led_propose source key done).frame rfl rfl rfl rfl)
  | prevote prop built held =>
    obtain ⟨replay,-,same | ⟨v,released,-,-,-,same⟩⟩ := castPrevote_cases node prop
    · rw [same]
      exact vetted.frame rfl rfl rfl rfl rfl rfl
    · rw [same]
      have older := vetted.prevotes.mono
        (q := fun w => w ∈ v :: sent ∨ delivered w) fun u => Or.imp_left (List.mem_cons_of_mem v)
      refine vetted.send (older.insert released.slot (fun _ => released.verified)
        (.inl (List.mem_cons_self ..))) fun precommit => ?_
      rw [released.slot.2.2] at precommit
      cases precommit
  | precommit prop built held =>
    obtain ⟨replay,-,same | ⟨v,released,block,same⟩⟩ := castPrecommit_cases node prop
    · rw [same]
      exact vetted.frame rfl rfl rfl rfl rfl rfl
    · rw [same]
      have older := vetted.prevotes.mono
        (q := fun w => w ∈ v :: sent ∨ delivered w) fun u => Or.imp_left (List.mem_cons_of_mem v)
      refine vetted.send older fun _ x mine => ?_
      obtain ⟨height,round,-⟩ := released.slot
      rw [height,round]
      rcases block with nil | ⟨block,found⟩
      · rw [mine] at nil
        cases nil
      · rw [mine] at block
        cases block
        exact ⟨node.prevotes,older,found⟩
  | commit prop built _ held after done =>
    rcases tryCommit_cases done with rfl | ⟨f,commits,-,rfl | ⟨store,-,rfl⟩⟩
    · exact vetted
    · exact vetted.frame rfl rfl rfl rfl rfl rfl
    · refine ⟨fun p b held => ?_,tallied_nil,vetted.precommits⟩
      cases held

theorem vetted_receive {message : Gossip.Message} (member : node.isValidator = true)
    (heard : ∀ v, message = .vote v → delivered v)
    (votes : ∀ v, message = .vote v → node.HasRoom v → verifySignature v = .ok ())
    (proposals : ∀ p, message = .proposal p → node.Takes p → Led node p)
    (vetted : Vetted delivered (node,sent)) (done : node.receive message = some after) :
    Vetted delivered (after,sent) := by
  cases message with
  | tx signed =>
    obtain ⟨pool,same⟩ := receiveTx_frame node signed
    cases done
    rw [same]
    exact vetted.frame rfl rfl rfl rfl rfl rfl
  | vote v =>
    cases done
    obtain ⟨replay,-,same | ⟨height,round,⟨kind,same⟩ | ⟨-,same⟩⟩⟩ := receiveVote_cases node v
    · rw [same]
      exact vetted.frame rfl rfl rfl rfl rfl rfl
    · rw [same]
      refine ⟨fun p built held => (vetted.pending p built held).frame rfl rfl rfl rfl,?_,vetted.precommits⟩
      refine vetted.prevotes.insert ⟨height,round,kind⟩ (fun free => ?_) (.inr (heard v rfl))
      refine votes v rfl ⟨height,round,?_⟩
      rwa [kind] at free ⊢
    · rw [same]
      exact vetted.frame rfl rfl rfl rfl rfl rfl
  | proposal p =>
    rcases receiveProposal_cases done with rfl | ⟨height,round,free,built,rebuilt,rfl⟩
    · exact vetted
    · exact vetted.adopt built (proposals p rfl ⟨height,round,free,built,rebuilt⟩)
  | block offer =>
    change node.receiveOffer offer = _ at done
    unfold receiveOffer at done
    dsimp only at done
    split at done
    · cases done
      exact vetted.frame rfl rfl rfl rfl rfl rfl
    · rename_i outsider
      exact absurd member outsider

theorem vetted_advance (member : s.1.isValidator = true)
    (heard : ∀ v, e.message = some (.vote v) → delivered v) (checked : Checked s.1 e)
    (vetted : Vetted delivered s) : Vetted delivered (advance s e) := by
  cases e with
  | tick readings => exact advance_keep vetted fun _ _ _ _ => vetted_tick
  | bytes data =>
    obtain ⟨node,sent⟩ := s
    rw [advance_bytes,handleBytes]
    cases said : Gossip.read data with
    | none => exact vetted
    | some message =>
      have told : (NodeEvent.bytes data).message = some message := said
      unfold Checked at checked
      rw [told] at checked
      cases taken : node.receive message with
      | none => simpa only [taken,Option.getD_none] using vetted
      | some after =>
        simp only [taken,Option.getD_some]
        refine vetted_receive member ?_ ?_ ?_ vetted taken
        · rintro v rfl
          exact heard v told
        · rintro v rfl
          exact checked
        · rintro p rfl
          exact checked

/-- A validator commits on a tick only, and then the proposal that it held before. -/
theorem commit_pending {offer : BodyOffer}
    (member : s.1.isValidator = true) (grown : (advance s e).1.committed = s.1.committed ++ [offer]) :
    ∃ p built, s.1.pending = some (p,built) ∧ offer.header = p.header ∧
      (advance s e).1.commits[p.height]? = some p.header.hash := by
  obtain ⟨node,sent⟩ := s
  have moved : (advance (node,sent) e).1.committed ≠ node.committed := by
    rw [grown]
    exact fun same => by simpa using congrArg List.length same
  cases stepped : node.step e with
  | none =>
    rw [advance,stepped] at moved
    exact absurd rfl moved
  | some r =>
    rw [advance,stepped] at grown moved ⊢
    cases e with
    | bytes data =>
      obtain ⟨after,handled,rfl⟩ := Option.map_eq_some_iff.mp stepped
      exact absurd (handleBytes_same member handled).committed moved
    | tick readings =>
      obtain ⟨after,votes⟩ := r
      rcases tick_cases stepped with ⟨rfl,rfl⟩ | ⟨poised,same,driven,source⟩
      · exact absurd rfl moved
      cases pending : poised.pending with
      | none =>
        unfold maybeVoteAndCommit at driven
        rw [pending] at driven
        cases driven
        exact absurd same.committed moved
      | some held =>
        obtain ⟨p,built⟩ := held
        obtain ⟨-,voted,alike,-,few,tried⟩ := maybeVoteAndCommit_held pending driven
        have chain : voted.committed = node.committed := alike.committed.trans same.committed
        rcases source with old | ⟨empty,-⟩
        · refine ⟨p,built,old.symm.trans pending,?_⟩
          rcases tryCommit_cases tried with rfl | ⟨f,commits,finished,rfl | ⟨store,-,rfl⟩⟩
          · exact absurd chain moved
          · exact absurd chain moved
          · obtain ⟨qc,committed⟩ := commit_ok finished
            have last : [offer] = [⟨p.header,built.block,built.encodedReceipts,f.appHash⟩] := by
              refine List.append_cancel_left (grown.symm.trans ?_)
              rw [← chain]
            cases last
            refine ⟨rfl,(record_ok committed.recorded _ _).mpr (.inr ⟨?_,?_⟩)⟩
            · rw [committed.finalized]
            · rw [committed.finalized]
        · -- a proposal made in this tick finds the buffers empty
          have short : ¬ 3 ≤ voted.precommits.length := by
            rw [empty,List.length_nil] at few
            omega
          unfold Live.tryCommit at tried
          rw [if_neg short] at tried
          cases tried
          exact absurd chain moved

end Moves
end Validity
end Live

namespace Deployment

open Live

section Validity

variable [Bls] [Wasm] [Blake3] [Ed25519] [Vrf] (d : Deployment) (events : List (ValidatorId × NodeEvent))

/-- A vote that verifies under the key of an honest validator was sent by it. -/
def VotesUnforgeable : Prop :=
  ∀ v, d.Occurs events v → verifySignature v = .ok () → d.honest v.signer = true →
    d.Signed events v.signer v.message

/-- At no time has a signature of an honest validator been forged. -/
def NeverForged : Prop :=
  ∀ done, done <+: events → d.Unforgeable done ∧ d.VotesUnforgeable done

/-- What gossip brings to honest validators would pass the checks. -/
def GossipChecked : Prop :=
  ∀ id, d.Active id → ∀ done e, done ++ [(id,e)] <+: events → (d.node done id).1.Checked e

/-- A validator has signed a message as a prevote: there is a vote that verifies under its key, and
one that follows the code has sent it. -/
def Prevoted (message : Bytes) (id : ValidatorId) : Prop :=
  ∃ v, d.Occurs events v ∧ v.signer = id ∧ v.message = message ∧ verifySignature v = .ok () ∧
    (d.honest id = true → d.Signed events id message)

/-- What stands behind a header that a validator commits in a slot. -/
structure Valid (minority : 3 * d.byzantinePower < d.validators.power) (node : Live) (header : Header) :
    Prop where
  height : header.fields.height = node.height
  round : header.fields.round = node.round
  leader : ∃ p built, node.pending = some (p,built) ∧ p.header = header ∧ Votable node p ∧
    roundVrfSource node.validators node.round = some p.vrfSource
  prevotes : ∃ s, (d.electorate minority).IsQuorum s ∧ ∀ id ∈ s,
    d.Prevoted events (signedMessage node.height node.round .prevote (.block header.hash)) id

/-- Every header that an honest validator commits is valid at that moment. -/
def CommitsValid (minority : 3 * d.byzantinePower < d.validators.power) : Prop :=
  ∀ id, d.Active id → ∀ done e, done ++ [(id,e)] <+: events → ∀ offer,
    (d.node (done ++ [(id,e)]) id).1.committed = (d.node done id).1.committed ++ [offer] →
      d.Valid (done ++ [(id,e)]) minority (d.node done id).1 offer.header

variable {d events} {done : List (ValidatorId × NodeEvent)}

theorem GossipChecked.within (checked : d.GossipChecked events) (within : done <+: events) :
    d.GossipChecked done :=
  fun id active earlier e before => checked id active earlier e (before.trans within)

theorem isValidator_node {id : ValidatorId} (active : d.Active id) :
    (d.node events id).1.isValidator = true := by
  have placed : Placed (d.config id) _ (d.node events id) := (validating active).placed
  exact placed.not_outsider active.configured

theorem vetted (checked : d.GossipChecked events) {id : ValidatorId} (active : d.Active id)
    (within : done <+: events) :
    Vetted (fun v => ∃ e, (id,e) ∈ events ∧ e.message = some (.vote v)) (d.node done id) := by
  induction done using List.reverseRecOn with
  | nil => exact vetted_fresh _ _
  | append_singleton done last ih =>
    obtain ⟨other,e⟩ := last
    have before := ih ((List.prefix_append done _).trans within)
    rw [node_snoc]
    split
    · rename_i mine
      subst mine
      have listed : (other,e) ∈ events := within.subset (by simp)
      exact vetted_advance (isValidator_node active) (fun v said => ⟨e,listed,said⟩)
        (checked other active done e within) before
    · exact before

/-- A quorum has prevoted what an honest validator precommits. -/
theorem precommit_prevoted (minority : 3 * d.byzantinePower < d.validators.power)
    (genuine : d.VotesUnforgeable events) (checked : d.GossipChecked events) {id : ValidatorId}
    (active : d.Active id) {h : Height} {r : Round} {x : Hash}
    (signed : d.Signed events id (signedMessage h r .precommit (.block x))) :
    ∃ s, (d.electorate minority).IsQuorum s ∧ ∀ k ∈ s,
      d.Prevoted events (signedMessage h r .prevote (.block x)) k := by
  obtain ⟨v,sent,message⟩ := signed
  obtain ⟨height,round,kind,block⟩ := signedMessage_injective message
  have mine := vetted checked active (List.prefix_refl events)
  obtain ⟨prevotes,tallied,found⟩ := mine.precommits v sent kind x block
  rw [height,round] at tallied
  have placed : Placed (d.config id) _ (d.node events id) := (validating active).placed
  rw [Live.validators,placed.configured,(d.shared id active.honest).1] at found
  obtain ⟨s,members,most,voted⟩ := tallied.quorum found
  refine ⟨s,⟨members,most⟩,fun k chosen => ?_⟩
  obtain ⟨w,known,rfl,verified,said⟩ := voted k chosen
  have occurs : d.Occurs events w := ⟨id,active,known⟩
  exact ⟨w,occurs,rfl,said,verified,fun honest => said ▸ genuine w occurs verified honest⟩

/-- In every run in which all that gossip brings to honest validators would pass the checks, every
header they commit is of their slot, was signed by the leader of the slot, and was prevoted in it by
validators with more than two thirds of the power. -/
theorem live_validity (d : Deployment) (events : List (ValidatorId × NodeEvent))
    (minority : 3 * d.byzantinePower < d.validators.power) (unforged : d.NeverForged events)
    (checked : d.GossipChecked events) : d.CommitsValid events minority := by
  intro id active done e within offer grown
  have earlier : done <+: events := (List.prefix_append done _).trans within
  have member : (d.node done id).1.isValidator = true := isValidator_node active
  have now := grown
  rw [node_own] at now
  obtain ⟨p,built,held,same,recorded⟩ := commit_pending member now
  rw [← node_own] at recorded
  have led := (vetted checked active earlier).pending p built held
  have placed : Placed (d.config id) _ (d.node done id) := (validating active).placed
  obtain ⟨genuine,votes⟩ := unforged _ within
  -- an honest validator is among those that precommitted, and it counted the prevotes
  have supported := commit_supported minority genuine active recorded
  obtain ⟨k,counted,honest,signed,-⟩ := supported.meet supported
  have prevoted := precommit_prevoted minority votes (checked.within within)
    (active_of_not_faulty counted honest) signed
  rw [same]
  refine ⟨led.height,led.round,⟨p,built,held,rfl,led.votable,led.source⟩,?_⟩
  rw [← led.votable.height,placed.round]
  exact prevoted

end Validity
end Deployment

/-! The sample with four validators, in order and with a prevote that is forged in the name of the
honest one. -/
namespace Quartet

open Live LoneSigner Wire

attribute [local instance] ScalarBls.bls LoneSigner.blake3 Holdings.Sample.ed25519
  Holdings.Sample.wasm Agreement.Solo.vrf

theorem votesUnforgeable_of_delivered {events : List (ValidatorId × NodeEvent)}
    (foreign : ∀ e v, (validator 2,e) ∈ events → e.message = some (.vote v) →
      verifySignature v = .ok () → v.signer ≠ validator 2) : deployment.VotesUnforgeable events := by
  intro v occurs verified honest
  have signer : v.signer = validator 2 := of_decide_eq_true honest
  obtain ⟨k,active,sent | ⟨e,told,said⟩⟩ := occurs
  · obtain rfl := active_eq active
    rw [signer]
    exact ⟨v,sent,rfl⟩
  · obtain rfl := active_eq active
    exact absurd signer (foreign e v told said verified)

theorem neverForged_events : deployment.NeverForged (events 0) := fun _ within =>
  ⟨unforgeable_of_delivered fun _ _ listed said _ => delivered_signers (within.subset listed) said,
    votesUnforgeable_of_delivered fun _ _ listed said _ => delivered_signers (within.subset listed) said⟩

theorem leads (seed : VrfSeed) : verifyLeader proposal zeroHash seed genesis.validators = true := by
  have same : verifyLeader proposal zeroHash seed genesis.validators =
    verifyLeader proposal zeroHash zeroHash genesis.validators := rfl
  rw [same]
  decide +kernel

theorem led_proposal {node : Live} (cfg : node.cfg = config (validator 2))
    (height : proposal.height = node.height) (round : proposal.round = node.round) : Led node proposal := by
  have signed := ((ingestProposal_ok_iff proposal).mp (by decide +kernel)).2.2
  refine ⟨⟨signed,height,round,zeroHash,?_,?_⟩,?_,height,round⟩
  · rw [cfg]
    decide +kernel
  · rw [Live.validators,cfg]
    exact leads _
  · rw [Live.validators,cfg,← round]
    decide +kernel

theorem gossipChecked_events : deployment.GossipChecked (events 0) := by
  have verified : ∀ v ∈ [prevote 3,prevote 4,precommit 3,precommit 4], verifySignature v = .ok () := by
    decide +kernel
  intro id active done e within
  obtain rfl := active_eq active
  have listed : (validator 2,e) ∈ events 0 := within.subset (by simp)
  unfold Live.Checked
  split
  · rename_i v said
    intro _
    have told := mem_messages listed said
    rw [messages_script] at told
    exact verified v (by simpa using told)
  · rename_i p said
    rintro ⟨height,round,-⟩
    have told := mem_messages listed said
    rw [messages_script] at told
    obtain rfl : p = proposal := by simpa using told
    have placed : Placed (deployment.config (validator 2)) _ (deployment.node done (validator 2)) :=
      (Deployment.validating active).placed
    exact led_proposal placed.configured height round
  · trivial

theorem few_faulty : 3 * deployment.byzantinePower < deployment.validators.power := by decide +kernel

/-- The honest validator commits the header of the leader, with a quorum of prevotes. -/
theorem valid_header_committed :
    (deployment.node (events 0) (validator 2)).1.headerAt 0 = some header ∧
    deployment.CommitsValid (events 0) few_faulty := by
  refine ⟨?_,Deployment.live_validity deployment (events 0) few_faulty neverForged_events
    gossipChecked_events⟩
  rw [node_events]
  exact headerAt_after

def usurped : Proposal := { proposal with
  proposer := validator 3
  signature := Vector.replicate 96 0 }

def stolen : Vote := ⟨0,0,.prevote,.block header.hash,validator 2,Vector.replicate 96 0⟩

def forgery : List (Option Bytes) := [
  some (Gossip.encodeFrame .proposal (Gossip.encodeProposal usurped)),
  say stolen,say (prevote 3),say (prevote 4),none,say (precommit 3),say (precommit 4),none]

theorem messages_forgery : messages forgery =
    [.proposal usurped,.vote stolen,.vote (prevote 3),.vote (prevote 4),.vote (precommit 3),
      .vote (precommit 4)] := by
  simp [messages,forgery,say,event,NodeEvent.message,Gossip.read_vote,Gossip.read_proposal]

theorem neverForged_forgery : deployment.NeverForged (eventsOf 0 forgery) := by
  have all : ∀ v ∈ [stolen,prevote 3,prevote 4,precommit 3,precommit 4],
      (v.kind = .precommit → v.signer ≠ validator 2) ∧
      (verifySignature v = .ok () → v.signer ≠ validator 2) := by
    decide +kernel
  have told {e : NodeEvent} {v : Vote} (listed : (validator 2,e) ∈ eventsOf 0 forgery)
      (said : e.message = some (.vote v)) : v ∈ [stolen,prevote 3,prevote 4,precommit 3,precommit 4] := by
    have heard := mem_messages listed said
    rw [messages_forgery] at heard
    simpa using heard
  exact fun _ within =>
    ⟨unforgeable_of_delivered fun _ v listed said => (all v (told (within.subset listed) said)).1,
      votesUnforgeable_of_delivered fun _ v listed said => (all v (told (within.subset listed) said)).2⟩

theorem run_forgery :
    (deployment.node (eventsOf 0 (forgery.take 7)) (validator 2)).1.committed = [] ∧
    (deployment.node (eventsOf 0 forgery) (validator 2)).1.committed.map BodyOffer.header = [header] ∧
    (∀ v ∈ (deployment.node (eventsOf 0 forgery) (validator 2)).2, v.kind = .precommit) ∧
    (deployment.node (eventsOf 0 (forgery.take 7)) (validator 2)).1.pending.map Prod.fst =
      some usurped ∧
    ingestProposal usurped ≠ .ok () := by
  have read : forgery.map (Option.map Gossip.read) = [
      some (some (.proposal usurped)),some (some (.vote stolen)),some (some (.vote (prevote 3))),
      some (some (.vote (prevote 4))),none,some (some (.vote (precommit 3))),
      some (some (.vote (precommit 4))),none] := by
    simp [forgery,say,Gossip.read_vote,Gossip.read_proposal]
  rw [node_heard,node_heard,List.map_take,read]
  decide +kernel

/-- The honest validator commits a header that no leader proposed to it, and for which it has not
prevoted itself, although it holds most of the power. -/
theorem stolen_prevote_commits :
    deployment.NeverForged (eventsOf 0 forgery) ∧ deployment.Active (validator 2) ∧
    (deployment.node (eventsOf 0 forgery) (validator 2)).1.headerAt 0 = some header ∧
    (deployment.node (eventsOf 0 (forgery.take 7)) (validator 2)).1.pending.map Prod.fst =
      some usurped ∧ ingestProposal usurped ≠ .ok () ∧
    (∀ v ∈ (deployment.node (eventsOf 0 forgery) (validator 2)).2, v.kind = .precommit) ∧
    ¬ deployment.CommitsValid (eventsOf 0 forgery) few_faulty := by
  obtain ⟨before,after,silent,held,unsigned⟩ := run_forgery
  obtain ⟨offer,single,same⟩ := List.map_eq_singleton_iff.mp after
  have ticked : eventsOf 0 (forgery.take 7) ++ [(validator 2,event 0 none)] = eventsOf 0 forgery := rfl
  refine ⟨neverForged_forgery,active,?_,held,unsigned,silent,fun valid => ?_⟩
  · rw [headerAt,single]
    exact congrArg some same
  · have good := valid (validator 2) active (eventsOf 0 (forgery.take 7)) (event 0 none)
      (by rw [ticked]) offer (by rw [ticked,before,single]; rfl)
    rw [ticked] at good
    -- the honest validator is in every quorum
    obtain ⟨s,quorum,prevoted⟩ := good.prevotes
    obtain ⟨id,inside,-,honest⟩ := quorum.meet quorum
    have mine := Deployment.active_of_not_faulty (quorum.sub inside) honest
    obtain ⟨v,-,-,-,-,signed⟩ := prevoted id inside
    obtain ⟨w,sent,message⟩ := signed mine.honest
    obtain rfl := active_eq mine
    obtain ⟨-,-,kind,-⟩ := signedMessage_injective message
    rw [silent w sent] at kind
    cases kind

end Quartet
end L1
