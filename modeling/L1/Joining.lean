import L1.Network
import L1.Outsiders

/-! Nodes that join. A node that is no validator takes over the chain of its offers and looks at no
vote, so the results here are about runs in which only certified headers are offered to it. -/
namespace L1

namespace Live

section Offers

variable [Bls] [Blake3] [Wasm] [Ed25519]

/-- A header that a node takes over in a catch-up on an event. -/
def Adopts (node : Live) (e : NodeEvent) (header : Header) : Prop :=
  node.isValidator = false ∧ ∃ offer, e.message = some (.block offer) ∧
    ∃ bodies app store, (node.withOffer offer).offeredChain = some bodies ∧
      Sync.catchup node.cfg.genesis node.store (bodies.map BodyOffer.header) bodies =
        some (.ok app,store) ∧
      header ∈ bodies.map BodyOffer.header

variable [Vrf] {e : NodeEvent}

theorem offers_move {node after : Live} {votes : List Vote} (move : Move e node after votes) {h : U64}
    {offer : BodyOffer} (held : after.syncOffers[h]? = some offer) :
    node.syncOffers[h]? = some offer ∨ e.message = some (.block offer) := by
  cases move with
  | pool pool => exact .inl held
  | vote v said =>
    obtain ⟨replay,-,same | ⟨-,-,⟨-,same⟩ | ⟨-,same⟩⟩⟩ := receiveVote_cases node v
    all_goals
      rw [same] at held
      exact .inl held
  | proposal => exact .inl held
  | offer new said =>
    change (node.syncOffers.insert _ new)[h]? = _ at held
    rw [Map.get?_insert] at held
    split at held
    · cases held
      exact .inr said
    · exact .inl held
  | catchup after said outsider done =>
    rcases tryCatchup_cases done with rfl | ⟨_,_,_,-,-,⟨-,rfl⟩ | ⟨_,_,_,-,-,-,rfl⟩⟩
    all_goals exact .inl held
  | propose => exact .inl held
  | prevote prop =>
    obtain ⟨replay,prevotes,same⟩ := castPrevote_frame node prop
    rw [same] at held
    exact .inl held
  | precommit prop =>
    obtain ⟨replay,precommits,same⟩ := castPrecommit_frame node prop
    rw [same] at held
    exact .inl held
  | commit prop built member waiting after done =>
    rcases tryCommit_cases done with rfl | ⟨_,_,-,rfl | ⟨_,-,rfl⟩⟩
    all_goals exact .inl held

theorem offers_advance {P : BodyOffer → Prop} (s : Live × List Vote)
    (before : ∀ (h : U64) offer, s.1.syncOffers[h]? = some offer → P offer)
    (said : ∀ offer, e.message = some (.block offer) → P offer) :
    ∀ (h : U64) offer, (advance s e).1.syncOffers[h]? = some offer → P offer := by
  refine advance_keep (P := fun s => ∀ (h : U64) offer, s.1.syncOffers[h]? = some offer → P offer)
    before ?_
  intro node after votes sent move kept h offer held
  rcases offers_move move held with old | new
  · exact kept h offer old
  · exact said offer new

end Offers
end Live

namespace Deployment

open Live

section Joining

variable [Bls] [Wasm] [Blake3] [Ed25519] [Vrf] (d : Deployment)

structure Outside (id : ValidatorId) : Prop where
  honest : d.honest id = true
  stranger : id ∉ d.validators.members

def Precommitted (minority : 3 * d.byzantinePower < d.validators.power)
    (events : List (ValidatorId × NodeEvent)) (header : Header) : Prop :=
  (d.electorate minority).Supported fun id =>
    d.Signed events id (signedMessage header.fields.height 0 .precommit (.block header.hash))

/-- Every header that is offered to an outsider was precommitted before. -/
def OffersCertified (minority : 3 * d.byzantinePower < d.validators.power)
    (events : List (ValidatorId × NodeEvent)) : Prop :=
  ∀ id, d.Outside id → ∀ done e, done ++ [(id,e)] <+: events →
    ∀ offer, e.message = some (.block offer) → d.Precommitted minority done offer.header

/-- Every header that an outsider takes over was precommitted before, and it is the one that
honest validators commit at its height. -/
def JoinsAgree (minority : 3 * d.byzantinePower < d.validators.power)
    (events : List (ValidatorId × NodeEvent)) : Prop :=
  ∀ id, d.Outside id → ∀ done e, done ++ [(id,e)] <+: events →
    ∀ header, (d.node done id).1.Adopts e header →
      d.Precommitted minority done header ∧
      ∀ j, d.Active j → ∀ x, (d.node events j).1.commits[header.fields.height]? = some x →
        header.hash = x

variable {d} {minority : 3 * d.byzantinePower < d.validators.power}
  {done events : List (ValidatorId × NodeEvent)}

theorem sent_mono (within : done <+: events) (id : ValidatorId) {v : Vote}
    (sent : v ∈ (d.node done id).2) : v ∈ (d.node events id).2 := by
  obtain ⟨more,rfl⟩ := within
  induction more using List.reverseRecOn with
  | nil => simpa using sent
  | append_singleton more last ih =>
    obtain ⟨other,e⟩ := last
    rw [← List.append_assoc,node_snoc]
    split
    · unfold advance
      split
      · exact ih
      · exact List.mem_append_right _ ih
    · exact ih

theorem Precommitted.mono (within : done <+: events) {header : Header}
    (precommitted : d.Precommitted minority done header) : d.Precommitted minority events header :=
  Quorum.Electorate.Supported.mono precommitted
    fun id ⟨v,sent,message⟩ => ⟨v,sent_mono within id sent,message⟩

omit [Wasm] [Ed25519] [Vrf] in
theorem start_config {id : ValidatorId} (honest : d.honest id = true) :
    start (d.config id) = some (fresh (d.config id) d.pool) := by
  rw [start,(d.shared id honest).1,d.started]
  rfl

theorem offers_certified (certified : d.OffersCertified minority events) {id : ValidatorId}
    (outside : d.Outside id) (within : done <+: events) :
    ∀ (h : U64) offer, (d.node done id).1.syncOffers[h]? = some offer →
      d.Precommitted minority done offer.header := by
  induction done using List.reverseRecOn with
  | nil =>
    intro h offer held
    change (∅ : Map U64 BodyOffer)[h]? = _ at held
    simp at held
  | append_singleton done last ih =>
    obtain ⟨other,e⟩ := last
    have earlier : done <+: done ++ [(other,e)] := List.prefix_append done _
    have before := ih (earlier.trans within)
    intro h offer
    rw [node_snoc]
    split
    · rename_i mine
      subst mine
      refine offers_advance (P := fun offer => d.Precommitted minority (done ++ [(other,e)]) offer.header)
        (d.node done other) ?_ ?_ h offer
      · exact fun h offer held => (before h offer held).mono earlier
      · exact fun offer said => (certified other outside done e within offer said).mono earlier
    · exact fun held => (before h offer held).mono earlier

/-- In every run in which outsiders are offered precommitted headers only, what they take over was
precommitted by validators with more than two thirds of the power, and it is what every honest
validator commits at that height. -/
theorem joining_agreement (d : Deployment) (events : List (ValidatorId × NodeEvent))
    (minority : 3 * d.byzantinePower < d.validators.power) (unforgeable : d.Unforgeable events)
    (separate : d.Separate events) (certified : d.OffersCertified minority events) :
    d.JoinsAgree minority events := by
  intro id outside done e within header adopts
  obtain ⟨-,offer,said,bodies,app,store,offered,-,listed⟩ := adopts
  have earlier : done <+: events := (List.prefix_append done _).trans within
  have held := offers_certified certified outside earlier
  have precommitted : d.Precommitted minority done header := by
    obtain ⟨body,member,rfl⟩ := List.mem_map.mp listed
    have kept : Kept (d.config id) (d.node done id).1 := kept_run (start_config outside.honest) _
    have there := ((offeredChain_some (kept.withOffer offer) offered).2.2 body).mp member
    change (((d.node done id).1.syncOffers.insert _ offer))[_]? = _ at there
    rw [Map.get?_insert] at there
    split at there
    · cases there
      exact certified id outside done e within offer said
    · exact held _ body there
  refine ⟨precommitted,fun j active x committed => ?_⟩
  obtain ⟨k,member,honest,left,right⟩ := (precommitted.mono earlier).meet
    (commit_supported minority unforgeable active committed)
  exact precommit_unique (active_of_not_faulty member honest) separate left right

end Joining
end Deployment

/-! A fourth node joins three honest validators that have not voted yet. -/
namespace Devnet

open Live LoneSigner

attribute [local instance] ScalarBls.bls LoneSigner.blake3 Holdings.Sample.ed25519
  Holdings.Sample.wasm Agreement.Solo.vrf

theorem config_tag {id : ValidatorId}
    (listed : id = validator 1 ∨ id = validator 2 ∨ id = validator 3 ∨ id = validator 4) :
    (config (id.toList.headD 0)).genesis = genesis ∧ (config (id.toList.headD 0)).ourId = id := by
  rcases listed with rfl | rfl | rfl | rfl <;> exact ⟨rfl,rfl⟩

def deployment : Deployment where
  genesis
  honest id := id = validator 1 ∨ id = validator 2 ∨ id = validator 3 ∨ id = validator 4
  config id := config (id.toList.headD 0)
  pool := emptyPool
  shared _ honest := config_tag (of_decide_eq_true honest)
  started := (Option.some_get _).symm

def joining : List (ValidatorId × NodeEvent) := [(validator 4,.bytes (offerBytes plain))]

theorem outside : deployment.Outside (validator 4) := ⟨by decide,by decide +kernel⟩

theorem active_ne {id : ValidatorId} (active : deployment.Active id) : id ≠ validator 4 := by
  rintro rfl
  exact outside.stranger active.member

theorem silent {id : ValidatorId} (active : deployment.Active id) :
    (deployment.node joining id).2 = [] := by
  have nothing : Deployment.own id joining = [] := by
    simp [Deployment.own,joining,(active_ne active).symm]
  rw [Deployment.node,nothing]
  rfl

theorem unforgeable_joining : deployment.Unforgeable joining := by
  intro votes qc occur aggregated
  have none : votes = [] := by
    refine List.eq_nil_iff_forall_not_mem.mpr fun v listed => ?_
    obtain ⟨id,active,sent | ⟨e,told,-⟩⟩ := occur v listed
    · rw [silent active] at sent
      cases sent
    · simp only [joining,List.mem_singleton,Prod.mk.injEq] at told
      exact active_ne active told.1
  rw [none] at aggregated
  cases aggregated

theorem separate_joining : deployment.Separate joining := by
  intro id active v sent
  rw [silent active] at sent
  cases sent

theorem adopts_plain : (deployment.node [] (validator 4)).1.Adopts (.bytes (offerBytes plain)) plain.header := by
  have whole : ((node 4).withOffer plain).offeredChain = some [plain] := by decide +kernel
  have kept : Kept (config 4) (node 4) := kept_fresh _ _
  obtain ⟨app,store,caught⟩ := (Sync.catchup_ok_iff contiguous_plain (by simp) kept.genesis
    ([plain].map BodyOffer.header)).mpr ⟨valid_plain,by decide⟩
  exact ⟨by decide +kernel,plain,read_plain,[plain],app,store,whole,caught,List.mem_singleton.mpr rfl⟩

/-- The node takes over a block that nobody precommitted. -/
theorem uncertified_block_adopted :
    ∃ minority : 3 * deployment.byzantinePower < deployment.validators.power,
      deployment.Unforgeable joining ∧ deployment.Separate joining ∧
      deployment.Outside (validator 4) ∧
      (deployment.node [] (validator 4)).1.Adopts (.bytes (offerBytes plain)) plain.header ∧
      ¬ deployment.Precommitted minority [] plain.header ∧ ¬ deployment.JoinsAgree minority joining := by
  have minority : 3 * deployment.byzantinePower < deployment.validators.power := by decide +kernel
  have uncertified : ¬ deployment.Precommitted minority [] plain.header := by
    intro precommitted
    obtain ⟨id,-,-,⟨v,sent,-⟩,-⟩ := precommitted.meet precommitted
    cases sent
  refine ⟨minority,unforgeable_joining,separate_joining,outside,adopts_plain,uncertified,fun agree => ?_⟩
  exact uncertified (agree _ outside [] _ List.prefix_rfl _ adopts_plain).1

end Devnet

/-! A fifth node joins after the honest validator of the four has committed the first block. -/
namespace Quartet

open Live LoneSigner

attribute [local instance] ScalarBls.bls LoneSigner.blake3 Holdings.Sample.ed25519
  Holdings.Sample.wasm Agreement.Solo.vrf

def extended : Deployment where
  genesis
  honest id := id = validator 2 ∨ id = validator 5
  config
  pool := deployment.pool
  shared _ _ := ⟨rfl,rfl⟩
  started := deployment.started

def offer : BodyOffer where
  header
  block := ⟨header.fields,[]⟩
  receipts := []
  appHash := proposal.appHash

def joining : List (ValidatorId × NodeEvent) :=
  events 0 ++ [(validator 5,.bytes (Devnet.offerBytes offer))]

theorem extended_active {id : ValidatorId} (active : extended.Active id) : id = validator 2 := by
  rcases of_decide_eq_true active.honest with same | rfl
  · exact same
  · exact absurd active.member (by decide +kernel)

theorem extended_outside {id : ValidatorId} (outside : extended.Outside id) : id = validator 5 := by
  rcases of_decide_eq_true outside.honest with rfl | same
  · exact absurd (by decide +kernel) outside.stranger
  · exact same

theorem node_joining : extended.node joining (validator 2) = after 7 := by
  have apart : validator 5 ≠ validator 2 := by decide
  rw [joining,Deployment.node_snoc,if_neg apart]
  exact node_events 0

theorem told_joining {e : NodeEvent} (listed : (validator 2,e) ∈ joining) :
    (validator 2,e) ∈ events 0 := by
  have apart : validator 2 ≠ validator 5 := by decide
  simpa [joining,apart] using listed

theorem unforgeable_extended {done : List (ValidatorId × NodeEvent)}
    (told : ∀ e, (validator 2,e) ∈ done → (validator 2,e) ∈ events 0) : extended.Unforgeable done := by
  intro votes qc occur aggregated agg pks _ _ _ id listed honest
  have member := (Qc.aggregate_ok aggregated).members id listed
  obtain rfl := extended_active ⟨honest,member⟩
  obtain ⟨v,counted,signer⟩ := Qc.aggregate_signers aggregated _ listed
  obtain ⟨kind,height,round,block⟩ := (Qc.aggregate_ok aggregated).votes v counted
  obtain ⟨k,active,sent | ⟨e,heard,said⟩⟩ := occur v counted
  · obtain rfl := extended_active active
    exact ⟨v,sent,by rw [Vote.message,Qc.message,kind,height,round,block]⟩
  · obtain rfl := extended_active active
    exact absurd signer (delivered_signers (told e heard) said)

theorem separate_joining : extended.Separate joining := by
  intro id active v first w second last
  obtain rfl := extended_active active
  refine absurd ?_ last
  rw [node_joining] at first
  rw [(run_events.2.2 7).1 v first]
  unfold HasNext
  decide

theorem minority : 3 * extended.byzantinePower < extended.validators.power := by decide +kernel

theorem certified_offer : extended.Precommitted minority (events 0) offer.header := by
  have active : extended.Active (validator 2) := ⟨by decide,by decide +kernel⟩
  have same : extended.node (events 0) (validator 2) = after 7 := node_events 0
  have committed : (extended.node (events 0) (validator 2)).1.commits[(0 : Height)]? =
      some header.hash := by
    rw [same]
    exact run_events.1.1
  have unforgeable : extended.Unforgeable (events 0) := unforgeable_extended fun _ listed => listed
  exact Deployment.commit_supported minority unforgeable active committed

theorem read_offer : Gossip.read (Devnet.offerBytes offer) = some (.block offer) :=
  Gossip.read_block ⟨by decide +kernel,by decide +kernel,by decide +kernel⟩ (by decide +kernel)

theorem offers_certified : extended.OffersCertified minority joining := by
  intro id outside done e within given said
  obtain rfl := extended_outside outside
  rcases List.prefix_concat_iff.mp within with whole | early
  · obtain ⟨rfl,last⟩ := List.append_inj' whole rfl
    simp only [List.cons.injEq,Prod.mk.injEq,true_and,and_true] at last
    rw [last,NodeEvent.message,read_offer] at said
    rw [← Gossip.Message.block.inj (Option.some.inj said)]
    exact certified_offer
  · -- all events before are the validator's
    have listed : (validator 5,e) ∈ events 0 := early.subset (by simp)
    obtain ⟨entry,-,same⟩ := List.mem_map.mp listed
    have apart : validator 2 ≠ validator 5 := by decide
    exact absurd (congrArg Prod.fst same) apart

/-- The block that is offered to the fifth node was precommitted, and what the node takes over is
what the honest validator committed. -/
theorem certified_block_joined :
    extended.Precommitted minority (events 0) offer.header ∧ extended.JoinsAgree minority joining :=
  ⟨certified_offer,Deployment.joining_agreement extended joining minority
    (unforgeable_extended fun _ => told_joining) separate_joining offers_certified⟩

end Quartet
end L1
