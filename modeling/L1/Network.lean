import L1.Ballots
import L1.Followers
import L1.Precommits

/-! Many nodes of one genesis. Each honest validator runs the event loop on its own events; all
other validators are the gossip that arrives. -/
namespace L1

open Live

/-- One node for each honest validator, all of one genesis. -/
structure Deployment [Bls] where
  genesis : Genesis
  honest : ValidatorId → Bool
  config : ValidatorId → NodeConfig
  pool : Mempool
  shared : ∀ id, honest id = true → (config id).genesis = genesis ∧ (config id).ourId = id
  started : Mempool.new genesis.params.registry = some pool

namespace Deployment

abbrev validators [Bls] (d : Deployment) : ValidatorSet := d.genesis.validators

def own (id : ValidatorId) (events : List (ValidatorId × NodeEvent)) : List NodeEvent :=
  events.filterMap fun e => if e.1 = id then some e.2 else none

theorem mem_own {id : ValidatorId} {events : List (ValidatorId × NodeEvent)} {e : NodeEvent} :
    e ∈ own id events ↔ (id,e) ∈ events := by
  simp only [own,List.mem_filterMap,Option.ite_none_right_eq_some,Option.some.injEq]
  constructor
  · rintro ⟨⟨_,_⟩,listed,rfl,rfl⟩
    exact listed
  · intro listed
    exact ⟨(id,e),listed,rfl,rfl⟩

section Agreement

variable [Bls] [Wasm] [Blake3] [Ed25519] [Vrf] (d : Deployment) (events : List (ValidatorId × NodeEvent))

def node (id : ValidatorId) : Live × List Vote :=
  Runs.run advance (fresh (d.config id) d.pool,[]) (own id events)

/-- An event is one node's, and the others stay where they are. -/
theorem node_snoc (id other : ValidatorId) (e : NodeEvent) : d.node (events ++ [(id,e)]) other =
      if id = other then advance (d.node events other) e else d.node events other := by
  unfold node own
  rw [List.filterMap_append]
  split
  · rename_i same
    subst same
    simp
  · rename_i apart
    simp [apart]

theorem node_own (id : ValidatorId) (e : NodeEvent) :
    d.node (events ++ [(id,e)]) id = advance (d.node events id) e := by
  rw [node_snoc,if_pos rfl]

structure Active (id : ValidatorId) : Prop where
  honest : d.honest id = true
  member : id ∈ d.validators.members

/-- The signatures that an honest validator has given out. -/
def Signed (id : ValidatorId) (message : Bytes) : Prop :=
  ∃ v ∈ (d.node events id).2, v.message = message

/-- A vote that an honest validator has received or sent. -/
def Occurs (v : Vote) : Prop :=
  ∃ id, d.Active id ∧ (v ∈ (d.node events id).2 ∨ ∃ e, (id,e) ∈ events ∧ e.message = some (.vote v))

def byzantinePower : Nat :=
  d.validators.powerOf (d.validators.members.filter fun id => d.honest id = false)

/-- Nobody makes a certificate out of votes that occur without the signatures of all honest
validators it lists. -/
def Unforgeable : Prop :=
  ∀ votes qc, (∀ v ∈ votes, d.Occurs events v) → Qc.aggregate votes d.validators = .ok qc →
    Qc.Genuine (fun id => d.honest id = true) (d.Signed events) qc

/-- At the last height, which a node does not leave, two votes of a validator for different blocks
have different hashes. -/
def Separate : Prop :=
  ∀ id, d.Active id → ∀ v ∈ (d.node events id).2, ∀ w ∈ (d.node events id).2,
    ¬ HasNext v.height → v.body = w.body → v.block = w.block

variable {d events}

variable {id : ValidatorId} {h : Height} {x : Hash}

omit [Wasm] [Blake3] [Ed25519] [Vrf] in
theorem Active.configured (active : d.Active id) :
    ((d.config id).genesis.validators[(d.config id).ourId]?).isSome = true := by
  obtain ⟨genesis,ourId⟩ := d.shared id active.honest
  rw [genesis,ourId]
  obtain ⟨power,found⟩ := ValidatorSet.mem_members.mp active.member
  rw [found]
  rfl

theorem validating (active : d.Active id) :
    Validating (d.config id) (fun v => ∃ e, (id,e) ∈ events ∧ e.message = some (.vote v))
      (d.node events id) :=
  validating_run active.configured fun e listed _ said => ⟨e,mem_own.mp listed,said⟩

/-- An honest validator precommits one block at each height. -/
theorem precommit_unique (active : d.Active id) (separate : d.Separate events)
    {y : Hash} (one : d.Signed events id (signedMessage h 0 .precommit (.block x)))
    (other : d.Signed events id (signedMessage h 0 .precommit (.block y))) : x = y := by
  obtain ⟨v,first,left⟩ := one
  obtain ⟨w,second,right⟩ := other
  obtain ⟨height,round,kind,block⟩ := signedMessage_injective left
  obtain ⟨height',round',kind',block'⟩ := signedMessage_injective right
  have casting : Casting (d.config id) (d.node events id) := (validating active).casting
  by_cases more : HasNext v.height
  · exact casting.unique v first w second kind kind' (height.trans height'.symm) more x y block block'
  · -- the log has one body for the slot
    have key : v.key = w.key := by
      rw [Vote.key,Vote.key,casting.signer v first,casting.signer w second,height,height',round,round',
        kind,kind']
    have bodies : some v.body = some w.body := by
      rw [← casting.logged v first,← casting.logged w second,key]
    have same := separate id active v first w second more (Option.some.inj bodies)
    rw [block,block'] at same
    cases same
    rfl

def electorate (d : Deployment) (minority : 3 * d.byzantinePower < d.validators.power) :
    Quorum.Electorate ValidatorId where
  members := d.validators.members
  weight := d.validators.weight
  faulty := d.validators.members.filter fun id => d.honest id = false
  minority := minority

omit [Wasm] [Blake3] [Ed25519] [Vrf] in
theorem active_of_not_faulty {minority : 3 * d.byzantinePower < d.validators.power}
    (member : id ∈ (d.electorate minority).members)
    (honest : id ∉ (d.electorate minority).faulty) : d.Active id := by
  refine ⟨?_,member⟩
  by_contra faulty
  exact honest (Finset.mem_filter.mpr ⟨member,by simpa using faulty⟩)

theorem commit_supported (minority : 3 * d.byzantinePower < d.validators.power)
    (unforgeable : d.Unforgeable events) (active : d.Active id)
    (committed : (d.node events id).1.commits[h]? = some x) :
    (d.electorate minority).Supported fun id =>
      d.Signed events id (signedMessage h 0 .precommit (.block x)) := by
  obtain ⟨votes,qc,all,aggregated,verified,height,round,block⟩ :=
    (validating active).placed.backed h x committed
  rw [(d.shared id active.honest).1] at aggregated verified
  have built := Qc.aggregate_ok aggregated
  have genuine := unforgeable votes qc (fun v listed => ⟨id,active,all v listed⟩) aggregated
  refine ⟨qc.signers.toFinset,⟨fun k chosen => built.members k (List.mem_toFinset.mp chosen),
    built.quorum verified⟩,fun k chosen honest => ?_⟩
  have member : k ∈ (d.electorate minority).members := built.members k (List.mem_toFinset.mp chosen)
  have signed := genuine.signed verified k (List.mem_toFinset.mp chosen)
    (active_of_not_faulty member honest).honest
  rwa [Qc.message,height,round,block] at signed

theorem commits_agree (minority : 3 * d.byzantinePower < d.validators.power)
    (unforgeable : d.Unforgeable events) (separate : d.Separate events) {i j : ValidatorId}
    (first : d.Active i) (second : d.Active j) {y : Hash}
    (one : (d.node events i).1.commits[h]? = some x)
    (other : (d.node events j).1.commits[h]? = some y) : x = y := by
  obtain ⟨k,member,honest,left,right⟩ := (commit_supported minority unforgeable first one).meet
    (commit_supported minority unforgeable second other)
  exact precommit_unique (active_of_not_faulty member honest) separate left right

/-- Any two honest validators that commit at a height commit the same header hash, whatever the order
of events and the gossip. -/
theorem live_agreement (d : Deployment) (events : List (ValidatorId × NodeEvent))
    (minority : 3 * d.byzantinePower < d.validators.power)
    (unforgeable : d.Unforgeable events) (separate : d.Separate events) (i j : ValidatorId)
    (first : d.Active i) (second : d.Active j) (h : Height) (x y : Hash)
    (one : (d.node events i).1.commits[h]? = some x)
    (other : (d.node events j).1.commits[h]? = some y) : x = y :=
  commits_agree minority unforgeable separate first second one other

end Agreement
end Deployment

/-! One honest validator with most of the power, and three others. The first one wins every lottery
and proposes an empty block with a time of its own choice. -/
namespace Quartet

open Steps Wire LoneSigner

attribute [local instance] ScalarBls.bls LoneSigner.blake3 Holdings.Sample.ed25519
  Holdings.Sample.wasm Agreement.Solo.vrf

def genesis : Genesis where
  chainId := 1
  validators := Std.ExtTreeMap.ofList
    [(validator 1,1),(validator 2,10),(validator 3,1),(validator 4,1)] compare

def config (id : ValidatorId) : NodeConfig where
  genesis
  blsSk := id.get 0
  ourId := id
  vrfSk := zeroHash
  vrfSecrets := ∅
  vrfPks := Std.ExtTreeMap.ofList [(validator 1,zeroHash)] compare

def deployment : Deployment where
  genesis
  honest id := id = validator 2
  config
  pool := (Mempool.new genesis.params.registry).get (by decide +kernel)
  shared _ _ := ⟨rfl,rfl⟩
  started := (Option.some_get _).symm

def header : Header where
  fields := ⟨0,0,validator 1,1000000⟩
  txRoot := Vector.replicate 32 44
  stateRoot := Vector.replicate 32 45
  receiptsRoot := Vector.replicate 32 44
  validatorsHash := Vector.replicate 32 109
  daRoot := zeroHash

def proposal : Proposal where
  height := 0
  round := 0
  header
  appHash := Vector.replicate 32 160
  proposer := validator 1
  vrfSource := validator 1
  vrfProof := Vector.replicate 80 0
  signature := Vector.replicate 96 (ScalarBls.point (proposalMessage header))

def prevote (tag : UInt8) : Vote := Vote.prevote tag (validator tag) 0 0 header

def precommit (tag : UInt8) : Vote := Vote.precommit tag (validator tag) 0 0 header

def say (v : Vote) : Option Bytes := some (Gossip.encodeFrame .vote (Gossip.encodeVote v))

def script : List (Option Bytes) := [
  some (Gossip.encodeFrame .proposal (Gossip.encodeProposal proposal)),
  say (prevote 3),say (prevote 4),none,say (precommit 3),say (precommit 4),none]

def event (now : U64) : Option Bytes → NodeEvent
  | some data => .bytes data
  | none => .tick ⟨false,false,now,now⟩

def eventsOf (now : U64) (script : List (Option Bytes)) : List (ValidatorId × NodeEvent) :=
  script.map fun entry => (validator 2,event now entry)

def events (now : U64) : List (ValidatorId × NodeEvent) := eventsOf now script

theorem own_eventsOf (now : U64) (script : List (Option Bytes)) :
    Deployment.own (validator 2) (eventsOf now script) = script.map (event now) := by
  simp [Deployment.own,eventsOf,List.filterMap_map]

/-- Only a leader looks at its clock. -/
theorem node_eventsOf (now : U64) (script : List (Option Bytes)) :
    deployment.node (eventsOf now script) (validator 2) =
      deployment.node (eventsOf 0 script) (validator 2) := by
  have cold (s : Live × List Vote) (entry : Option Bytes) :
      advance s (event now entry) = advance s (event 0 entry) := by
    cases entry with
    | none => simp [advance,step,event,tick]
    | some data => rfl
  unfold Deployment.node Runs.run
  rw [own_eventsOf,own_eventsOf,List.foldl_map,List.foldl_map]
  simp only [cold]

def hear (s : Live × List Vote) : Option (Option Gossip.Message) → Live × List Vote
  | none => advance s (event 0 none)
  | some none => s
  | some (some message) => ((s.1.receive message).getD s.1,s.2)

/-- Runs can be followed without reading the bytes. -/
theorem node_heard (script : List (Option Bytes)) :
    deployment.node (eventsOf 0 script) (validator 2) =
      (script.map (Option.map Gossip.read)).foldl hear
        (fresh (deployment.config (validator 2)) deployment.pool,[]) := by
  have heard : (fun s entry => advance s (event 0 entry)) = fun s entry =>
      hear s (Option.map Gossip.read entry) := by
    funext ⟨node,sent⟩ entry
    cases entry with
    | none => rfl
    | some data =>
      rw [event,advance_bytes,handleBytes,Option.map_some]
      cases Gossip.read data <;> rfl
  unfold Deployment.node Runs.run
  rw [own_eventsOf,List.foldl_map,heard,List.foldl_map]

def after (k : Nat) : Live × List Vote :=
  deployment.node (eventsOf 0 (script.take k)) (validator 2)

theorem node_events (now : U64) : deployment.node (events now) (validator 2) = after 7 := by
  rw [events,node_eventsOf,after]
  rfl

def words : List (Option (Option Gossip.Message)) := [
  some (some (.proposal proposal)),some (some (.vote (prevote 3))),some (some (.vote (prevote 4))),none,
  some (some (.vote (precommit 3))),some (some (.vote (precommit 4))),none]

theorem after_heard (k : Nat) : after k =
    (words.take k).foldl hear (fresh (deployment.config (validator 2)) deployment.pool,[]) := by
  have read : script.map (Option.map Gossip.read) = words := by
    simp [script,say,words,Gossip.read_vote,Gossip.read_proposal]
  rw [after,node_heard,List.map_take,read]

theorem run_events : ((after 7).1.commits[(0 : Height)]? = some header.hash ∧
      (after 7).1.committed.map BodyOffer.header = [header]) ∧
    ((after 3).2 = [] ∧ ∃ v ∈ (after 4).2, v.kind = .prevote ∧ v.block = .block header.hash) ∧
    ∀ k : Fin 8, (∀ v ∈ (after k).2, v.height = 0) ∧
      (after k).1.pending.all fun held => held.1.header = header ∧ (after k).1.height = 0 := by
  simp only [after_heard]
  decide +kernel

theorem active : deployment.Active (validator 2) := ⟨by decide,by decide +kernel⟩

theorem active_eq {id : ValidatorId} (active : deployment.Active id) : id = validator 2 :=
  of_decide_eq_true active.honest

def messages (script : List (Option Bytes)) : List Gossip.Message :=
  script.filterMap fun entry => (event 0 entry).message

theorem mem_messages {now : U64} {script : List (Option Bytes)} {id : ValidatorId} {e : NodeEvent}
    {message : Gossip.Message} (listed : (id,e) ∈ eventsOf now script)
    (said : e.message = some message) : message ∈ messages script := by
  obtain ⟨entry,member,same⟩ := List.mem_map.mp listed
  cases same
  refine List.mem_filterMap.mpr ⟨entry,member,?_⟩
  cases entry with
  | none => cases said
  | some data => exact said

theorem messages_script : messages script =
    [.proposal proposal,.vote (prevote 3),.vote (prevote 4),.vote (precommit 3),.vote (precommit 4)] := by
  simp [messages,script,say,event,NodeEvent.message,Gossip.read_vote,Gossip.read_proposal]

/-- The votes that were delivered are not signed by the honest validator. -/
theorem delivered_signers {now : U64} {e : NodeEvent} {v : Vote}
    (listed : (validator 2,e) ∈ events now) (said : e.message = some (.vote v)) :
    v.signer ≠ validator 2 := by
  have told := mem_messages listed said
  simp only [messages_script,List.mem_cons,List.not_mem_nil,or_false,reduceCtorEq,false_or,
    Gossip.Message.vote.injEq] at told
  rcases told with rfl | rfl | rfl | rfl <;> decide

/-- Certificates are genuine where nobody else precommits in the name of the honest validator. -/
theorem unforgeable_of_delivered {events : List (ValidatorId × NodeEvent)}
    (foreign : ∀ e v, (validator 2,e) ∈ events → e.message = some (.vote v) → v.kind = .precommit →
      v.signer ≠ validator 2) : deployment.Unforgeable events := by
  intro votes qc occur aggregated agg pks _ _ _ id listed honest
  obtain rfl : id = validator 2 := of_decide_eq_true honest
  obtain ⟨v,counted,signer⟩ := Qc.aggregate_signers aggregated _ listed
  obtain ⟨kind,height,round,block⟩ := (Qc.aggregate_ok aggregated).votes v counted
  obtain ⟨k,active,sent | ⟨e,told,said⟩⟩ := occur v counted
  · obtain rfl := active_eq active
    exact ⟨v,sent,by rw [Vote.message,Qc.message,kind,height,round,block]⟩
  · obtain rfl := active_eq active
    exact absurd signer (foreign e v told said kind)

theorem unforgeable (now : U64) : deployment.Unforgeable (events now) :=
  unforgeable_of_delivered fun _ _ listed said _ => delivered_signers listed said

theorem separate (now : U64) : deployment.Separate (events now) := by
  intro id active v first w second last
  obtain rfl := active_eq active
  refine absurd ?_ last
  rw [node_events] at first
  rw [(run_events.2.2 7).1 v first]
  unfold HasNext
  decide

/-- The honest validator commits the block, and no other at its height. -/
theorem quartet_commits :
    (deployment.node (events 0) (validator 2)).1.commits[(0 : Height)]? = some header.hash ∧
    ∀ y, (deployment.node (events 0) (validator 2)).1.commits[(0 : Height)]? = some y →
      header.hash = y := by
  have committed : (deployment.node (events 0) (validator 2)).1.commits[(0 : Height)]? =
      some header.hash := by
    rw [node_events]
    exact run_events.1.1
  exact ⟨committed,fun y other => Deployment.live_agreement deployment (events 0) (by decide +kernel)
    (unforgeable 0) (separate 0) _ _ active active 0 _ _ committed other⟩

end Quartet
end L1
