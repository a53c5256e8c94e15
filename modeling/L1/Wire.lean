import L1.Builder
import L1.Sync

/-! The hand-offs of a node between gossip, consensus, execution and the store. -/
namespace L1.Wire

open Steps Builder

section Ingest

variable [Bls]

/-- A proposal is for its own slot and signed by its proposer. Whether that is the leader is not
asked here. -/
def ingestProposal (proposal : Proposal) : Except TopicError Unit :=
  if proposal.height ≠ proposal.header.fields.height ∨ proposal.round ≠ proposal.header.fields.round
  then .error .proposal
  else match Bls.publicKeyFromBytes proposal.proposer with
    | none => .error .proposal
    | some pk => match Bls.signatureFromBytes proposal.signature with
      | none => .error .proposal
      | some sig =>
        if Bls.verify pk (proposalMessage proposal.header) sig then .ok () else .error .proposal

/-- On the mesh of the validators only members may propose. -/
def ingestValidatorProposal (validators : ValidatorSet) (proposal : Proposal) :
    Except TopicError Unit :=
  match validators[proposal.proposer]? with
  | none => .error .proposal
  | some _ => ingestProposal proposal

variable [Blake3]

def ingestVote (vote : Vote) (log : VoteReplayLog) : Except TopicError VoteReplayLog :=
  match vote.verify vote.height vote.round log with
  | .error e => .error (.vote e)
  | .ok log => .ok log

def ingestValidatorVote (validators : ValidatorSet) (vote : Vote) (log : VoteReplayLog) :
    Except TopicError VoteReplayLog :=
  match validators[vote.signer]? with
  | none => .error (.vote .signature)
  | some _ => ingestVote vote log

def wireIngestVote (vote : Vote) (log : VoteReplayLog) : Except WireError VoteReplayLog :=
  match ingestVote vote log with
  | .error _ => .error .gossip
  | .ok log => .ok log

end Ingest

/-- The seed of a round, from the header committed last. -/
def roundSeed [Blake3] (last : Hash) : VrfSeed := deriveSeed last 0

def initStore [Blake3] (store : Store) (g : Genesis) : Store := Blocks.putGenesisHash store g

/-- Add a vote in the order of signers, if the signer has none of its kind yet. -/
def insertVoteSorted (votes : List Vote) (vote : Vote) : List Vote :=
  if votes.any fun x => x.signer = vote.signer ∧ x.kind = vote.kind then votes
  else (votes ++ [vote]).insertionSort fun a b => (compare a.signer b.signer).isLE

section Execution

variable [Wasm] [Blake3] [Ed25519]

/-- Execute the block of a proposal. Only its header fields are known, so the block is empty.
The outer `none` is a panic. -/
def builtFromProposal (g : Genesis) (world : World) (proposal : Proposal) :
    Option (Option BuiltBlock) :=
  match Mempool.new g.params.registry with
  | none => none
  | some pool => match buildLocal pool g world proposal.header.fields with
    | none => none
    | some (built,_) =>
      if built.header.hash ≠ proposal.header.hash ∨ built.appHash ≠ proposal.appHash then some none
      else some (some built)

variable [Bls] [Vrf]

/-- The leader's way: build, sign, check, and send. The clock is read for the timestamp `ts`, and
again for its bounds. The pool has lost what was taken from it also if the check fails. The outer
`none` is a panic, of the builder or of a timestamp out of bounds. -/
def wirePropose (g : Genesis) (blsSk : Bls.SecretKey) (ourId vrfSource : ValidatorId)
    (sourceVrfPk : Vector UInt8 32) (sourceProof : VrfProof) (seed : VrfSeed) (height : Height)
    (round : Round) (ts now lastTs : U64) (world : World) (pool : Mempool) :
    Option (Except WireError (Proposal × BuiltBlock) × Mempool) :=
  let build : Unit → Option (Header × Hash × BuiltBlock × Mempool) := fun _ =>
    match HeaderFields.new now height round ourId lastTs ts with
    | none => none
    | some fields => match buildLocal pool g world fields with
      | none => none
      | some (built,pool) => some (built.header,built.appHash,built,pool)
  match propose blsSk ourId vrfSource sourceVrfPk sourceProof g.validators seed height round build with
  | none => none
  | some (.error _) => some (.error .propose,pool)
  | some (.ok (proposal,built,pool)) => match ingestProposal proposal with
    | .error _ => some (.error .gossip,pool)
    | .ok () => some (.ok (proposal,built),pool)

end Execution

section Voting

variable [Bls] [Blake3] [Vrf]

/-- Prevote a proposal; the vote is sent if it passes the gate of the mesh. -/
def wireVote (validators : ValidatorSet) (blsSk : Bls.SecretKey) (ourId : ValidatorId)
    (proposal : Proposal) (vrfPks : Map ValidatorId (Vector UInt8 32)) (seed : VrfSeed)
    (expectedHeight : Height) (expectedRound : Round) (lock : Option Lock) (log : VoteReplayLog) :
    Except WireError Vote × VoteReplayLog :=
  match ingestValidatorProposal validators proposal with
  | .error _ => (.error .gossip,log)
  | .ok () => match prevoteStep blsSk ourId proposal vrfPks seed validators expectedHeight
      expectedRound lock none log with
    | .error _ => (.error .prevote,log)
    | .ok (prevote,log) => match ingestValidatorVote validators prevote log with
      | .error _ => (.error .gossip,log)
      | .ok log => (.ok prevote,log)

def wirePrecommit (validators : ValidatorSet) (blsSk : Bls.SecretKey) (ourId : ValidatorId)
    (height : Height) (round : Round) (prevotes : List Vote) (header : Header)
    (log : VoteReplayLog) : Except WireError (Vote × Option Lock) × VoteReplayLog :=
  match precommitStep blsSk ourId height round prevotes validators header log with
  | (precommit,lock,log) => match ingestValidatorVote validators precommit log with
    | .error _ => (.error .gossip,log)
    | .ok log => (.ok (precommit,lock),log)

/-- Commit, then store. A recorded commit stays recorded if the block is refused by the store.
The outer `none` is a panic. -/
def wireCommit (precommits : List Vote) (validators : ValidatorSet) (reachable : VotingPower)
    (proposal : Proposal) (commits : CommitLog) (store : Store) (block : Block)
    (receipts : List Bytes) :
    Option (Except WireError (Option Finalized) × CommitLog × Store) :=
  match commit precommits validators reachable proposal commits with
  | none => none
  | some (.error _) => some (.error .commit,commits,store)
  | some (.ok none) => some (.ok none,commits,store)
  | some (.ok (some (f,commits))) =>
    match Sync.persistThenBroadcast store ⟨proposal.header,block,receipts,f.appHash⟩ with
    | none => none
    | some (.error e,store) => some (.error e,commits,store)
    | some (.ok (),store) => some (.ok (some f),commits,store)

end Voting

/-! What each hand-off returns. -/

section Ingested

variable [Bls]

def SignedByProposer (proposal : Proposal) : Prop :=
  ∃ pk sig, Bls.publicKeyFromBytes proposal.proposer = some pk ∧
    Bls.signatureFromBytes proposal.signature = some sig ∧
    Bls.verify pk (proposalMessage proposal.header) sig = true

theorem ingestProposal_ok_iff (proposal : Proposal) : ingestProposal proposal = .ok () ↔
    proposal.height = proposal.header.fields.height ∧ proposal.round = proposal.header.fields.round ∧
      SignedByProposer proposal := by
  unfold ingestProposal SignedByProposer
  by_cases slot : proposal.height ≠ proposal.header.fields.height ∨
      proposal.round ≠ proposal.header.fields.round
  · rw [if_pos slot]
    constructor
    · intro refused
      cases refused
    · rintro ⟨height,round,-⟩
      exact absurd slot (by simp [height,round])
  · rw [if_neg slot]
    push Not at slot
    cases key : Bls.publicKeyFromBytes proposal.proposer with
    | none => simp
    | some pk => cases read : Bls.signatureFromBytes proposal.signature with
      | none => simp
      | some sig => simp [slot]

variable [Blake3]

variable {log log' : VoteReplayLog} {validators : ValidatorSet} {ourId : ValidatorId} {height : Height}
  {round : Round} {sk : Bls.SecretKey} {proposal : Proposal} {vote v : Vote}
  {vrfPks : Map ValidatorId (Vector UInt8 32)} {seed : VrfSeed}

theorem ingestVote_ok (passed : ingestVote vote log = .ok log') :
    verifySignature vote = .ok () ∧ log.observe vote = .ok log' := by
  unfold ingestVote at passed
  split at passed
  · cases passed
  · rename_i accepted
    cases passed
    obtain ⟨signed,-,-,observed⟩ := Vote.verify_ok accepted
    exact ⟨signed,observed⟩

theorem ingestValidatorVote_ok (passed : ingestValidatorVote validators vote log = .ok log') :
    vote.signer ∈ validators.members ∧ verifySignature vote = .ok () ∧
      log.observe vote = .ok log' := by
  unfold ingestValidatorVote at passed
  split at passed
  · cases passed
  · rename_i p known
    exact ⟨ValidatorSet.mem_members.mpr ⟨p,known⟩,ingestVote_ok passed⟩

def Extends (log log' : VoteReplayLog) : Prop :=
  ∀ key body : Hash, log[key]? = some body → log'[key]? = some body

omit [Bls] [Blake3] in
theorem Extends.rfl : Extends log log := fun _ _ held => held

omit [Bls] [Blake3] in
theorem Extends.trans {a b c : VoteReplayLog} (one : Extends a b) (two : Extends b c) : Extends a c :=
  fun key body held => two key body (one key body held)

theorem extends_verify (vote : Vote) (height : Height) (round : Round) (log : VoteReplayLog) :
    Extends log ((vote.verify height round log).toOption.getD log) := by
  cases checked : vote.verify height round log with
  | error e => exact Extends.rfl
  | ok log' => exact (VoteReplayLog.observe_ok (Vote.verify_ok checked).2.2.2).2

/-- What either step sends passed the gate, and stands in the log. -/
structure Released (validators : ValidatorSet) (ourId : ValidatorId) (height : Height) (round : Round)
    (kind : VoteKind) (vote : Vote) (log : VoteReplayLog) : Prop where
  signer : vote.signer = ourId
  message : vote.message = signedMessage height round kind vote.block
  member : vote.signer ∈ validators.members
  verified : verifySignature vote = .ok ()
  logged : log[vote.key]? = some vote.body

theorem Released.slot {kind : VoteKind}
    (released : Released validators ourId height round kind vote log) :
    vote.height = height ∧ vote.round = round ∧ vote.kind = kind := by
  obtain ⟨h,r,k,-⟩ := signedMessage_injective released.message
  exact ⟨h,r,k⟩

variable [Vrf]

theorem extends_prevoteStep {lock : Option Lock} {unlockPolka : Option (Round × Hash)}
    (returned : prevoteStep sk ourId proposal vrfPks seed validators height round lock unlockPolka
      log = .ok (v,log')) : Extends log log' := by
  obtain ⟨-,rfl,-⟩ := prevoteStep_cases returned
  exact extends_verify v height round log

omit [Vrf] in
theorem extends_precommitStep {prevotes : List Vote} {headerFor : Header} {lock : Option Lock}
    (returned : precommitStep sk ourId height round prevotes validators headerFor log =
      (v,lock,log')) : Extends log log' := by
  unfold precommitStep at returned
  split at returned <;> cases returned <;> exact extends_verify _ _ _ _

theorem prevoteStep_leader
    (returned : prevoteStep sk ourId proposal vrfPks seed validators height round none none
      log = .ok (v,log')) :
    (∃ pk, vrfPks[proposal.vrfSource]? = some pk ∧ verifyLeader proposal pk seed validators = true) ∧
      v.block = .block proposal.header.hash := by
  obtain ⟨leader,-,⟨forbidden,-⟩ | ⟨-,rfl⟩⟩ := prevoteStep_cases returned
  · cases forbidden
  · exact ⟨leader,rfl⟩

theorem wireVote_spec {r : Except WireError Vote}
    (returned : wireVote validators sk ourId proposal vrfPks seed height round none log = (r,log')) :
    Extends log log' ∧ ∀ v, r = .ok v →
      Released validators ourId height round .prevote v log' ∧
      v.block = .block proposal.header.hash ∧
      ingestValidatorProposal validators proposal = .ok () ∧
      ∃ pk, vrfPks[proposal.vrfSource]? = some pk ∧ verifyLeader proposal pk seed validators = true := by
  unfold wireVote at returned
  split at returned
  · cases returned
    exact ⟨Extends.rfl,nofun⟩
  rename_i accepted
  split at returned
  · cases returned
    exact ⟨Extends.rfl,nofun⟩
  rename_i prevote middle stepped
  have grown := extends_prevoteStep stepped
  split at returned
  · cases returned
    exact ⟨grown,nofun⟩
  rename_i passed
  cases returned
  obtain ⟨message,signer,-⟩ := prevoteStep_ok stepped
  obtain ⟨leader,block⟩ := prevoteStep_leader stepped
  obtain ⟨member,verified,observed⟩ := ingestValidatorVote_ok passed
  have logged := VoteReplayLog.observe_ok observed
  refine ⟨grown.trans logged.2,?_⟩
  intro v same
  cases same
  exact ⟨⟨signer,message,member,verified,logged.1⟩,block,accepted,leader⟩

omit [Vrf] in
theorem wirePrecommit_spec {prevotes : List Vote} {header : Header}
    {r : Except WireError (Vote × Option Lock)}
    (returned : wirePrecommit validators sk ourId height round prevotes header log = (r,log')) :
    Extends log log' ∧ ∀ v lock, r = .ok (v,lock) →
      Released validators ourId height round .precommit v log' ∧
      (v.block = .nil ∨ (v.block = .block header.hash ∧
        polka prevotes validators = some (.block header.hash))) := by
  unfold wirePrecommit at returned
  split at returned
  rename_i precommit lock middle stepped
  have grown := extends_precommitStep stepped
  obtain ⟨message,signer,outcome⟩ := precommitStep_spec stepped
  split at returned
  · cases returned
    exact ⟨grown,nofun⟩
  rename_i passed
  cases returned
  obtain ⟨member,verified,observed⟩ := ingestValidatorVote_ok passed
  have logged := VoteReplayLog.observe_ok observed
  refine ⟨grown.trans logged.2,?_⟩
  intro v l same
  cases same
  refine ⟨⟨signer,message,member,verified,logged.1⟩,?_⟩
  rcases outcome with ⟨block,-⟩ | ⟨block,-,found⟩
  · exact .inl block
  · exact .inr ⟨block,found⟩

omit [Vrf] in
/-- The log of commits may run ahead of the store, but not the other way. -/
theorem wireCommit_spec {precommits : List Vote}
    {reachable : VotingPower} {commits commits' : CommitLog}
    {store store' : Store} {block : Block} {receipts : List Bytes}
    {r : Except WireError (Option Finalized)}
    (returned : wireCommit precommits validators reachable proposal commits store block receipts =
      some (r,commits',store')) :
    (commits' = commits ∧ store' = store ∧ ∀ f, r ≠ .ok (some f)) ∨
    ∃ f, commit precommits validators reachable proposal commits = some (.ok (some (f,commits'))) ∧
      ((store' = store ∧ ∀ f, r ≠ .ok (some f)) ∨
        (r = .ok (some f) ∧ Sync.persistThenBroadcast store ⟨proposal.header,block,receipts,f.appHash⟩ =
          some (.ok (),store'))) := by
  unfold wireCommit at returned
  split at returned
  · cases returned
  · cases returned
    exact .inl ⟨rfl,rfl,nofun⟩
  · cases returned
    exact .inl ⟨rfl,rfl,nofun⟩
  rename_i f recorded committed
  refine .inr ⟨f,?_⟩
  split at returned
  · cases returned
  · rename_i e after refused
    cases returned
    refine ⟨committed,.inl ⟨?_,nofun⟩⟩
    unfold Sync.persistThenBroadcast at refused
    split at refused
    · cases refused
      rfl
    · split at refused <;> cases refused
  · rename_i stored
    cases returned
    exact ⟨committed,.inr ⟨rfl,stored⟩⟩

end Ingested

/-! The empty pool and what a proposal is rebuilt from. -/

section Rebuild

variable {pool : Mempool} {g : Genesis} {world : World} {proposal : Proposal} {built : BuiltBlock}

theorem takeReady_new {registry : ParamsRegistry}
    (made : Mempool.new registry = some pool) (maxGas : U64) (maxBytes : U32) :
    ReadyTxs.takeReady pool maxGas maxBytes = ([],pool) := by
  unfold Mempool.new at made
  split at made
  · cases made
  · cases made
    rfl

variable [Wasm] [Blake3] [Ed25519]

/-- What a follower makes of a proposal: the execution of an empty block. -/
theorem builtFromProposal_some (done : builtFromProposal g world proposal = some (some built)) :
    built.block = ⟨proposal.header.fields,[]⟩ ∧ Executes g world built ∧
      built.header.hash = proposal.header.hash ∧ built.appHash = proposal.appHash := by
  unfold builtFromProposal at done
  split at done
  · cases done
  rename_i pool made
  split at done
  · cases done
  rename_i b left finished
  split at done
  · cases done
  rename_i same
  push Not at same
  cases done
  obtain ⟨maxGas,maxBytes,-,-,executed⟩ := buildLocal_spec finished
  rw [takeReady_new made] at executed
  obtain ⟨block,executes⟩ := executeBlock_some executed
  exact ⟨block,executes,same⟩

variable [Bls] [Vrf]

/-- What a leader signs: a block for its slot, built from its pool. -/
theorem wirePropose_ok {sk : Bls.SecretKey} {ourId vrfSource : ValidatorId}
    {sourceVrfPk : Vector UInt8 32} {sourceProof : VrfProof} {seed : VrfSeed} {height : Height}
    {round : Round} {ts now lastTs : U64} {pool' : Mempool}
    (done : wirePropose g sk ourId vrfSource sourceVrfPk sourceProof seed height round ts now lastTs
      world pool = some (.ok (proposal,built),pool')) :
    proposal.height = height ∧ proposal.round = round ∧ proposal.header = built.header ∧
      proposal.appHash = built.appHash ∧ proposal.proposer = ourId ∧ proposal.vrfSource = vrfSource ∧
      proposal.vrfProof = sourceProof ∧
      weightedLeader sourceVrfPk seed vrfSource sourceProof g.validators = .ok ourId ∧
      buildLocal pool g world ⟨height,round,ourId,ts⟩ = some (built,pool') ∧
      ingestProposal proposal = .ok () := by
  unfold wirePropose at done
  dsimp only at done
  split at done
  · cases done
  · cases done
  rename_i p b left proposed
  split at done
  · cases done
  rename_i accepted
  cases done
  unfold propose at proposed
  split at proposed
  · cases proposed
  rename_i winner elected
  split at proposed
  · cases proposed
  rename_i ours
  push Not at ours
  subst ours
  split at proposed
  · cases proposed
  rename_i header app rest finished
  split at finished
  · cases finished
  rename_i fields fresh
  split at finished
  · cases finished
  rename_i bb pp assembled
  cases finished
  cases proposed
  unfold HeaderFields.new at fresh
  split at fresh
  · cases fresh
    exact ⟨rfl,rfl,rfl,rfl,rfl,rfl,rfl,elected,assembled,accepted⟩
  · cases fresh

end Rebuild
end L1.Wire
