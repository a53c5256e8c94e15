import L1.Qc

/-! The leader lottery and the Tendermint steps: prevote under a lock, precommit on a
polka, commit on a verified certificate. -/
namespace L1

inductive VrfError where
  | proof | verify
  deriving DecidableEq, Repr

abbrev VrfProof := Vector UInt8 80
abbrev VrfOutput := Vector UInt8 64
abbrev VrfSeed := Vector UInt8 32

/-- The verifiable random function of the crypto crate. -/
class Vrf where
  prove : Vector UInt8 32 → Bytes → Except VrfError (VrfOutput × VrfProof)
  verify : Vector UInt8 32 → Bytes → VrfProof → Except VrfError VrfOutput

inductive WeightedError where
  | vrf (reason : VrfError) | emptySet
  deriving DecidableEq, Repr

def deriveSeed [Blake3] (lastFinalizedBlockHash : Hash) (epoch : Epoch) : VrfSeed :=
  hashToArray (DomainTag.vrf.apply (lastFinalizedBlockHash.toList ++ toBeBytes 8 epoch))

def leaderAlpha (seed : VrfSeed) (id : ValidatorId) : Bytes := seed.toList ++ id.toList

section Lottery

variable [Vrf]

def leaderProve (vrfSk : Vector UInt8 32) (seed : VrfSeed) (id : ValidatorId) :
    Except VrfError (VrfOutput × VrfProof) := Vrf.prove vrfSk (leaderAlpha seed id)

def leaderVerify (vrfPk : Vector UInt8 32) (seed : VrfSeed) (id : ValidatorId) (proof : VrfProof) :
    Except VrfError VrfOutput := Vrf.verify vrfPk (leaderAlpha seed id) proof

/-- The first validator whose cumulative power exceeds the ticket. -/
def pickLeader (ticket : Nat) : Nat → List (ValidatorId × VotingPower) → Option ValidatorId
  | _, [] => none
  | acc, (id,power) :: rest =>
    let acc := min (acc + power.toNat) (2^128 - 1)
    if ticket < acc then some id else pickLeader ticket acc rest

/-- Stake-weighted leader from a verified output. The last validator is the fallback of
the loop; a positive total rules out the empty set. -/
def weightedLeader (vrfPk : Vector UInt8 32) (seed : VrfSeed) (sourceId : ValidatorId)
    (proof : VrfProof) (validators : ValidatorSet) : Except WeightedError ValidatorId :=
  match leaderVerify vrfPk seed sourceId proof with
  | .error e => .error (.vrf e)
  | .ok output =>
    let total := (validators.toList.map fun e => e.2.toNat).sum
    if total = 0 then .error .emptySet
    else match pickLeader (BigEndian.decode (output.toList.take 16) % total) 0 validators.toList with
      | some id => .ok id
      | none => match validators.toList.getLast? with
        | some (id,_) => .ok id
        | none => .error .emptySet

end Lottery

structure Proposal where
  height : Height
  round : Round
  header : Header
  appHash : Hash
  proposer : ValidatorId
  vrfSource : ValidatorId
  vrfProof : VrfProof
  signature : Vector UInt8 96
  deriving DecidableEq

inductive ProposeError where
  | notLeader | vrf
  deriving DecidableEq, Repr

def proposalMessage (header : Header) : Bytes := DomainTag.header.apply header.hashPreimage

/-- Source of the lottery in a round: validators in identifier order, by the round number. -/
def roundVrfSource (validators : ValidatorSet) (round : Round) : Option ValidatorId :=
  (validators.toList.map Prod.fst)[round.toNat % validators.toList.length]?

/-- Build and sign a proposal if the lottery selects us. The builder may panic, and what
it leaves besides the header and application hash is handed back. -/
def propose [Bls] [Vrf] {β : Type} (blsSk : Bls.SecretKey) (ourId vrfSource : ValidatorId)
    (sourceVrfPk : Vector UInt8 32) (sourceProof : VrfProof) (validators : ValidatorSet)
    (seed : VrfSeed) (height : Height) (round : Round) (build : Unit → Option (Header × Hash × β)) :
    Option (Except ProposeError (Proposal × β)) :=
  match weightedLeader sourceVrfPk seed vrfSource sourceProof validators with
  | .error _ => some (.error .vrf)
  | .ok winner =>
    if winner ≠ ourId then some (.error .notLeader)
    else match build () with
      | none => none
      | some (header,appHash,rest) => some (.ok ({
          height
          round
          header
          appHash
          proposer := ourId
          vrfSource
          vrfProof := sourceProof
          signature := Bls.signatureToBytes (Bls.sign blsSk (proposalMessage header)) },rest))

def verifyLeader [Vrf] (proposal : Proposal) (sourceVrfPk : Vector UInt8 32) (seed : VrfSeed)
    (validators : ValidatorSet) : Bool :=
  match weightedLeader sourceVrfPk seed proposal.vrfSource proposal.vrfProof validators with
  | .ok id => decide (id = proposal.proposer)
  | .error _ => false

structure Lock where
  height : Height
  round : Round
  blockHash : Hash
  deriving DecidableEq, Repr

/-- Whether a prevote is allowed: after a precommit, another block needs a polka of a
round above the lock. -/
def prevoteAllowed (lock : Option Lock) (height : Height) (candidate : VoteBlock)
    (polkaRound : Option (Round × Hash)) : Bool :=
  match lock with
  | none => true
  | some lock =>
    if lock.height ≠ height then true
    else match candidate with
      | .nil => true
      | .block h =>
        if h = lock.blockHash then true
        else match polkaRound with
          | some (r,ph) => decide (lock.round < r ∧ ph = h)
          | none => false

theorem prevoteAllowed_block {lock : Lock} {height : Height} {h : Hash}
    {polkaRound : Option (Round × Hash)} (here : lock.height = height)
    (allowed : prevoteAllowed (some lock) height (.block h) polkaRound = true) :
    h = lock.blockHash ∨ ∃ r, polkaRound = some (r,h) ∧ lock.round < r := by
  simp only [prevoteAllowed,here,ne_eq,not_true_eq_false,if_false] at allowed
  split at allowed
  · exact .inl ‹_›
  · split at allowed
    · rename_i r ph
      obtain ⟨above,rfl⟩ := of_decide_eq_true allowed
      exact .inr ⟨r,rfl,above⟩
    · cases allowed

namespace Steps

structure Finalized where
  height : Height
  round : Round
  blockHash : Hash
  appHash : Hash
  deriving DecidableEq, Repr

def tallyVote (validators : ValidatorSet) (t : Map VoteBlock VotingPower) (v : Vote) :
    Map VoteBlock VotingPower :=
  match validators[v.signer]? with
  | none => t
  | some p => t.insert v.block (saturatingAdd ((t[v.block]?).getD 0) p)

/-- Voting power by block. A signer counts once for each of its votes. -/
def tally (votes : List Vote) (validators : ValidatorSet) : Map VoteBlock VotingPower :=
  votes.foldl (tallyVote validators) ∅

/-- The first value with a quorum. -/
def polka (votes : List Vote) (validators : ValidatorSet) : Option VoteBlock :=
  ((tally votes validators).toList.find? fun e => Qc.hasQuorum e.2 validators.totalPower).map Prod.fst

def votedPower (validators : ValidatorSet) (b : VoteBlock) (votes : List Vote) : Nat :=
  ((votes.filter (·.block = b)).map fun v => validators.weight v.signer).sum

theorem votedPower_cons (validators : ValidatorSet) (b : VoteBlock) (v : Vote) (votes : List Vote) :
    votedPower validators b (v :: votes) =
      (if v.block = b then validators.weight v.signer else 0) + votedPower validators b votes := by
  unfold votedPower
  by_cases here : v.block = b <;> simp [here]

theorem tallyVote_le (validators : ValidatorSet) (t : Map VoteBlock VotingPower) (v : Vote)
    (b : VoteBlock) : (((tallyVote validators t v)[b]?).getD 0).toNat ≤
      ((t[b]?).getD 0).toNat + if v.block = b then validators.weight v.signer else 0 := by
  unfold tallyVote
  split
  · omega
  · rename_i p known
    have weight : validators.weight v.signer = p.toNat := by simp [ValidatorSet.weight,known]
    rw [Map.get?_insert]
    by_cases here : b = v.block
    · subst here
      simp [weight]
    · simp [here,Ne.symm here]

theorem tally_le (validators : ValidatorSet) (votes : List Vote) (b : VoteBlock) :
    (((tally votes validators)[b]?).getD 0).toNat ≤ votedPower validators b votes := by
  have run (t : Map VoteBlock VotingPower) :
      (((votes.foldl (tallyVote validators) t)[b]?).getD 0).toNat ≤
        ((t[b]?).getD 0).toNat + votedPower validators b votes := by
    induction votes generalizing t with
    | nil => simp [votedPower]
    | cons v rest ih =>
      have later := ih (tallyVote validators t v)
      have now := tallyVote_le validators t v b
      rw [votedPower_cons,List.foldl_cons]
      omega
  simpa [tally] using run ∅

variable {votes : List Vote} {validators : ValidatorSet} {b : VoteBlock}

/-- A polka has a quorum of power behind it, counted per vote. -/
theorem polka_quorum (found : polka votes validators = some b) :
    2 * validators.power < 3 * votedPower validators b votes := by
  obtain ⟨⟨b',p⟩,entry,rfl⟩ := Option.map_eq_some_iff.mp found
  have test := List.find?_some entry
  have quorum : 2 * validators.power < 3 * p.toNat := ValidatorSet.quorum_exact test
  have held := Std.ExtTreeMap.mem_toList_iff_getElem?_eq_some.mp (List.mem_of_find?_eq_some entry)
  have bound := tally_le validators votes b'
  rw [held] at bound
  dsimp only [Option.getD_some] at bound ⊢
  omega

theorem exists_vote_of_votedPower
    (positive : 0 < votedPower validators b votes) : ∃ v ∈ votes, v.block = b := by
  by_contra none
  push Not at none
  have empty : votes.filter (·.block = b) = [] := by
    simpa [List.filter_eq_nil_iff] using none
  simp [votedPower,empty] at positive

/-- Votes of distinct signers put a set of members behind a value. -/
theorem votedPower_members (distinct : (votes.map Vote.signer).Nodup) :
    ∃ s ⊆ validators.members, votedPower validators b votes = validators.powerOf s ∧
      ∀ id ∈ s, ∃ v ∈ votes, v.signer = id ∧ v.block = b := by
  have nodup : ((votes.filter (·.block = b)).map Vote.signer).Nodup :=
    distinct.sublist (List.filter_sublist.map Vote.signer)
  refine ⟨((votes.filter (·.block = b)).map Vote.signer).toFinset.filter (· ∈ validators.members),
    ?_,?_,?_⟩
  · intro id chosen
    exact (Finset.mem_filter.mp chosen).2
  · -- a signer outside the set weighs nothing
    have outside : ∀ id, id ∉ validators.members → validators.weight id = 0 := by
      intro id stranger
      cases known : validators[id]? with
      | none => simp [ValidatorSet.weight,known]
      | some p => exact absurd (ValidatorSet.mem_members.mpr ⟨p,known⟩) stranger
    have all := List.sum_toFinset validators.weight nodup
    rw [votedPower,ValidatorSet.powerOf,Finset.sum_filter_of_ne,all,List.map_map]
    · rfl
    · intro id _ heavy
      by_contra stranger
      exact heavy (outside id stranger)
  · intro id chosen
    obtain ⟨v,kept,rfl⟩ := List.mem_map.mp (List.mem_toFinset.mp (Finset.mem_filter.mp chosen).1)
    obtain ⟨listed,block⟩ := List.mem_filter.mp kept
    exact ⟨v,listed,rfl,by simpa using block⟩

inductive PrevoteError where
  | slot | notLeader | verify (reason : VerifyError)
  deriving DecidableEq, Repr

section Prevote

variable [Bls] [Blake3] [Vrf]

/-- Accept a proposal and emit a prevote if the lock allows, and nil if it does not. An
error leaves the log as it was. -/
def prevoteStep (sk : Bls.SecretKey) (ourId : ValidatorId) (proposal : Proposal)
    (vrfPks : Map ValidatorId (Vector UInt8 32)) (seed : VrfSeed) (validators : ValidatorSet)
    (expectedHeight : Height) (expectedRound : Round) (lock : Option Lock)
    (unlockPolka : Option (Round × Hash)) (log : VoteReplayLog) :
    Except PrevoteError (Vote × VoteReplayLog) :=
  if proposal.height ≠ expectedHeight ∨ proposal.round ≠ expectedRound then .error .slot
  else match vrfPks[proposal.vrfSource]? with
    | none => .error .notLeader
    | some srcPk =>
      if verifyLeader proposal srcPk seed validators = false then .error .notLeader
      else if prevoteAllowed lock expectedHeight (.block proposal.header.hash) unlockPolka = false then
        let v := Vote.nil sk ourId expectedHeight expectedRound .prevote
        .ok (v,(v.verify expectedHeight expectedRound log).toOption.getD log)
      else
        let v := Vote.prevote sk ourId expectedHeight expectedRound proposal.header
        match v.verify expectedHeight expectedRound log with
        | .error e => .error (.verify e)
        | .ok log => .ok (v,log)

variable {sk : Bls.SecretKey} {ourId : ValidatorId} {proposal : Proposal}
  {vrfPks : Map ValidatorId (Vector UInt8 32)} {seed : VrfSeed} {validators : ValidatorSet}
  {height : Height} {round : Round} {lock : Option Lock} {unlockPolka : Option (Round × Hash)}
  {log log' : VoteReplayLog} {v : Vote}

/-- The leader was verified, the vote was shown to the log, and the lock decided for which of the
two it is. -/
theorem prevoteStep_cases
    (returned : prevoteStep sk ourId proposal vrfPks seed validators height round lock unlockPolka
      log = .ok (v,log')) :
    (∃ pk, vrfPks[proposal.vrfSource]? = some pk ∧ verifyLeader proposal pk seed validators = true) ∧
    log' = (v.verify height round log).toOption.getD log ∧
    (prevoteAllowed lock height (.block proposal.header.hash) unlockPolka = false ∧
        v = Vote.nil sk ourId height round .prevote ∨
      prevoteAllowed lock height (.block proposal.header.hash) unlockPolka = true ∧
        v = Vote.prevote sk ourId height round proposal.header) := by
  unfold prevoteStep at returned
  split at returned
  · cases returned
  split at returned
  · cases returned
  rename_i pk known
  split at returned
  · cases returned
  rename_i leader
  refine ⟨⟨pk,known,by simpa using leader⟩,?_⟩
  split at returned
  · rename_i forbidden
    cases returned
    exact ⟨rfl,.inl ⟨forbidden,rfl⟩⟩
  · rename_i allowed
    dsimp only at returned
    split at returned
    · cases returned
    · rename_i accepted
      cases returned
      rw [accepted]
      exact ⟨rfl,.inr ⟨by simpa using allowed,rfl⟩⟩

/-- A prevote goes to the slot it was asked for, and to a block only if the lock allows. -/
theorem prevoteStep_ok
    (returned : prevoteStep sk ourId proposal vrfPks seed validators height round lock unlockPolka
      log = .ok (v,log')) :
    v.message = signedMessage height round .prevote v.block ∧ v.signer = ourId ∧
    ∀ h, v.block = .block h → h = proposal.header.hash ∧
      prevoteAllowed lock height (.block h) unlockPolka = true := by
  obtain ⟨-,-,⟨-,rfl⟩ | ⟨allowed,rfl⟩⟩ := prevoteStep_cases returned
  · exact ⟨rfl,rfl,fun h block => by cases block⟩
  · refine ⟨rfl,rfl,fun h block => ?_⟩
    cases block
    exact ⟨rfl,allowed⟩

end Prevote

section Precommit

variable [Bls] [Blake3]

/-- Precommit given a prevote set, and lock the block on a polka for it. -/
def precommitStep (sk : Bls.SecretKey) (ourId : ValidatorId) (height : Height) (round : Round)
    (prevotes : List Vote) (validators : ValidatorSet) (headerFor : Header) (log : VoteReplayLog) :
    Vote × Option Lock × VoteReplayLog :=
  if polka prevotes validators = some (.block headerFor.hash) then
    let v := Vote.precommit sk ourId height round headerFor
    (v,some ⟨height,round,headerFor.hash⟩,(v.verify height round log).toOption.getD log)
  else
    let v := Vote.nil sk ourId height round .precommit
    (v,none,(v.verify height round log).toOption.getD log)

/-- A precommit for a block comes with its lock and rests on a polka. -/
theorem precommitStep_spec {sk : Bls.SecretKey} {ourId : ValidatorId} {height : Height}
    {round : Round} {prevotes : List Vote} {headerFor : Header}
    {log log' : VoteReplayLog} {v : Vote} {lock : Option Lock}
    (returned : precommitStep sk ourId height round prevotes validators headerFor log =
      (v,lock,log')) :
    v.message = signedMessage height round .precommit v.block ∧ v.signer = ourId ∧
    ((v.block = .nil ∧ lock = none) ∨
      (v.block = .block headerFor.hash ∧ lock = some ⟨height,round,headerFor.hash⟩ ∧
        polka prevotes validators = some (.block headerFor.hash))) := by
  unfold precommitStep at returned
  split at returned
  · rename_i found
    cases returned
    exact ⟨rfl,rfl,.inr ⟨rfl,rfl,found⟩⟩
  · cases returned
    exact ⟨rfl,rfl,.inl ⟨rfl,rfl⟩⟩

end Precommit

inductive SafetyError where
  | twoCommits (height : Height)
  deriving DecidableEq, Repr

/-- At most one committed block per height. -/
abbrev CommitLog := Map Height Hash

/-- Record a finalized block; an error leaves the log as it was. -/
def CommitLog.record (log : CommitLog) (f : Finalized) : Except SafetyError CommitLog :=
  match log[f.height]? with
  | some prev => if prev ≠ f.blockHash then .error (.twoCommits f.height) else .ok log
  | none => .ok (log.insert f.height f.blockHash)

def haltNoQuorum (reachable total : VotingPower) : Bool := !Qc.hasQuorum reachable total

inductive CommitError where
  | qc (reason : QcError) | safety (reason : SafetyError)
  deriving DecidableEq, Repr

section Commit

variable [Bls] [Blake3]

/-- Commit on a verified certificate. The outer `none` is a panic; the log changes only
with a finalized block. -/
def commit (precommits : List Vote) (validators : ValidatorSet) (reachable : VotingPower)
    (proposal : Proposal) (log : CommitLog) :
    Option (Except CommitError (Option (Finalized × CommitLog))) :=
  if haltNoQuorum reachable validators.totalPower then some (.ok none)
  else match polka precommits validators with
    | none => some (.ok none)
    | some .nil => some (.ok none)
    | some (.block h) =>
      if h ≠ proposal.header.hash then some (.ok none)
      else match Qc.aggregate precommits validators with
        | .error e => some (.error (.qc e))
        | .ok qc => match Qc.verify qc validators with
          | none => none
          | some (.error e) => some (.error (.qc e))
          | some (.ok ()) =>
            let f := ⟨proposal.height,proposal.round,h,proposal.appHash⟩
            match log.record f with
            | .error e => some (.error (.safety e))
            | .ok log => some (.ok (some (f,log)))

structure Committed (precommits : List Vote) (validators : ValidatorSet) (proposal : Proposal)
    (log : CommitLog) (f : Finalized) (log' : CommitLog) (qc : QuorumCertificate) : Prop where
  polka : polka precommits validators = some (.block f.blockHash)
  aggregated : Qc.aggregate precommits validators = .ok qc
  verified : Qc.verify qc validators = some (.ok ())
  finalized : f = ⟨proposal.height,proposal.round,proposal.header.hash,proposal.appHash⟩
  recorded : log.record f = .ok log'

variable {precommits : List Vote} {proposal : Proposal} {log log' : CommitLog} {f : Finalized}

theorem commit_ok {reachable : VotingPower}
    (returned : commit precommits validators reachable proposal log = some (.ok (some (f,log')))) :
    ∃ qc, Committed precommits validators proposal log f log' qc := by
  unfold commit at returned
  split at returned
  · cases returned
  split at returned
  · cases returned
  · cases returned
  rename_i h found
  split at returned
  · cases returned
  rename_i named
  split at returned
  · cases returned
  rename_i qc aggregated
  split at returned
  · cases returned
  · cases returned
  rename_i verified
  dsimp only at returned
  split at returned
  · cases returned
  rename_i recorded
  cases returned
  exact ⟨qc,found,aggregated,verified,by rw [not_not.mp named],recorded⟩

theorem Committed.block {qc : QuorumCertificate}
    (c : Committed precommits validators proposal log f log' qc) :
    qc.block = .block f.blockHash := by
  have quorum := polka_quorum c.polka
  have positive : 0 < votedPower validators (.block f.blockHash) precommits := by omega
  obtain ⟨v,listed,block⟩ := exists_vote_of_votedPower positive
  rw [← block]
  exact ((Qc.aggregate_ok c.aggregated).votes v listed).2.2.2.symm

end Commit
end Steps
end L1
