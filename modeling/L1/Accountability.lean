import L1.Slashing

/-! Who can be held to account for a fork. Commit checks the sum of the signatures, evidence
each signature on its own. -/
namespace L1

open Steps Slash

namespace Accountability

theorem third_of_quorums {validators : ValidatorSet} {s t : Finset ValidatorId}
    (left : s ⊆ validators.members) (right : t ⊆ validators.members)
    (first : 2 * validators.power < 3 * validators.powerOf s)
    (second : 2 * validators.power < 3 * validators.powerOf t) :
    validators.power < 3 * validators.powerOf (s ∩ t) := by
  have join : validators.powerOf (s ∪ t) + validators.powerOf (s ∩ t) =
      validators.powerOf s + validators.powerOf t := Finset.sum_union_inter
  have all : validators.powerOf (s ∪ t) ≤ validators.power :=
    Qc.powerOf_mono validators (Finset.union_subset left right)
  omega

variable [Bls]

/-- Members with a vote in the list that verifies on its own. -/
def answerable (validators : ValidatorSet) (votes : List Vote) : Finset ValidatorId :=
  validators.members.filter fun id => ∃ v ∈ votes, v.signer = id ∧ verifySignature v = .ok ()

variable [Blake3]

/-- Members against whom two votes, one of each list, are evidence. -/
def accountable (validators : ValidatorSet) (one other : List Vote) : Finset ValidatorId :=
  validators.members.filter fun id =>
    ∃ a ∈ one, ∃ b ∈ other, a.signer = id ∧ b.signer = id ∧ submitEvidence ⟨a,b⟩ = .ok ⟨a,b⟩

theorem submitEvidence_of_proven {ev : Evidence} (proven : Proven ev) : submitEvidence ev = .ok ev := by
  have key : ev.a.key = ev.b.key := by
    rw [Vote.key,Vote.key,proven.signer,proven.height,proven.round,proven.kind]
  simp only [submitEvidence,equivocation,proven.first,proven.second,proven.signer,proven.height,
    proven.round,proven.kind,key,proven.body,bind,Except.bind,pure,Except.pure,ne_eq,
    not_true_eq_false,or_self,if_false]

theorem commit_votes {precommits : List Vote} {validators : ValidatorSet} {reachable : VotingPower}
    {proposal : Proposal} {log log' : CommitLog} {f : Finalized}
    (returned : commit precommits validators reachable proposal log = some (.ok (some (f,log')))) :
    (∀ v ∈ precommits, v.kind = .precommit ∧ v.block = .block f.blockHash) ∧
    ∃ s ⊆ validators.members, 2 * validators.power < 3 * validators.powerOf s ∧
      ∀ id ∈ s, ∃ v ∈ precommits, v.signer = id := by
  obtain ⟨qc,c⟩ := commit_ok returned
  have built := Qc.aggregate_ok c.aggregated
  constructor
  · intro v listed
    obtain ⟨kind,-,-,block⟩ := built.votes v listed
    exact ⟨kind,block.trans c.block⟩
  · refine ⟨qc.signers.toFinset,?_,built.quorum c.verified,?_⟩
    · intro id chosen
      exact built.members id (List.mem_toFinset.mp chosen)
    · intro id chosen
      exact Qc.aggregate_signers c.aggregated id (List.mem_toFinset.mp chosen)

/-- After a fork, evidence reaches more than a third of the power exactly when the members with
a vote of their own in both lists hold more than a third; it does if every vote verifies. -/
theorem fork_accountable_iff (validators : ValidatorSet) (one other : List Vote)
    (reachable reachable' : VotingPower) (p p' : Proposal)
    (log log' after after' : CommitLog) (f f' : Finalized) (height : Height) (round : Round)
    (first : commit one validators reachable p log = some (.ok (some (f,after))))
    (second : commit other validators reachable' p' log' = some (.ok (some (f',after'))))
    (fork : f.blockHash ≠ f'.blockHash)
    (slot : ∀ v ∈ one ++ other, v.height = height ∧ v.round = round)
    (collisionFree : ∀ a ∈ one, ∀ b ∈ other, a.body = b.body → a.block = b.block) :
    (validators.power < 3 * validators.powerOf (accountable validators one other) ↔
      validators.power <
        3 * validators.powerOf (answerable validators one ∩ answerable validators other)) ∧
    ((∀ v ∈ one ++ other, verifySignature v = .ok ()) →
      validators.power < 3 * validators.powerOf (accountable validators one other)) := by
  obtain ⟨votes,s,members,quorum,voted⟩ := commit_votes first
  obtain ⟨votes',s',members',quorum',voted'⟩ := commit_votes second
  have proven {a b : Vote} (left : a ∈ one) (right : b ∈ other) (signer : a.signer = b.signer)
      (valid : verifySignature a = .ok ()) (valid' : verifySignature b = .ok ()) :
      Proven ⟨a,b⟩ := by
    obtain ⟨kind,block⟩ := votes a left
    obtain ⟨kind',block'⟩ := votes' b right
    obtain ⟨atHeight,atRound⟩ := slot a (List.mem_append_left _ left)
    obtain ⟨atHeight',atRound'⟩ := slot b (List.mem_append_right _ right)
    refine ⟨valid,valid',signer,atHeight.trans atHeight'.symm,atRound.trans atRound'.symm,
      kind.trans kind'.symm,fun same => fork ?_⟩
    have blocks := collisionFree a left b right same
    rw [block,block'] at blocks
    exact VoteBlock.block.inj blocks
  have exact_ : accountable validators one other =
      answerable validators one ∩ answerable validators other := by
    ext id
    simp only [accountable,answerable,Finset.mem_inter,Finset.mem_filter]
    constructor
    · rintro ⟨member,a,left,b,right,signer,signer',accepted⟩
      have both := submitEvidence_ok accepted
      exact ⟨⟨member,a,left,signer,both.first⟩,member,b,right,signer',both.second⟩
    · rintro ⟨⟨member,a,left,signer,valid⟩,-,b,right,signer',valid'⟩
      exact ⟨member,a,left,b,right,signer,signer',submitEvidence_of_proven
        (proven left right (signer.trans signer'.symm) valid valid')⟩
  rw [exact_]
  refine ⟨Iff.rfl,fun valid => ?_⟩
  -- with every vote valid, both quorums are answerable
  have shared := third_of_quorums members members' quorum quorum'
  have inside : s ∩ s' ⊆ answerable validators one ∩ answerable validators other := by
    intro id both
    obtain ⟨left,right⟩ := Finset.mem_inter.mp both
    obtain ⟨a,listed,signer⟩ := voted id left
    obtain ⟨b,listed',signer'⟩ := voted' id right
    refine Finset.mem_inter.mpr ⟨Finset.mem_filter.mpr ⟨members left,a,listed,signer,?_⟩,
      Finset.mem_filter.mpr ⟨members left,b,listed',signer',?_⟩⟩
    · exact valid a (List.mem_append_left _ listed)
    · exact valid b (List.mem_append_right _ listed')
  have := Qc.powerOf_mono validators inside
  omega

end Accountability

/-! BLS over the integers modulo 256: the signature of a message is the key times the point of
the message, and signatures and keys are combined by addition. -/
namespace ScalarBls

def point (msg : Bytes) : UInt8 := 2 * msg.foldl (· + ·) 0 + 1

@[reducible] def bls : Bls where
  SecretKey := UInt8
  PublicKey := UInt8
  Signature := UInt8
  sign sk msg := sk * point msg
  verify pk msg sig := sig == pk * point msg
  publicKeyFromBytes id := some id[0]
  signatureFromBytes bytes := some bytes[0]
  signatureToBytes sig := Vector.replicate 96 sig
  addPublicKey a b := some (a + b)
  addSignature a b := some (a + b)

attribute [local instance] bls LoneSigner.blake3

open LoneSigner (validator validators)

def header (timestamp : U64) : Header :=
  { LoneSigner.header with fields := ⟨0,0,validator 1,timestamp⟩ }

def proposal (header : Header) : Proposal := {
  height := 0
  round := 0
  header
  appHash := zeroHash
  proposer := validator 1
  vrfSource := validator 1
  vrfProof := Vector.replicate 80 0
  signature := Vector.replicate 96 0 }

def shifted (tag shift : UInt8) (header : Header) : Vote :=
  let vote := Vote.precommit tag (validator tag) 0 0 header
  { vote with signature := Vector.replicate 96 (vote.signature[0] + shift) }

/-- Precommits of all three validators; the shifts add up to zero. -/
def hidden (header : Header) : List Vote := [shifted 1 1 header,shifted 2 1 header,shifted 3 254 header]

def plain (header : Header) : List Vote := [shifted 1 0 header,shifted 2 0 header,shifted 3 0 header]

def finalized (header : Header) : Finalized := ⟨0,0,header.hash,zeroHash⟩

def committed (precommits : List Vote) (header : Header) : Option Finalized :=
  match commit precommits validators 3 (proposal header) ∅ with
  | some (.ok (some (f,_))) => some f
  | _ => none

theorem commit_of_committed {precommits : List Vote} {header : Header} {f : Finalized}
    (done : committed precommits header = some f) :
    ∃ log, commit precommits validators 3 (proposal header) ∅ = some (.ok (some (f,log))) := by
  unfold committed at done
  split at done
  · rename_i log returned
    cases done
    exact ⟨log,returned⟩
  · cases done

/-- With plain signatures a fork is answered for by more than a third. -/
theorem plain_fork_accountable :
    committed (plain (header 0)) (header 0) = some (finalized (header 0)) ∧
    committed (plain (header 1)) (header 1) = some (finalized (header 1)) ∧
    validators.power <
      3 * validators.powerOf (Accountability.accountable validators (plain (header 0)) (plain (header 1))) := by
  have one : committed (plain (header 0)) (header 0) = some (finalized (header 0)) := by decide +kernel
  have two : committed (plain (header 1)) (header 1) = some (finalized (header 1)) := by decide +kernel
  obtain ⟨log,first⟩ := commit_of_committed one
  obtain ⟨log',second⟩ := commit_of_committed two
  exact ⟨one,two,(Accountability.fork_accountable_iff validators _ _ 3 3 _ _ ∅ ∅ log log' _ _ 0 0
    first second (by decide +kernel) (by decide +kernel) (by decide +kernel)).2 (by decide +kernel)⟩

/-- Three validators commit two blocks in one slot, and no two of their votes are evidence. -/
theorem shifted_fork_unaccountable :
    ∃ log log',
      commit (hidden (header 0)) validators 3 (proposal (header 0)) ∅ =
        some (.ok (some (finalized (header 0),log))) ∧
      commit (hidden (header 1)) validators 3 (proposal (header 1)) ∅ =
        some (.ok (some (finalized (header 1),log'))) ∧
      (finalized (header 0)).blockHash ≠ (finalized (header 1)).blockHash ∧
      (∀ v ∈ hidden (header 0) ++ hidden (header 1), v.height = 0 ∧ v.round = 0) ∧
      validators.power = 3 ∧
      Accountability.accountable validators (hidden (header 0)) (hidden (header 1)) = ∅ := by
  obtain ⟨log,first⟩ := commit_of_committed (f := finalized (header 0))
    (by decide +kernel : committed (hidden (header 0)) (header 0) = _)
  obtain ⟨log',second⟩ := commit_of_committed (f := finalized (header 1))
    (by decide +kernel : committed (hidden (header 1)) (header 1) = _)
  exact ⟨log,log',first,second,by decide +kernel⟩

end ScalarBls
end L1
