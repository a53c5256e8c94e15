import L1.Finality
import L1.Seq

/-! Lists of votes as the network delivers them: what the quorum tests count, and when a lock or
a commit that rests on such a list is what it says. -/
namespace L1

namespace ValidatorSet

theorem weight_stranger {validators : ValidatorSet} {id : ValidatorId}
    (stranger : id ∉ validators.members) : validators.weight id = 0 := by
  cases known : validators[id]? with
  | none => simp [weight,known]
  | some p => exact absurd (mem_members.mpr ⟨p,known⟩) stranger

theorem powerOf_members (validators : ValidatorSet) (s : Finset ValidatorId) :
    validators.powerOf (s.filter (· ∈ validators.members)) = validators.powerOf s := by
  refine Finset.sum_filter_of_ne fun id _ heavy => ?_
  by_contra stranger
  exact heavy (weight_stranger stranger)

end ValidatorSet

namespace Qc

/-- A power that saturates as a sum has a quorum exactly if the exact one is above two thirds
and twice the total does not saturate. -/
theorem hasQuorum_iff {validators : ValidatorSet} {voted : VotingPower} {power : Nat}
    (sum : voted.toNat = min power (2^64 - 1)) : hasQuorum voted validators.totalPower = true ↔
      2 * validators.power < 3 * power ∧ 2 * validators.power < 2^64 - 1 := by
  have two : (2 : VotingPower).toNat = 2 := rfl
  have three : (3 : VotingPower).toNat = 3 := rfl
  rw [hasQuorum,exceedsTwoThirds,decide_eq_true_eq,BitVec.lt_def]
  simp only [toNat_saturatingMul,ValidatorSet.toNat_totalPower,sum,two,three]
  omega

/-- The quorum test of a subset is the exact comparison unless twice the total saturates and
the subset has a quorum; the full set passes exactly if twice its total does not saturate. -/
theorem quorum_test_iff (validators : ValidatorSet) :
    (∀ ids : List ValidatorId, ids.Nodup → (∀ id ∈ ids, id ∈ validators.members) →
      ((hasQuorum (validators.sumPower ids) validators.totalPower = true ↔
          2 * validators.power < 3 * validators.powerOf ids.toFinset) ↔
        2 * validators.power < 2^64 - 1 ∨
          3 * validators.powerOf ids.toFinset ≤ 2 * validators.power)) ∧
    (0 < validators.power →
      (hasQuorum validators.totalPower validators.totalPower = true ↔
        2 * validators.power < 2^64 - 1)) := by
  refine ⟨fun ids distinct _ => ?_,fun positive => ?_⟩
  · rw [hasQuorum_iff (ValidatorSet.toNat_sumPower_nodup distinct)]
    omega
  · rw [hasQuorum_iff (ValidatorSet.toNat_totalPower validators)]
    omega

end Qc

/-! One validator with half of the 64-bit range. -/
namespace Heavyweight

open LoneSigner

def validators : ValidatorSet := Std.ExtTreeMap.ofList [(validator 1,2^63)] compare

/-- All the power there is, and no quorum. -/
theorem full_set_without_quorum :
    2 * validators.power < 3 * validators.powerOf [validator 1].toFinset ∧
    validator 1 ∈ validators.members ∧ 0 < validators.power ∧
    Qc.hasQuorum (validators.sumPower [validator 1]) validators.totalPower = false ∧
    Qc.hasQuorum validators.totalPower validators.totalPower = false := by
  decide +kernel

end Heavyweight

namespace Steps

theorem toNat_tallyVote (validators : ValidatorSet) (t : Map VoteBlock VotingPower) (v : Vote)
    (b : VoteBlock) : (((tallyVote validators t v)[b]?).getD 0).toNat =
      min (((t[b]?).getD 0).toNat + if v.block = b then validators.weight v.signer else 0)
        (2^64 - 1) := by
  have bounded := ((t[b]?).getD 0).isLt
  unfold tallyVote
  split
  · rename_i unknown
    have weightless : validators.weight v.signer = 0 := by simp [ValidatorSet.weight,unknown]
    simp only [weightless,ite_self,Nat.add_zero]
    omega
  · rename_i p known
    have weight : validators.weight v.signer = p.toNat := by simp [ValidatorSet.weight,known]
    rw [Map.get?_insert]
    by_cases here : b = v.block
    · subst here
      simp [weight]
    · simp only [if_neg here,if_neg (Ne.symm here),Nat.add_zero]
      omega

/-- The tally of a value is the power behind it, counted per vote, until it saturates. -/
theorem toNat_tally (validators : ValidatorSet) (votes : List Vote) (b : VoteBlock) :
    (((tally votes validators)[b]?).getD 0).toNat =
      min (votedPower validators b votes) (2^64 - 1) := by
  have run (t : Map VoteBlock VotingPower) :
      (((votes.foldl (tallyVote validators) t)[b]?).getD 0).toNat =
        min (((t[b]?).getD 0).toNat + votedPower validators b votes) (2^64 - 1) := by
    induction votes generalizing t with
    | nil =>
      have bounded := ((t[b]?).getD 0).isLt
      simp only [List.foldl_nil,votedPower,List.filter_nil,List.map_nil,List.sum_nil]
      omega
    | cons v rest ih =>
      rw [List.foldl_cons,ih,toNat_tallyVote,votedPower_cons]
      omega
  simpa [tally] using run ∅

variable {validators : ValidatorSet} {votes prevotes : List Vote} {b : VoteBlock} {height : Height}
  {round : Round} {hash : Hash}

/-- A list that is for one value has a polka for it as soon as the power behind it is a quorum. -/
theorem polka_of_uniform (uniform : ∀ v ∈ votes, v.block = b)
    (quorum : 2 * validators.power < 3 * votedPower validators b votes)
    (small : 2 * validators.power < 2^64 - 1) : polka votes validators = some b := by
  have sum := toNat_tally validators votes b
  have test := (@Qc.hasQuorum_iff validators _ _ sum).mpr ⟨quorum,small⟩
  cases held : (tally votes validators)[b]? with
  | none =>
    rw [held] at sum
    simp at sum
    omega
  | some p =>
    rw [held,Option.getD_some] at test
    have entry := Std.ExtTreeMap.mem_toList_iff_getElem?_eq_some.mpr held
    have passes : ((tally votes validators).toList.find? fun e =>
        Qc.hasQuorum e.2 validators.totalPower).isSome := List.find?_isSome.mpr ⟨(b,p),entry,test⟩
    obtain ⟨found,isFound⟩ := Option.isSome_iff_exists.mp passes
    have some_ : polka votes validators = some found.1 := by rw [polka,isFound,Option.map_some]
    have backed := polka_quorum some_
    obtain ⟨v,listed,block⟩ := exists_vote_of_votedPower
      (show 0 < votedPower validators found.1 votes by omega)
    rw [some_,← block,uniform v listed]

theorem powerOf_le_votedPower
    {s : Finset ValidatorId} (voted : ∀ id ∈ s, ∃ v ∈ votes, v.signer = id ∧ v.block = b) :
    validators.powerOf s ≤ votedPower validators b votes := by
  have sub : s ⊆ ((votes.filter (·.block = b)).map Vote.signer).toFinset := by
    intro id chosen
    obtain ⟨v,listed,rfl,block⟩ := voted id chosen
    exact List.mem_toFinset.mpr (List.mem_map.mpr ⟨v,List.mem_filter.mpr ⟨listed,by simpa using block⟩,rfl⟩)
  have once : validators.powerOf ((votes.filter (·.block = b)).map Vote.signer).toFinset =
      (((votes.filter (·.block = b)).map Vote.signer).dedup.map validators.weight).sum := by
    have same : ((votes.filter (·.block = b)).map Vote.signer).dedup.toFinset =
        ((votes.filter (·.block = b)).map Vote.signer).toFinset := by
      ext id
      simp only [List.mem_toFinset,List.mem_dedup]
    rw [← same,ValidatorSet.powerOf,List.sum_toFinset _ (List.nodup_dedup _)]
  have all : (((votes.filter (·.block = b)).map Vote.signer).dedup.map validators.weight).sum ≤
      votedPower validators b votes := by
    have sublist := (List.dedup_sublist ((votes.filter (·.block = b)).map Vote.signer)).map
      validators.weight
    have sum := sublist.sum_le_sum fun _ _ => Nat.zero_le _
    simpa [votedPower,List.map_map,Function.comp_def] using sum
  have := Qc.powerOf_mono validators sub
  omega

def IsPrevote (height : Height) (round : Round) (hash : Hash) (v : Vote) : Prop :=
  v.kind = .prevote ∧ v.height = height ∧ v.round = round ∧ v.block = .block hash

instance (height : Height) (round : Round) (hash : Hash) :
    DecidablePred (IsPrevote height round hash) := fun _ => inferInstanceAs (Decidable (_ ∧ _))

/-- Distinct validators with more than two thirds of the power prevoted for the block. -/
def Justified (prevotes : List Vote) (validators : ValidatorSet) (height : Height) (round : Round)
    (hash : Hash) : Prop :=
  ∃ s ⊆ validators.members, 2 * validators.power < 3 * validators.powerOf s ∧
    ∀ id ∈ s, ∃ v ∈ prevotes, v.signer = id ∧ IsPrevote height round hash v

def prevoters (prevotes : List Vote) (height : Height) (round : Round) (hash : Hash) :
    Finset ValidatorId :=
  ((prevotes.filter (IsPrevote height round hash ·)).map Vote.signer).toFinset

theorem mem_prevoters {id : ValidatorId} : id ∈ prevoters prevotes height round hash ↔
      ∃ v ∈ prevotes, v.signer = id ∧ IsPrevote height round hash v := by
  simp only [prevoters,List.mem_toFinset,List.mem_map,List.mem_filter,decide_eq_true_eq]
  exact ⟨fun ⟨v,⟨listed,own⟩,signer⟩ => ⟨v,listed,signer,own⟩,
    fun ⟨v,listed,signer,own⟩ => ⟨v,⟨listed,own⟩,signer⟩⟩

theorem justified_iff : Justified prevotes validators height round hash ↔
      2 * validators.power < 3 * validators.powerOf (prevoters prevotes height round hash) := by
  constructor
  · rintro ⟨s,-,quorum,voted⟩
    have sub : s ⊆ prevoters prevotes height round hash :=
      fun id chosen => mem_prevoters.mpr (voted id chosen)
    have := Qc.powerOf_mono validators sub
    omega
  · intro quorum
    refine ⟨(prevoters prevotes height round hash).filter (· ∈ validators.members),?_,?_,?_⟩
    · exact fun id chosen => (Finset.mem_filter.mp chosen).2
    · rwa [ValidatorSet.powerOf_members]
    · exact fun id chosen => mem_prevoters.mp (Finset.mem_filter.mp chosen).1

section Locking

variable [Bls] [Blake3]

end Locking
end Steps

namespace Repeated

open LoneSigner Steps

attribute [local instance] bls blake3

def prevote : Vote := Vote.prevote () (validator 1) 0 0 header

end Repeated

namespace Qc

variable [Bls]

/-- The signatures of the last votes, added up, verify as one signature of a message. -/
def Verifies (votes : List Vote) (msg : Bytes) : Prop :=
  ∃ sigs agg read pks,
    ((lastVotes votes).toList.mapM fun e => Bls.signatureFromBytes e.2.signature) = some sigs ∧
    Bls.aggregate sigs = some agg ∧
    Bls.signatureFromBytes (Bls.signatureToBytes agg) = some read ∧
    (lastSigners votes).mapM Bls.publicKeyFromBytes = some pks ∧
    Bls.verifyFastAggregate read pks msg = some true

theorem verify_iff {qc : QuorumCertificate} {validators : ValidatorSet} :
    verify qc validators = some (.ok ()) ↔
      hasQuorum qc.power validators.totalPower = true ∧
      ∃ agg pks, Bls.signatureFromBytes qc.aggSig = some agg ∧
        qc.signers.mapM Bls.publicKeyFromBytes = some pks ∧
        Bls.verifyFastAggregate agg pks (message qc) = some true := by
  refine ⟨verify_ok,?_⟩
  rintro ⟨quorum,agg,pks,parsed,keys,checked⟩
  simp [verify,quorum,parsed,keys,checked]

/-- A list gives a certificate that verifies exactly if it is uniform, by members with a
quorum, and its signatures add up. -/
theorem certificate_iff {votes : List Vote} {validators : ValidatorSet} {height : Height}
    {round : Round} {block : VoteBlock}
    (here : ∃ v ∈ votes, v.height = height ∧ v.round = round ∧ v.block = block) :
    (∃ qc, aggregate votes validators = .ok qc ∧ verify qc validators = some (.ok ())) ↔
      Uniform height round block votes ∧ (∀ v ∈ votes, v.signer ∈ validators.members) ∧
      hasQuorum (validators.sumPower (lastSigners votes)) validators.totalPower = true ∧
      Verifies votes (signedMessage height round .precommit block) := by
  obtain ⟨w,listed,rfl,rfl,rfl⟩ := here
  obtain ⟨first,rest,rfl⟩ := List.exists_cons_of_ne_nil (List.ne_nil_of_mem listed)
  constructor
  · rintro ⟨qc,built,accepted⟩
    obtain ⟨own,known,sigs,agg,parsed,added,rfl⟩ := aggregate_iff.mp built
    obtain ⟨quorum,read,pks,decoded,keys,checked⟩ := verify_iff.mp accepted
    obtain ⟨-,height,round,block⟩ := own w listed
    rw [height,round,block]
    exact ⟨own,known,quorum,sigs,agg,read,pks,parsed,added,decoded,keys,checked⟩
  · rintro ⟨uniform,known,quorum,sigs,agg,read,pks,parsed,added,decoded,keys,checked⟩
    obtain ⟨-,height,round,block⟩ := uniform first (List.mem_cons_self ..)
    rw [← height,← round,← block] at uniform checked
    exact ⟨_,aggregate_iff.mpr ⟨uniform,known,sigs,agg,parsed,added,rfl⟩,
      verify_iff.mpr ⟨quorum,read,pks,decoded,keys,checked⟩⟩

end Qc

/-- A vote carries a signature that verifies under its signer's key. -/
def Vote.Signed [Bls] (v : Vote) : Prop :=
  ∃ pk sig, Bls.publicKeyFromBytes v.signer = some pk ∧
    Bls.signatureFromBytes v.signature = some sig ∧ Bls.verify pk v.message sig = true

/-- Signatures are read back as written, and add up with the keys they verify under. -/
structure Bls.Additive [Bls] : Prop where
  read : ∀ sig : Bls.Signature, Bls.signatureFromBytes (Bls.signatureToBytes sig) = some sig
  add : ∀ (p q : Bls.PublicKey) (msg : Bytes) (s t : Bls.Signature), Bls.verify p msg s = true →
    Bls.verify q msg t = true → ∃ key sum, Bls.addPublicKey p q = some key ∧
      Bls.addSignature s t = some sum ∧ Bls.verify key msg sum = true

namespace Qc

variable [Bls]

theorem fold_verifies (additive : Bls.Additive) {msg : Bytes}
    {pairs : List (Bls.PublicKey × Bls.Signature)} {pk : Bls.PublicKey} {sig : Bls.Signature}
    (first : Bls.verify pk msg sig = true)
    (rest : ∀ pair ∈ pairs, Bls.verify pair.1 msg pair.2 = true) :
    ∃ key sum, (pairs.map Prod.fst).foldlM Bls.addPublicKey pk = some key ∧
      (pairs.map Prod.snd).foldlM Bls.addSignature sig = some sum ∧
      Bls.verify key msg sum = true := by
  induction pairs generalizing pk sig with
  | nil => exact ⟨pk,sig,rfl,rfl,first⟩
  | cons pair pairs ih =>
    obtain ⟨key,sum,keys,sums,checked⟩ :=
      additive.add pk pair.1 msg sig pair.2 first (rest pair (List.mem_cons_self ..))
    obtain ⟨key',sum',keys',sums',checked'⟩ :=
      ih checked fun later listed => rest later (List.mem_cons_of_mem _ listed)
    exact ⟨key',sum',by simpa [keys] using keys',by simpa [sums] using sums',checked'⟩

theorem entries_parse {msg : Bytes} {entries : List (ValidatorId × Vote)}
    (signed : ∀ e ∈ entries, e.2.signer = e.1 ∧ e.2.message = msg ∧ e.2.Signed) :
    ∃ pairs : List (Bls.PublicKey × Bls.Signature), pairs.length = entries.length ∧
      (entries.mapM fun e => Bls.signatureFromBytes e.2.signature) = some (pairs.map Prod.snd) ∧
      (entries.map Prod.fst).mapM Bls.publicKeyFromBytes = some (pairs.map Prod.fst) ∧
      ∀ pair ∈ pairs, Bls.verify pair.1 msg pair.2 = true := by
  induction entries with
  | nil => exact ⟨[],rfl,rfl,rfl,by simp⟩
  | cons entry rest ih =>
    obtain ⟨pairs,length,sigs,keys,checked⟩ :=
      ih fun e listed => signed e (List.mem_cons_of_mem _ listed)
    obtain ⟨signer,message,pk,sig,key,parsed,verified⟩ := signed entry (List.mem_cons_self ..)
    rw [signer] at key
    rw [message] at verified
    refine ⟨(pk,sig) :: pairs,by simp [length],by simp [parsed,sigs],by simp [key,keys],?_⟩
    exact List.forall_mem_cons.mpr ⟨verified,checked⟩

/-- Signed votes of one slot for one value add up. -/
theorem verifies_of_signed (additive : Bls.Additive) {votes : List Vote} {height : Height}
    {round : Round} {block : VoteBlock} (some_ : votes ≠ [])
    (uniform : Uniform height round block votes) (signed : ∀ v ∈ votes, v.Signed) :
    Verifies votes (signedMessage height round .precommit block) := by
  have kept : ∀ e ∈ (lastVotes votes).toList, e.2.signer = e.1 ∧
      e.2.message = signedMessage height round .precommit block ∧ e.2.Signed := by
    intro e entry
    obtain ⟨listed,signer⟩ := get?_lastVotes (Std.ExtTreeMap.mem_toList_iff_getElem?_eq_some.mp entry)
    obtain ⟨kind,rfl,rfl,rfl⟩ := uniform e.2 listed
    exact ⟨signer,by rw [Vote.message,kind],signed e.2 listed⟩
  obtain ⟨pairs,length,sigs,keys,checked⟩ := entries_parse kept
  have present : (lastVotes votes).toList ≠ [] := by
    obtain ⟨v,rest,rfl⟩ := List.exists_cons_of_ne_nil some_
    obtain ⟨e,entry,-⟩ := List.mem_map.mp (mem_lastSigners.mpr ⟨v,List.mem_cons_self ..,rfl⟩)
    exact List.ne_nil_of_mem entry
  have nonempty : pairs ≠ [] := by
    intro empty
    rw [empty,List.length_nil] at length
    exact present (List.length_eq_zero_iff.mp length.symm)
  obtain ⟨⟨pk,sig⟩,rest,rfl⟩ := List.exists_cons_of_ne_nil nonempty
  obtain ⟨first,later⟩ := List.forall_mem_cons.mp checked
  obtain ⟨key,sum,addedKeys,addedSigs,verified⟩ := fold_verifies additive first later
  refine ⟨_,sum,sum,_,sigs,addedSigs,additive.read sum,keys,?_⟩
  simp only [List.map_cons,Bls.verifyFastAggregate,addedKeys,verified]

end Qc

namespace Steps

variable [Bls] [Blake3]

/-- Distinct validators with more than two thirds of the power signed precommits for the
proposal's slot and header; their votes in the list are no others. -/
structure Backed (precommits : List Vote) (validators : ValidatorSet) (proposal : Proposal)
    (backers : Finset ValidatorId) : Prop where
  members : backers ⊆ validators.members
  most : 2 * validators.power < 3 * validators.powerOf backers
  voted : ∀ id ∈ backers, ∃ v ∈ precommits, v.signer = id
  signed : ∀ v ∈ precommits, v.signer ∈ backers → v.Signed ∧ v.kind = .precommit ∧
    v.height = proposal.height ∧ v.round = proposal.round ∧ v.block = .block proposal.header.hash

omit [Bls] [Blake3] in
theorem record_free {log : CommitLog} {f : Finalized}
    (free : ∀ h, log[f.height]? = some h → h = f.blockHash) : ∃ log', log.record f = .ok log' := by
  unfold CommitLog.record
  cases held : log[f.height]? with
  | none => exact ⟨_,rfl⟩
  | some h => simp [free h held]

theorem commit_of {precommits : List Vote} {validators : ValidatorSet} {reachable : VotingPower}
    {proposal : Proposal} {log log' : CommitLog} {qc : QuorumCertificate}
    (reached : Qc.hasQuorum reachable validators.totalPower = true)
    (found : polka precommits validators = some (.block proposal.header.hash))
    (built : Qc.aggregate precommits validators = .ok qc)
    (accepted : Qc.verify qc validators = some (.ok ()))
    (recorded : log.record ⟨proposal.height,proposal.round,proposal.header.hash,proposal.appHash⟩ =
      .ok log') :
    commit precommits validators reachable proposal log =
      some (.ok (some (⟨proposal.height,proposal.round,proposal.header.hash,proposal.appHash⟩,
        log'))) := by
  simp [commit,haltNoQuorum,reached,found,built,accepted,recorded]

/-- With a quorum of signed precommits in the list, the header is committed exactly if every
other vote is a precommit by a member for the same slot and header as well, and all signatures
add up; with additive signatures it is enough that the others are signed. -/
theorem commit_complete_iff {precommits : List Vote} {validators : ValidatorSet}
    {reachable : VotingPower} {proposal : Proposal} {log : CommitLog} {backers : Finset ValidatorId}
    (small : validators.power < 2^62) (backed : Backed precommits validators proposal backers)
    (reached : Qc.hasQuorum reachable validators.totalPower = true)
    (free : ∀ h, log[proposal.height]? = some h → h = proposal.header.hash) :
    ((∃ f log', commit precommits validators reachable proposal log = some (.ok (some (f,log'))) ∧
        f.blockHash = proposal.header.hash) ↔
      Qc.Uniform proposal.height proposal.round (.block proposal.header.hash) precommits ∧
      (∀ v ∈ precommits, v.signer ∈ validators.members) ∧
      Qc.Verifies precommits
        (signedMessage proposal.height proposal.round .precommit (.block proposal.header.hash))) ∧
    (Bls.Additive →
      Qc.Uniform proposal.height proposal.round (.block proposal.header.hash) precommits →
      (∀ v ∈ precommits, v.signer ∈ validators.members ∧ v.Signed) →
      ∃ f log', commit precommits validators reachable proposal log = some (.ok (some (f,log'))) ∧
        f.blockHash = proposal.header.hash) := by
  have positive : 0 < validators.powerOf backers := by
    have := backed.most
    omega
  obtain ⟨id,backer⟩ : ∃ id, id ∈ backers := by
    by_contra none
    push Not at none
    rw [Finset.eq_empty_of_forall_notMem none] at positive
    simp [ValidatorSet.powerOf] at positive
  obtain ⟨w,listed,signer⟩ := backed.voted id backer
  obtain ⟨-,-,height,round,block⟩ := backed.signed w listed (signer ▸ backer)
  have certificate := @Qc.certificate_iff _ precommits validators _ _ _ ⟨w,listed,height,round,block⟩
  have backedPower : validators.powerOf backers ≤
      validators.powerOf (Qc.lastSigners precommits).toFinset := by
    refine Qc.powerOf_mono validators fun id backer => ?_
    exact List.mem_toFinset.mpr (Qc.mem_lastSigners.mpr (backed.voted id backer))
  have quorum : Qc.hasQuorum (validators.sumPower (Qc.lastSigners precommits)) validators.totalPower =
      true := by
    rw [Qc.hasQuorum_iff (ValidatorSet.toNat_sumPower_nodup (Qc.nodup_lastSigners precommits))]
    have := backed.most
    omega
  have equivalent : (∃ f log', commit precommits validators reachable proposal log =
        some (.ok (some (f,log'))) ∧ f.blockHash = proposal.header.hash) ↔
      Qc.Uniform proposal.height proposal.round (.block proposal.header.hash) precommits ∧
      (∀ v ∈ precommits, v.signer ∈ validators.members) ∧
      Qc.Verifies precommits
        (signedMessage proposal.height proposal.round .precommit (.block proposal.header.hash)) := by
    constructor
    · rintro ⟨f,log',returned,-⟩
      obtain ⟨qc,committed⟩ := commit_ok returned
      obtain ⟨uniform,members,-,verifies⟩ :=
        certificate.mp ⟨qc,committed.aggregated,committed.verified⟩
      exact ⟨uniform,members,verifies⟩
    · rintro ⟨uniform,members,verifies⟩
      obtain ⟨qc,built,accepted⟩ := certificate.mpr ⟨uniform,members,quorum,verifies⟩
      have counted : validators.powerOf backers ≤
          votedPower validators (.block proposal.header.hash) precommits := by
        refine powerOf_le_votedPower fun id backer => ?_
        obtain ⟨v,voted,signer⟩ := backed.voted id backer
        exact ⟨v,voted,signer,(uniform v voted).2.2.2⟩
      have found : polka precommits validators = some (.block proposal.header.hash) := by
        have := backed.most
        exact polka_of_uniform (fun v voted => (uniform v voted).2.2.2) (by omega) (by omega)
      obtain ⟨log',recorded⟩ := @record_free log
        ⟨proposal.height,proposal.round,proposal.header.hash,proposal.appHash⟩ free
      exact ⟨_,log',commit_of reached found built accepted recorded,rfl⟩
  refine ⟨equivalent,fun additive uniform signed => equivalent.mpr ⟨uniform,?_,?_⟩⟩
  · exact fun v voted => (signed v voted).1
  · exact Qc.verifies_of_signed additive (List.ne_nil_of_mem listed) uniform
      fun v voted => (signed v voted).2

/-- What a commit says: distinct validators with more than two thirds of the power signed
precommits for its slot and block, the block is the proposal's header of that slot, and the
application hash is that of the header's roots. -/
structure Meant (signed : ValidatorId → Bytes → Prop) (validators : ValidatorSet)
    (proposal : Proposal) (f : Finalized) : Prop where
  signed : ∃ s ⊆ validators.members, 2 * validators.power < 3 * validators.powerOf s ∧
    ∀ id ∈ s, signed id (signedMessage f.height f.round .precommit (.block f.blockHash))
  block : f.blockHash = proposal.header.hash
  height : f.height = proposal.header.fields.height
  round : f.round = proposal.header.fields.round
  appHash : f.appHash = Seq.appHash proposal.header.stateRoot proposal.header.txRoot
    proposal.header.receiptsRoot

/-- A commit means what it says, whatever signing history there is that forges nothing, exactly
if votes, wrapper and header are of one slot and the wrapper's application hash is that of the
header's roots. -/
theorem commit_meant_iff {precommits : List Vote} {validators : ValidatorSet}
    {reachable : VotingPower} {proposal : Proposal} {log log' : CommitLog} {f : Finalized}
    (returned : commit precommits validators reachable proposal log = some (.ok (some (f,log')))) :
    (∀ signed : ValidatorId → Bytes → Prop,
        (∀ qc, Qc.aggregate precommits validators = .ok qc →
          Qc.Genuine (fun _ => True) signed qc) →
        Meant signed validators proposal f) ↔
      (∀ v ∈ precommits, v.height = proposal.height ∧ v.round = proposal.round) ∧
      proposal.header.fields.height = proposal.height ∧
      proposal.header.fields.round = proposal.round ∧
      proposal.appHash = Seq.appHash proposal.header.stateRoot proposal.header.txRoot
        proposal.header.receiptsRoot := by
  obtain ⟨qc,committed⟩ := commit_ok returned
  have built := Qc.aggregate_ok committed.aggregated
  have block := committed.block
  have finalized := committed.finalized
  subst finalized
  constructor
  · intro meant
    -- the history in which nothing was signed but the votes of the list
    have only := meant (fun id msg => ∃ v ∈ precommits, v.signer = id ∧ v.message = msg) (by
      intro qc' aggregated agg pks _ _ _ id listed _
      obtain ⟨v,voted,signer⟩ := Qc.aggregate_signers aggregated id listed
      obtain ⟨kind,height,round,block⟩ := (Qc.aggregate_ok aggregated).votes v voted
      exact ⟨v,voted,signer,by rw [Vote.message,Qc.message,kind,height,round,block]⟩)
    obtain ⟨s,-,quorum,signed⟩ := only.signed
    obtain ⟨id,chosen⟩ : ∃ id, id ∈ s := by
      by_contra none
      push Not at none
      rw [Finset.eq_empty_of_forall_notMem none] at quorum
      simp [ValidatorSet.powerOf] at quorum
    obtain ⟨w,listed,-,message⟩ := signed id chosen
    obtain ⟨height,round,-,-⟩ := signedMessage_injective message
    refine ⟨fun v voted => ?_,only.height.symm,only.round.symm,only.appHash⟩
    obtain ⟨-,height',round',-⟩ := built.votes v voted
    obtain ⟨-,height'',round'',-⟩ := built.votes w listed
    exact ⟨by rw [height',← height'',height],by rw [round',← round'',round]⟩
  · rintro ⟨slots,height,round,appHash⟩ signed genuine
    have quorum := built.quorum committed.verified
    have told := (genuine qc committed.aggregated).signed committed.verified
    refine ⟨⟨qc.signers.toFinset,?_,quorum,?_⟩,rfl,height.symm,round.symm,appHash⟩
    · exact fun id chosen => built.members id (List.mem_toFinset.mp chosen)
    · intro id chosen
      have message : Qc.message qc =
          signedMessage proposal.height proposal.round .precommit (.block proposal.header.hash) := by
        have counted : 2 * validators.power <
            3 * votedPower validators (.block proposal.header.hash) precommits :=
          polka_quorum committed.polka
        obtain ⟨v,listed,-⟩ := exists_vote_of_votedPower (show 0 < votedPower validators
          (.block proposal.header.hash) precommits by omega)
        obtain ⟨-,height',round',-⟩ := built.votes v listed
        rw [Qc.message,block,← height',← round',(slots v listed).1,(slots v listed).2]
      rw [← message]
      exact told id (List.mem_toFinset.mp chosen) trivial

end Steps

/-! Four validators of equal power. -/
namespace Minority

open LoneSigner Steps

attribute [local instance] bls blake3

def validators : ValidatorSet := Std.ExtTreeMap.ofList
  [(validator 1,1),(validator 2,1),(validator 3,1),(validator 4,1)] compare

def proposal : Proposal := {
  height := 0
  round := 0
  header
  appHash := Seq.appHash header.stateRoot header.txRoot header.receiptsRoot
  proposer := validator 1
  vrfSource := validator 1
  vrfProof := Vector.replicate 80 0
  signature := Vector.replicate 96 0 }

def precommit (tag : UInt8) : Vote := Vote.precommit () (validator tag) 0 0 header

def honest : List Vote := [precommit 1,precommit 2,precommit 3]

def nilVote : Vote := Vote.nil () (validator 4) 0 0 .precommit

def backers : Finset ValidatorId := {validator 1,validator 2,validator 3}

theorem additive : Bls.Additive := ⟨fun _ => rfl,fun _ _ _ _ _ _ _ => ⟨(),(),rfl,rfl,rfl⟩⟩

theorem signed (v : Vote) : v.Signed := ⟨(),(),rfl,rfl,rfl⟩

theorem power_small : validators.power < 2^62 := by decide +kernel

theorem quorum_reached : Qc.hasQuorum 4 validators.totalPower = true := by decide +kernel

theorem backed_honest : Backed honest validators proposal backers := by
  refine ⟨by decide +kernel,by decide +kernel,by decide +kernel,?_⟩
  intro v voted _
  refine ⟨signed v,?_⟩
  revert v
  decide +kernel

theorem backed_with_nil : Backed (nilVote :: honest) validators proposal backers := by
  refine ⟨backed_honest.members,backed_honest.most,?_,?_⟩
  · intro id backer
    obtain ⟨v,voted,signer⟩ := backed_honest.voted id backer
    exact ⟨v,List.mem_cons_of_mem _ voted,signer⟩
  intro v voted backer
  rcases List.mem_cons.mp voted with rfl | voted
  · exact absurd backer (by decide +kernel)
  · exact backed_honest.signed v voted backer

/-- Three validators of four commit. -/
theorem honest_votes_commit :
    Backed honest validators proposal backers ∧
    ∃ f log', commit honest validators 4 proposal ∅ = some (.ok (some (f,log'))) ∧
      f.blockHash = proposal.header.hash :=
  ⟨backed_honest,(commit_complete_iff power_small backed_honest quorum_reached (by simp)).2 additive (by unfold Qc.Uniform; decide +kernel)
    fun v voted => ⟨by revert v; decide +kernel,signed v⟩⟩

/-- The nil vote of the fourth blocks the commit of the other three. -/
theorem nil_vote_blocks_commit :
    validators.power < 2^62 ∧ Backed (nilVote :: honest) validators proposal backers ∧
    Qc.hasQuorum 4 validators.totalPower = true ∧
    commit (nilVote :: honest) validators 4 proposal ∅ = some (.error (.qc .mixed)) := by
  refine ⟨power_small,backed_with_nil,quorum_reached,?_⟩
  have found : polka (nilVote :: honest) validators = some (.block proposal.header.hash) := by
    decide +kernel
  have mixed : Qc.aggregate (nilVote :: honest) validators = .error .mixed := by decide +kernel
  simp only [commit,haltNoQuorum,quorum_reached,Bool.not_true,found,mixed,Bool.false_eq_true,if_false,ne_eq,not_true_eq_false]

def certificate : QuorumCertificate :=
  ⟨0,0,.block header.hash,[validator 1,validator 2,validator 3],Vector.replicate 96 0,3⟩

theorem commit_wrapped (wrapper : Proposal) (same : wrapper.header = header) :
    commit honest validators 4 wrapper ∅ =
      some (.ok (some (⟨wrapper.height,wrapper.round,header.hash,wrapper.appHash⟩,
        (∅ : CommitLog).insert wrapper.height header.hash))) := by
  have found : polka honest validators = some (.block header.hash) := by decide +kernel
  have built : Qc.aggregate honest validators = .ok certificate := by decide +kernel
  rw [← same] at found ⊢
  exact commit_of quorum_reached found built (by decide +kernel) (by simp [CommitLog.record])

/-- A commit of votes, wrapper and header of one slot means what it says. -/
theorem honest_commit_meant :
    ∃ f log', commit honest validators 4 proposal ∅ = some (.ok (some (f,log'))) ∧
      ∀ signed : ValidatorId → Bytes → Prop,
        (∀ qc, Qc.aggregate honest validators = .ok qc → Qc.Genuine (fun _ => True) signed qc) →
        Meant signed validators proposal f := by
  have returned := commit_wrapped proposal rfl
  exact ⟨_,_,returned,(commit_meant_iff returned).mpr (by decide +kernel)⟩

def wrapped : Proposal := { proposal with height := 7,appHash := Vector.replicate 32 9 }

/-- Votes for height zero finalize height seven with an application hash nobody computed. -/
theorem wrapper_fields_finalized :
    ∃ log', commit honest validators 4 wrapped ∅ =
        some (.ok (some (⟨7,0,header.hash,Vector.replicate 32 9⟩,log'))) ∧
      validators.power < 2^62 ∧
      ∃ signed : ValidatorId → Bytes → Prop,
        (∀ qc, Qc.aggregate honest validators = .ok qc → Qc.Genuine (fun _ => True) signed qc) ∧
        ¬ Meant signed validators wrapped ⟨7,0,header.hash,Vector.replicate 32 9⟩ := by
  refine ⟨_,commit_wrapped wrapped rfl,power_small,fun _ _ => True,?_,?_⟩
  · exact fun _ _ _ _ _ _ _ _ _ _ => trivial
  · intro meant
    exact absurd meant.height (by decide)

end Minority
end L1
