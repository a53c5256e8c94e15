import L1.Quorum
import L1.Vote

/-! Quorum certificates: aggregation of precommits and verification. -/
namespace L1

/-- Strictly more than two thirds of the total, in saturating arithmetic. -/
def exceedsTwoThirds (power total : VotingPower) : Bool :=
  decide (saturatingMul total 2 < saturatingMul power 3)

abbrev ValidatorSet := Map ValidatorId VotingPower

namespace ValidatorSet

/-- The saturating total that the quorum tests use. -/
def totalPower (validators : ValidatorSet) : VotingPower :=
  (validators.toList.map Prod.snd).foldl saturatingAdd 0

def weight (validators : ValidatorSet) (id : ValidatorId) : Nat := (validators[id]?).elim 0 BitVec.toNat

def members (validators : ValidatorSet) : Finset ValidatorId := Map.keySet validators

def powerOf (validators : ValidatorSet) (ids : Finset ValidatorId) : Nat :=
  ∑ id ∈ ids, validators.weight id

def power (validators : ValidatorSet) : Nat := validators.powerOf validators.members

theorem power_eq (validators : ValidatorSet) :
    validators.power = (validators.toList.map fun e => e.2.toNat).sum :=
  (Map.total_eq_sum (fun _ (p : VotingPower) => p.toNat) validators).symm

variable {validators : ValidatorSet}

theorem mem_members {id : ValidatorId} :
    id ∈ validators.members ↔ ∃ p, validators[id]? = some p := Map.mem_keySet validators id

theorem toNat_totalPower (validators : ValidatorSet) :
    validators.totalPower.toNat = min validators.power (2^64 - 1) := by
  rw [totalPower,toNat_foldl_saturatingAdd,power_eq,List.map_map]
  simp [Function.comp_def]

def sumPower (validators : ValidatorSet) (ids : List ValidatorId) : VotingPower :=
  (ids.map fun id => (validators[id]?).getD 0).foldl saturatingAdd 0

theorem weight_eq (validators : ValidatorSet) (id : ValidatorId) :
    validators.weight id = ((validators[id]?).getD 0).toNat := by
  cases known : validators[id]? <;> simp [weight,known]

theorem toNat_sumPower (validators : ValidatorSet) (ids : List ValidatorId) :
    (validators.sumPower ids).toNat = min (ids.map validators.weight).sum (2^64 - 1) := by
  have weights : (ids.map fun id => (validators[id]?).getD 0).map BitVec.toNat =
      ids.map validators.weight := by
    rw [List.map_map]
    exact List.map_congr_left fun id _ => (weight_eq validators id).symm
  rw [sumPower,toNat_foldl_saturatingAdd,weights]
  simp

theorem toNat_sumPower_nodup {ids : List ValidatorId} (distinct : ids.Nodup) :
    (validators.sumPower ids).toNat = min (validators.powerOf ids.toFinset) (2^64 - 1) := by
  rw [toNat_sumPower,powerOf,List.sum_toFinset _ distinct]

/-- A quorum by the test is one in exact arithmetic: a product that saturates only hides quorums. -/
theorem quorum_exact {voted : VotingPower} (quorum : exceedsTwoThirds voted validators.totalPower) :
    2 * validators.power < 3 * voted.toNat := by
  rw [exceedsTwoThirds,decide_eq_true_eq,BitVec.lt_def] at quorum
  simp only [toNat_saturatingMul,toNat_totalPower] at quorum
  have two : (2 : VotingPower).toNat = 2 := rfl
  have three : (3 : VotingPower).toNat = 3 := rfl
  rw [two,three] at quorum
  omega

end ValidatorSet

structure QuorumCertificate where
  height : Height
  round : Round
  block : VoteBlock
  signers : List ValidatorId
  aggSig : Vector UInt8 96
  power : VotingPower
  deriving DecidableEq, Repr

inductive QcError where
  | empty | notPrecommit | mixed | unknownSigner | sig | noQuorum
  deriving DecidableEq, Repr

namespace Qc

def hasQuorum (voted total : VotingPower) : Bool := exceedsTwoThirds voted total

/-- The first loop of aggregation: one vote per signer, the last one given. -/
def collect (first : Vote) : List Vote → Map ValidatorId Vote → Except QcError (Map ValidatorId Vote)
  | [], byId => .ok byId
  | v :: rest, byId =>
    if v.kind ≠ .precommit then .error .notPrecommit
    else if v.height ≠ first.height ∨ v.round ≠ first.round ∨ v.block ≠ first.block then
      .error .mixed
    else collect first rest (byId.insert v.signer v)

def Uniform (height : Height) (round : Round) (block : VoteBlock) (votes : List Vote) : Prop :=
  ∀ v ∈ votes, v.kind = .precommit ∧ v.height = height ∧ v.round = round ∧ v.block = block

def keepLast (byId : Map ValidatorId Vote) (v : Vote) : Map ValidatorId Vote := byId.insert v.signer v

def lastVotes (votes : List Vote) : Map ValidatorId Vote := votes.foldl keepLast ∅

variable {votes : List Vote} {validators : ValidatorSet} {qc : QuorumCertificate} {id : ValidatorId}
  {byId : Map ValidatorId Vote}

theorem collect_iff {first : Vote} {byId' : Map ValidatorId Vote} :
    collect first votes byId = .ok byId' ↔
      Uniform first.height first.round first.block votes ∧ byId' = votes.foldl keepLast byId := by
  induction votes generalizing byId with
  | nil =>
    simp only [collect,Except.ok.injEq,Uniform,List.foldl_nil]
    exact ⟨fun same => ⟨fun _ listed => absurd listed (List.not_mem_nil),same.symm⟩,
      fun same => same.2.symm⟩
  | cons v rest ih =>
    rw [collect,Uniform,List.forall_mem_cons,List.foldl_cons]
    split
    · rename_i kind
      simp [kind]
    split
    · rename_i mixed
      refine ⟨fun failed => (by cases failed),?_⟩
      rintro ⟨⟨⟨-,height,round,block⟩,-⟩,-⟩
      simp [height,round,block] at mixed
    · rename_i kind slot
      push Not at kind slot
      rw [ih]
      exact ⟨fun ⟨later,same⟩ => ⟨⟨⟨kind,slot⟩,later⟩,same⟩,fun ⟨⟨_,later⟩,same⟩ => ⟨later,same⟩⟩

theorem get?_keepLast {v : Vote} (kept : (votes.foldl keepLast byId)[id]? = some v) :
    byId[id]? = some v ∨ v ∈ votes ∧ v.signer = id := by
  induction votes generalizing byId with
  | nil => exact .inl kept
  | cons w rest ih =>
    rcases ih kept with before | ⟨listed,signer⟩
    · rw [keepLast,Map.get?_insert] at before
      split at before
      · rename_i same
        cases before
        exact .inr ⟨List.mem_cons_self ..,same.symm⟩
      · exact .inl before
    · exact .inr ⟨List.mem_cons_of_mem _ listed,signer⟩

theorem get?_lastVotes {v : Vote}
    (kept : (lastVotes votes)[id]? = some v) : v ∈ votes ∧ v.signer = id := by
  rcases get?_keepLast kept with empty | found
  · simp at empty
  · exact found

theorem keepLast_keeps (there : (byId[id]?).isSome ∨ ∃ v ∈ votes, v.signer = id) :
    ((votes.foldl keepLast byId)[id]?).isSome := by
  induction votes generalizing byId with
  | nil =>
    rcases there with held | ⟨v,listed,-⟩
    · exact held
    · cases listed
  | cons w rest ih =>
    refine ih ?_
    rw [keepLast,Map.get?_insert]
    by_cases same : id = w.signer
    · simp [same]
    · rw [if_neg same]
      rcases there with held | ⟨v,listed,signer⟩
      · exact .inl held
      · rcases List.mem_cons.mp listed with rfl | later
        · exact absurd signer.symm same
        · exact .inr ⟨v,later,signer⟩

def lastSigners (votes : List Vote) : List ValidatorId := (lastVotes votes).toList.map Prod.fst

theorem mem_lastSigners : id ∈ lastSigners votes ↔ ∃ v ∈ votes, v.signer = id := by
  constructor
  · intro listed
    obtain ⟨⟨_,v⟩,entry,rfl⟩ := List.mem_map.mp listed
    exact ⟨v,get?_lastVotes (Std.ExtTreeMap.mem_toList_iff_getElem?_eq_some.mp entry)⟩
  · intro voted
    obtain ⟨v,kept⟩ := Option.isSome_iff_exists.mp
      (@keepLast_keeps votes id ∅ (.inr voted))
    exact List.mem_map.mpr ⟨(id,v),Std.ExtTreeMap.mem_toList_iff_getElem?_eq_some.mpr kept,rfl⟩

theorem nodup_lastSigners (votes : List Vote) : (lastSigners votes).Nodup :=
  Map.nodup_keys (lastVotes votes)

variable [Bls]

structure Gathered where
  sigs : List Bls.Signature
  signers : List ValidatorId
  power : VotingPower

/-- The second loop of aggregation, in identifier order. -/
def gather (validators : ValidatorSet) : List (ValidatorId × Vote) → Gathered → Except QcError Gathered
  | [], acc => .ok acc
  | (id,v) :: rest, acc =>
    match validators[id]? with
    | none => .error .unknownSigner
    | some p => match Bls.signatureFromBytes v.signature with
      | none => .error .sig
      | some sig =>
        gather validators rest ⟨acc.sigs ++ [sig],acc.signers ++ [id],saturatingAdd acc.power p⟩

/-- Aggregate precommits for the same height, round and block. -/
def aggregate (votes : List Vote) (validators : ValidatorSet) : Except QcError QuorumCertificate :=
  match votes with
  | [] => .error .empty
  | first :: _ =>
    match collect first votes ∅ with
    | .error e => .error e
    | .ok byId => match gather validators byId.toList ⟨[],[],0⟩ with
      | .error e => .error e
      | .ok g => match Bls.aggregate g.sigs with
        | none => .error .sig
        | some agg => .ok {
            height := first.height
            round := first.round
            block := first.block
            signers := g.signers
            aggSig := Bls.signatureToBytes agg
            power := g.power }

def message (qc : QuorumCertificate) : Bytes := signedMessage qc.height qc.round .precommit qc.block

/-- Verify aggregate signature and quorum. The outer `none` is a panic. -/
def verify (qc : QuorumCertificate) (validators : ValidatorSet) : Option (Except QcError Unit) :=
  if hasQuorum qc.power validators.totalPower = false then some (.error .noQuorum)
  else match Bls.signatureFromBytes qc.aggSig with
    | none => some (.error .sig)
    | some agg => match qc.signers.mapM Bls.publicKeyFromBytes with
      | none => some (.error .sig)
      | some pks => match Bls.verifyFastAggregate agg pks (message qc) with
        | none => none
        | some true => some (.ok ())
        | some false => some (.error .sig)

/-- The signatures of a certificate are unforgeable with respect to a signing history:
an aggregate that verifies was made from a signature of every listed key that is honest. -/
def Genuine (honest : ValidatorId → Prop) (signed : ValidatorId → Bytes → Prop)
    (qc : QuorumCertificate) : Prop :=
  ∀ agg pks, Bls.signatureFromBytes qc.aggSig = some agg →
    qc.signers.mapM Bls.publicKeyFromBytes = some pks →
    Bls.verifyFastAggregate agg pks (message qc) = some true →
    ∀ id ∈ qc.signers, honest id → signed id (message qc)

theorem verify_ok (accepted : verify qc validators = some (.ok ())) :
    hasQuorum qc.power validators.totalPower = true ∧
    ∃ agg pks, Bls.signatureFromBytes qc.aggSig = some agg ∧
      qc.signers.mapM Bls.publicKeyFromBytes = some pks ∧
      Bls.verifyFastAggregate agg pks (message qc) = some true := by
  unfold verify at accepted
  split at accepted
  · cases accepted
  · rename_i quorum
    refine ⟨by simpa using quorum,?_⟩
    split at accepted
    · cases accepted
    · rename_i agg parsed
      split at accepted
      · cases accepted
      · rename_i pks keys
        split at accepted
        · cases accepted
        · rename_i checked
          exact ⟨agg,pks,parsed,keys,checked⟩
        · cases accepted

/-- Unforgeability ties an accepted certificate to its honest signers. -/
theorem Genuine.signed {honest : ValidatorId → Prop} {signed : ValidatorId → Bytes → Prop}
    (genuine : Genuine honest signed qc) (accepted : verify qc validators = some (.ok ())) :
    ∀ id ∈ qc.signers, honest id → signed id (message qc) := by
  obtain ⟨-,agg,pks,parsed,keys,checked⟩ := verify_ok accepted
  exact genuine agg pks parsed keys checked

theorem gather_iff {entries : List (ValidatorId × Vote)} {acc g : Gathered} :
    gather validators entries acc = .ok g ↔
      (∀ e ∈ entries, e.1 ∈ validators.members) ∧
      ∃ sigs, (entries.mapM fun e => Bls.signatureFromBytes e.2.signature) = some sigs ∧
        g = ⟨acc.sigs ++ sigs,acc.signers ++ entries.map Prod.fst,
          ((entries.map Prod.fst).map fun id => (validators[id]?).getD 0).foldl saturatingAdd
            acc.power⟩ := by
  induction entries generalizing acc with
  | nil =>
    obtain ⟨sigs,signers,power⟩ := acc
    simp [gather,eq_comm]
  | cons entry rest ih =>
    obtain ⟨id,v⟩ := entry
    rw [gather]
    cases known : validators[id]? with
    | none =>
      refine ⟨fun failed => (by cases failed),?_⟩
      rintro ⟨members,-⟩
      obtain ⟨p,held⟩ := ValidatorSet.mem_members.mp (members (id,v) (by simp))
      simp [known] at held
    | some p =>
      cases parsed : Bls.signatureFromBytes v.signature with
      | none => simp [parsed]
      | some sig =>
        have member : id ∈ validators.members := ValidatorSet.mem_members.mpr ⟨p,known⟩
        simp only [ih,List.forall_mem_cons,member,true_and,List.mapM_cons,parsed,known,
          List.map_cons,List.foldl_cons,Option.getD_some]
        refine and_congr_right fun _ => ?_
        cases rest.mapM fun e => Bls.signatureFromBytes e.2.signature <;> simp

/-- What aggregation accepts, and the certificate it makes. -/
theorem aggregate_iff {first : Vote} {rest : List Vote}
    :
    aggregate (first :: rest) validators = .ok qc ↔
      Uniform first.height first.round first.block (first :: rest) ∧
      (∀ v ∈ first :: rest, v.signer ∈ validators.members) ∧
      ∃ sigs agg, ((lastVotes (first :: rest)).toList.mapM fun e =>
          Bls.signatureFromBytes e.2.signature) = some sigs ∧
        Bls.aggregate sigs = some agg ∧
        qc = {
          height := first.height
          round := first.round
          block := first.block
          signers := lastSigners (first :: rest)
          aggSig := Bls.signatureToBytes agg
          power := validators.sumPower (lastSigners (first :: rest)) } := by
  have members : (∀ e ∈ (lastVotes (first :: rest)).toList, e.1 ∈ validators.members) ↔
      ∀ v ∈ first :: rest, v.signer ∈ validators.members := by
    constructor
    · intro all v voted
      obtain ⟨e,entry,signer⟩ := List.mem_map.mp (mem_lastSigners.mpr ⟨v,voted,rfl⟩)
      exact signer ▸ all e entry
    · intro all e entry
      obtain ⟨v,voted,signer⟩ := mem_lastSigners.mp (List.mem_map.mpr ⟨e,entry,rfl⟩)
      exact signer ▸ all v voted
  constructor
  · intro built
    unfold aggregate at built
    dsimp only at built
    split at built
    · cases built
    rename_i byId collected
    obtain ⟨own,rfl⟩ := collect_iff.mp collected
    split at built
    · cases built
    rename_i g gathered
    obtain ⟨known,sigs,parsed,rfl⟩ := gather_iff.mp gathered
    split at built
    · cases built
    rename_i agg added
    cases built
    exact ⟨own,members.mp known,sigs,agg,parsed,added,rfl⟩
  · rintro ⟨own,known,sigs,agg,parsed,added,rfl⟩
    have collected : collect first (first :: rest) ∅ = .ok (lastVotes (first :: rest)) :=
      collect_iff.mpr ⟨own,rfl⟩
    have gathered : gather validators (lastVotes (first :: rest)).toList ⟨[],[],0⟩ =
        .ok ⟨sigs,lastSigners (first :: rest),validators.sumPower (lastSigners (first :: rest))⟩ :=
      gather_iff.mpr ⟨members.mpr known,sigs,parsed,rfl⟩
    simp only [aggregate,collected,gathered,added]

/-- A certificate lists only signers of the votes it was made of. -/
theorem aggregate_signers
    (built : aggregate votes validators = .ok qc) : ∀ id ∈ qc.signers, ∃ v ∈ votes, v.signer = id := by
  cases votes with
  | nil => cases built
  | cons first rest =>
    obtain ⟨-,-,_,_,-,-,rfl⟩ := aggregate_iff.mp built
    exact fun id listed => mem_lastSigners.mp listed

structure Aggregated (votes : List Vote) (validators : ValidatorSet) (qc : QuorumCertificate) :
    Prop where
  votes : ∀ v ∈ votes, v.kind = .precommit ∧ v.height = qc.height ∧ v.round = qc.round ∧
    v.block = qc.block
  nodup : qc.signers.Nodup
  members : ∀ id ∈ qc.signers, id ∈ validators.members
  power : qc.power.toNat ≤ validators.powerOf qc.signers.toFinset

theorem aggregate_ok (built : aggregate votes validators = .ok qc) : Aggregated votes validators qc := by
  cases votes with
  | nil => cases built
  | cons first rest =>
    obtain ⟨own,known,_,_,-,-,rfl⟩ := aggregate_iff.mp built
    have distinct := nodup_lastSigners (first :: rest)
    refine ⟨own,distinct,fun id listed => ?_,?_⟩
    · obtain ⟨v,voted,rfl⟩ := mem_lastSigners.mp listed
      exact known v voted
    · rw [ValidatorSet.toNat_sumPower_nodup distinct]
      exact min_le_left _ _

/-- A certificate that aggregation built and verification accepts has a real quorum. -/
theorem Aggregated.quorum
    (built : Aggregated votes validators qc) (accepted : verify qc validators = some (.ok ())) :
    2 * validators.power < 3 * validators.powerOf qc.signers.toFinset := by
  have exact_ := ValidatorSet.quorum_exact (verify_ok accepted).1
  have := built.power
  omega

end Qc
end L1
