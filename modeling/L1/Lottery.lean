import L1.Finality
import L1.Steps
import L1.WeightedChoice

/-! The leader lottery in exact numbers: how many tickets elect a validator, and which
validator may propose in a round. -/
namespace L1

namespace ValidatorSet

def entries (validators : ValidatorSet) : List (ValidatorId × Nat) :=
  validators.toList.map fun e => (e.1,e.2.toNat)

theorem total_entries (validators : ValidatorSet) :
    WeightedChoice.total validators.entries = validators.power := by
  simp [WeightedChoice.total,entries,power_eq,Function.comp_def]

theorem weightOf_entries (validators : ValidatorSet) (id : ValidatorId) :
    WeightedChoice.weightOf id validators.entries = validators.weight id := by
  have total := Map.total_eq_sum (fun k (p : VotingPower) => if k = id then p.toNat else 0) validators
  have listed : WeightedChoice.weightOf id validators.entries =
      Map.total (fun k (p : VotingPower) => if k = id then p.toNat else 0) validators := by
    simp [WeightedChoice.weightOf,entries,Map.total,Function.comp_def]
  rw [listed,total,Finset.sum_eq_single id]
  · cases known : validators[id]? <;> simp [Map.part,weight,known]
  · intro other _ different
    cases known : validators[other]? <;> simp [Map.part,known,different]
  · intro absent
    cases known : validators[id]? with
    | none => simp [Map.part,known]
    | some p => exact absurd ((Map.mem_keySet validators id).mpr ⟨p,known⟩) absent

theorem weight_of_mem_entries {validators : ValidatorSet} {id : ValidatorId} {p : Nat}
    (listed : (id,p) ∈ validators.entries) : validators.weight id = p := by
  obtain ⟨e,inside,same⟩ := List.mem_map.mp listed
  cases same
  have known := Std.ExtTreeMap.mem_toList_iff_getElem?_eq_some.mp inside
  simp [weight,known]

/-- Powers of 64 bits in a map with a 64-bit length add up below 128 bits. -/
theorem power_lt {validators : ValidatorSet} (held : validators.size < 2^64) :
    validators.power < 2^128 := by
  have each : ∀ p ∈ validators.toList.map (fun e => e.2.toNat), p ≤ 2^64 - 1 := by
    intro p listed
    obtain ⟨e,-,rfl⟩ := List.mem_map.mp listed
    have := e.2.isLt
    omega
  have sum := List.sum_le_card_nsmul _ _ each
  rw [power_eq]
  simp only [List.length_map,Std.ExtTreeMap.length_toList,smul_eq_mul] at sum
  have : validators.size * (2^64 - 1) ≤ (2^64 - 1) * (2^64 - 1) :=
    Nat.mul_le_mul_right _ (by omega)
  omega

end ValidatorSet

/-- Below 128 bits the loop is a choice by cumulative power. -/
theorem pickLeader_eq {list : List (ValidatorId × VotingPower)} {acc number : Nat}
    (exact_ : acc + (list.map fun e => e.2.toNat).sum < 2^128) :
    pickLeader (acc + number) acc list =
      WeightedChoice.choose number (list.map fun e => (e.1,e.2.toNat)) := by
  induction list generalizing acc number with
  | nil => rfl
  | cons entry rest ih =>
    obtain ⟨id,power⟩ := entry
    simp only [List.map_cons,List.sum_cons] at exact_ ⊢
    have unsaturated : min (acc + power.toNat) (2^128 - 1) = acc + power.toNat := by omega
    rw [pickLeader,WeightedChoice.choose,unsaturated]
    by_cases below : number < power.toNat
    · rw [if_pos (by omega),if_pos below]
    · rw [if_neg (by omega),if_neg below]
      have := @ih (acc + power.toNat) (number - power.toNat) (by omega)
      rw [← this]
      congr 1
      omega

theorem pickLeader_entries {validators : ValidatorSet} (held : validators.size < 2^64)
    (number : Nat) :
    pickLeader number 0 validators.toList = WeightedChoice.choose number validators.entries := by
  have exact_ := ValidatorSet.power_lt held
  rw [ValidatorSet.power_eq] at exact_
  have := @pickLeader_eq validators.toList 0 number (by omega)
  rwa [Nat.zero_add] at this

def ticket (output : VrfOutput) : Nat := BigEndian.decode (output.toList.take 16)

section Proportional

variable [Vrf]

variable {vrfPk : Vector UInt8 32} {seed : VrfSeed} {sourceId : ValidatorId} {proof : VrfProof}
  {validators : ValidatorSet}

/-- With some power in the set, a verified output elects whom the loop finds. -/
theorem weightedLeader_eq {output : VrfOutput} {id : ValidatorId}
    (verified : leaderVerify vrfPk seed sourceId proof = .ok output)
    (positive : 0 < validators.power)
    (found : pickLeader (ticket output % validators.power) 0 validators.toList = some id) :
    weightedLeader vrfPk seed sourceId proof validators = .ok id := by
  rw [ValidatorSet.power_eq] at positive found
  unfold weightedLeader
  simp only [verified]
  rw [if_neg (by omega)]
  rw [ticket] at found
  simp only [found]

/-- Outputs that are unique per key and input leave one winner per source. -/
theorem weightedLeader_unique
    (unique : ∀ pk alpha proof proof' output output', Vrf.verify pk alpha proof = .ok output →
      Vrf.verify pk alpha proof' = .ok output' → output = output')
    {proof' : VrfProof} {winner winner' : ValidatorId}
    (elected : weightedLeader vrfPk seed sourceId proof validators = .ok winner)
    (elected' : weightedLeader vrfPk seed sourceId proof' validators = .ok winner') :
    winner = winner' := by
  cases verified : leaderVerify vrfPk seed sourceId proof with
  | error e => simp [weightedLeader,verified] at elected
  | ok output =>
    cases verified' : leaderVerify vrfPk seed sourceId proof' with
    | error e => simp [weightedLeader,verified'] at elected'
    | ok output' =>
      obtain rfl := unique _ _ _ _ _ _ verified verified'
      have same : weightedLeader vrfPk seed sourceId proof validators =
          weightedLeader vrfPk seed sourceId proof' validators := by
        simp only [weightedLeader,verified,verified']
      exact Except.ok.inj (elected.symm.trans (same.trans elected'))

/-- Every ticket elects a validator with power, and each validator is elected by as many of
the tickets below the total as it has power. -/
theorem lottery_proportional (validators : ValidatorSet) (held : validators.size < 2^64)
    (positive : 0 < validators.power) :
    (∀ number < validators.power, (pickLeader number 0 validators.toList).isSome) ∧
    (∀ vrfPk seed sourceId proof output, leaderVerify vrfPk seed sourceId proof = .ok output →
      ∃ id, pickLeader (ticket output % validators.power) 0 validators.toList = some id ∧
        weightedLeader vrfPk seed sourceId proof validators = .ok id ∧ 0 < validators.weight id) ∧
    ∀ id power, validators[id]? = some power →
      ((Finset.range validators.power).filter fun number =>
        pickLeader number 0 validators.toList = some id).card = power.toNat := by
  have found : ∀ number < validators.power, (pickLeader number 0 validators.toList).isSome := by
    intro number below
    rw [pickLeader_entries held]
    exact WeightedChoice.choose_isSome (by rwa [ValidatorSet.total_entries])
  refine ⟨found,?_,?_⟩
  · intro vrfPk seed sourceId proof output verified
    obtain ⟨id,chosen⟩ := Option.isSome_iff_exists.mp
      (found (ticket output % validators.power) (Nat.mod_lt _ positive))
    refine ⟨id,chosen,weightedLeader_eq verified positive chosen,?_⟩
    rw [pickLeader_entries held] at chosen
    obtain ⟨p,listed,heavy⟩ := WeightedChoice.choose_mem chosen
    rwa [ValidatorSet.weight_of_mem_entries listed]
  · intro id power known
    have count := WeightedChoice.card_choose id validators.entries
    rw [ValidatorSet.total_entries,ValidatorSet.weightOf_entries] at count
    simp only [pickLeader_entries held]
    rw [count]
    simp [ValidatorSet.weight,known]

end Proportional

namespace Steps

section Leader

variable [Bls] [Blake3] [Vrf]

/-- A source can elect a validator: its key is in the table, and a proof under it verifies
to a ticket of that validator. -/
def Elects (vrfPks : Map ValidatorId (Vector UInt8 32)) (seed : VrfSeed) (validators : ValidatorSet)
    (source winner : ValidatorId) : Prop :=
  ∃ pk proof, vrfPks[source]? = some pk ∧ weightedLeader pk seed source proof validators = .ok winner

omit [Bls] [Blake3] in
theorem verifyLeader_iff {proposal : Proposal} {pk : Vector UInt8 32} {seed : VrfSeed}
    {validators : ValidatorSet} : verifyLeader proposal pk seed validators = true ↔
      weightedLeader pk seed proposal.vrfSource proposal.vrfProof validators = .ok proposal.proposer := by
  unfold verifyLeader
  cases weightedLeader pk seed proposal.vrfSource proposal.vrfProof validators <;> simp

variable {sk : Bls.SecretKey} {ourId : ValidatorId} {proposal : Proposal}
  {vrfPks : Map ValidatorId (Vector UInt8 32)} {seed : VrfSeed} {validators : ValidatorSet}
  {height : Height} {round : Round} {lock : Option Lock} {unlockPolka : Option (Round × Hash)}
  {log : VoteReplayLog}

/-- In its slot a proposal passes for the leader's exactly if the source it names has a key
and the ticket under it elects the proposer. -/
theorem prevoteStep_notLeader_iff (here : proposal.height = height ∧ proposal.round = round) :
    prevoteStep sk ourId proposal vrfPks seed validators height round lock unlockPolka log ≠
        .error .notLeader ↔
      ∃ pk, vrfPks[proposal.vrfSource]? = some pk ∧
        weightedLeader pk seed proposal.vrfSource proposal.vrfProof validators =
          .ok proposal.proposer := by
  unfold prevoteStep
  rw [if_neg (by simp [here])]
  cases known : vrfPks[proposal.vrfSource]? with
  | none => simp
  | some pk =>
    simp only [Option.some.injEq,exists_eq_left',← verifyLeader_iff]
    cases verifyLeader proposal pk seed validators with
    | false => simp
    | true =>
      simp only [Bool.true_eq_false,if_false,iff_true]
      split
      · simp
      · split <;> simp

def electedProposal (height : Height) (round : Round) (source winner : ValidatorId)
    (proof : VrfProof) : Proposal := {
  height
  round
  header := ⟨⟨height,round,winner,0⟩,zeroHash,zeroHash,zeroHash,zeroHash,zeroHash⟩
  appHash := zeroHash
  proposer := winner
  vrfSource := source
  vrfProof := proof
  signature := Vector.replicate 96 0 }

/-- All proposals of a slot that pass for the leader's name one proposer exactly if all
sources with a key elect one validator; those that name one source always do. -/
theorem one_leader_iff
    (unique : ∀ pk alpha proof proof' output output', Vrf.verify pk alpha proof = .ok output →
      Vrf.verify pk alpha proof' = .ok output' → output = output')
    (sk : Bls.SecretKey) (ourId : ValidatorId) (vrfPks : Map ValidatorId (Vector UInt8 32))
    (seed : VrfSeed) (validators : ValidatorSet) (height : Height) (round : Round)
    (lock : Option Lock) (unlockPolka : Option (Round × Hash)) (log : VoteReplayLog) :
    ((∀ p q : Proposal, p.height = height ∧ p.round = round → q.height = height ∧ q.round = round →
        prevoteStep sk ourId p vrfPks seed validators height round lock unlockPolka log ≠
          .error .notLeader →
        prevoteStep sk ourId q vrfPks seed validators height round lock unlockPolka log ≠
          .error .notLeader →
        p.proposer = q.proposer) ↔
      ∀ source source' winner winner', Elects vrfPks seed validators source winner →
        Elects vrfPks seed validators source' winner' → winner = winner') ∧
    ∀ source winner winner', Elects vrfPks seed validators source winner →
      Elects vrfPks seed validators source winner' → winner = winner' := by
  refine ⟨⟨?_,?_⟩,?_⟩
  · rintro one source source' winner winner' ⟨pk,proof,known,elected⟩ ⟨pk',proof',known',elected'⟩
    exact one (electedProposal height round source winner proof)
      (electedProposal height round source' winner' proof') ⟨rfl,rfl⟩ ⟨rfl,rfl⟩
      ((prevoteStep_notLeader_iff ⟨rfl,rfl⟩).mpr ⟨pk,known,elected⟩)
      ((prevoteStep_notLeader_iff ⟨rfl,rfl⟩).mpr ⟨pk',known',elected'⟩)
  · intro one p q slot slot' passed passed'
    obtain ⟨pk,known,elected⟩ := (prevoteStep_notLeader_iff slot).mp passed
    obtain ⟨pk',known',elected'⟩ := (prevoteStep_notLeader_iff slot').mp passed'
    exact one _ _ _ _ ⟨pk,_,known,elected⟩ ⟨pk',_,known',elected'⟩
  · rintro source winner winner' ⟨pk,proof,known,elected⟩ ⟨pk',proof',known',elected'⟩
    obtain rfl : pk = pk' := Option.some_inj.mp (known.symm.trans known')
    have same := weightedLeader_unique unique elected elected'
    exact same

end Leader
end Steps

/-! Two validators of equal power, each the source of a ticket that elects itself. -/
namespace Duel

open LoneSigner Steps

@[reducible] def vrf : Vrf where
  prove sk _ := .ok (sk ++ Vector.replicate 32 (0 : UInt8),Vector.replicate 80 0)
  verify pk _ _ := .ok (pk ++ Vector.replicate 32 (0 : UInt8))

attribute [local instance] bls blake3 vrf

def validators : ValidatorSet := Std.ExtTreeMap.ofList [(validator 1,1),(validator 2,1)] compare

def vrfPk (tag : UInt8) : Vector UInt8 32 := (Vector.replicate 32 0).set 15 tag

def vrfPks : Map ValidatorId (Vector UInt8 32) := Std.ExtTreeMap.ofList
  [(validator 1,vrfPk 0),(validator 2,vrfPk 1)] compare

def seed : VrfSeed := Vector.replicate 32 0

def proof : VrfProof := Vector.replicate 80 0

theorem unique_output : ∀ (pk : Vector UInt8 32) (alpha : Bytes) (proof proof' : VrfProof)
    (output output' : VrfOutput), Vrf.verify pk alpha proof = .ok output →
    Vrf.verify pk alpha proof' = .ok output' → output = output' := by
  intro pk alpha proof proof' output output' verified verified'
  exact Except.ok.inj (verified.symm.trans verified')

/-- Of the two tickets each validator has one. -/
theorem duel_proportional :
    ((Finset.range validators.power).filter fun number =>
      pickLeader number 0 validators.toList = some (validator 2)).card = 1 :=
  (lottery_proportional validators (by decide +kernel) (by decide +kernel)).2.2 _ 1
    (by decide +kernel)

/-- With one key in the table there is one leader. -/
theorem single_source_leader :
    Elects (vrfPks.erase (validator 2)) seed validators (validator 1) (validator 1) ∧
    ∀ p q : Proposal, p.height = 0 ∧ p.round = 0 → q.height = 0 ∧ q.round = 0 →
      prevoteStep () (validator 1) p (vrfPks.erase (validator 2)) seed validators 0 0 none none ∅ ≠
        .error .notLeader →
      prevoteStep () (validator 1) q (vrfPks.erase (validator 2)) seed validators 0 0 none none ∅ ≠
        .error .notLeader →
      p.proposer = q.proposer := by
  have one := one_leader_iff unique_output () (validator 1) (vrfPks.erase (validator 2)) seed
    validators 0 0 none none ∅
  refine ⟨⟨vrfPk 0,proof,by decide +kernel,by decide +kernel⟩,one.1.mpr ?_⟩
  rintro source source' winner winner' elected elected'
  have sole : ∀ {source winner}, Elects (vrfPks.erase (validator 2)) seed validators source winner →
      source = validator 1 := by
    rintro source winner ⟨pk,proof,known,-⟩
    rw [Map.get?_erase] at known
    split at known
    · cases known
    · rename_i other
      have listed := Std.ExtTreeMap.mem_toList_iff_getElem?_eq_some.mpr known
      have entries : vrfPks.toList = [(validator 1,vrfPk 0),(validator 2,vrfPk 1)] := by
        decide +kernel
      rw [entries] at listed
      simp only [List.mem_cons,Prod.mk.injEq,List.not_mem_nil,or_false] at listed
      rcases listed with ⟨first,-⟩ | ⟨second,-⟩
      · exact first
      · exact absurd second other
  obtain rfl := sole elected
  obtain rfl := sole elected'
  exact one.2 _ _ _ elected elected'

/-- In one slot both validators pass for the leader, each by its own ticket. -/
theorem two_leaders_pass :
    (∀ (pk : Vector UInt8 32) (alpha : Bytes) (proof proof' : VrfProof) (output output' : VrfOutput),
      Vrf.verify pk alpha proof = .ok output → Vrf.verify pk alpha proof' = .ok output' →
      output = output') ∧
    prevoteStep () (validator 1) (electedProposal 0 0 (validator 1) (validator 1) proof) vrfPks seed
      validators 0 0 none none ∅ ≠ .error .notLeader ∧
    prevoteStep () (validator 1) (electedProposal 0 0 (validator 2) (validator 2) proof) vrfPks seed
      validators 0 0 none none ∅ ≠ .error .notLeader ∧
    (electedProposal 0 0 (validator 1) (validator 1) proof).proposer ≠
      (electedProposal 0 0 (validator 2) (validator 2) proof).proposer := by
  refine ⟨unique_output,?_,?_,by decide +kernel⟩
  · exact (prevoteStep_notLeader_iff ⟨rfl,rfl⟩).mpr ⟨vrfPk 0,by decide +kernel,by decide +kernel⟩
  · exact (prevoteStep_notLeader_iff ⟨rfl,rfl⟩).mpr ⟨vrfPk 1,by decide +kernel,by decide +kernel⟩

end Duel
end L1
