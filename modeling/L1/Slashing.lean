import L1.Conservation

/-! What slashing rests on, and how much it takes for one offence. -/
namespace L1.Slash

open Holdings (Chain Step start next run)

structure Slot where
  signer : ValidatorId
  height : Height
  round : Round
  kind : VoteKind
  deriving DecidableEq

def slotOf (ev : Evidence) : Slot := ⟨ev.a.signer,ev.a.height,ev.a.round,ev.a.kind⟩

/-- A key holder that signed two blocks in one slot, in a history of signatures. -/
def DoubleSigned (signed : ValidatorId → Bytes → Prop) (id : ValidatorId) : Prop :=
  ∃ height round kind block block', block ≠ block' ∧
    signed id (signedMessage height round kind block) ∧
    signed id (signedMessage height round kind block')

/-- Whatever verifies under a key was signed by its holder. -/
def Unforged [Bls] (signed : ValidatorId → Bytes → Prop) (vote : Vote) : Prop :=
  verifySignature vote = .ok () → signed vote.signer vote.message

section Evidence

variable [Bls] [Blake3]

/-- Accepted evidence: two verified votes of one slot with different bodies. -/
structure Proven (ev : Evidence) : Prop where
  first : verifySignature ev.a = .ok ()
  second : verifySignature ev.b = .ok ()
  signer : ev.a.signer = ev.b.signer
  height : ev.a.height = ev.b.height
  round : ev.a.round = ev.b.round
  kind : ev.a.kind = ev.b.kind
  body : ev.a.body ≠ ev.b.body

variable {ev : Evidence}

theorem equivocation_ok {a b : Vote} (accepted : equivocation a b = .ok ev) : Proven ⟨a,b⟩ := by
  unfold equivocation at accepted
  cases first : verifySignature a with
  | error e => simp [first,bind,Except.bind] at accepted
  | ok _ =>
    cases second : verifySignature b with
    | error e => simp [first,second,bind,Except.bind] at accepted
    | ok _ =>
      simp only [first,second,bind,Except.bind,pure,Except.pure,throw,throwThe,
        MonadExceptOf.throw] at accepted
      split at accepted
      · cases accepted
      rename_i slot
      split at accepted
      · cases accepted
      split at accepted
      · cases accepted
      rename_i body
      push Not at slot
      exact ⟨first,second,slot.1,slot.2.1,slot.2.2.1,slot.2.2.2,body⟩

theorem submitEvidence_ok {ev' : Evidence} (accepted : submitEvidence ev = .ok ev') :
    Proven ev := by
  unfold submitEvidence at accepted
  cases paired : equivocation ev.a ev.b with
  | ok built => exact equivocation_ok paired
  | error e =>
    cases first : verifySignature ev.a <;> cases second : verifySignature ev.b <;>
      simp [first,second,paired,bind,Except.bind] at accepted

/-- Different bodies of one slot are for different blocks. -/
theorem Proven.block (proven : Proven ev) : ev.a.block ≠ ev.b.block := by
  intro same
  apply proven.body
  rw [Vote.body,Vote.body,proven.signer,proven.height,proven.round,proven.kind,same]

theorem Proven.doubleSigned {signed : ValidatorId → Bytes → Prop}
    (proven : Proven ev) (a : Unforged signed ev.a) (b : Unforged signed ev.b) :
    DoubleSigned signed ev.a.signer := by
  refine ⟨ev.a.height,ev.a.round,ev.a.kind,ev.a.block,ev.b.block,proven.block,a proven.first,?_⟩
  have other := b proven.second
  rw [← proven.signer,Vote.message,← proven.height,← proven.round,← proven.kind] at other
  exact other

def oneSlash (registry : ParamsRegistry) (bond : Amount) : Amount :=
  bond - (checkedSub bond
    (saturatingMul bond ((slashPercent registry).setWidth 128) / 100)).getD 0

def bondOf (staking : StakingState) (id : ValidatorId) : Amount := (staking.selfBond[id]?).getD 0

omit [Bls] [Blake3] in
theorem next_le (registry : ParamsRegistry) (bond : Amount) :
    (checkedSub bond (saturatingMul bond ((slashPercent registry).setWidth 128) / 100)).getD 0 ≤
      bond := by
  cases left : checkedSub bond
      (saturatingMul bond ((slashPercent registry).setWidth 128) / 100) with
  | none => simp [BitVec.le_def]
  | some rest =>
    rw [checkedSub_eq_some] at left
    simp only [Option.getD_some,BitVec.le_def]
    omega

/-- All that a call does: nothing on an error or on evidence seen before, and otherwise one
slash of the signer of the first vote. -/
theorem apply_effect {staking staking' : StakingState} {slash slash' : SlashState}
    {registry : ParamsRegistry} {cut : Amount}
    (applied : apply staking slash registry ev = .ok (staking',slash',cut)) : Proven ev ∧
    (∀ id, id ≠ ev.a.signer → staking'.selfBond[id]? = staking.selfBond[id]?) ∧
    (evidenceHash ev ∈ slash → staking' = staking ∧ slash' = slash) ∧
    (evidenceHash ev ∉ slash → slash' = slash.insert (evidenceHash ev) ∧
      (bondOf staking' ev.a.signer).toNat + (oneSlash registry (bondOf staking ev.a.signer)).toNat =
        (bondOf staking ev.a.signer).toNat) := by
  unfold apply at applied
  split at applied
  · cases applied
  rename_i accepted
  refine ⟨submitEvidence_ok accepted,?_⟩
  dsimp only at applied
  split at applied
  · rename_i seen
    cases applied
    exact ⟨fun _ _ => rfl,fun _ => ⟨rfl,rfl⟩,fun fresh => absurd seen fresh⟩
  · rename_i fresh
    cases applied
    refine ⟨fun id apart => by simp only [Map.get?_insert,if_neg apart],
      fun seen => absurd seen fresh,fun _ => ⟨rfl,?_⟩⟩
    have below := next_le registry (bondOf staking ev.a.signer)
    simp only [bondOf,Map.get?_insert,if_true,Option.getD_some] at below ⊢
    rw [oneSlash,BitVec.toNat_sub_of_le below]
    have := BitVec.le_def.mp below
    omega

end Evidence

section Runs

variable [Wasm] [Blake3] [Ed25519] [Bls]

def trace (c : Chain) : List Step → List (Chain × Step)
  | [] => []
  | step :: rest => (c,step) :: match next c step with
    | none => []
    | some c' => trace c' rest

variable {c : Chain} {steps : List Step} {ev : Evidence} {x : Chain × Evidence}

theorem mem_of_trace {d : Chain} {step : Step}
    (member : (d,step) ∈ trace c steps) : step ∈ steps := by
  induction steps generalizing c with
  | nil => simp [trace] at member
  | cons first rest ih =>
    rcases List.mem_cons.mp member with here | later
    · cases here
      exact List.mem_cons_self ..
    · split at later
      · simp at later
      · exact List.mem_cons_of_mem _ (ih later)

theorem next_slash {c' : Chain} (stepped : next c (.slash ev) = some c') :
    c' = c ∨ ∃ cut, apply c.world.staking c.slash c.world.params ev =
      .ok (c'.world.staking,c'.slash,cut) := by
  rw [next] at stepped
  split at stepped
  · cases stepped
    exact .inl rfl
  · rename_i applied
    cases stepped
    exact .inr ⟨_,applied⟩

/-- In every run, a slash changes the self-bond of nobody but a key holder that signed two
blocks in one slot; who signs at most one block in a slot keeps the bond. -/
theorem only_double_signers_slashed (signed : ValidatorId → Bytes → Prop) (g : Genesis)
    (steps : List Step)
    (unforged : ∀ ev, .slash ev ∈ steps → Unforged signed ev.a ∧ Unforged signed ev.b)
    (c c' : Chain) (ev : Evidence) (taken : (c,.slash ev) ∈ trace (start g) steps)
    (stepped : next c (.slash ev) = some c') (id : ValidatorId) :
    (c'.world.staking.selfBond[id]? ≠ c.world.staking.selfBond[id]? → DoubleSigned signed id) ∧
    ((∀ height round kind block block', signed id (signedMessage height round kind block) →
      signed id (signedMessage height round kind block') → block = block') →
      c'.world.staking.selfBond[id]? = c.world.staking.selfBond[id]?) := by
  have changed (differs : c'.world.staking.selfBond[id]? ≠ c.world.staking.selfBond[id]?) :
      DoubleSigned signed id := by
    rcases next_slash stepped with rfl | ⟨cut,applied⟩
    · exact absurd rfl differs
    obtain ⟨proven,others,-⟩ := apply_effect applied
    have offender : id = ev.a.signer := by
      by_contra apart
      exact differs (others id apart)
    obtain ⟨a,b⟩ := unforged ev (mem_of_trace taken)
    exact offender ▸ proven.doubleSigned a b
  refine ⟨changed,fun single => ?_⟩
  by_contra differs
  obtain ⟨height,round,kind,block,block',apart,first,second⟩ := changed differs
  exact apart (single height round kind block block' first second)

/-- The accepted evidence of a slot in a run, each with the state it is applied to. -/
def offences (slot : Slot) (c : Chain) (steps : List Step) : List (Chain × Evidence) :=
  (trace c steps).filterMap fun taken => match taken.2 with
    | .slash ev => if slotOf ev = slot ∧ (submitEvidence ev).isOk then some (taken.1,ev) else none
    | _ => none

def removal (x : Chain × Evidence) : Nat :=
  match next x.1 (.slash x.2) with
  | none => 0
  | some c' => (bondOf x.1.world.staking x.2.a.signer).toNat -
      (bondOf c'.world.staking x.2.a.signer).toNat

def allowance (x : Chain × Evidence) : Nat :=
  (oneSlash x.1.world.params (bondOf x.1.world.staking x.2.a.signer)).toNat

/-- The same bytes were applied before, or a slash of what is left takes nothing. -/
def Spent (x : Chain × Evidence) : Prop := evidenceHash x.2 ∈ x.1.slash ∨ allowance x = 0

theorem accepted_of_mem {slot : Slot}
    (member : x ∈ offences slot c steps) : ∃ ev, submitEvidence x.2 = .ok ev := by
  obtain ⟨⟨d,step⟩,-,chosen⟩ := List.mem_filterMap.mp member
  dsimp only at chosen
  split at chosen
  · rename_i given
    split at chosen
    · rename_i accepted
      cases chosen
      cases submitted : submitEvidence given with
      | ok ev => exact ⟨ev,rfl⟩
      | error e => simp [submitted,Except.isOk,Except.toBool] at accepted
    · cases chosen
  · cases chosen

theorem removal_eq (accepted : submitEvidence x.2 = .ok ev) :
    removal x = if evidenceHash x.2 ∈ x.1.slash then 0 else allowance x := by
  obtain ⟨result,applied⟩ :
      ∃ result, apply x.1.world.staking x.1.slash x.1.world.params x.2 = .ok result := by
    simp only [apply,accepted]
    split <;> exact ⟨_,rfl⟩
  obtain ⟨staking,slash,cut⟩ := result
  obtain ⟨-,-,seen,fresh⟩ := apply_effect applied
  simp only [removal,next,applied,Holdings.withStaking]
  split
  · rename_i known
    rw [(seen known).1,Nat.sub_self]
  · rename_i unknown
    have taken := (fresh unknown).2
    rw [allowance]
    omega

/-- All evidence of one slot together takes at most one slash of the bond that the first met,
if every later one is spent; and, where the first is applied, only if every later one is. -/
theorem slashed_once_iff (g : Genesis) (steps : List Step) (slot : Slot) (first : Chain × Evidence)
    (later : List (Chain × Evidence)) (found : offences slot (start g) steps = first :: later) :
    ((∀ x ∈ later, Spent x) → ((first :: later).map removal).sum ≤ allowance first) ∧
    (evidenceHash first.2 ∉ first.1.slash →
      (((first :: later).map removal).sum ≤ allowance first ↔ ∀ x ∈ later, Spent x)) := by
  have each (x) (member : x ∈ first :: later) :
      removal x = if evidenceHash x.2 ∈ x.1.slash then 0 else allowance x := by
    obtain ⟨ev,accepted⟩ := accepted_of_mem (found ▸ member)
    exact removal_eq accepted
  have nothing (x) (member : x ∈ later) : removal x = 0 ↔ Spent x := by
    rw [each x (List.mem_cons_of_mem _ member),Spent]
    by_cases seen : evidenceHash x.2 ∈ x.1.slash <;> simp [seen]
  have rest : (later.map removal).sum = 0 ↔ ∀ x ∈ later, Spent x := by
    rw [List.sum_eq_zero_iff]
    simp only [List.mem_map,forall_exists_index,and_imp,forall_apply_eq_imp_iff₂]
    exact forall₂_congr nothing
  have top := each first (List.mem_cons_self ..)
  rw [List.map_cons,List.sum_cons]
  constructor
  · intro spent
    rw [rest.mpr spent,top]
    split <;> omega
  · intro fresh
    rw [top,if_neg fresh,← rest]
    omega

end Runs

section Amount

/-- A slash that takes the exact share of a bond, rounded down, and leaves the rest of the ledger. -/
structure TakesShare (staking staking' : StakingState) (id : ValidatorId) (percent : Nat)
    (cut : Amount) : Prop where
  cut : cut.toNat = (bondOf staking id).toNat * percent / 100
  left : (bondOf staking' id).toNat =
    (bondOf staking id).toNat - (bondOf staking id).toNat * percent / 100
  others : ∀ other, other ≠ id → staking'.selfBond[other]? = staking.selfBond[other]?
  rest : staking' = { staking with selfBond := staking'.selfBond }

theorem toNat_share (bond : Amount) (percent : U64) :
    (saturatingMul bond (percent.setWidth 128) / 100).toNat =
      min (bond.toNat * percent.toNat) (2^128 - 1) / 100 := by
  have wide : (percent.setWidth 128).toNat = percent.toNat :=
    BitVec.toNat_setWidth_of_le (by decide)
  rw [BitVec.toNat_udiv,toNat_saturatingMul,wide]
  rfl

/-- The product is capped before the division. That is not seen in the share as long as the product
does not exceed the cap by more than the division drops. -/
theorem capped_share_iff (product : Nat) :
    min product (2^128 - 1) / 100 = product / 100 ↔ product < 2^128 + 44 := by
  omega

variable [Bls] [Blake3]

/-- Fresh evidence takes the exact share of the bond exactly if the product of bond and percentage
does not outgrow 128 bits. -/
theorem slash_share_iff (staking : StakingState) (slash : SlashState) (registry : ParamsRegistry)
    (ev accepted : Evidence) (valid : submitEvidence ev = .ok accepted)
    (fresh : evidenceHash ev ∉ slash) (percent : (slashPercent registry).toNat ≤ 100) :
    ∃ staking' slash' cut, apply staking slash registry ev = .ok (staking',slash',cut) ∧
      (TakesShare staking staking' ev.a.signer (slashPercent registry).toNat cut ↔
        (bondOf staking ev.a.signer).toNat * (slashPercent registry).toNat < 2^128 + 44) := by
  have share := toNat_share (bondOf staking ev.a.signer) (slashPercent registry)
  have exact_ := capped_share_iff
    ((bondOf staking ev.a.signer).toNat * (slashPercent registry).toNat)
  simp only [apply,valid,if_neg fresh,Except.ok.injEq,Prod.mk.injEq,existsAndEq,
    true_and]
  constructor
  · intro taken
    rw [← exact_,← share]
    exact taken.cut
  · intro small
    have whole := exact_.mpr small
    rw [← share] at whole
    have below : (bondOf staking ev.a.signer).toNat * (slashPercent registry).toNat / 100 ≤
        (bondOf staking ev.a.signer).toNat :=
      Nat.div_le_of_le_mul (by rw [Nat.mul_comm]; exact Nat.mul_le_mul_right _ percent)
    refine ⟨whole,?_,fun other apart => ?_,rfl⟩
    · simp only [bondOf,Map.get?_insert,if_true,Option.getD_some] at whole below ⊢
      rw [checkedSub,if_pos (by rw [whole]; exact below),Option.getD_some,BitVec.toNat_sub_of_le
        (by rw [BitVec.le_def,whole]; exact below),whole]
    · rw [Map.get?_insert,if_neg apart]

end Amount

/-! A closed instance: every signature verifies, and the hash depends on the order of bytes. -/
namespace Sample

@[reducible] def blake3 : Blake3 :=
  ⟨fun bytes => Vector.replicate 32 (bytes.foldl (fun acc b => acc * 31 + b) 7)⟩

attribute [local instance] blake3 Holdings.Sample.ed25519 Holdings.Sample.wasm LoneSigner.bls

def key : Vector UInt8 32 := Vector.replicate 32 1

def genesis : Genesis where
  chainId := 1
  alloc := Std.ExtTreeMap.ofList [(fromEd25519 key,⟨100,0,zeroHash⟩)] compare

def bonding : SignedTx :=
  ⟨⟨1,0,Spec.gasTransfer,0,Tx.stakeWith .bond StakeKind.bond_ne (LoneSigner.validator 1) 100⟩,
    Vector.replicate 64 0,key⟩

def vote (block : VoteBlock) : Vote := signVote () (LoneSigner.validator 1) 1 0 .prevote block

def evidence : Evidence := ⟨vote .nil,vote (.block zeroHash)⟩

def swapped : Evidence := ⟨evidence.b,evidence.a⟩

def slot : Slot := slotOf evidence

def bonded : Chain := (next (start genesis) (.apply bonding)).get (by decide +kernel)

def slashed : Chain := (next bonded (.slash evidence)).get (by decide +kernel)

theorem bonds : next (start genesis) (.apply bonding) = some bonded := (Option.some_get _).symm

theorem slashes : next bonded (.slash evidence) = some slashed := (Option.some_get _).symm

theorem accepted : slotOf evidence = slot ∧ (submitEvidence evidence).isOk := ⟨rfl,by decide +kernel⟩

/-- The run that bonds, and slashes the bond for one pair of votes. -/
theorem evidence_slashes_double_signer :
    (bonded,.slash evidence) ∈ trace (start genesis) [.apply bonding,.slash evidence] ∧
    slashed.world.staking.selfBond[LoneSigner.validator 1]? ≠
      bonded.world.staking.selfBond[LoneSigner.validator 1]? ∧
    DoubleSigned (fun _ _ => True) (LoneSigner.validator 1) := by
  have taken : (bonded,.slash evidence) ∈ trace (start genesis) [.apply bonding,.slash evidence] := by
    simp [trace,bonds]
  have changed : slashed.world.staking.selfBond[LoneSigner.validator 1]? ≠
      bonded.world.staking.selfBond[LoneSigner.validator 1]? := by decide +kernel
  exact ⟨taken,changed,(only_double_signers_slashed (fun _ _ => True) genesis _
    (fun _ _ => ⟨fun _ => trivial,fun _ => trivial⟩) bonded slashed evidence taken slashes _).1
    changed⟩

/-- One pair of votes takes one slash. -/
theorem one_pair_one_slash :
    offences slot (start genesis) [.apply bonding,.slash evidence] = [(bonded,evidence)] ∧
      ([(bonded,evidence)].map removal).sum ≤ allowance (bonded,evidence) := by
  have found : offences slot (start genesis) [.apply bonding,.slash evidence] =
      [(bonded,evidence)] := by
    simp only [offences,trace,bonds,slashes,List.filterMap_cons,if_pos accepted,List.filterMap_nil]
  exact ⟨found,(slashed_once_iff genesis _ slot _ _ found).1 (by simp)⟩

/-- The same two votes in the other order are slashed again: nine are taken, and one slash of
the bond is five. -/
theorem swapped_pair_slashed_again :
    ∃ first later,
      offences slot (start genesis) [.apply bonding,.slash evidence,.slash swapped] =
        first :: later ∧
      swapped = ⟨evidence.b,evidence.a⟩ ∧ allowance first = 5 ∧
      ((first :: later).map removal).sum = 9 := by
  have accepted' : slotOf swapped = slot ∧ (submitEvidence swapped).isOk := ⟨rfl,by decide +kernel⟩
  refine ⟨(bonded,evidence),[(slashed,swapped)],?_,rfl,by decide +kernel,by decide +kernel⟩
  have listed : trace (start genesis) [.apply bonding,.slash evidence,.slash swapped] =
      (start genesis,.apply bonding) :: (bonded,.slash evidence) :: (slashed,.slash swapped) ::
        match next slashed (.slash swapped) with
        | none => []
        | some c' => trace c' [] := by
    simp only [trace,bonds,slashes]
  rw [offences,listed]
  cases next slashed (.slash swapped) <;>
    simp only [List.filterMap_cons,if_pos accepted,if_pos accepted',List.filterMap_nil,trace]

def ledger (bond : Amount) : StakingState where
  selfBond := Std.ExtTreeMap.ofList [(LoneSigner.validator 1,bond)] compare

theorem accepted_evidence : submitEvidence evidence = .ok evidence := by decide +kernel

/-- Five percent of a hundred. -/
theorem small_bond_share :
    (bondOf (ledger 100) evidence.a.signer).toNat * (slashPercent .new).toNat < 2^128 + 44 ∧
    ∃ staking slash cut, apply (ledger 100) ∅ .new evidence = .ok (staking,slash,cut) ∧
      TakesShare (ledger 100) staking evidence.a.signer (slashPercent .new).toNat cut := by
  have small : (bondOf (ledger 100) evidence.a.signer).toNat * (slashPercent .new).toNat < 2^128 + 44 := by
    decide +kernel
  obtain ⟨staking,slash,cut,applied,share⟩ := slash_share_iff (ledger 100) ∅ .new evidence evidence
    accepted_evidence (by decide +kernel) (by decide +kernel)
  exact ⟨small,staking,slash,cut,applied,share.mpr small⟩

/-- Of the largest bond a hundredth is taken instead of five. -/
theorem largest_bond_share :
    (slashPercent .new).toNat = 5 ∧
    ∃ staking slash cut, apply (ledger (BitVec.allOnes 128)) ∅ .new evidence =
        .ok (staking,slash,cut) ∧
      cut.toNat = (2^128 - 1) / 100 ∧
      (bondOf staking evidence.a.signer).toNat = (2^128 - 1) - (2^128 - 1) / 100 ∧
      ¬ TakesShare (ledger (BitVec.allOnes 128)) staking evidence.a.signer 5 cut := by
  have ran : ∃ staking slash cut, apply (ledger (BitVec.allOnes 128)) ∅ .new evidence =
        .ok (staking,slash,cut) ∧ cut.toNat = (2^128 - 1) / 100 ∧
      (bondOf staking evidence.a.signer).toNat = (2^128 - 1) - (2^128 - 1) / 100 := by
    have fresh : evidenceHash evidence ∉ (∅ : SlashState) := by simp
    simp only [apply,accepted_evidence,if_neg fresh,Except.ok.injEq,Prod.mk.injEq,
      existsAndEq,true_and]
    decide +kernel
  obtain ⟨staking,slash,cut,applied,taken,left⟩ := ran
  refine ⟨by decide +kernel,staking,slash,cut,applied,taken,left,fun share => ?_⟩
  have wrong := share.cut
  have whole : (bondOf (ledger (BitVec.allOnes 128)) evidence.a.signer).toNat = 2^128 - 1 := by
    decide +kernel
  rw [taken,whole] at wrong
  exact absurd wrong (by decide)

end Sample
end L1.Slash
