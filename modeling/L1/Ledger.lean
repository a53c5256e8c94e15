import L1.Slashing

/-! The staking ledger over time: all that a payload can do to it, said once, and the runs of
payloads, slashes, tombstones and commits. -/
namespace L1.Staking

def Owned (book : StakingState) : Prop :=
  ∀ id, book.operator[id]? = none → selfBondOf book id = 0

namespace Effect

variable {book book' : StakingState} {registry : ParamsRegistry} {sender : Address} {tx : Tx}
  {result : Except RejectReason Unit}

theorem owned (effect : Effect book registry sender tx book' result) (holds : Owned book) :
    Owned book' := by
  cases effect with
  | rejected => exact holds
  | marked staked kind target unnamed sum =>
    intro a none
    rw [Map.get?_insert] at none
    split at none
    · cases none
    · exact holds a none
  | bonded staked kind target barred own named sum =>
    intro a none
    dsimp only at none
    rw [named] at none
    split at none
    · cases none
    · rename_i apart
      simp only [selfBondOf,Map.get?_insert,if_neg apart]
      exact holds a none
  | unbonded staked kind target named difference =>
    intro a none
    have apart : a ≠ _ := fun same => by
      dsimp only at none
      rw [same,named] at none
      cases none
    simp only [selfBondOf,Map.get?_insert,if_neg apart]
    exact holds a none
  | delegated => exact holds
  | undelegated => exact holds
  | withdrawn => exact holds

theorem operator (effect : Effect book registry sender tx book' result) {id : ValidatorId}
    {op : Address} (known : book.operator[id]? = some op) : book'.operator[id]? = some op := by
  cases effect with
  | marked staked kind target unnamed sum =>
    rw [Map.get?_insert]
    split
    · rename_i same
      rw [same,unnamed] at known
      cases known
    · exact known
  | bonded staked kind target barred own named sum =>
    dsimp only
    rw [named]
    split
    · rename_i same
      rw [own op (same ▸ known)]
    · exact known
  | rejected => exact known
  | unbonded => exact known
  | delegated => exact known
  | undelegated => exact known
  | withdrawn => exact known

/-- A first bond cannot overflow, so a payload that fails leaves no mark. -/
theorem failed {reason : RejectReason}
    (effect : Effect book registry sender tx book' (.error reason)) (holds : Owned book) :
    book' = book := by
  cases effect with
  | rejected => rfl
  | @marked s id staked kind target unnamed sum =>
    rw [holds id unnamed,checkedAdd_eq_none] at sum
    have bound := s.amount.isLt
    simp at sum
    omega

end Effect

structure Books where
  staking : StakingState := {}
  slash : SlashState := ∅

/-- What reaches the ledger other than by a transaction. -/
inductive Notice where
  | slash (evidence : Evidence)
  | tombstone (id : ValidatorId)
  | observe (finalized : Steps.Finalized)
  | epoch (finalized : Steps.Finalized)

inductive Action where
  | stake (sender : Address) (tx : Tx)
  | notice (notice : Notice)

namespace Books

variable [Bls] [Blake3]

/-- Rejected evidence changes nothing. -/
def heed (registry : ParamsRegistry) (b : Books) : Notice → Books
  | .slash evidence => match Slash.apply b.staking b.slash registry evidence with
    | .error _ => b
    | .ok (staking,slash,_) => ⟨staking,slash⟩
  | .tombstone id => { b with staking := Slash.tombstone b.staking id }
  | .observe finalized => { b with staking := observeCommit b.staking finalized }
  | .epoch finalized => { b with staking := (epochSetUpdate b.staking registry finalized).1 }

/-- `none` is a panic. -/
def act (registry : ParamsRegistry) (b : Books) : Action → Option Books
  | .stake sender tx => (applyStakeTx b.staking registry sender tx).map fun r =>
      { b with staking := r.1 }
  | .notice n => some (b.heed registry n)

def run (registry : ParamsRegistry) (b : Books) : List Action → Option Books
  | [] => some b
  | action :: rest => match b.act registry action with
    | none => none
    | some b => b.run registry rest

/-- A notice leaves all but the self-bonds alone, and those do not grow. -/
structure Heeded (book book' : StakingState) : Prop where
  operator : book'.operator = book.operator
  delegations : book'.delegations = book.delegations
  pendingUnbond : book'.pendingUnbond = book.pendingUnbond
  nextUnbond : book'.nextUnbond = book.nextUnbond
  tombstones : ∀ id, id ∈ book.tombstones → id ∈ book'.tombstones
  selfBond : ∀ id, selfBondOf book' id ≤ selfBondOf book id

theorem heeded_apply {staking staking' : StakingState} {slash slash' : SlashState}
    {registry : ParamsRegistry} {ev : Evidence} {cut : Amount}
    (applied : Slash.apply staking slash registry ev = .ok (staking',slash',cut)) :
    Heeded staking staking' ∧ staking'.currentSet = staking.currentSet := by
  unfold Slash.apply at applied
  split at applied
  · cases applied
  dsimp only at applied
  split at applied
  · cases applied
    exact ⟨⟨rfl,rfl,rfl,rfl,fun _ h => h,fun _ => Nat.le_refl _⟩,rfl⟩
  · cases applied
    refine ⟨⟨rfl,rfl,rfl,rfl,fun _ h => h,fun id => ?_⟩,rfl⟩
    simp only [selfBondOf,Map.get?_insert]
    split
    · rename_i same
      rw [same,Option.getD_some]
      exact Slash.next_le registry _
    · exact Nat.le_refl _

theorem heeded_heed (registry : ParamsRegistry) (b : Books) (n : Notice) :
    Heeded b.staking (b.heed registry n).staking := by
  have still (book : StakingState) : Heeded book book :=
    ⟨rfl,rfl,rfl,rfl,fun _ listed => listed,fun _ => Nat.le_refl _⟩
  cases n with
  | slash evidence =>
    unfold heed
    dsimp only
    split
    · exact still _
    · rename_i applied
      exact (heeded_apply applied).1
  | tombstone id => exact { still _ with tombstones := fun a listed => by simp [heed,Slash.tombstone,listed] }
  | observe finalized => exact ⟨rfl,rfl,rfl,rfl,fun _ listed => listed,fun _ => Nat.le_refl _⟩
  | epoch finalized =>
    unfold heed epochSetUpdate
    dsimp only
    split
    · exact ⟨rfl,rfl,rfl,rfl,fun _ listed => listed,fun _ => Nat.le_refl _⟩
    split
    all_goals exact ⟨rfl,rfl,rfl,rfl,fun _ listed => listed,fun _ => Nat.le_refl _⟩

/-- One induction for all invariants of the ledger: they are kept by every effect of a payload
and by every notice. -/
theorem keep {P : StakingState → Prop} {registry : ParamsRegistry} {b b' : Books}
    (payload : ∀ book sender tx book' result, Effect book registry sender tx book' result →
      P book → P book')
    (notice : ∀ (b : Books) n, P b.staking → P (b.heed registry n).staking)
    {actions : List Action} (reached : b.run registry actions = some b') (holds : P b.staking) :
    P b'.staking := by
  induction actions generalizing b with
  | nil =>
    cases reached
    exact holds
  | cons action rest ih =>
    rw [run] at reached
    split at reached
    · cases reached
    rename_i middle acted
    refine ih reached ?_
    cases action with
    | stake sender tx =>
      obtain ⟨⟨book',result⟩,applied,rfl⟩ := Option.map_eq_some_iff.mp acted
      exact payload _ _ _ _ _ (applyStakeTx_effect applied) holds
    | notice n =>
      cases acted
      exact notice b n holds

theorem owned_heed (registry : ParamsRegistry) (b : Books) (n : Notice) (holds : Owned b.staking) :
    Owned (b.heed registry n).staking := by
  have frame := heeded_heed registry b n
  intro id none
  rw [frame.operator] at none
  have least := frame.selfBond id
  rw [holds id none] at least
  simpa using least

omit [Bls] [Blake3] in
theorem owned_empty : Owned {} := fun id _ => by simp [selfBondOf]

end Books
end L1.Staking
