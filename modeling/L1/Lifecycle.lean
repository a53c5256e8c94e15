import L1.Ledger

/-! The life of a stake: what is unbonded is pending until its owner withdraws it, and bonds
have one operator for good. -/
namespace L1.Staking

open Holdings

def worth (count : Address → StakePayload → Nat) (sender : Address) (tx : Tx) :
    Except RejectReason Unit → Nat
  | .ok () => tx.asStake.elim 0 (count sender)
  | .error _ => 0

section Tally

variable [Bls] [Blake3] (count : Address → StakePayload → Nat) (registry : ParamsRegistry)

def counts (b : Books) : Action → Nat
  | .stake sender tx =>
    (applyStakeTx b.staking registry sender tx).elim 0 fun r => worth count sender tx r.2
  | .notice _ => 0

def tally (b : Books) : List Action → Nat
  | [] => 0
  | action :: rest => counts count registry b action + match b.act registry action with
    | none => 0
    | some b => tally b rest

end Tally

def amountOf (kind : StakeKind) (owner sender : Address) (s : StakePayload) : Nat :=
  if s.kind = kind ∧ sender = owner then s.amount.toNat else 0

def isUnbond (_ : Address) (s : StakePayload) : Nat := if s.kind = .unbond then 1 else 0

def pendingOf (book : StakingState) (owner : Address) : Nat :=
  pendingShare (only owner) book.pendingUnbond

def SlotsBelow (book : StakingState) : Prop :=
  ∀ (k : U64) (e : UnbondEntry), book.pendingUnbond[k]? = some e → k.toNat < book.nextUnbond.toNat

/-- What a step does to the pending entries, with what it counts for. -/
structure Balanced (owner : Address) (book book' : StakingState) (unbonds withdrawn unbonded : Nat) :
    Prop where
  below : SlotsBelow book'
  next : book'.nextUnbond.toNat = book.nextUnbond.toNat + unbonds
  pending : withdrawn + pendingOf book' owner = pendingOf book owner + unbonded

namespace Balanced

variable {owner : Address} {book book' : StakingState}

theorem same (below : SlotsBelow book) (pending : book'.pendingUnbond = book.pendingUnbond)
    (next : book'.nextUnbond = book.nextUnbond) : Balanced owner book book' 0 0 0 where
  below k e held := by
    rw [next]
    exact below k e (pending ▸ held)
  next := by rw [next,Nat.add_zero]
  pending := by rw [pendingOf,pending,Nat.zero_add,Nat.add_zero,pendingOf]

theorem trans {book'' : StakingState} {a b c a' b' c' : Nat} (first : Balanced owner book book' a b c)
    (second : Balanced owner book' book'' a' b' c') :
    Balanced owner book book'' (a + a') (b + b') (c + c') where
  below := second.below
  next := by
    have := first.next
    have := second.next
    omega
  pending := by
    have := first.pending
    have := second.pending
    omega

end Balanced

theorem Effect.balanced {book book' : StakingState} {registry : ParamsRegistry} {sender : Address}
    {tx : Tx} {result : Except RejectReason Unit}
    (effect : Effect book registry sender tx book' result) (owner : Address)
    (below : SlotsBelow book) (room : book.nextUnbond.toNat + worth isUnbond sender tx result < 2^64) :
    Balanced owner book book' (worth isUnbond sender tx result)
      (worth (amountOf .withdraw owner) sender tx result)
      (worth (amountOf .unbond owner) sender tx result) := by
  cases effect with
  | rejected => exact .same below rfl rfl
  | marked => exact .same below rfl rfl
  | bonded staked kind target barred own named sum =>
    simp only [worth,staked,Option.elim_some,isUnbond,amountOf,kind]
    exact .same below rfl rfl
  | delegated staked kind target barred sum =>
    simp only [worth,staked,Option.elim_some,isUnbond,amountOf,kind]
    exact .same below rfl rfl
  | undelegated staked kind target difference left =>
    simp only [worth,staked,Option.elim_some,isUnbond,amountOf,kind]
    exact .same below rfl rfl
  | @unbonded s id next staked kind target named difference =>
    simp only [worth,staked,Option.elim_some,isUnbond,amountOf,kind] at room ⊢
    simp only [if_true] at room
    have free : book.pendingUnbond[book.nextUnbond]? = none := by
      cases held : book.pendingUnbond[book.nextUnbond]? with
      | none => rfl
      | some e => exact absurd (below _ e held) (Nat.lt_irrefl _)
    have counter : (saturatingAdd book.nextUnbond 1).toNat = book.nextUnbond.toNat + 1 := by
      rw [toNat_saturatingAdd]
      simp
      omega
    refine ⟨fun k e held => ?_,counter,?_⟩
    · dsimp only at held ⊢
      rw [counter]
      rw [Map.get?_insert] at held
      split at held
      · rename_i same
        rw [same]
        exact Nat.lt_succ_self _
      · exact Nat.lt_succ_of_lt (below k e held)
    · have put := Map.total_insert (entryShare (only owner)) book.pendingUnbond book.nextUnbond
        (unbondEntry book registry sender id s.amount)
      have nothing : Map.part (entryShare (only owner)) book.pendingUnbond book.nextUnbond = 0 := by
        rw [Map.part,free,Option.elim_none]
      have entry : entryShare (only owner) book.nextUnbond
          (unbondEntry book registry sender id s.amount) =
          if sender = owner then s.amount.toNat else 0 := by
        simp [entryShare,unbondEntry,counted_only]
      simp only [pendingOf,pendingShare]
      simp
      omega
  | @withdrawn s pending take staked kind taken sum =>
    simp only [worth,staked,Option.elim_some,isUnbond,amountOf,kind]
    refine ⟨fun k e held => ?_,rfl,?_⟩
    · dsimp only at held ⊢
      cases before : book.pendingUnbond[k]? with
      | none =>
        rw [(taken.absent k before).2] at held
        cases held
      | some e' => exact below k e' before
    · have moved : pendingShare (only owner) pending + _ = _ := taken.share
      rw [sum] at moved
      simp only [pendingOf]
      simp [only] at moved ⊢
      omega

section Runs

variable [Bls] [Blake3] {registry : ParamsRegistry}

variable {b b' : Books} {actions : List Action}

theorem act_balanced {action : Action} (owner : Address) (below : SlotsBelow b.staking)
    (room : b.staking.nextUnbond.toNat + counts isUnbond registry b action < 2^64)
    (acted : b.act registry action = some b') :
    Balanced owner b.staking b'.staking (counts isUnbond registry b action)
      (counts (amountOf .withdraw owner) registry b action)
      (counts (amountOf .unbond owner) registry b action) := by
  cases action with
  | stake sender tx =>
    obtain ⟨⟨book',result⟩,applied,rfl⟩ := Option.map_eq_some_iff.mp acted
    simp only [counts,applied,Option.elim_some] at room ⊢
    exact (applyStakeTx_effect applied).balanced owner below room
  | notice n =>
    cases acted
    have frame := Books.heeded_heed registry b n
    exact .same below frame.pendingUnbond frame.nextUnbond

theorem run_balanced (owner : Address) (below : SlotsBelow b.staking)
    (room : b.staking.nextUnbond.toNat + tally isUnbond registry b actions < 2^64)
    (reached : b.run registry actions = some b') :
    Balanced owner b.staking b'.staking (tally isUnbond registry b actions)
      (tally (amountOf .withdraw owner) registry b actions)
      (tally (amountOf .unbond owner) registry b actions) := by
  induction actions generalizing b with
  | nil =>
    cases reached
    exact .same below rfl rfl
  | cons action rest ih =>
    rw [Books.run] at reached
    split at reached
    · cases reached
    rename_i middle acted
    simp only [tally,acted] at room ⊢
    have one := act_balanced owner below (by omega) acted
    have next := one.next
    exact one.trans (ih one.below (by omega) reached)

theorem run_operator (reached : b.run registry actions = some b')
    {id : ValidatorId} {op : Address} (known : b.staking.operator[id]? = some op) :
    b'.staking.operator[id]? = some op :=
  Books.keep (P := fun book => book.operator[id]? = some op)
    (fun _ _ _ _ _ effect named => effect.operator named)
    (fun b n named => by rw [(Books.heeded_heed registry b n).operator]; exact named) reached known

theorem run_owned (reached : b.run registry actions = some b')
    (owned : Owned b.staking) : Owned b'.staking :=
  Books.keep (fun _ _ _ _ _ effect holds => effect.owned holds)
    (fun b n holds => Books.owned_heed registry b n holds) reached owned

/-- In every state that payloads, slashes and commits lead to from the empty ledger: what an
owner has withdrawn and what is pending for them is what they have unbonded; a withdrawal takes
its amount from entries of its owner that have matured; and a self-bond has an operator, which
it keeps in all states to come. -/
theorem staking_lifecycle (registry : ParamsRegistry) (actions : List Action) (b : Books)
    (reached : Books.run registry {} actions = some b)
    (few : tally isUnbond registry {} actions < 2^64) :
    (∀ owner, tally (amountOf .withdraw owner) registry {} actions + pendingOf b.staking owner =
      tally (amountOf .unbond owner) registry {} actions) ∧
    (∀ owner tx s book', tx.asStake = some s → s.kind = .withdraw →
      applyStakeTx b.staking registry owner tx = some (book',.ok ()) →
      ∃ take, Taken owner b.staking.lastCommitHeight b.staking.pendingUnbond book'.pendingUnbond take ∧
        ∑ k ∈ Map.keySet b.staking.pendingUnbond, take k = s.amount.toNat) ∧
    (∀ id, selfBondOf b.staking id ≠ 0 → ∃ op, b.staking.operator[id]? = some op ∧
      ∀ more b', b.run registry more = some b' → b'.staking.operator[id]? = some op) := by
  refine ⟨fun owner => ?_,fun owner tx s book' staked kind applied => ?_,fun id positive => ?_⟩
  · have below : SlotsBelow ({} : Books).staking := fun k e held => by simp at held
    have balance := (run_balanced owner below (by simpa using few) reached).pending
    have nothing : pendingOf ({} : Books).staking owner = 0 := by simp [pendingOf,pendingShare]
    omega
  · have only_kind {k : StakeKind} (named : ∃ s', tx.asStake = some s' ∧ s'.kind = k) :
        k = .withdraw := by
      obtain ⟨s',same,rfl⟩ := named
      cases staked.symm.trans same
      exact kind
    cases applyStakeTx_effect applied with
    | withdrawn same _ taken sum =>
      cases staked.symm.trans same
      exact ⟨_,taken,sum⟩
    | bonded same other => cases only_kind ⟨_,same,other⟩
    | unbonded same other => cases only_kind ⟨_,same,other⟩
    | delegated same other => cases only_kind ⟨_,same,other⟩
    | undelegated same other => cases only_kind ⟨_,same,other⟩
  · cases known : b.staking.operator[id]? with
    | none => exact absurd (run_owned reached Books.owned_empty id known) positive
    | some op => exact ⟨op,rfl,fun more b' later => run_operator later known⟩

end Runs

namespace Sample

attribute [local instance] LoneSigner.bls LoneSigner.blake3

def owner : Address := Vector.replicate 32 1

def payload (kind : TxPayload) : Action := .stake owner ⟨1,0,0,0,kind⟩

def life : List Action := [
  payload (Tx.stakeWith .bond StakeKind.bond_ne (LoneSigner.validator 1) 200),
  payload (Tx.stakeWith .unbond StakeKind.unbond_ne (LoneSigner.validator 1) 100),
  .notice (.observe ⟨1000,0,zeroHash,zeroHash⟩),
  payload (.stake ⟨.withdraw,none,30,StakeKind.withdraw_bare⟩)]

def grown : Books := (Books.run .new {} life).get (by decide +kernel)

theorem partial_withdrawal :
    Books.run .new {} life = some grown ∧ 30 + pendingOf grown.staking owner = 100 := by
  have reached : Books.run .new {} life = some grown := (Option.some_get _).symm
  have balance := (staking_lifecycle .new life grown reached (by decide +kernel)).1 owner
  have withdrawn : tally (amountOf .withdraw owner) .new {} life = 30 := by decide +kernel
  have unbonded : tally (amountOf .unbond owner) .new {} life = 100 := by decide +kernel
  rw [withdrawn,unbonded] at balance
  exact ⟨reached,balance⟩

end Sample
end L1.Staking
