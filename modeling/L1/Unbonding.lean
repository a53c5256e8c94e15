import L1.Agreement
import L1.Epochs
import L1.Executions
import L1.Failures
import L1.Lifecycle
import L1.Totality

/-! Unbonding on a running chain. Nothing that a node executes moves the clock of the staking
ledger, so what is unbonded can be withdrawn at once or never. -/
namespace L1

open Holdings Staking

def unbondingPeriod (registry : ParamsRegistry) : U64 :=
  (registry.get .unbondingPeriod).getD Spec.unbondingPeriod

/-- The clock of the ledger stands at the first height. -/
structure Stalled (registry : ParamsRegistry) (book : StakingState) : Prop where
  clock : book.lastCommitHeight = 0
  unlock : ∀ (k : U64) (e : UnbondEntry), book.pendingUnbond[k]? = some e →
    e.unlockHeight = unbondingPeriod registry

namespace Stalled

variable {registry : ParamsRegistry} {book book' : StakingState}

theorem empty (registry : ParamsRegistry) : Stalled registry {} :=
  ⟨rfl,fun k e held => by simp at held⟩

theorem unlock_entry (clock : book.lastCommitHeight = 0) (sender : Address) (id : ValidatorId)
    (amount : Amount) :
    (unbondEntry book registry sender id amount).unlockHeight = unbondingPeriod registry := by
  apply BitVec.eq_of_toNat_eq
  have bound := (unbondingPeriod registry).isLt
  rw [unbondEntry,unbondingUnlock,clock,← unbondingPeriod]
  dsimp only
  rw [toNat_saturatingAdd]
  simp
  omega

theorem effect {sender : Address} {tx : Tx} {result : Except RejectReason Unit}
    (stalled : Stalled registry book) (effect : Effect book registry sender tx book' result) :
    Stalled registry book' := by
  obtain ⟨clock,unlock⟩ := stalled
  cases effect with
  | rejected => exact ⟨clock,unlock⟩
  | marked => exact ⟨clock,unlock⟩
  | bonded => exact ⟨clock,unlock⟩
  | delegated => exact ⟨clock,unlock⟩
  | undelegated => exact ⟨clock,unlock⟩
  | unbonded staked kind target named difference =>
    refine ⟨clock,fun k e held => ?_⟩
    rw [Map.get?_insert] at held
    split at held
    · cases held
      exact unlock_entry clock _ _ _
    · exact unlock k e held
  | withdrawn staked kind taken sum =>
    refine ⟨clock,fun k e held => ?_⟩
    dsimp only at held
    cases before : book.pendingUnbond[k]? with
    | none =>
      rw [(taken.absent k before).2] at held
      cases held
    | some e' =>
      rcases taken.present k e' before with ⟨-,same⟩ | ⟨-,⟨-,gone⟩ | ⟨rest,-,same⟩⟩
      · rw [same] at held
        cases held
        exact unlock k e before
      · rw [gone] at held
        cases held
      · rw [same] at held
        cases held
        exact unlock k e' before

/-- An entry has matured from the start, or never will. -/
theorem matured_iff (stalled : Stalled registry book) {k : U64} {e : UnbondEntry}
    (held : book.pendingUnbond[k]? = some e) (owner : Address) :
    Matured owner book.lastCommitHeight e ↔ e.owner = owner ∧ unbondingPeriod registry = 0 := by
  rw [Matured,stalled.clock,stalled.unlock k e held]
  exact and_congr_right fun _ => BitVec.le_zero_iff

end Stalled

section Matured

variable {registry : ParamsRegistry} {book : StakingState}

theorem mem_pending {e : U64 × UnbondEntry} (listed : e ∈ book.pendingUnbond.toList) :
    book.pendingUnbond[e.1]? = some e.2 :=
  Std.ExtTreeMap.mem_toList_iff_getElem?_eq_some.mp listed

theorem maturedWithdrawable_never (stalled : Stalled registry book)
    (positive : unbondingPeriod registry ≠ 0) (owner : Address) : maturedWithdrawable book owner = 0 := by
  have none : book.pendingUnbond.toList.filter
      (fun e => Matured owner book.lastCommitHeight e.2) = [] := by
    rw [List.filter_eq_nil_iff]
    intro e listed mine
    exact positive ((stalled.matured_iff (mem_pending listed) owner).mp (by simpa using mine)).2
  rw [maturedWithdrawable,none,List.foldl_nil]

/-- Without a period all that an owner has pending can be withdrawn. -/
theorem maturedWithdrawable_always (stalled : Stalled registry book)
    (none : unbondingPeriod registry = 0) (owner : Address) (fits : pendingOf book owner < 2^128) :
    (maturedWithdrawable book owner).toNat = pendingOf book owner := by
  have worth : (book.pendingUnbond.toList.map fun e => due owner book.lastCommitHeight e.1 e.2).sum =
      pendingOf book owner := by
    unfold pendingOf pendingShare Map.total
    congr 1
    refine List.map_congr_left fun e listed => ?_
    simp [due,entryShare,counted_only,stalled.matured_iff (mem_pending listed),none,eq_comm]
  have whole := foldl_skip_eq (fun e : U64 × UnbondEntry => e.2.amount)
    (book.pendingUnbond.toList.filter fun e => Matured owner book.lastCommitHeight e.2) 0
  rw [sum_filter_matured,worth] at whole
  have same := whole (by simpa using fits)
  exact same.trans (Nat.zero_add _)

end Matured

section Waiting

variable [Wasm] [Blake3] [Ed25519]

def Withdraws (owner : Address) (signed : SignedTx) : Prop :=
  fromEd25519 signed.publicKey = owner ∧ ∃ s, signed.tx.asStake = some s ∧ s.kind = .withdraw

variable {world world' : World} {txs : List SignedTx} {signed : SignedTx}

theorem applyTx_params {receipt : Receipt}
    (applied : Seq.applyTx world signed = some (world',receipt)) : world'.params = world.params := by
  cases Seq.applyTx_outcome applied with
  | rejected => rfl
  | unstaked => rfl
  | staked => rfl
  | deployed => rfl
  | called payload admitted charged ran => exact (KeepsLedger.call ran).params
  | transferred => rfl

omit [Wasm] [Blake3] [Ed25519] in
theorem Staking.Effect.nextUnbond_le {book book' : StakingState} {registry : ParamsRegistry}
    {sender : Address} {tx : Tx} {result : Except RejectReason Unit}
    (effect : Effect book registry sender tx book' result) :
    book.nextUnbond.toNat ≤ book'.nextUnbond.toNat := by
  cases effect with
  | unbonded =>
    have bound := book.nextUnbond.isLt
    rw [toNat_saturatingAdd]
    omega
  | rejected => exact Nat.le_refl _
  | marked => exact Nat.le_refl _
  | bonded => exact Nat.le_refl _
  | delegated => exact Nat.le_refl _
  | undelegated => exact Nat.le_refl _
  | withdrawn => exact Nat.le_refl _

omit [Wasm] [Blake3] [Ed25519] in
theorem worth_isUnbond_le (sender : Address) (tx : Tx) (result : Except RejectReason Unit) :
    worth isUnbond sender tx result ≤ 1 := by
  cases result with
  | error e => exact Nat.zero_le _
  | ok _ =>
    rw [worth]
    cases tx.asStake with
    | none => exact Nat.zero_le _
    | some s =>
      rw [Option.elim_some,isUnbond]
      split <;> omega

omit [Wasm] [Ed25519] in
theorem worth_withdraw {owner : Address} (other : ¬ Withdraws owner signed)
    (result : Except RejectReason Unit) :
    worth (amountOf .withdraw owner) (fromEd25519 signed.publicKey) signed.tx result = 0 := by
  cases result with
  | error e => rfl
  | ok _ =>
    rw [worth]
    cases staked : signed.tx.asStake with
    | none => rfl
    | some s => exact if_neg fun both => other ⟨both.2,s,staked,both.1⟩

theorem effect_of_success {receipt : Receipt}
    {s : StakePayload} (applied : Seq.applyTx world signed = some (world',receipt))
    (success : receipt.success = true) (payload : signed.tx.payload = .stake s) :
    Effect world.staking world.params (fromEd25519 signed.publicKey) signed.tx world'.staking
      (.ok ()) := by
  cases Seq.applyTx_outcome applied with
  | rejected => cases success
  | unstaked => cases success
  | staked _ _ staked => exact applyStakeTx_effect staked
  | deployed other => cases payload.symm.trans other
  | called other => cases payload.symm.trans other
  | transferred other => cases payload.symm.trans other

theorem nextUnbond_le_after (reached : Seq.worldAfter world txs = some world') :
    world.staking.nextUnbond.toNat ≤ world'.staking.nextUnbond.toNat :=
  Seq.worldAfter_keep (P := fun w => world.staking.nextUnbond.toNat ≤ w.staking.nextUnbond.toNat)
    (fun _ _ _ _ _ applied bound =>
      let ⟨_,effect⟩ := Failures.staking_effect (Seq.applyTx_outcome applied)
      Nat.le_trans bound effect.nextUnbond_le) reached (Nat.le_refl _)

/-- As long as the slots last, each is used once; and what is pending for an owner stays until
they withdraw. -/
theorem pendingOf_waits (owner : Address)
    (below : SlotsBelow world.staking) (room : world'.staking.nextUnbond.toNat + 1 < 2^64)
    (reached : Seq.worldAfter world txs = some world') :
    SlotsBelow world'.staking ∧ ((∀ signed ∈ txs, ¬ Withdraws owner signed) →
      pendingOf world.staking owner ≤ pendingOf world'.staking owner) := by
  induction txs generalizing world with
  | nil =>
    cases reached
    exact ⟨below,fun _ => Nat.le_refl _⟩
  | cons signed rest ih =>
    have counter := nextUnbond_le_after reached
    rw [Seq.worldAfter_cons] at reached
    obtain ⟨⟨middle,receipt⟩,applied,later⟩ := Option.bind_eq_some_iff.mp reached
    obtain ⟨result,effect⟩ := Failures.staking_effect (Seq.applyTx_outcome applied)
    have most := worth_isUnbond_le (fromEd25519 signed.publicKey) signed.tx result
    have one := effect.balanced owner below (by omega)
    obtain ⟨below',waits⟩ := ih one.below later
    refine ⟨below',fun quiet => ?_⟩
    obtain ⟨here,others⟩ := List.forall_mem_cons.mp quiet
    have pending := one.pending
    rw [worth_withdraw here] at pending
    have := waits others
    omega

theorem stalled_after {registry : ParamsRegistry} (reached : Seq.worldAfter world txs = some world')
    (stalled : world.params = registry ∧ Stalled registry world.staking) :
    world'.params = registry ∧ Stalled registry world'.staking :=
  Seq.worldAfter_keep (P := fun w => w.params = registry ∧ Stalled registry w.staking)
    (fun w signed w' receipt _ applied held => by
      obtain ⟨result,effect⟩ := Failures.staking_effect (Seq.applyTx_outcome applied)
      rw [held.1] at effect
      exact ⟨(applyTx_params applied).trans held.1,held.2.effect effect⟩) reached stalled

theorem total_after (reached : Seq.worldAfter world txs = some world') (fits : total world < 2^128) :
    total world' < 2^128 :=
  Seq.worldAfter_keep (P := fun w => total w < 2^128)
    (fun _ _ _ _ _ applied small => Nat.lt_of_le_of_lt (total_applyTx small applied) small)
    reached fits

end Waiting

section Withdrawals

variable [Wasm] [Blake3] [Ed25519]

/-- A transaction that is due, and whose fee the sender can pay. -/
structure Payable (world : World) (signed : SignedTx) (gas : U64) : Prop where
  admitted : Seq.Admitted world signed gas
  covered : valueBalanceCheck signed.tx 0 (world.account (fromEd25519 signed.publicKey)) = .ok ()

variable {world : World} {signed : SignedTx} {gas : U64} {s : StakePayload} {book : StakingState}
  {owner : Address} {amount : Amount}

theorem applyTx_withdraw (payable : Payable world signed gas) (payload : signed.tx.payload = .stake s)
    (kind : s.kind = .withdraw) :
    ∃ paid, Seq.charge (world.account (fromEd25519 signed.publicKey)) signed.tx.maxFee = some paid ∧
    Seq.applyTx world signed = match withdraw world.staking (fromEd25519 signed.publicKey) s.amount with
      | none => none
      | some (.error e) => some (Seq.clearTraces world,.fail e)
      | some (.ok book) => some ({ (Seq.clearTraces world).setAccount (fromEd25519 signed.publicKey)
            (Seq.credit paid s.amount) with staking := book },
          .ok gas (.stake (fromEd25519 signed.publicKey) s.amount)) := by
  obtain ⟨⟨verified,valid,nonce,metered⟩,covered⟩ := payable
  obtain ⟨paid,charged⟩ := Seq.charge_fee covered
  refine ⟨paid,charged,?_⟩
  have staked : signed.tx.asStake = some s := by rw [Tx.asStake,payload]
  have debit : Seq.stakeDebit s = 0 := by simp [Seq.stakeDebit,kind]
  have fee : checkedAdd (0 : Amount) signed.tx.maxFee = some signed.tx.maxFee := by
    rw [checkedAdd_eq_some]
    simp
  have sender : senderAddress signed = .ok (fromEd25519 signed.publicKey) := by
    simp [senderAddress,valid]
  have account : (Seq.clearTraces world).account (fromEd25519 signed.publicKey) =
      world.account (fromEd25519 signed.publicKey) := rfl
  have current : nonceCheck signed.tx (world.account (fromEd25519 signed.publicKey)) = .ok () := by
    simp [nonceCheck,nonce]
  simp only [Seq.applyTx,verified,sender,account,current,metered,Seq.applyPayload,payload,
    Seq.applyStake,debit,covered,Bool.true_eq_false,if_false]
  have book : (Seq.clearTraces world).staking = world.staking := rfl
  rw [book,applyStakeTx,staked]
  simp only [kind]
  cases withdraw world.staking (fromEd25519 signed.publicKey) s.amount with
  | none => rfl
  | some result =>
    cases result with
    | error e => rfl
    | ok next => simp only [Option.map_some,settle,fee,charged,if_true]

omit [Wasm] [Blake3] [Ed25519] in
theorem withdraw_covered (covered : amount ≤ maturedWithdrawable book owner) :
    ∃ next, withdraw book owner amount = some (.ok next) := by
  obtain ⟨pending,-,looped,-⟩ := withdrawLoop_taken owner book.lastCommitHeight
    (book.pendingUnbond.toList.map Prod.fst) amount book.pendingUnbond (Map.nodup_keys _)
  rw [withdraw,if_neg (BitVec.not_lt.mpr covered),looped]
  exact ⟨_,rfl⟩

omit [Wasm] [Blake3] [Ed25519] in
theorem withdraw_uncovered (short : maturedWithdrawable book owner < amount) :
    ∃ e, withdraw book owner amount = some (.error e) := by
  rw [withdraw,if_pos short]
  split <;> exact ⟨_,rfl⟩

/-- The transaction succeeds and its sender has the amount, less the fee. -/
def Credited (world : World) (signed : SignedTx) (amount : Amount) : Prop :=
  ∃ after receipt, Seq.applyTx world signed = some (after,receipt) ∧ receipt.success = true ∧
    (after.account (fromEd25519 signed.publicKey)).balance.toNat + signed.tx.maxFee.toNat =
      (world.account (fromEd25519 signed.publicKey)).balance.toNat + amount.toNat

/-- A payable withdrawal is credited if what has matured covers it and the sum fits. -/
theorem credited_iff (payable : Payable world signed gas) (payload : signed.tx.payload = .stake s)
    (kind : s.kind = .withdraw) : (Credited world signed s.amount →
      s.amount ≤ maturedWithdrawable world.staking (fromEd25519 signed.publicKey)) ∧
    (s.amount ≤ maturedWithdrawable world.staking (fromEd25519 signed.publicKey) →
      (world.account (fromEd25519 signed.publicKey)).balance.toNat + s.amount.toNat < 2^128 →
      Credited world signed s.amount) := by
  obtain ⟨paid,charged,result⟩ := applyTx_withdraw payable payload kind
  constructor
  · rintro ⟨after,receipt,applied,success,-⟩
    by_contra short
    obtain ⟨e,failed⟩ := withdraw_uncovered (BitVec.not_le.mp short)
    rw [result,failed] at applied
    cases applied
    cases success
  · intro covered fits
    obtain ⟨book,done⟩ := withdraw_covered covered
    rw [done] at result
    refine ⟨_,_,result,rfl,?_⟩
    obtain ⟨balance,left,rfl⟩ := Option.map_eq_some_iff.mp charged
    have spent := checkedSub_eq_some.mp left
    obtain ⟨sum,whole⟩ : ∃ sum, checkedAdd balance s.amount = some sum := by
      cases known : checkedAdd balance s.amount with
      | none =>
        have := checkedAdd_eq_none.mp known
        omega
      | some sum => exact ⟨sum,rfl⟩
    have added := checkedAdd_eq_some.mp whole
    have held : ({ (Seq.clearTraces world).setAccount (fromEd25519 signed.publicKey)
        (Seq.credit { world.account (fromEd25519 signed.publicKey) with
          balance, nonce := Seq.nextNonce (world.account (fromEd25519 signed.publicKey)).nonce }
          s.amount) with staking := book } : World).account (fromEd25519 signed.publicKey) =
        Seq.credit { world.account (fromEd25519 signed.publicKey) with
          balance, nonce := Seq.nextNonce (world.account (fromEd25519 signed.publicKey)).nonce }
          s.amount := Holdings.account_setAccount _ _ _
    rw [held]
    simp only [Seq.credit,whole,Option.getD_some]
    omega

/-- An unbond that succeeds in one block, and a payable withdrawal of the same amount by the
same owner in another, which comes after the unbonding period and with no withdrawal of theirs
in between. -/
structure Withdrawal (g : Genesis) (owner : Address) (amount : Amount) where
  early : List Block
  before : List SignedTx
  unbonding : SignedTx
  after : List SignedTx
  fields : HeaderFields
  middle : List Block
  ahead : List SignedTx
  withdrawing : SignedTx
  /-- The world that the unbond finds, and the one it leaves. -/
  found : World
  left : World
  receipt : Receipt
  /-- The world that the withdrawal finds. -/
  world : World
  gas : U64
  reached : (Seq.applyBlocks (.fromGenesis g) early).bind (Seq.worldAfter · before) = some found
  applied : Seq.applyTx found unbonding = some (left,receipt)
  success : receipt.success = true
  unbonds : ∃ s, unbonding.tx.payload = .stake s ∧ s.kind = .unbond ∧ s.amount = amount
  unbonder : fromEd25519 unbonding.publicKey = owner
  waited : (unbondingPeriod g.params.registry).toNat ≤ middle.length
  later : (Seq.applyBlocks (.fromGenesis g)
    (early ++ ⟨fields,before ++ unbonding :: after⟩ :: middle)).bind (Seq.worldAfter · ahead) = some world
  quiet : ∀ signed ∈ after ++ (middle.flatMap Block.txs ++ ahead), ¬ Withdraws owner signed
  withdraws : ∃ s, withdrawing.tx.payload = .stake s ∧ s.kind = .withdraw ∧ s.amount = amount
  withdrawer : fromEd25519 withdrawing.publicKey = owner
  payable : Payable world withdrawing gas

namespace Withdrawal

variable {g : Genesis} {owner : Address} {amount : Amount} (w : Withdrawal g owner amount)

theorem reached_txs : Seq.worldAfter (.fromGenesis g) (w.early.flatMap Block.txs ++ w.before) =
    some w.found := by
  rw [Seq.worldAfter_append,← Seq.applyBlocks_eq]
  exact w.reached

theorem later_txs : Seq.worldAfter w.left (w.after ++ (w.middle.flatMap Block.txs ++ w.ahead)) =
    some w.world := by
  have whole := w.later
  rw [Seq.applyBlocks_eq,← Seq.worldAfter_append] at whole
  have split : (w.early ++ ⟨w.fields,w.before ++ w.unbonding :: w.after⟩ :: w.middle).flatMap Block.txs ++
      w.ahead = (w.early.flatMap Block.txs ++ w.before) ++
        w.unbonding :: (w.after ++ (w.middle.flatMap Block.txs ++ w.ahead)) := by simp
  rw [split,Seq.worldAfter_append,w.reached_txs,Option.bind_some,Seq.worldAfter_cons,w.applied,
    Option.bind_some] at whole
  exact whole

theorem stalled : w.world.params = g.params.registry ∧ Stalled g.params.registry w.world.staking := by
  have first := stalled_after w.reached_txs ⟨rfl,.empty _⟩
  have unbonded : w.left.params = g.params.registry ∧ Stalled g.params.registry w.left.staking :=
    stalled_after (by rw [Seq.worldAfter_cons,w.applied]; rfl : Seq.worldAfter w.found [w.unbonding] = _)
      first
  exact stalled_after w.later_txs unbonded

theorem amount_le_pending (room : w.world.staking.nextUnbond.toNat + 1 < 2^64) :
    amount.toNat ≤ pendingOf w.world.staking owner := by
  have counter := nextUnbond_le_after w.later_txs
  obtain ⟨s,payload,kind,rfl⟩ := w.unbonds
  have effect := effect_of_success w.applied w.success payload
  have step := effect.nextUnbond_le
  have most := worth_isUnbond_le (fromEd25519 w.unbonding.publicKey) w.unbonding.tx (.ok ())
  have empty : SlotsBelow (World.fromGenesis g).staking := fun k e held => by
    simp [World.fromGenesis] at held
  have below := (pendingOf_waits owner empty (by omega) w.reached_txs).1
  have one := effect.balanced owner below (by omega)
  have waits := (pendingOf_waits owner one.below room w.later_txs).2 w.quiet
  have staked : w.unbonding.tx.asStake = some s := by rw [Tx.asStake,payload]
  have gained : worth (amountOf .unbond owner) (fromEd25519 w.unbonding.publicKey) w.unbonding.tx
      (.ok ()) = s.amount.toNat := by
    rw [worth,staked,Option.elim_some,amountOf,if_pos ⟨kind,w.unbonder⟩]
  have pending := one.pending
  rw [gained] at pending
  have kept : worth (amountOf .withdraw owner) (fromEd25519 w.unbonding.publicKey) w.unbonding.tx
      (.ok ()) = 0 := by
    rw [worth,staked,Option.elim_some,amountOf,if_neg (by simp [kind])]
  omega

theorem total_lt (small : allocated g < 2^128) : total w.world < 2^128 := by
  have first := total_after w.reached_txs (by rw [← total_start g] at small; exact small)
  have unbonded := Nat.lt_of_le_of_lt (total_applyTx first w.applied) first
  exact total_after w.later_txs unbonded

end Withdrawal

omit [Wasm] [Blake3] [Ed25519] in
theorem pendingOf_le (book : StakingState) (owner : Address) :
    pendingOf book owner ≤ bookShare everyone book := by
  have part : pendingOf book owner ≤ pendingShare everyone book.pendingUnbond := by
    refine List.sum_le_sum fun e _ => ?_
    simp only [entryShare,counted]
    split
    · exact Nat.le_refl _
    · exact Nat.zero_le _
  unfold bookShare
  omega

/-- The worlds that nodes hold and replay are executions of chains of blocks; and on such a
chain a withdrawal of what was unbonded is credited after the unbonding period only if there
is no such period or nothing to withdraw. If so it is credited, as long as the allocations of
the genesis fit a balance and the slots of unbonds have not run out. -/
theorem unbonded_withdrawable_iff [Bls] [Vrf] (g : Genesis) :
    (∀ cfg node events, Live.start cfg = some node → cfg.genesis = g → ∃ blocks,
      Seq.applyBlocks (.fromGenesis g) blocks =
        some (Runs.run Live.advance (node,[]) events).1.world ∧
      ((Runs.run Live.advance (node,[]) events).1.isValidator = true →
        blocks = (Runs.run Live.advance (node,[]) events).1.committed.map BodyOffer.block)) ∧
    (∀ store world app,
      Replay.replayFromGenesis Seq.applyBlock store g (.fromGenesis g) = some (.ok (world,app)) →
      ∃ blocks, Seq.applyBlocks (.fromGenesis g) blocks = some world) ∧
    ∀ owner amount (w : Withdrawal g owner amount),
      (Credited w.world w.withdrawing amount →
        amount = 0 ∨ unbondingPeriod g.params.registry = 0) ∧
      (allocated g < 2^128 → w.world.staking.nextUnbond.toNat + 1 < 2^64 →
        amount = 0 ∨ unbondingPeriod g.params.registry = 0 →
        Credited w.world w.withdrawing amount) := by
  refine ⟨?_,fun _ _ _ done => Replay.replayed_executed done,fun owner amount w => ?_⟩
  · rintro cfg node events started rfl
    exact (Live.follows_run started events).chain
  obtain ⟨s,payload,kind,rfl⟩ := w.withdraws
  have stalled := w.stalled.2
  obtain ⟨only_covered,enough⟩ := credited_iff w.payable payload kind
  constructor
  · intro credited
    by_cases none : unbondingPeriod g.params.registry = 0
    · exact .inr none
    · have covered := only_covered credited
      rw [maturedWithdrawable_never stalled none] at covered
      exact .inl (BitVec.le_zero_iff.mp covered)
  · intro small room condition
    have fits := w.total_lt small
    have balance := balance_le w.world (fromEd25519 w.withdrawing.publicKey)
    have pending := pendingOf_le w.world.staking (fromEd25519 w.withdrawing.publicKey)
    have held := w.amount_le_pending room
    have same := congrArg (pendingOf w.world.staking) w.withdrawer
    unfold total share at fits
    refine enough ?_ (by omega)
    rcases condition with nothing | none
    · rw [BitVec.le_def,congrArg BitVec.toNat nothing]
      exact Nat.zero_le _
    · rw [BitVec.le_def,maturedWithdrawable_always stalled none _ (by omega)]
      omega

end Withdrawals

namespace Unbonding.Sample

open Holdings.Sample

attribute [local instance] Holdings.Sample.blake3 ed25519 wasm LoneSigner.bls Agreement.Solo.vrf

def genesis (period : U64) : Genesis where
  chainId := 1
  alloc := Std.ExtTreeMap.ofList [(address 1,⟨1000,0,zeroHash⟩)] compare
  params := { registry := ParamsRegistry.new.insert .unbondingPeriod period }

def bonding : SignedTx :=
  sign 1 0 1 (Tx.stakeWith .bond StakeKind.bond_ne (LoneSigner.validator 7) 200)

def unbonding : SignedTx :=
  sign 1 1 1 (Tx.stakeWith .unbond StakeKind.unbond_ne (LoneSigner.validator 7) 200)

def withdrawing : SignedTx := sign 1 2 1 (.stake ⟨.withdraw,none,200,StakeKind.withdraw_bare⟩)

def fields : HeaderFields := ⟨0,0,LoneSigner.validator 1,0⟩

def result (world : World) (signed : SignedTx) : World × Receipt :=
  (Seq.applyTx world signed).getD (world,.fail .gas)

theorem applied {world : World} {signed : SignedTx} (total : (Seq.applyTx world signed).isSome) :
    Seq.applyTx world signed = some (result world signed) := by
  obtain ⟨r,same⟩ := Option.isSome_iff_exists.mp total
  rw [result,same,Option.getD_some]

def bonded (period : U64) : World := (result (.fromGenesis (genesis period)) bonding).1

def unbonded (period : U64) : World × Receipt := result (bonded period) unbonding

@[mk_iff]
structure Runs (period : U64) : Prop where
  bonds : (Seq.applyTx (.fromGenesis (genesis period)) bonding).isSome = true
  unbonds : (Seq.applyTx (bonded period) unbonding).isSome = true
  success : (unbonded period).2.success = true
  given : (unbondingPeriod (genesis period).params.registry).toNat = period.toNat
  nonce : ((unbonded period).1.account (fromEd25519 (address 1))).nonce = 2
  covered : valueBalanceCheck withdrawing.tx 0
    ((unbonded period).1.account (fromEd25519 (address 1))) = .ok ()

theorem idle_blocks (n : Nat) :
    (List.replicate n (⟨fields,[]⟩ : Block)).flatMap Block.txs = [] := by
  rw [List.flatMap_eq_nil_iff]
  intro block listed
  rw [(List.mem_replicate.mp listed).2]

/-- A bond in the first block, an unbond in the second, then blocks without transactions for
the unbonding period, and a withdrawal. -/
def withdrawal {period : U64} (runs : Runs period) :
    Withdrawal (genesis period) (fromEd25519 (address 1)) 200 where
  early := [⟨fields,[bonding]⟩]
  before := []
  unbonding := unbonding
  after := []
  fields := fields
  middle := List.replicate period.toNat ⟨fields,[]⟩
  ahead := []
  withdrawing := withdrawing
  found := bonded period
  left := (unbonded period).1
  receipt := (unbonded period).2
  world := (unbonded period).1
  gas := Spec.gasTransfer
  reached := by
    rw [Seq.applyBlocks_eq]
    change (Seq.worldAfter _ [bonding]).bind _ = _
    rw [Seq.worldAfter_cons,applied runs.bonds]
    rfl
  applied := applied runs.unbonds
  success := runs.success
  unbonds := ⟨_,rfl,rfl,rfl⟩
  unbonder := rfl
  waited := by rw [runs.given,List.length_replicate]
  later := by
    have txs : (([⟨fields,[bonding]⟩] ++ ⟨fields,[] ++ unbonding :: []⟩ ::
        List.replicate period.toNat ⟨fields,[]⟩ : List Block)).flatMap Block.txs =
          [bonding,unbonding] := by
      rw [List.flatMap_append,List.flatMap_cons,List.flatMap_cons,idle_blocks]
      rfl
    rw [Seq.applyBlocks_eq,txs]
    change (Seq.worldAfter _ [bonding,unbonding]).bind _ = _
    rw [Seq.worldAfter_cons,applied runs.bonds,Option.bind_some,Seq.worldAfter_cons]
    change ((Seq.applyTx (bonded period) unbonding).bind _).bind _ = _
    rw [applied runs.unbonds]
    rfl
  quiet := by
    rw [idle_blocks]
    simp
  withdraws := ⟨_,rfl,rfl,rfl⟩
  withdrawer := rfl
  payable := ⟨⟨rfl,rfl,runs.nonce,by decide +kernel⟩,runs.covered⟩

theorem runs_at_once : Runs 0 := by
  rw [runs_iff]
  decide +kernel

theorem runs_slowly : Runs 1000 := by
  rw [runs_iff]
  decide +kernel

/-- Without an unbonding period the withdrawal is credited. -/
theorem withdrawal_at_once :
    Credited (unbonded 0).1 withdrawing 200 :=
  ((unbonded_withdrawable_iff (genesis 0)).2.2 _ _ (withdrawal runs_at_once)).2
    (by decide +kernel) (by decide +kernel) (.inr (by decide +kernel))

/-- With the period of the specification the withdrawal is refused, though so many blocks have
passed. -/
theorem withdrawal_refused :
    (withdrawal runs_slowly).middle.length = 1000 ∧
    (Seq.applyTx (withdrawal runs_slowly).world (withdrawal runs_slowly).withdrawing).map Prod.snd =
      some (.fail .stakeUnbonding) ∧
    ¬ Credited (withdrawal runs_slowly).world (withdrawal runs_slowly).withdrawing 200 := by
  have refused : (Seq.applyTx (unbonded 1000).1 withdrawing).map Prod.snd =
      some (.fail .stakeUnbonding) := by decide +kernel
  refine ⟨List.length_replicate,refused,?_⟩
  rintro ⟨after,receipt,done,success,-⟩
  change Seq.applyTx (unbonded 1000).1 withdrawing = _ at done
  rw [done] at refused
  cases refused
  cases success

end Unbonding.Sample
end L1
