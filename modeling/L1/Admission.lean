import L1.ChainBinding

/-! The gate of the pool and the checks of execution agree: a transaction is turned away for
its signature, nonce, funds or gas exactly if the gate bars it or its turn has not come. -/
namespace L1.Seq

def gateReasons : List RejectReason := [.signature,.wrongNonce,.insufficientBalance,.gas]

/-- A transition that rejects the transaction for one of these reasons. -/
def TurnedAway (result : Option (World × Receipt)) : Prop :=
  ∃ world receipt reason, result = some (world,receipt) ∧ receipt.success = false ∧
    receipt.reason = some reason ∧ reason ∈ gateReasons

@[simp] theorem turnedAway_none : ¬ TurnedAway none := by simp [TurnedAway]

@[simp] theorem turnedAway_fail (world : World) (reason : RejectReason) :
    TurnedAway (some (world,.fail reason)) ↔ reason ∈ gateReasons := by
  constructor
  · rintro ⟨_,_,_,same,-,named,gated⟩
    cases same
    cases named
    exact gated
  · intro gated
    exact ⟨_,_,_,rfl,rfl,rfl,gated⟩

@[simp] theorem turnedAway_ok (world : World) (gas : U64) (event : Event) :
    ¬ TurnedAway (some (world,.ok gas event)) := by
  rintro ⟨_,_,_,same,failed,-,-⟩
  cases same
  cases failed

@[simp] theorem checkError_gated (e : CheckError) : e.reason ∈ gateReasons := by
  cases e <;> decide

@[simp] theorem gasError_gated (e : GasError) : e.reason ∈ gateReasons := by
  cases e <;> decide

/-! The ledger and the guest code have reasons of their own. -/

section Staking

open Staking

variable {book book' : StakingState} {registry : ParamsRegistry} {sender : Address}
  {id : ValidatorId} {amount : Amount} {reason : RejectReason}

theorem settle_error {result : Except RejectReason StakingState}
    (settled : settle book result = (book',.error reason)) : result = .error reason := by
  cases result with
  | error e =>
    cases settled
    rfl
  | ok next => cases settled

theorem deposit_ungated (failed : bond.deposit id amount book = (book',.error reason)) :
    reason ∉ gateReasons := by
  unfold bond.deposit at failed
  split at failed
  · cases failed
    decide
  · cases failed

theorem bond_ungated (failed : bond book registry sender id amount = (book',.error reason)) :
    reason ∉ gateReasons := by
  unfold bond checkMinSelfBond at failed
  split at failed
  · cases failed
    decide
  split at failed
  · rename_i small
    split at small
    · cases small
      cases failed
      decide
    · cases small
  split at failed
  · split at failed
    · cases failed
      decide
    · exact deposit_ungated failed
  · exact deposit_ungated failed

theorem unbond_ungated (failed : unbond book registry sender id amount = .error reason) :
    reason ∉ gateReasons := by
  unfold unbond at failed
  split at failed
  · cases failed
    decide
  split at failed
  · cases failed
    decide
  split at failed
  · cases failed
    decide
  · cases failed

theorem delegate_ungated (failed : delegate book sender id amount = .error reason) :
    reason ∉ gateReasons := by
  unfold delegate at failed
  split at failed
  · cases failed
    decide
  split at failed
  · cases failed
    decide
  · cases failed

theorem undelegate_ungated (failed : undelegate book sender id amount = .error reason) :
    reason ∉ gateReasons := by
  unfold undelegate at failed
  split at failed
  · cases failed
    decide
  split at failed <;> cases failed

theorem withdraw_ungated (failed : withdraw book sender amount = some (.error reason)) :
    reason ∉ gateReasons := by
  unfold withdraw at failed
  dsimp only at failed
  split at failed
  · split at failed
    · cases failed
      decide
    · cases failed
      decide
  · split at failed <;> cases failed

/-- A staking payload names a validator unless it withdraws, so that the missing one is no
case of its own. -/
theorem applyStakeTx_ungated {tx : Tx} {s : StakePayload} (payload : tx.payload = .stake s)
    (failed : applyStakeTx book registry sender tx = some (book',.error reason)) :
    reason ∉ gateReasons := by
  have stake : tx.asStake = some s := by rw [Tx.asStake,payload]
  simp only [applyStakeTx,stake] at failed
  split at failed
  · obtain ⟨result,ran,settled⟩ := Option.map_eq_some_iff.mp failed
    rw [settle_error settled] at ran
    exact withdraw_ungated ran
  · rename_i missing other
    exact absurd (s.target.mp missing) other
  · exact bond_ungated (Option.some.inj failed)
  · exact unbond_ungated (settle_error (Option.some.inj failed))
  · exact delegate_ungated (settle_error (Option.some.inj failed))
  · exact undelegate_ungated (settle_error (Option.some.inj failed))

end Staking

section Guest

open WasmCall

variable {world world' : World} {contract : Address} {reason : RejectReason}

variable [Wasm]

theorem validateWasm_ungated {code : Bytes} (failed : validateWasm code = .error reason) :
    reason ∉ gateReasons := by
  unfold validateWasm at failed
  split at failed
  · cases failed
  · cases failed
    decide

theorem execute_ungated {fuel : U64}
    (failed : execute world contract fuel = some (world',.error reason)) :
    reason ∉ gateReasons := by
  unfold execute at failed
  split at failed
  · cases failed
    decide
  split at failed
  · cases failed
    decide
  split at failed
  · cases failed
  · rename_i ran
    cases failed
    have ungated : ∀ r ∈ [RejectReason.wasmReentrancy,.wasmGas,.wasmInvalid], r ∉ gateReasons := by
      decide
    exact ungated reason (runGuest_error ran)

theorem call_ungated {payload : Call} {fuel : U64}
    (failed : call world payload fuel = some (world',.error reason)) : reason ∉ gateReasons := by
  unfold call at failed
  split at failed
  · cases failed
    decide
  split at failed
  · rename_i invalid
    cases failed
    exact validateWasm_ungated invalid
  · exact execute_ungated failed

end Guest

/-! So a payload is turned away exactly for funds. -/

section Payloads

variable {world : World} {sender : Address} {account : Account} {gas : U64} {tx : Tx}

theorem applyStake_turnedAway {s : StakePayload} (payload : tx.payload = .stake s) :
    TurnedAway (applyStake world sender account gas tx s) ↔
      valueBalanceCheck tx (stakeDebit s) account ≠ .ok () := by
  cases passed : valueBalanceCheck tx (stakeDebit s) account with
  | error e => simp [applyStake,passed]
  | ok _ =>
    obtain ⟨pay,paid,sum,charged⟩ := charge_of_valueBalanceCheck passed
    obtain ⟨book,result,staked⟩ := Staking.applyStakeTx_total world.staking world.params sender tx
    cases result with
    | error e =>
      have ungated := applyStakeTx_ungated payload staked
      simp [applyStake,passed,staked,ungated]
    | ok _ => simp [applyStake,passed,staked,sum,charged]

theorem applyTransfer_turnedAway {t : Transfer} :
    TurnedAway (applyTransfer world sender account gas tx t) ↔ balanceCheck tx t account ≠ .ok () := by
  cases passed : balanceCheck tx t account with
  | error e => simp [applyTransfer,passed]
  | ok _ =>
    obtain ⟨pay,paid,sum,charged⟩ := charge_of_valueBalanceCheck passed
    simp [applyTransfer,passed,sum,charged]

variable [Wasm]

theorem applyCall_turnedAway {c : Call} : TurnedAway (applyCall world sender account gas tx c) ↔
      valueBalanceCheck tx 0 account ≠ .ok () := by
  cases passed : valueBalanceCheck tx 0 account with
  | error e =>
    simp only [applyCall,passed]
    simp
  | ok _ =>
    obtain ⟨paid,charged⟩ := charge_fee passed
    simp only [applyCall,passed,charged]
    split
    · simp [gateReasons]
    split
    · simp
    · rename_i failed
      simp [call_ungated failed]
    · simp

variable [Blake3]

/-- The gas of a deployment is metered a second time, under another reason. -/
theorem applyDeploy_turnedAway {d : Deploy} :
    TurnedAway (applyDeploy world sender account gas tx d) ↔
      valueBalanceCheck tx 0 account ≠ .ok () := by
  cases passed : valueBalanceCheck tx 0 account with
  | error e =>
    simp only [applyDeploy,passed]
    simp
  | ok _ =>
    obtain ⟨paid,charged⟩ := charge_fee passed
    simp only [applyDeploy,passed,charged,WasmCall.install]
    split
    · simp [gateReasons]
    cases valid : WasmCall.validateWasm d.code with
    | error e => simp [validateWasm_ungated valid]
    | ok _ => simp

theorem applyPayload_turnedAway : TurnedAway (applyPayload world sender account gas tx) ↔
      Mempool.fundsCheck tx account ≠ .ok () := by
  cases payload : tx.payload with
  | stake s =>
    simp only [applyPayload,Mempool.fundsCheck,payload]
    exact applyStake_turnedAway payload
  | deploy d =>
    simp only [applyPayload,Mempool.fundsCheck,payload]
    exact applyDeploy_turnedAway
  | call c =>
    simp only [applyPayload,Mempool.fundsCheck,payload]
    exact applyCall_turnedAway
  | transfer t =>
    simp only [applyPayload,Mempool.fundsCheck,payload]
    exact applyTransfer_turnedAway

end Payloads

variable [Wasm] [Blake3] [Ed25519]

theorem applyTx_turnedAway (world : World) (signed : SignedTx) : TurnedAway (applyTx world signed) ↔
      ¬ (Mempool.Admissible signed (world.account (fromEd25519 signed.publicKey)) ∧
        signed.tx.nonce = (world.account (fromEd25519 signed.publicKey)).nonce) := by
  have same : (clearTraces world).account (fromEd25519 signed.publicKey) =
    world.account (fromEd25519 signed.publicKey) := rfl
  by_cases verified : verifyEd25519 signed = true
  case neg =>
    have refused : ¬ Mempool.Admissible signed (world.account (fromEd25519 signed.publicKey)) :=
      fun passed => verified passed.verified
    simp [applyTx,verified,refused,gateReasons]
  have valid : Ed25519.publicKeyValid signed.publicKey = true :=
    (Bool.and_eq_true_iff.mp verified).1
  by_cases nonce : (world.account (fromEd25519 signed.publicKey)).nonce = signed.tx.nonce
  case neg =>
    simp [applyTx,verified,senderAddress,valid,same,nonceCheck,nonce,Ne.symm nonce]
  cases metered : gasMeter signed.tx with
  | error e =>
    have refused : ¬ Mempool.Admissible signed (world.account (fromEd25519 signed.publicKey)) := by
      intro passed
      obtain ⟨gas,ok⟩ := passed.metered
      rw [metered] at ok
      cases ok
    simp [applyTx,verified,senderAddress,valid,same,nonceCheck,nonce,metered,refused]
  | ok gas =>
    rw [applyTx_payload ⟨verified,valid,nonce,metered⟩,applyPayload_turnedAway,
      Mempool.fundsCheck_eq,Ne,Mempool.valueBalanceCheck_ok_iff]
    apply not_congr
    constructor
    · intro funded
      exact ⟨⟨verified,⟨gas,metered⟩,funded,by rw [nonce]⟩,nonce.symm⟩
    · rintro ⟨passed,-⟩
      exact passed.funded

/-- Pool admission agrees with execution. -/
theorem turned_away_iff_barred (world : World) (signed : SignedTx) :
    (∃ after receipt reason, applyTx world signed = some (after,receipt) ∧
        receipt.success = false ∧ receipt.reason = some reason ∧
        reason ∈ [.signature,.wrongNonce,.insufficientBalance,.gas]) ↔
      (∃ e, Mempool.verify signed (world.account (fromEd25519 signed.publicKey)) = .error e) ∨
        signed.tx.nonce ≠ (world.account (fromEd25519 signed.publicKey)).nonce := by
  have barred : (∃ e, Mempool.verify signed (world.account (fromEd25519 signed.publicKey)) =
      .error e) ↔ ¬ Mempool.Admissible signed (world.account (fromEd25519 signed.publicKey)) := by
    rw [← Mempool.verify_ok_iff]
    cases Mempool.verify signed (world.account (fromEd25519 signed.publicKey)) <;> simp
  rw [barred,Ne,← not_and_or]
  exact applyTx_turnedAway world signed

end L1.Seq
