import L1.Footprint
import L1.Outcome

/-! Transactions through their footprint: what one leaves unchanged, and what its receipt and
its writes depend on. -/
namespace L1

open Host

namespace Stm

/-- A run of host calls under one contract: storage changes only at keys that were recorded. -/
structure Traced (contract : Address) (w w' : World) : Prop where
  kept : ∀ key ∈ w.storageWrites, key ∈ w'.storageWrites
  recorded : ∀ key ∈ w'.storageWrites, key ∈ w.storageWrites ∨ ∃ slot, key = storageKey contract slot
  storage : ∀ key, key ∉ w'.storageWrites → w'.storage[key]? = w.storage[key]?

namespace Traced

variable {contract : Address} {w w' w'' : World}

theorem refl (w : World) : Traced contract w w :=
  ⟨fun _ listed => listed,fun _ listed => .inl listed,fun _ _ => rfl⟩

theorem trans (first : Traced contract w w') (second : Traced contract w' w'') :
    Traced contract w w'' where
  kept key listed := second.kept key (first.kept key listed)
  recorded key listed := by
    rcases second.recorded key listed with before | own
    · exact first.recorded key before
    · exact .inr own
  storage key unlisted :=
    (second.storage key unlisted).trans (first.storage key fun listed => unlisted (second.kept key listed))

theorem sload {slot : U32} {value : U64} (returned : Host.sload w contract slot = some (w',value)) :
    Traced contract w w' := by
  unfold Host.sload at returned
  dsimp only at returned
  split at returned
  · cases returned
  · cases returned
    exact ⟨fun _ listed => listed,fun _ listed => .inl listed,fun _ _ => rfl⟩

theorem sstore {slot : U32} {value : U64} (returned : Host.sstore w contract slot value = some w') :
    Traced contract w w' := by
  unfold Host.sstore at returned
  split at returned
  · cases returned
  rename_i loaded
  dsimp only at returned
  split at returned
  · cases returned
  cases returned
  refine (sload loaded).trans ⟨?_,?_,?_⟩
  · intro key listed
    exact Std.ExtTreeSet.mem_insert.mpr (.inr listed)
  · intro key listed
    rcases Std.ExtTreeSet.mem_insert.mp listed with same | before
    · exact .inr ⟨slot,(Std.LawfulEqCmp.eq_of_compare same).symm⟩
    · exact .inl before
  · intro key unlisted
    have other : key ≠ storageKey contract slot := fun same =>
      unlisted (by rw [same]; exact Std.ExtTreeSet.mem_insert_self)
    rw [Map.get?_insert,if_neg other]

theorem rule : HostRule contract (Traced contract) where
  refl := refl
  trans := trans
  fuel _ := ⟨fun _ listed => listed,fun _ listed => .inl listed,fun _ _ => rfl⟩
  sload := sload
  sstore := sstore
  marked inner := ⟨inner.kept,inner.recorded,inner.storage⟩

theorem call [Wasm] {payload : Call} {fuel : U64} {result : Except RejectReason Unit}
    (returned : WasmCall.call w payload fuel = some (w',result)) : Traced payload.toAddr w w' :=
  rule.call returned

end Traced

structure SameHost (contract : Address) (w q : World) : Prop where
  storage : ∀ slot, w.storage[storageKey contract slot]? = q.storage[storageKey contract slot]?
  reads : w.storageReads = q.storageReads
  writes : w.storageWrites = q.storageWrites

namespace SameHost

variable {contract : Address} {w q w' q' : World}

variable {slot : U32} {value : U64} {result result' : Except RejectReason Unit}

theorem sload (same : SameHost contract w q) {value' : U64}
    (first : Host.sload w contract slot = some (w',value))
    (second : Host.sload q contract slot = some (q',value')) :
    value = value' ∧ SameHost contract w' q' := by
  unfold Host.sload at first second
  dsimp only at first second
  split at first
  · cases first
  split at second
  · cases second
  cases first
  cases second
  exact ⟨by rw [same.storage slot],same.storage,by rw [same.reads],same.writes⟩

theorem sstore (same : SameHost contract w q) (first : Host.sstore w contract slot value = some w')
    (second : Host.sstore q contract slot value = some q') : SameHost contract w' q' := by
  unfold Host.sstore at first second
  split at first
  · cases first
  rename_i loaded
  split at second
  · cases second
  rename_i loaded'
  obtain ⟨-,after⟩ := same.sload loaded loaded'
  dsimp only at first second
  split at first
  · cases first
  split at second
  · cases second
  cases first
  cases second
  refine ⟨fun other => ?_,after.reads,by rw [after.writes]⟩
  simp only [Map.get?_insert]
  split
  · rfl
  · exact after.storage other

theorem runGuest (same : SameHost contract w q) {guest : Guest}
    (first : WasmCall.runGuest contract guest w = some (w',result))
    (second : WasmCall.runGuest contract guest q = some (q',result')) :
    result = result' ∧ SameHost contract w' q' := by
  induction guest generalizing w q with
  | done =>
    cases first
    cases second
    exact ⟨rfl,same.storage,same.reads,same.writes⟩
  | trap =>
    cases first
    cases second
    exact ⟨rfl,same.storage,same.reads,same.writes⟩
  | invalid =>
    cases first
    cases second
    exact ⟨rfl,same⟩
  | sload slot next ih =>
    unfold WasmCall.runGuest at first second
    split at first
    · cases first
    rename_i loaded
    split at second
    · cases second
    rename_i loaded'
    obtain ⟨rfl,after⟩ := same.sload loaded loaded'
    exact ih _ after first second
  | sstore slot value next ih =>
    unfold WasmCall.runGuest at first second
    split at first
    · cases first
    rename_i stored
    split at second
    · cases second
    rename_i stored'
    exact ih (same.sstore stored stored') first second
  | reenter rejected ih =>
    unfold WasmCall.runGuest at first second
    split at first
    · split at second
      · exact ih same first second
      · cases second
    · cases first

variable [Wasm]

/-- A call that no other runs inside of depends on the contract's code and storage. -/
theorem call (same : SameHost contract w q) (code : w.code[contract]? = q.code[contract]?)
    (idle : w.executing = ∅) (idle' : q.executing = ∅) {payload : Call}
    (target : payload.toAddr = contract) {fuel : U64}
    (first : WasmCall.call w payload fuel = some (w',result))
    (second : WasmCall.call q payload fuel = some (q',result')) :
    result = result' ∧ SameHost contract w' q' := by
  subst target
  unfold WasmCall.call WasmCall.execute at first second
  rw [if_neg (by simp [idle])] at first
  rw [if_neg (by simp [idle'])] at second
  rw [← code] at second
  cases installed : w.code[payload.toAddr]? with
  | none =>
    simp only [installed] at first second
    cases first
    cases second
    exact ⟨rfl,same⟩
  | some bytes =>
    simp only [installed] at first second
    cases valid : WasmCall.validateWasm bytes with
    | error e =>
      simp only [valid] at first second
      cases first
      cases second
      exact ⟨rfl,same⟩
    | ok _ =>
      simp only [valid] at first second
      split at first
      · cases first
      rename_i ran
      split at second
      · cases second
      rename_i ran'
      cases first
      cases second
      have marked : SameHost payload.toAddr
          { w with executing := w.executing.insert payload.toAddr }
          { q with executing := q.executing.insert payload.toAddr } :=
        ⟨same.storage,same.reads,same.writes⟩
      obtain ⟨rfl,after⟩ := marked.runGuest ran ran'
      exact ⟨rfl,after.storage,after.reads,after.writes⟩

end SameHost

section Frame

variable [Blake3] [Ed25519]

structure Framed (signed : SignedTx) (w w' : World) : Prop where
  accounts : ∀ addr, accountKey addr ∉ inferredKeys signed → w'.accounts[addr]? = w.accounts[addr]?
  code : ∀ addr, accountKey addr ∉ inferredKeys signed → w'.code[addr]? = w.code[addr]?
  storage : ∀ key, key ∉ w'.storageWrites → w'.storage[key]? = w.storage[key]?
  writes : ∀ key ∈ w'.storageWrites, ∃ c slot, signed.tx.asCall = some c ∧
    key = storageKey c.toAddr slot
  staking : signed.tx.asStake = none → w'.staking = w.staking
  params : w'.params = w.params

variable {signed : SignedTx} {w w' : World}

theorem framed_clearTraces (w : World) : Framed signed w (Seq.clearTraces w) where
  accounts _ _ := rfl
  code _ _ := rfl
  storage _ _ := rfl
  writes key listed := by simp [Seq.clearTraces] at listed
  staking _ := rfl
  params := rfl

theorem Framed.setAccount (framed : Framed signed w w') {addr : Address}
    (own : accountKey addr ∈ inferredKeys signed) (a : Account) :
    Framed signed w (w'.setAccount addr a) :=
  { framed with
    accounts := by
      intro other apart
      have different : other ≠ addr := fun same => apart (same ▸ own)
      rw [World.setAccount,Map.get?_insert,if_neg different]
      exact framed.accounts other apart }

theorem Framed.setCode (framed : Framed signed w w') {addr : Address}
    (own : accountKey addr ∈ inferredKeys signed) (code : Bytes) :
    Framed signed w { w' with code := w'.code.insert addr code } :=
  { framed with
    code := by
      intro other apart
      have different : other ≠ addr := fun same => apart (same ▸ own)
      rw [Map.get?_insert,if_neg different]
      exact framed.code other apart }

theorem Framed.setStaking (framed : Framed signed w w') (stakes : signed.tx.asStake ≠ none)
    (book : StakingState) : Framed signed w { w' with staking := book } :=
  { framed with staking := fun absent => absurd absent stakes }

theorem sender_mem_inferredKeys (valid : Ed25519.publicKeyValid signed.publicKey = true) :
    accountKey (fromEd25519 signed.publicKey) ∈ inferredKeys signed :=
  (mem_inferredKeys valid _).mpr (.inl rfl)

theorem named_mem_inferredKeys (valid : Ed25519.publicKeyValid signed.publicKey = true)
    {addr : Address} (listed : addr ∈ named (fromEd25519 signed.publicKey) signed.tx) :
    accountKey addr ∈ inferredKeys signed :=
  (mem_inferredKeys valid _).mpr (.inr (.inl ⟨addr,listed,rfl⟩))

variable [Wasm]

/-- What a transaction changes lies within its keys, the storage it recorded and, if it is about
stake, the staking ledger. -/
theorem framed_applyTx {receipt : Receipt} (returned : Seq.applyTx w signed = some (w',receipt)) :
    Framed signed w w' := by
  have cleared : Framed signed w (Seq.clearTraces w) := framed_clearTraces w
  cases Seq.applyTx_outcome returned with
  | rejected => exact cleared
  | unstaked payload _ => exact cleared.setStaking (by simp [Tx.asStake,payload]) _
  | staked payload admitted _ _ _ =>
    exact (cleared.setAccount (sender_mem_inferredKeys admitted.valid) _).setStaking
      (by simp [Tx.asStake,payload]) _
  | deployed payload admitted _ =>
    have own : accountKey (WasmCall.createAddress (fromEd25519 signed.publicKey) signed.tx.nonce) ∈
        inferredKeys signed := named_mem_inferredKeys admitted.valid (by simp [named,payload])
    exact ((cleared.setAccount (sender_mem_inferredKeys admitted.valid) _).setAccount own _).setCode
      own _
  | @called c gas paid _ payload admitted _ ran =>
    have before := cleared.setAccount (sender_mem_inferredKeys admitted.valid) paid
    have keeps := KeepsLedger.call ran
    have traced := Traced.call ran
    refine ⟨?_,?_,?_,?_,?_,?_⟩
    · exact fun addr apart => by rw [keeps.accounts]; exact before.accounts addr apart
    · exact fun addr apart => by rw [keeps.code]; exact before.code addr apart
    · exact fun key unlisted => traced.storage key unlisted
    · intro key listed
      rcases traced.recorded key listed with earlier | ⟨slot,same⟩
      · exact before.writes key earlier
      · exact ⟨c,slot,by simp [Tx.asCall,payload],same⟩
    · exact fun absent => keeps.staking.trans (before.staking absent)
    · exact keeps.params.trans before.params
  | @transferred t gas pay paid payload admitted _ _ =>
    have own : accountKey t.toAddr ∈ inferredKeys signed :=
      named_mem_inferredKeys admitted.valid (by simp [named,payload])
    exact (cleared.setAccount (sender_mem_inferredKeys admitted.valid) _).setAccount own _

end Frame

section Dependence

variable [Blake3] [Ed25519]

/-- Two worlds agree in all that a transaction may look at. -/
structure Agree (signed : SignedTx) (w q : World) : Prop where
  accounts : ∀ addr, accountKey addr ∈ inferredKeys signed → w.accounts[addr]? = q.accounts[addr]?
  code : ∀ addr, accountKey addr ∈ inferredKeys signed → w.code[addr]? = q.code[addr]?
  storage : ∀ c, signed.tx.asCall = some c → ∀ slot,
    w.storage[storageKey c.toAddr slot]? = q.storage[storageKey c.toAddr slot]?
  staking : signed.tx.asStake ≠ none → w.staking = q.staking ∧ w.params = q.params

/-- Two results of a transaction that tell the same: equal receipts, equal traces, and worlds
that agree in all that the transaction may look at. -/
structure Alike (signed : SignedTx) (first second : World × Receipt) : Prop where
  receipt : first.2 = second.2
  agree : Agree signed first.1 second.1
  reads : first.1.storageReads = second.1.storageReads
  writes : first.1.storageWrites = second.1.storageWrites

variable {signed : SignedTx} {w q w' q' : World}

namespace Agree

theorem account (agree : Agree signed w q) {addr : Address}
    (own : accountKey addr ∈ inferredKeys signed) : w.account addr = q.account addr := by
  rw [World.account,World.account,agree.accounts addr own]

theorem clearTraces (agree : Agree signed w q) :
    Agree signed (Seq.clearTraces w) (Seq.clearTraces q) :=
  ⟨agree.accounts,agree.code,agree.storage,agree.staking⟩

theorem setAccount (agree : Agree signed w q) (addr : Address) (a : Account) :
    Agree signed (w.setAccount addr a) (q.setAccount addr a) :=
  { agree with
    accounts := by
      intro other own
      simp only [World.setAccount,Map.get?_insert]
      split
      · rfl
      · exact agree.accounts other own }

theorem setCode (agree : Agree signed w q) (addr : Address) (code : Bytes) :
    Agree signed { w with code := w.code.insert addr code }
      { q with code := q.code.insert addr code } :=
  { agree with
    code := by
      intro other own
      simp only [Map.get?_insert]
      split
      · rfl
      · exact agree.code other own }

theorem setStaking (agree : Agree signed w q) (book : StakingState) :
    Agree signed { w with staking := book } { q with staking := book } :=
  { agree with staking := fun stakes => ⟨rfl,(agree.staking stakes).2⟩ }

end Agree


theorem Alike.fail (agree : Agree signed w q) (reads : w.storageReads = q.storageReads)
    (writes : w.storageWrites = q.storageWrites) (reason : RejectReason) :
    Alike signed (w,.fail reason) (q,.fail reason) :=
  ⟨rfl,agree,reads,writes⟩

section Payloads

variable {sender : Address} {account : Account} {gas : U64} {first second : World × Receipt}
  (agree : Agree signed w q) (reads : w.storageReads = q.storageReads)
  (writes : w.storageWrites = q.storageWrites)

include agree reads writes

theorem alike_applyStake {s : StakePayload} (payload : signed.tx.payload = .stake s)
    (ran : Seq.applyStake w sender account gas signed.tx s = some first)
    (ran' : Seq.applyStake q sender account gas signed.tx s = some second) :
    Alike signed first second := by
  obtain ⟨staking,params⟩ := agree.staking (by simp [Tx.asStake,payload])
  have told : Staking.applyStakeTx q.staking q.params sender signed.tx =
      Staking.applyStakeTx w.staking w.params sender signed.tx := by rw [staking,params]
  unfold Seq.applyStake at ran ran'
  rw [told] at ran'
  cases passed : valueBalanceCheck signed.tx (Seq.stakeDebit s) account with
  | error e =>
    simp only [passed] at ran ran'
    cases ran
    cases ran'
    exact .fail agree reads writes _
  | ok _ =>
    rcases staked : Staking.applyStakeTx w.staking w.params sender signed.tx with
      _ | ⟨book,e | _⟩
    · simp only [passed,staked] at ran
      cases ran
    · simp only [passed,staked] at ran ran'
      cases ran
      cases ran'
      exact ⟨rfl,agree.setStaking _,reads,writes⟩
    · cases sum : checkedAdd (Seq.stakeDebit s) signed.tx.maxFee with
      | none =>
        simp only [passed,staked,sum] at ran
        cases ran
      | some pay =>
        cases charged : Seq.charge account pay with
        | none =>
          simp only [passed,staked,sum,charged] at ran
          cases ran
        | some paid =>
          simp only [passed,staked,sum,charged] at ran ran'
          cases ran
          cases ran'
          exact ⟨rfl,(agree.setAccount _ _).setStaking _,reads,writes⟩

theorem alike_applyTransfer {t : Transfer} (own : accountKey t.toAddr ∈ inferredKeys signed)
    (ran : Seq.applyTransfer w sender account gas signed.tx t = some first)
    (ran' : Seq.applyTransfer q sender account gas signed.tx t = some second) :
    Alike signed first second := by
  unfold Seq.applyTransfer at ran ran'
  cases passed : balanceCheck signed.tx t account with
  | error e =>
    simp only [passed] at ran ran'
    cases ran
    cases ran'
    exact .fail agree reads writes _
  | ok _ =>
    cases sum : checkedAdd t.amount signed.tx.maxFee with
    | none =>
      simp only [passed,sum] at ran
      cases ran
    | some pay =>
      cases charged : Seq.charge account pay with
      | none =>
        simp only [passed,sum,charged] at ran
        cases ran
      | some paid =>
        -- the recipient is looked up after the payment, in worlds that still agree
        have same := (agree.setAccount sender paid).account own
        simp only [passed,sum,charged,← same] at ran ran'
        cases ran
        cases ran'
        exact ⟨rfl,(agree.setAccount _ _).setAccount _ _,reads,writes⟩

variable [Wasm]

theorem alike_applyDeploy {d : Deploy}
    (own : accountKey (WasmCall.createAddress sender signed.tx.nonce) ∈ inferredKeys signed)
    (ran : Seq.applyDeploy w sender account gas signed.tx d = some first)
    (ran' : Seq.applyDeploy q sender account gas signed.tx d = some second) :
    Alike signed first second := by
  unfold Seq.applyDeploy WasmCall.install at ran ran'
  cases passed : valueBalanceCheck signed.tx 0 account with
  | error e =>
    simp only [passed] at ran ran'
    cases ran
    cases ran'
    exact .fail agree reads writes _
  | ok _ =>
    cases prepared : WasmCall.prepare signed.tx d with
    | error e =>
      simp only [passed,prepared] at ran ran'
      cases ran
      cases ran'
      exact .fail agree reads writes _
    | ok _ =>
      cases charged : Seq.charge account signed.tx.maxFee with
      | none =>
        simp only [passed,prepared,charged] at ran
        cases ran
      | some paid =>
        have same := (agree.setAccount sender paid).account own
        cases valid : WasmCall.validateWasm d.code with
        | error e =>
          simp only [passed,prepared,charged,valid] at ran ran'
          cases ran
          cases ran'
          exact .fail agree reads writes _
        | ok _ =>
          simp only [passed,prepared,charged,valid,← same] at ran ran'
          cases ran
          cases ran'
          exact ⟨rfl,((agree.setAccount _ _).setAccount _ _).setCode _ _,reads,writes⟩

theorem alike_applyCall {c : Call} (payload : signed.tx.payload = .call c)
    (own : accountKey c.toAddr ∈ inferredKeys signed) (idle : w.executing = ∅)
    (idle' : q.executing = ∅) (ran : Seq.applyCall w sender account gas signed.tx c = some first)
    (ran' : Seq.applyCall q sender account gas signed.tx c = some second) :
    Alike signed first second := by
  have called : signed.tx.asCall = some c := by simp [Tx.asCall,payload]
  have code := agree.code c.toAddr own
  unfold Seq.applyCall at ran ran'
  rw [← code] at ran'
  cases passed : valueBalanceCheck signed.tx 0 account with
  | error e =>
    simp only [passed] at ran ran'
    cases ran
    cases ran'
    exact .fail agree reads writes _
  | ok _ =>
    cases present : w.code[c.toAddr]? with
    | none =>
      simp only [passed,present] at ran ran'
      cases ran
      cases ran'
      exact .fail agree reads writes _
    | some _ =>
      cases charged : Seq.charge account signed.tx.maxFee with
      | none =>
        simp only [passed,present,charged] at ran
        cases ran
      | some paid =>
        have host : SameHost c.toAddr (w.setAccount sender paid) (q.setAccount sender paid) :=
          ⟨agree.storage c called,reads,writes⟩
        simp only [passed,present,charged] at ran ran'
        rcases returned : WasmCall.call (w.setAccount sender paid) c
            (WasmCall.fuelBudget signed.tx gas) with _ | ⟨after,result⟩
        · simp only [returned] at ran
          cases ran
        rcases returned' : WasmCall.call (q.setAccount sender paid) c
            (WasmCall.fuelBudget signed.tx gas) with _ | ⟨after',result'⟩
        · simp only [returned'] at ran'
          cases ran'
        obtain ⟨rfl,same⟩ := host.call code idle idle' rfl returned returned'
        cases result with
        | error e =>
          simp only [returned] at ran
          simp only [returned'] at ran'
          cases ran
          cases ran'
          exact .fail agree reads writes _
        | ok _ =>
          simp only [returned] at ran
          simp only [returned'] at ran'
          cases ran
          cases ran'
          have keeps := KeepsLedger.call returned
          have keeps' := KeepsLedger.call returned'
          have paidAgree := agree.setAccount sender paid
          refine ⟨rfl,⟨?_,?_,?_,?_⟩,same.reads,same.writes⟩
          · rw [keeps.accounts,keeps'.accounts]
            exact paidAgree.accounts
          · rw [keeps.code,keeps'.code]
            exact paidAgree.code
          · intro c' target
            obtain rfl : c = c' := Option.some_inj.mp (called.symm.trans target)
            exact same.storage
          · intro stakes
            simp [Tx.asStake,payload] at stakes

end Payloads

variable [Wasm]

/-- A transaction that two worlds agree for ends alike in both, if it ends. -/
theorem alike_applyTx (agree : Agree signed w q) {first second : World × Receipt}
    (ran : Seq.applyTx w signed = some first) (ran' : Seq.applyTx q signed = some second) :
    Alike signed first second := by
  have cleared := agree.clearTraces
  by_cases bad : verifyEd25519 signed = false
  · simp only [Seq.applyTx,if_pos bad] at ran ran'
    cases ran
    cases ran'
    exact .fail cleared rfl rfl _
  cases valid : Ed25519.publicKeyValid signed.publicKey with
  | false => simp [verifyEd25519,valid] at bad
  | true =>
    have sender := sender_mem_inferredKeys valid
    have known : senderAddress signed = .ok (fromEd25519 signed.publicKey) := by
      simp [senderAddress,valid]
    simp only [Seq.applyTx,if_neg bad,known,← cleared.account sender] at ran ran'
    cases passed : nonceCheck signed.tx
        ((Seq.clearTraces w).account (fromEd25519 signed.publicKey)) with
    | error e =>
      simp only [passed] at ran ran'
      cases ran
      cases ran'
      exact .fail cleared rfl rfl _
    | ok _ =>
      cases metered : gasMeter signed.tx with
      | error e =>
        simp only [passed,metered] at ran ran'
        cases ran
        cases ran'
        exact .fail cleared rfl rfl _
      | ok gas =>
        simp only [passed,metered,Seq.applyPayload] at ran ran'
        cases payload : signed.tx.payload with
        | stake s =>
          simp only [payload] at ran ran'
          exact alike_applyStake cleared rfl rfl payload ran ran'
        | deploy d =>
          simp only [payload] at ran ran'
          exact alike_applyDeploy cleared rfl rfl
            (named_mem_inferredKeys valid (by simp [named,payload])) ran ran'
        | call c =>
          simp only [payload] at ran ran'
          exact alike_applyCall cleared rfl rfl payload
            (named_mem_inferredKeys valid (by simp [named,payload])) rfl rfl ran ran'
        | transfer t =>
          simp only [payload] at ran ran'
          exact alike_applyTransfer cleared rfl rfl
            (named_mem_inferredKeys valid (by simp [named,payload])) ran ran'

/-- A transaction changes nothing outside its footprint, and in two worlds that agree in what it
may look at it gives one receipt and writes the same; in a sound world it gives a receipt. -/
theorem applyTx_footprint (signed : SignedTx) (w q : World) :
    (∀ w' receipt, Seq.applyTx w signed = some (w',receipt) → Framed signed w w') ∧
    (Agree signed w q → ∀ first second, Seq.applyTx w signed = some first →
      Seq.applyTx q signed = some second → Alike signed first second) ∧
    (w.Sound → ∃ w' receipt, Seq.applyTx w signed = some (w',receipt)) := by
  refine ⟨fun w' receipt returned => framed_applyTx returned,?_,?_⟩
  · exact fun agree first second ran ran' => alike_applyTx agree ran ran'
  · intro sound
    obtain ⟨w',receipt,returned,-⟩ := Seq.applyTx_total sound signed
    exact ⟨w',receipt,returned⟩

omit [Wasm] in
theorem agree_of_sameAt (same : ∀ k ∈ inferredKeys signed, SameAt k w q) : Agree signed w q where
  accounts addr own := (same _ own).accounts addr rfl
  code addr own := (same _ own).code addr rfl
  storage c called slot := (same _ (contract_mem called)).storage _ (take_storageKey c.toAddr slot)
  staking stakes :=
    have at_ := same _ (stakingSlot_mem stakes)
    ⟨at_.staking rfl,at_.params⟩

theorem sameAt_depends {r r' : Receipt} (same : ∀ k ∈ inferredKeys signed, SameAt k w q)
    (ran : Seq.applyTx w signed = some (w',r)) (ran' : Seq.applyTx q signed = some (q',r')) :
    r = r' ∧ ∀ k ∈ inferredKeys signed, SameAt k w' q' := by
  have alike := alike_applyTx (agree_of_sameAt same) ran ran'
  have framed := framed_applyTx ran
  have framed' := framed_applyTx ran'
  refine ⟨alike.receipt,fun k own => ⟨?_,?_,?_,?_,?_⟩⟩
  · rintro addr rfl
    exact alike.agree.accounts addr own
  · rintro addr rfl
    exact alike.agree.code addr own
  · intro key part
    by_cases written : key ∈ w'.storageWrites
    · obtain ⟨c,slot,called,rfl⟩ := framed.writes key written
      exact alike.agree.storage c called slot
    · have unwritten : key ∉ q'.storageWrites := fun listed => written (alike.writes.symm ▸ listed)
      rw [framed.storage key written,framed'.storage key unwritten]
      exact (same k own).storage key part
  · rintro rfl
    exact (alike.agree.staking (stakingSlot_mem_iff.mp own)).1
  · rw [framed.params,framed'.params]
    exact (same k own).params

theorem sameAt_frame {r : Receipt} {k : Bytes} (ran : Seq.applyTx w signed = some (w',r))
    (apart : k ∉ inferredKeys signed) : SameAt k w w' := by
  have framed := framed_applyTx ran
  refine ⟨?_,?_,?_,?_,framed.params.symm⟩
  · rintro addr rfl
    exact (framed.accounts addr apart).symm
  · rintro addr rfl
    exact (framed.code addr apart).symm
  · intro key part
    refine (framed.storage key fun written => ?_).symm
    obtain ⟨c,slot,called,rfl⟩ := framed.writes key written
    rw [take_storageKey] at part
    exact apart (part ▸ contract_mem called)
  · rintro rfl
    refine (framed.staking ?_).symm
    by_contra stakes
    exact apart (stakingSlot_mem stakes)

end Dependence

end Stm
end L1
