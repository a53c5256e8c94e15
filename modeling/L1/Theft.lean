import L1.Conservation

/-! What a transaction does to the holdings of addresses other than its sender. -/
namespace L1.Holdings

open L1.Seq

def received (tx : Tx) (addr : Address) : Nat :=
  match tx.payload with
  | .transfer t => if t.toAddr = addr then t.amount.toNat else 0
  | _ => 0

/-- The slot that an unbond is put in holds nothing of anyone else. -/
def SlotFree (world : World) (sender : Address) (tx : Tx) : Prop :=
  ∀ s, tx.payload = .stake s → s.kind = .unbond →
    ∀ e, world.staking.pendingUnbond[world.staking.nextUnbond]? = some e →
      e.owner = sender ∨ e.amount = 0

theorem gained_only (tx : Tx) (addr : Address) : gained (only addr) tx = received tx addr := by
  unfold gained received
  cases tx.payload <;> simp [counted_only]

/-- What another address loses by a transaction is only what its slot held. -/
theorem lost_only {world : World} {sender addr : Address} {tx : Tx} (apart : addr ≠ sender) :
    lost (only addr) world sender tx = 0 ↔
      ∀ s, tx.payload = .stake s → s.kind = .unbond →
        ∀ e, world.staking.pendingUnbond[world.staking.nextUnbond]? = some e →
          e.owner = addr → e.amount = 0 := by
  have fee : ∀ amount, counted (only addr) (some sender) amount = 0 := by
    intro amount
    rw [counted_only,if_neg (Ne.symm apart)]
  unfold lost
  simp only [fee,Nat.zero_add]
  cases payload : tx.payload with
  | transfer t => simp
  | deploy d => simp
  | call c => simp
  | stake s =>
    simp only [TxPayload.stake.injEq,forall_eq']
    cases kind : s.kind with
    | bond => simp
    | delegate => simp
    | withdraw => simp
    | undelegate => simp
    | unbond =>
      simp only [forall_const]
      unfold slotShare Map.part
      cases held : world.staking.pendingUnbond[world.staking.nextUnbond]? with
      | none => simp
      | some e =>
        simp only [Option.elim_some,entryShare,counted_only,Option.some.injEq,forall_eq']
        split
        · rename_i mine
          exact ⟨fun zero _ => BitVec.eq_of_toNat_eq zero,fun zero => by rw [zero mine]; rfl⟩
        · rename_i other
          exact ⟨fun _ mine => absurd mine other,fun _ => rfl⟩

theorem slotFree_iff {world : World} {sender : Address} {tx : Tx} :
    (∀ addr, addr ≠ sender → lost (only addr) world sender tx = 0) ↔ SlotFree world sender tx := by
  constructor
  · intro none s payload kind e held
    by_cases mine : e.owner = sender
    · exact .inl mine
    · exact .inr ((lost_only mine).mp (none e.owner mine) s payload kind e held rfl)
  · intro free addr apart
    refine (lost_only apart).mpr fun s payload kind e held owner => ?_
    rcases free s payload kind e held with mine | zero
    · exact absurd (owner.symm.trans mine) apart
    · exact zero

section Theft

variable [Wasm] [Blake3] [Ed25519] [Bls]

/-- In every reachable world, the holdings of others change only by transfers to them if and
only if the transaction is not an unbond into an occupied slot; and no step makes value. -/
theorem others_untouched_iff (g : Genesis) (steps : List Step) (c : Chain)
    (small : allocated g < 2^128) (reached : run (start g) steps = some c) :
    (∀ signed world' receipt, applyTx c.world signed = some (world',receipt) →
      (receipt.success = false → ∀ addr, addr ≠ fromEd25519 signed.publicKey →
        holdings world' addr = holdings c.world addr) ∧
      (receipt.success = true →
        ((∀ addr, addr ≠ fromEd25519 signed.publicKey →
          holdings world' addr = holdings c.world addr + received signed.tx addr) ↔
        SlotFree c.world (fromEd25519 signed.publicKey) signed.tx))) ∧
    (∀ step c', next c step = some c' → total c'.world ≤ total c.world) := by
  have fits := reachable_fits small reached
  refine ⟨fun signed world' receipt applied => ?_,fun step c' stepped => total_next fits stepped⟩
  have settled (addr : Address) (apart : addr ≠ fromEd25519 signed.publicKey) :=
    applyTx_settled (only addr) (by simp [only,Ne.symm apart]) fits applied
  refine ⟨fun failed addr apart => (settled addr apart).failed failed,fun success => ?_⟩
  rw [← slotFree_iff]
  refine forall_congr' fun addr => forall_congr' fun apart => ?_
  have equation := (settled addr apart).success success
  rw [gained_only] at equation
  unfold holdings
  omega

end Theft

namespace Sample

attribute [local instance] blake3 ed25519 wasm LoneSigner.bls

/-- A delegation leaves the holdings of everyone else alone. -/
theorem delegation_touches_nobody :
    applyTx (start genesis).world delegation = some delegated ∧ delegated.2.success = true ∧
      ∀ addr, addr ≠ fromEd25519 delegation.publicKey →
        holdings delegated.1 addr =
          holdings (start genesis).world addr + received delegation.tx addr := by
  have applied : applyTx (start genesis).world delegation = some delegated :=
    (Option.some_get _).symm
  have success : delegated.2.success = true := by decide +kernel
  refine ⟨applied,success,?_⟩
  refine (((others_untouched_iff genesis [] (start genesis) (by decide +kernel) rfl).1 delegation
    delegated.1 delegated.2 applied).2 success).mpr ?_
  intro s payload
  cases payload
  exact fun kind => by simp at kind

end Sample

/-! The slot of an unbond is a counter that stops at the last one. A closed run fills all
slots with empty unbonds, so that two unbonds share the last. -/
section LastSlot

variable [Wasm] [Blake3] [Ed25519]

def unbonded (world : World) (sender : Address) (account : Account) (id : ValidatorId)
    (amount rest : Amount) : World :=
  { (clearTraces world).setAccount sender { account with nonce := nextNonce account.nonce } with
    staking := { world.staking with
      selfBond := world.staking.selfBond.insert id rest
      nextUnbond := saturatingAdd world.staking.nextUnbond 1
      pendingUnbond := world.staking.pendingUnbond.insert world.staking.nextUnbond
        (Staking.unbondEntry world.staking world.params sender id amount) } }

/-- A free unbond by the operator of a validator, with all it changes. -/
theorem applyTx_unbond {world : World} {signed : SignedTx} {account : Account} {id : ValidatorId}
    {s : StakePayload} {bond rest : Amount} (payload : signed.tx.payload = .stake s)
    (unbond : s.kind = .unbond) (target : s.validator = some id)
    (accepted : verifyEd25519 signed = true) (key : Ed25519.publicKeyValid signed.publicKey = true)
    (free : signed.tx.maxFee = 0) (gas : gasMeter signed.tx = .ok Spec.gasTransfer)
    (known : world.accounts[fromEd25519 signed.publicKey]? = some account)
    (nonce : account.nonce = signed.tx.nonce)
    (operator : world.staking.operator[id]? = some (fromEd25519 signed.publicKey))
    (bonded : world.staking.selfBond[id]? = some bond) (left : checkedSub bond s.amount = some rest)
    (minimum : ¬ (rest ≠ 0 ∧ rest < Staking.minSelfBondAmount world.params)) :
    applyTx world signed = some (
      unbonded world (fromEd25519 signed.publicKey) account id s.amount rest,
      .ok Spec.gasTransfer (.stake (fromEd25519 signed.publicKey) s.amount)) := by
  have sender : senderAddress signed = .ok (fromEd25519 signed.publicKey) := by
    simp [senderAddress,key]
  have found : (clearTraces world).account (fromEd25519 signed.publicKey) = account := by
    simp [World.account,clearTraces,known]
  have current : nonceCheck signed.tx account = .ok () := by simp [nonceCheck,nonce]
  have nothing : checkedAdd (stakeDebit s) signed.tx.maxFee = some 0 := by
    rw [checkedAdd_eq_some,free]
    simp [stakeDebit,unbond]
  have whole : checkedSub account.balance 0 = some account.balance := by
    rw [checkedSub_eq_some]
    simp
  have charged : charge account 0 = some { account with nonce := nextNonce account.nonce } := by
    simp only [charge,whole,Option.map_some]
  have covered : valueBalanceCheck signed.tx (stakeDebit s) account = .ok () := by
    simp only [valueBalanceCheck,nothing,whole,Option.isSome_some,if_true]
  have staked : Staking.applyStakeTx world.staking world.params (fromEd25519 signed.publicKey)
      signed.tx = some ({ world.staking with
        selfBond := world.staking.selfBond.insert id rest
        nextUnbond := saturatingAdd world.staking.nextUnbond 1
        pendingUnbond := world.staking.pendingUnbond.insert world.staking.nextUnbond
          (Staking.unbondEntry world.staking world.params (fromEd25519 signed.publicKey) id
            s.amount) },.ok ()) := by
    have staking : signed.tx.asStake = some s := by rw [Tx.asStake,payload]
    simp only [Staking.applyStakeTx,staking,unbond,target,Staking.unbond,operator,bonded,
      Option.getD_some,left,minimum,ne_eq,not_true_eq_false,if_false,Staking.settle]
  have other : s.kind ≠ .withdraw := by simp [unbond]
  simp only [applyTx,accepted,sender,found,current,gas,applyPayload,payload,applyStake,covered,
    Bool.true_eq_false,if_false]
  have book : (clearTraces world).staking = world.staking := rfl
  have registry : (clearTraces world).params = world.params := rfl
  simp only [book,registry,staked,nothing,charged,if_neg other,unbonded]

end LastSlot

theorem run_append [Wasm] [Blake3] [Ed25519] [Bls] (c : Chain) (first second : List Step) :
    run c (first ++ second) = (run c first).bind (run · second) := by
  induction first generalizing c with
  | nil => rfl
  | cons step rest ih =>
    simp only [List.cons_append,run]
    cases next c step with
    | none => rfl
    | some c => exact ih c

namespace Sample

attribute [local instance] blake3 ed25519 wasm LoneSigner.bls

open LoneSigner (validator)

def lastNonce : Nonce := 2^64 - 1

def crowd : Genesis where
  chainId := 1
  alloc := Std.ExtTreeMap.ofList
    [(address 1,⟨1000,lastNonce,zeroHash⟩),(address 2,⟨1000,0,zeroHash⟩)] compare

def bondOf (tag : UInt8) (nonce : Nonce) : SignedTx :=
  sign tag nonce 0 (Tx.stakeWith .bond StakeKind.bond_ne (validator tag) 100)

def unbondOf (tag : UInt8) (nonce : Nonce) (amount : Amount) : SignedTx :=
  sign tag nonce 0 (Tx.stakeWith .unbond StakeKind.unbond_ne (validator tag) amount)

/-- Taking nothing out still takes a slot. -/
def idle : SignedTx := unbondOf 1 lastNonce 0

def bonds : List Step := [.apply (bondOf 1 lastNonce),.apply (bondOf 2 0)]

/-- A validator of the sample can leave: it has bonded and its account has sent up to a nonce. -/
structure Ready (world : World) (tag : UInt8) (nonce : Nonce) : Prop where
  account : world.accounts[address tag]? = some ⟨900,nonce,zeroHash⟩
  operator : world.staking.operator[validator tag]? = some (address tag)
  bonded : world.staking.selfBond[validator tag]? = some 100
  params : Staking.minSelfBondAmount world.params = 100

def bonded : Chain := (run (start crowd) bonds).get (by decide +kernel)

theorem ready_bonded : Ready bonded.world 1 lastNonce ∧ Ready bonded.world 2 1 ∧
      bonded.world.staking.nextUnbond = 0 := by
  refine ⟨⟨?_,?_,?_,?_⟩,⟨?_,?_,?_,?_⟩,?_⟩ <;> decide +kernel

theorem key_of (tag : UInt8) : fromEd25519 (address tag) = address tag := fixed_toList _

abbrev left (world : World) (tag : UInt8) (nonce : Nonce) (amount rest : Amount) : World :=
  unbonded world (address tag) ⟨900,nonce,zeroHash⟩ (validator tag) amount rest

variable {world : World} {tag : UInt8} {nonce : Nonce} {amount rest : Amount}

theorem Ready.leaves (ready : Ready world tag nonce) (remains : checkedSub 100 amount = some rest)
    (minimum : ¬ (rest ≠ 0 ∧ rest < 100)) :
    applyTx world (unbondOf tag nonce amount) = some (left world tag nonce amount rest,
      .ok Spec.gasTransfer (.stake (address tag) amount)) := by
  have gas : gasMeter (unbondOf tag nonce amount).tx = .ok Spec.gasTransfer := by
    simp [gasMeter,unbondOf,sign,Tx.stakeWith,gasCost,Spec.maxGas,Spec.gasTransfer]
  have applied := @applyTx_unbond _ _ _ world (unbondOf tag nonce amount) ⟨900,nonce,zeroHash⟩
    (validator tag) ⟨.unbond,some (validator tag),amount,by simp⟩ 100 rest
  rw [show fromEd25519 (unbondOf tag nonce amount).publicKey = address tag from key_of tag] at applied
  exact applied rfl rfl rfl rfl rfl rfl gas ready.account rfl ready.operator ready.bonded remains
    (by rw [ready.params]; exact minimum)

/-- Another validator's unbond changes nothing of a validator. -/
theorem Ready.other {tag' : UInt8} {nonce' : Nonce}
    (ready : Ready world tag nonce) (addresses : address tag ≠ address tag')
    (validators : validator tag ≠ validator tag') :
    Ready (left world tag' nonce' amount rest) tag nonce where
  account := by simp [left,unbonded,World.setAccount,clearTraces,Map.get?_insert,addresses,ready.account]
  operator := ready.operator
  bonded := by simp [left,unbonded,Map.get?_insert,validators,ready.bonded]
  params := ready.params

theorem nextNonce_lastNonce : nextNonce lastNonce = lastNonce := by decide +kernel

theorem Ready.idle (ready : Ready world 1 lastNonce) :
    applyTx world idle = some (left world 1 lastNonce 0 100,
      .ok Spec.gasTransfer (.stake (address 1) 0)) ∧
    Ready (left world 1 lastNonce 0 100) 1 lastNonce := by
  refine ⟨ready.leaves (by decide) (by decide),?_,ready.operator,?_,ready.params⟩
  · simp [left,unbonded,World.setAccount,nextNonce_lastNonce]
  · simp [left,unbonded]

/-- Empty unbonds move the slot on, one by one. -/
theorem idle_run (count : Nat) (c : Chain) (room : c.world.staking.nextUnbond.toNat + count < 2^64)
    (idler : Ready c.world 1 lastNonce) (saver : Ready c.world 2 1) :
    ∃ c', run c (List.replicate count (.apply idle)) = some c' ∧
      Ready c'.world 1 lastNonce ∧ Ready c'.world 2 1 ∧
      c'.world.staking.nextUnbond.toNat = c.world.staking.nextUnbond.toNat + count := by
  induction count generalizing c with
  | zero => exact ⟨c,rfl,idler,saver,rfl⟩
  | succ count ih =>
    obtain ⟨applied,ready⟩ := idler.idle
    have slot : (saturatingAdd c.world.staking.nextUnbond 1).toNat =
        c.world.staking.nextUnbond.toNat + 1 := by
      rw [toNat_saturatingAdd]
      simp
      omega
    obtain ⟨c',reached,idler',saver',last⟩ := ih { c with world := left c.world 1 lastNonce 0 100 }
      (by simp only [left,unbonded,slot]; omega) ready
      (saver.other (by decide) (by decide))
    refine ⟨c',?_,idler',saver',?_⟩
    · simp only [List.replicate_succ,run,next,applied]
      exact reached
    · rw [last]
      simp only [left,unbonded,slot]
      omega

/-- The second validator leaves with the last slot: its unbond waits there, and the next one
goes there too. -/
theorem last_slot_run : ∃ steps c, run (start crowd) steps = some c ∧ Ready c.world 1 lastNonce ∧
      slotShare (only (address 2)) c.world.staking = 100 := by
  obtain ⟨idler,saver,first⟩ := ready_bonded
  have bonding : run (start crowd) bonds = some bonded := (Option.some_get _).symm
  have room : bonded.world.staking.nextUnbond.toNat + (2^64 - 1) < 2^64 := by rw [first]; decide
  obtain ⟨c,reached,idler,saver,last⟩ := idle_run (2^64 - 1) bonded room idler saver
  have slot : saturatingAdd c.world.staking.nextUnbond 1 = c.world.staking.nextUnbond := by
    apply BitVec.eq_of_toNat_eq
    rw [toNat_saturatingAdd,last,first]
    decide
  have leaves := saver.leaves (show checkedSub 100 100 = some 0 by decide) (by decide)
  refine ⟨bonds ++ List.replicate (2^64 - 1) (.apply idle) ++ [.apply (unbondOf 2 1 100)],
    { c with world := left c.world 2 1 100 0 },?_,idler.other (by decide) (by decide),?_⟩
  · rw [run_append,run_append,bonding,Option.bind_some,reached,Option.bind_some]
    simp only [run,next,leaves,Option.map_some]
  · simp only [slotShare,Map.part,left,unbonded,slot,Map.get?_insert,if_true,Option.elim_some,
      entryShare,Staking.unbondEntry,counted_only]
    rfl

/-- A withdrawal of nothing by one operator wipes out the pending unbond of another. -/
theorem idle_unbond_takes_pending :
    ∃ steps c world' receipt, run (start crowd) steps = some c ∧
      applyTx c.world idle = some (world',receipt) ∧ receipt.success = true ∧
      fromEd25519 idle.publicKey = address 1 ∧ address 2 ≠ address 1 ∧
      received idle.tx (address 2) = 0 ∧
      holdings world' (address 2) + 100 = holdings c.world (address 2) := by
  obtain ⟨steps,c,reached,idler,pending⟩ := last_slot_run
  have small : allocated crowd < 2^128 := by decide +kernel
  have apart : address 2 ≠ address 1 := by decide
  refine ⟨steps,c,_,_,reached,idler.idle.1,rfl,key_of 1,apart,rfl,?_⟩
  have sender : fromEd25519 idle.publicKey = address 1 := key_of 1
  have settled := (applyTx_settled (only (address 2)) (by rw [sender]; simp [only,apart.symm])
    (reachable_fits small reached) idler.idle.1).success rfl
  have taken : lost (only (address 2)) c.world (fromEd25519 idle.publicKey) idle.tx = 100 := by
    rw [sender]
    simp only [lost,idle,unbondOf,sign,Tx.stakeWith,pending,counted_only,if_neg apart.symm,
      Nat.zero_add]
  rw [taken] at settled
  exact settled

end Sample
end L1.Holdings
