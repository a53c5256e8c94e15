import L1.Outcome

/-! The gate of the transaction pool and the queues behind it. -/
namespace L1

open L1.Seq

/-- Pending transactions by sender, then nonce. A transaction sits under its own nonce. -/
structure Mempool where
  queued : Map Address (Map Nonce SignedTx) := ∅
  accountNonce : Map Address Nonce := ∅
  minFee : U128
  maxTxs : Nat
  maxBytes : Nat
  keyed : ∀ (addr : Address) (queue : Map Nonce SignedTx) (nonce : Nonce) (signed : SignedTx),
    queued[addr]? = some queue → queue[nonce]? = some signed → signed.tx.nonce = nonce

/-- Failures while handing objects on between the parts of a node. -/
inductive WireError where
  | gossip | propose | prevote | commit | store
  deriving DecidableEq, Repr

namespace Mempool

inductive VerifyError where
  | signature | wrongNonce | insufficientBalance | gas | minFee | mempoolFull | rbfTooLow
  | txTooLarge
  deriving DecidableEq, Repr

def VerifyError.ofReason : RejectReason → VerifyError
  | .signature => .signature
  | .wrongNonce => .wrongNonce
  | .insufficientBalance => .insufficientBalance
  | .gas => .gas
  | .stakeMinBond | .stakeTombstone | .stakeUnbonding | .stakeInsufficient => .insufficientBalance
  | .wasmInvalid | .wasmGas | .wasmReentrancy | .wasmNoCode => .gas

/-- The floor of fees; the registry must know the gas of a block. -/
def minFeeFloor (registry : ParamsRegistry) : Option U128 :=
  match registry.get .maxGas with
  | none => none
  | some _ => some Spec.minTxFee

def withLimits (minFee : U128) (maxTxs maxBytes : Nat) : Mempool where
  minFee
  maxTxs
  maxBytes
  keyed := by simp

def new (registry : ParamsRegistry) : Option Mempool :=
  match minFeeFloor registry with
  | none => none
  | some floor => some (withLimits floor Spec.mempoolMaxTxs.toNat Spec.maxBlockBytes.toNat)

def debit : TxPayload → Amount
  | .stake s => stakeDebit s
  | .deploy _ => 0
  | .call _ => 0
  | .transfer t => t.amount

/-- The sender can pay, by the check of its kind of payload. -/
def fundsCheck (tx : Tx) (account : Account) : Except CheckError Unit :=
  match tx.payload with
  | .stake s => valueBalanceCheck tx (stakeDebit s) account
  | .deploy _ => valueBalanceCheck tx 0 account
  | .call _ => valueBalanceCheck tx 0 account
  | .transfer t => balanceCheck tx t account

/-- A nonce in the future is checked as if its turn had come. -/
def accountForNonceCheck (tx : Tx) (account : Account) : Except VerifyError Account :=
  if tx.nonce < account.nonce then
    match nonceCheck tx account with
    | .error e => .error (.ofReason e.reason)
    | .ok () => .error .wrongNonce
  else .ok { account with nonce := tx.nonce }

section Gate

variable [Ed25519] [Blake3]

def senderAddress (signed : SignedTx) : Except VerifyError Address :=
  if Ed25519.publicKeyValid signed.publicKey then .ok (fromEd25519 signed.publicKey)
  else .error .signature

/-- The checks of execution, against the live account. -/
def verify (signed : SignedTx) (account : Account) : Except VerifyError Unit :=
  if verifyEd25519 signed = false then .error .signature
  else match gasMeter signed.tx with
    | .error e => .error (.ofReason e.reason)
    | .ok _ => match fundsCheck signed.tx account with
      | .error e => .error (.ofReason e.reason)
      | .ok () => match accountForNonceCheck signed.tx account with
        | .error e => .error e
        | .ok nonceAccount => match nonceCheck signed.tx nonceAccount with
          | .error e => .error (.ofReason e.reason)
          | .ok () => .ok ()

end Gate

def queue (pool : Mempool) (addr : Address) : Map Nonce SignedTx := (pool.queued[addr]?).getD ∅

/-- Enqueue a transaction that has been verified, over any with its sender and nonce. -/
def admitPreverified (pool : Mempool) (signed : SignedTx) (addr : Address) : Mempool where
  queued := pool.queued.insert addr ((pool.queue addr).insert signed.tx.nonce signed)
  accountNonce := pool.accountNonce
  minFee := pool.minFee
  maxTxs := pool.maxTxs
  maxBytes := pool.maxBytes
  keyed := by
    intro other found nonce other' listed held
    rw [Map.get?_insert] at listed
    split at listed
    · cases listed
      rw [Map.get?_insert] at held
      split at held
      · cases held
        exact Eq.symm ‹_›
      · cases before : pool.queued[addr]? with
        | none => simp [queue,before] at held
        | some q =>
          rw [queue,before] at held
          exact pool.keyed addr q nonce other' before held
    · exact pool.keyed other found nonce other' listed held

def Holds (pool : Mempool) (signed : SignedTx) : Prop :=
  ∃ (addr : Address) (nonce : Nonce), (pool.queue addr)[nonce]? = some signed

@[simp] theorem not_holds_withLimits (minFee : U128) (maxTxs maxBytes : Nat) (signed : SignedTx) :
    ¬ (withLimits minFee maxTxs maxBytes).Holds signed := by
  simp [Holds,queue,withLimits]

theorem queue_admitPreverified (pool : Mempool) (signed : SignedTx) (addr other : Address) :
    (pool.admitPreverified signed addr).queue other =
      if other = addr then (pool.queue addr).insert signed.tx.nonce signed
      else pool.queue other := by
  rw [queue,admitPreverified,Map.get?_insert]
  split <;> rfl

theorem holds_admitted (pool : Mempool) (signed : SignedTx) (addr : Address) :
    (pool.admitPreverified signed addr).Holds signed :=
  ⟨addr,signed.tx.nonce,by rw [queue_admitPreverified,if_pos rfl,Map.get?_insert,if_pos rfl]⟩

variable {account : Account} {signed : SignedTx} {pool : Mempool} {tx : Tx}

theorem holds_of_admitPreverified {other : SignedTx} {addr : Address}
    (held : (pool.admitPreverified signed addr).Holds other) : other = signed ∨ pool.Holds other := by
  obtain ⟨a,nonce,found⟩ := held
  rw [queue_admitPreverified] at found
  split at found
  · rw [Map.get?_insert] at found
    split at found
    · exact .inl (Option.some.inj found).symm
    · exact .inr ⟨addr,nonce,found⟩
  · exact .inr ⟨a,nonce,found⟩

section Wire

variable [Ed25519] [Blake3]

def ingestTx (signed : SignedTx) (account : Account) : Except VerifyError Unit :=
  verify signed account

/-- A transaction from gossip enters its queue. The best ready transaction is looked up
afterwards, and dropped. -/
def wireMempool (signed : SignedTx) (account : Account) (pool : Mempool) :
    Except WireError Mempool :=
  match ingestTx signed account with
  | .error _ => .error .gossip
  | .ok () => match senderAddress signed with
    | .error _ => .error .gossip
    | .ok addr => .ok (pool.admitPreverified signed addr)

end Wire

/-! What the gate lets in. -/

theorem fundsCheck_eq (tx : Tx) (account : Account) :
    fundsCheck tx account = valueBalanceCheck tx (debit tx.payload) account := by
  unfold fundsCheck debit
  split <;> rfl

/-- Signature, gas, funds and a nonce that has not passed: all that the gate asks for. -/
structure Admissible [Ed25519] (signed : SignedTx) (account : Account) : Prop where
  verified : verifyEd25519 signed = true
  metered : ∃ gas, gasMeter signed.tx = .ok gas
  funded : (debit signed.tx.payload).toNat + signed.tx.maxFee.toNat ≤ account.balance.toNat
  current : account.nonce.toNat ≤ signed.tx.nonce.toNat

theorem valueBalanceCheck_ok_iff {amount : Amount} : valueBalanceCheck tx amount account = .ok () ↔
      amount.toNat + tx.maxFee.toNat ≤ account.balance.toNat := by
  constructor
  · intro passed
    obtain ⟨need,rest,sum,left⟩ := valueBalanceCheck_ok passed
    rw [checkedAdd_eq_some] at sum
    rw [checkedSub_eq_some] at left
    omega
  · intro covered
    have bound := account.balance.isLt
    have fits : amount.toNat + tx.maxFee.toNat < 2^128 := by omega
    have need : (amount + tx.maxFee).toNat = amount.toNat + tx.maxFee.toNat := by
      rw [BitVec.toNat_add,Nat.mod_eq_of_lt fits]
    have left : checkedSub account.balance (amount + tx.maxFee) =
        some (account.balance - (amount + tx.maxFee)) := if_pos (by omega)
    simp only [valueBalanceCheck,checkedAdd,if_pos fits,left,Option.isSome_some,if_true]

theorem accountForNonceCheck_ok_iff {nonceAccount : Account} :
    accountForNonceCheck tx account = .ok nonceAccount ↔
      account.nonce.toNat ≤ tx.nonce.toNat ∧ nonceAccount = { account with nonce := tx.nonce } := by
  unfold accountForNonceCheck
  split
  · rename_i passed
    rw [BitVec.lt_def] at passed
    constructor
    · intro accepted
      split at accepted <;> cases accepted
    · rintro ⟨current,-⟩
      omega
  · rename_i current
    rw [BitVec.lt_def] at current
    rw [Except.ok.injEq]
    constructor
    · rintro rfl
      exact ⟨by omega,rfl⟩
    · rintro ⟨-,rfl⟩
      rfl

variable [Ed25519]

theorem verify_ok_iff : verify signed account = .ok () ↔ Admissible signed account := by
  constructor
  · intro accepted
    unfold verify at accepted
    split at accepted
    · cases accepted
    rename_i verified
    split at accepted
    · cases accepted
    rename_i gas metered
    split at accepted
    · cases accepted
    rename_i funded
    split at accepted
    · cases accepted
    rename_i current
    rw [fundsCheck_eq,valueBalanceCheck_ok_iff] at funded
    exact ⟨by simpa using verified,⟨gas,metered⟩,funded,(accountForNonceCheck_ok_iff.mp current).1⟩
  · rintro ⟨verified,⟨gas,metered⟩,funded,current⟩
    have paid : fundsCheck signed.tx account = .ok () := by
      rw [fundsCheck_eq]
      exact valueBalanceCheck_ok_iff.mpr funded
    simp only [verify,verified,Bool.true_eq_false,if_false,metered,paid,
      accountForNonceCheck_ok_iff.mpr ⟨current,rfl⟩,nonceCheck,if_true]

variable [Blake3]

/-- The pool gains exactly what passes the gate. -/
theorem wireMempool_ok_iff {pool' : Mempool} : wireMempool signed account pool = .ok pool' ↔
      Admissible signed account ∧
        pool' = pool.admitPreverified signed (fromEd25519 signed.publicKey) := by
  unfold wireMempool ingestTx senderAddress
  constructor
  · intro accepted
    split at accepted
    · cases accepted
    rename_i passed
    split at accepted
    · cases accepted
    rename_i key
    split at key
    · cases key
      cases accepted
      exact ⟨verify_ok_iff.mp passed,rfl⟩
    · cases key
  · rintro ⟨passed,rfl⟩
    have valid : Ed25519.publicKeyValid signed.publicKey = true :=
      (Bool.and_eq_true_iff.mp passed.verified).1
    simp only [verify_ok_iff.mpr passed,valid,if_true]

end Mempool
end L1
