import L1.Tries
import L1.Tx

/-! Receipts, and the admission checks whose failures they report. -/
namespace L1

inductive RejectReason where
  | signature | wrongNonce | insufficientBalance | gas | stakeMinBond | stakeTombstone
  | stakeUnbonding | stakeInsufficient | wasmInvalid | wasmGas | wasmReentrancy | wasmNoCode
  deriving DecidableEq, Repr

inductive Event where
  | transfer (sender toAddr : Address) (amount : Amount)
  | stake (sender : Address) (amount : Amount)
  | wasm (sender contract : Address)
  deriving DecidableEq, Repr

structure Receipt where
  success : Bool
  gasUsed : U64
  events : List Event
  reason : Option RejectReason
  deriving DecidableEq, Repr

namespace Receipt

def reasonByte : Option RejectReason → UInt8
  | none => 0
  | some .wrongNonce => 1
  | some .insufficientBalance => 2
  | some .gas => 3
  | some .signature => 4
  | some .stakeMinBond => 5
  | some .stakeTombstone => 6
  | some .stakeUnbonding => 7
  | some .stakeInsufficient => 8
  | some .wasmInvalid => 9
  | some .wasmGas => 10
  | some .wasmReentrancy => 11
  | some .wasmNoCode => 12

def eventBytes : Event → Bytes
  | .transfer sender toAddr amount => 0 :: (sender.toList ++ toAddr.toList ++ toBeBytes 16 amount)
  | .stake sender amount => 1 :: (sender.toList ++ toBeBytes 16 amount)
  | .wasm sender contract => 2 :: (sender.toList ++ contract.toList)

def encode (r : Receipt) : Bytes :=
  Encoding.encode ((if r.success then 1 else 0) :: (toBeBytes 8 r.gasUsed ++
    reasonByte r.reason :: (BigEndian.encode 4 r.events.length ++ r.events.flatMap eventBytes)))

/-- A rejected transaction uses no gas. -/
def fail (reason : RejectReason) : Receipt := ⟨false,0,[],some reason⟩

def ok (gas : U64) (event : Event) : Receipt := ⟨true,gas,[event],none⟩

end Receipt

inductive CheckError where
  | wrongNonce | insufficientBalance
  deriving DecidableEq, Repr

def CheckError.reason : CheckError → RejectReason
  | wrongNonce => .wrongNonce
  | insufficientBalance => .insufficientBalance

inductive GasError where
  | limitExceedsBlock | limitTooLow
  deriving DecidableEq, Repr

def GasError.reason (_ : GasError) : RejectReason := .gas

def nonceCheck (tx : Tx) (account : Account) : Except CheckError Unit :=
  if account.nonce = tx.nonce then .ok () else .error .wrongNonce

def valueBalanceCheck (tx : Tx) (amount : Amount) (account : Account) : Except CheckError Unit :=
  match checkedAdd amount tx.maxFee with
  | none => .error .insufficientBalance
  | some need =>
    if (checkedSub account.balance need).isSome then .ok () else .error .insufficientBalance

def balanceCheck (tx : Tx) (transfer : Transfer) (account : Account) : Except CheckError Unit :=
  valueBalanceCheck tx transfer.amount account

def gasCost : TxPayload → U64
  | .transfer _ => Spec.gasTransfer
  | .stake _ => Spec.gasTransfer
  | .deploy _ => Spec.gasDeploy
  | .call _ => Spec.gasCall

def gasMeter (tx : Tx) : Except GasError U64 :=
  if Spec.maxGas < tx.gasLimit then .error .limitExceedsBlock
  else if tx.gasLimit < gasCost tx.payload then .error .limitTooLow
  else .ok (gasCost tx.payload)

theorem gasMeter_ok_iff (tx : Tx) (gas : U64) : gasMeter tx = .ok gas ↔
    gas = gasCost tx.payload ∧ tx.gasLimit ≤ Spec.maxGas ∧ gasCost tx.payload ≤ tx.gasLimit := by
  unfold gasMeter
  by_cases wide : Spec.maxGas < tx.gasLimit
  · rw [if_pos wide]
    exact ⟨fun met => (by cases met),fun ⟨_,within,_⟩ => absurd wide (BitVec.not_lt.mpr within)⟩
  by_cases narrow : tx.gasLimit < gasCost tx.payload
  · rw [if_neg wide,if_pos narrow]
    exact ⟨fun met => (by cases met),fun ⟨_,_,enough⟩ => absurd narrow (BitVec.not_lt.mpr enough)⟩
  · rw [if_neg wide,if_neg narrow]
    constructor
    · intro met
      cases met
      exact ⟨rfl,BitVec.not_lt.mp wide,BitVec.not_lt.mp narrow⟩
    · rintro ⟨rfl,-,-⟩
      rfl

theorem valueBalanceCheck_ok {tx : Tx} {amount : Amount} {account : Account}
    (passed : valueBalanceCheck tx amount account = .ok ()) :
    ∃ need rest, checkedAdd amount tx.maxFee = some need ∧
      checkedSub account.balance need = some rest := by
  unfold valueBalanceCheck at passed
  split at passed
  · cases passed
  · rename_i need sum
    split at passed
    · rename_i covered
      obtain ⟨rest,left⟩ := Option.isSome_iff_exists.mp covered
      exact ⟨need,rest,sum,left⟩
    · cases passed

end L1
