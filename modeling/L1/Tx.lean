import L1.Types

/-! Transaction envelopes and their canonical wire layout. -/
namespace L1

structure Transfer where
  toAddr : Address
  amount : Amount
  deriving DecidableEq, Repr

inductive StakeKind where
  | bond | unbond | delegate | undelegate | withdraw
  deriving DecidableEq, Repr

def StakeKind.tag : StakeKind → UInt8
  | bond => 1 | unbond => 2 | delegate => 3 | undelegate => 4 | withdraw => 5

theorem StakeKind.bond_ne : StakeKind.bond ≠ .withdraw := by decide

theorem StakeKind.unbond_ne : StakeKind.unbond ≠ .withdraw := by decide

theorem StakeKind.delegate_ne : StakeKind.delegate ≠ .withdraw := by decide

theorem StakeKind.undelegate_ne : StakeKind.undelegate ≠ .withdraw := by decide

theorem StakeKind.withdraw_bare : (none : Option ValidatorId) = none ↔ StakeKind.withdraw = .withdraw := by
  simp

/-- Staking payload. A withdraw names no validator and every other kind names one;
an envelope without its target cannot be encoded, so it is never signed. -/
structure StakePayload where
  kind : StakeKind
  validator : Option ValidatorId
  amount : Amount
  target : validator = none ↔ kind = .withdraw
  deriving DecidableEq

structure Deploy where
  code : Bytes
  deriving DecidableEq, Repr

structure Call where
  toAddr : Address
  data : Bytes
  deriving DecidableEq, Repr

inductive TxPayload where
  | transfer (t : Transfer)
  | stake (s : StakePayload)
  | deploy (d : Deploy)
  | call (c : Call)
  deriving DecidableEq

structure Tx where
  chainId : ChainId
  nonce : Nonce
  gasLimit : U64
  maxFee : Amount
  payload : TxPayload
  deriving DecidableEq

/-- Signed envelope; the signature is not part of the encoding of the body. -/
structure SignedTx where
  tx : Tx
  signature : Vector UInt8 64
  publicKey : Vector UInt8 32
  deriving DecidableEq

namespace Tx

def asTransfer (tx : Tx) : Option Transfer :=
  match tx.payload with
  | .transfer t => some t
  | _ => none

def asStake (tx : Tx) : Option StakePayload :=
  match tx.payload with
  | .stake s => some s
  | _ => none

def asDeploy (tx : Tx) : Option Deploy :=
  match tx.payload with
  | .deploy d => some d
  | _ => none

def asCall (tx : Tx) : Option Call :=
  match tx.payload with
  | .call c => some c
  | _ => none

def variantBytes : TxPayload → Bytes
  | .transfer t => 0 :: (t.toAddr.toList ++ toBeBytes 16 t.amount)
  | .stake s =>
    s.kind.tag :: match s.validator with
      | none => toBeBytes 16 s.amount
      | some id => id.toList ++ toBeBytes 16 s.amount
  | .deploy d => 6 :: (BigEndian.encode 4 d.code.length ++ d.code)
  | .call c => 7 :: (c.toAddr.toList ++ (BigEndian.encode 4 c.data.length ++ c.data))

def payloadBytes (tx : Tx) : Bytes :=
  toBeBytes 8 tx.chainId ++ (toBeBytes 8 tx.nonce ++ (toBeBytes 8 tx.gasLimit ++
    (toBeBytes 16 tx.maxFee ++ variantBytes tx.payload)))

def encode (tx : Tx) : Bytes := Encoding.encode tx.payloadBytes

def stakeWith (kind : StakeKind) (other : kind ≠ .withdraw) (id : ValidatorId) (amount : Amount) :
    TxPayload := .stake ⟨kind,some id,amount,by simp [other]⟩

/-- The variant after the 41-byte head of a payload. -/
def decodeVariant (tag : UInt8) (raw : Bytes) : Except TypesError TxPayload :=
  let targeted (kind : StakeKind) (other : kind ≠ .withdraw) : Except TypesError TxPayload :=
    if raw.length ≠ 41 + 48 + 16 then .error (.badLength 105 raw.length)
    else .ok (stakeWith kind other (fixed 48 (slice raw 41 89)) (fromBeBytes 128 (slice raw 89 105)))
  if tag = 0 then
    if raw.length ≠ 41 + 32 + 16 then .error (.badLength 89 raw.length)
    else .ok (.transfer ⟨fixed 32 (slice raw 41 73),fromBeBytes 128 (slice raw 73 89)⟩)
  else if tag = 1 then targeted .bond StakeKind.bond_ne
  else if tag = 2 then targeted .unbond StakeKind.unbond_ne
  else if tag = 3 then targeted .delegate StakeKind.delegate_ne
  else if tag = 4 then targeted .undelegate StakeKind.undelegate_ne
  else if tag = 5 then
    if raw.length ≠ 41 + 16 then .error (.badLength 57 raw.length)
    else .ok (.stake ⟨.withdraw,none,fromBeBytes 128 (slice raw 41 57),StakeKind.withdraw_bare⟩)
  else if tag = 6 then
    if raw.length < 45 then .error (.badLength 45 raw.length)
    else
      let n := BigEndian.decode (slice raw 41 45)
      if raw.length ≠ 45 + n then .error (.badLength (45 + n) raw.length)
      else .ok (.deploy ⟨raw.drop 45⟩)
  else if tag = 7 then
    if raw.length < 41 + 32 + 4 then .error (.badLength 77 raw.length)
    else
      let n := BigEndian.decode (slice raw 73 77)
      if raw.length ≠ 77 + n then .error (.badLength (77 + n) raw.length)
      else .ok (.call ⟨fixed 32 (slice raw 41 73),raw.drop 77⟩)
  else .error (.kv "unknown tx payload tag")

def decode (buf : Bytes) : Except TypesError Tx :=
  match Encoding.decode buf with
  | .error e => .error e
  | .ok raw =>
    if raw.length < 8 + 8 + 8 + 16 + 1 then .error (.badLength 41 raw.length)
    else match decodeVariant (raw.getD 40 0) raw with
      | .error e => .error e
      | .ok payload => .ok {
          chainId := fromBeBytes 64 (slice raw 0 8)
          nonce := fromBeBytes 64 (slice raw 8 16)
          gasLimit := fromBeBytes 64 (slice raw 16 24)
          maxFee := fromBeBytes 128 (slice raw 24 40)
          payload }

end Tx
end L1
