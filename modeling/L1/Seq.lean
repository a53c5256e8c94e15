import L1.World

/-! The sequential state transition: one transaction, and a block of them. `none` is a
panic; a rejected transaction is an ordinary result. -/
namespace L1

/-- Account signatures as the ed25519-dalek crate offers them. -/
class Ed25519 where
  publicKeyValid : Vector UInt8 32 → Bool
  verify : Vector UInt8 32 → Bytes → Vector UInt8 64 → Bool

def Tx.signedMessage (tx : Tx) : Bytes := DomainTag.tx.apply tx.encode

def verifyEd25519 [Ed25519] (signed : SignedTx) : Bool :=
  Ed25519.publicKeyValid signed.publicKey &&
    Ed25519.verify signed.publicKey signed.tx.signedMessage signed.signature

def fromEd25519 [Blake3] (pk : Vector UInt8 32) : Address := hashToArray pk.toList

def senderAddress [Ed25519] [Blake3] (signed : SignedTx) : Except RejectReason Address :=
  if Ed25519.publicKeyValid signed.publicKey then .ok (fromEd25519 signed.publicKey)
  else .error .signature

namespace Seq

def appHash [Blake3] (stateRoot txRoot receiptsRoot : Hash) : Hash :=
  hashToArray (stateRoot.toList ++ txRoot.toList ++ receiptsRoot.toList)

/-- The nonce after a transaction; the last one is kept. -/
def nextNonce (nonce : Nonce) : Nonce := (checkedAdd nonce 1).getD nonce

/-- The sender after paying, if it can. -/
def charge (account : Account) (pay : Amount) : Option Account :=
  (checkedSub account.balance pay).map fun balance =>
    { account with balance, nonce := nextNonce account.nonce }

/-- A credit that would overflow is dropped. -/
def credit (account : Account) (amount : Amount) : Account :=
  { account with balance := (checkedAdd account.balance amount).getD account.balance }

/-- What a staking transaction takes from the balance besides the fee. -/
def stakeDebit (s : StakePayload) : Amount :=
  match s.kind with
  | .bond => s.amount
  | .delegate => s.amount
  | .unbond => 0
  | .undelegate => 0
  | .withdraw => 0

def applyStake (world : World) (sender : Address) (account : Account) (gas : U64) (tx : Tx)
    (s : StakePayload) : Option (World × Receipt) :=
  match valueBalanceCheck tx (stakeDebit s) account with
  | .error e => some (world,.fail e.reason)
  | .ok () => match Staking.applyStakeTx world.staking world.params sender tx with
    | none => none
    | some (book,.error e) => some ({ world with staking := book },.fail e)
    | some (book,.ok ()) => match checkedAdd (stakeDebit s) tx.maxFee with
      | none => none
      | some pay => match charge account pay with
        | none => none
        | some paid =>
          let paid := if s.kind = .withdraw then credit paid s.amount else paid
          some ({ world.setAccount sender paid with staking := book },
            .ok gas (.stake sender s.amount))

variable [Wasm] [Blake3]

/-- The failure of an install puts the world back; the sets of accessed keys were cleared
before the copy was taken. -/
def applyDeploy (world : World) (sender : Address) (account : Account) (gas : U64) (tx : Tx)
    (d : Deploy) : Option (World × Receipt) :=
  match valueBalanceCheck tx 0 account with
  | .error e => some (world,.fail e.reason)
  | .ok () => match WasmCall.prepare tx d with
    | .error _ => some (world,.fail .wasmInvalid)
    | .ok () => match charge account tx.maxFee with
      | none => none
      | some paid =>
        let addr := WasmCall.createAddress sender tx.nonce
        match WasmCall.install (world.setAccount sender paid) addr d.code with
        | .error e => some (world,.fail e)
        | .ok installed => some (installed,.ok gas (.wasm sender addr))

def applyCall (world : World) (sender : Address) (account : Account) (gas : U64) (tx : Tx)
    (c : Call) : Option (World × Receipt) :=
  match valueBalanceCheck tx 0 account with
  | .error e => some (world,.fail e.reason)
  | .ok () => match world.code[c.toAddr]? with
    | none => some (world,.fail .wasmNoCode)
    | some _ => match charge account tx.maxFee with
      | none => none
      | some paid =>
        match WasmCall.call (world.setAccount sender paid) c (WasmCall.fuelBudget tx gas) with
        | none => none
        | some (_,.error e) => some (world,.fail e)
        | some (called,.ok ()) => some (called,.ok gas (.wasm sender c.toAddr))

/-- The recipient is looked up after the sender has paid, so a transfer to oneself is one
account written twice. -/
def applyTransfer (world : World) (sender : Address) (account : Account) (gas : U64) (tx : Tx)
    (t : Transfer) : Option (World × Receipt) :=
  match balanceCheck tx t account with
  | .error e => some (world,.fail e.reason)
  | .ok () => match checkedAdd t.amount tx.maxFee with
    | none => none
    | some pay => match charge account pay with
      | none => none
      | some paid =>
        let world := world.setAccount sender paid
        some (world.setAccount t.toAddr (credit (world.account t.toAddr) t.amount),
          .ok gas (.transfer sender t.toAddr t.amount))

/-- The traces of the previous transaction are cleared first. -/
def clearTraces (world : World) : World :=
  { world with storageReads := ∅, storageWrites := ∅, executing := ∅ }

def applyPayload (world : World) (sender : Address) (account : Account) (gas : U64) (tx : Tx) :
    Option (World × Receipt) :=
  match tx.payload with
  | .stake s => applyStake world sender account gas tx s
  | .deploy d => applyDeploy world sender account gas tx d
  | .call c => applyCall world sender account gas tx c
  | .transfer t => applyTransfer world sender account gas tx t

variable [Ed25519]

def applyTx (world : World) (signed : SignedTx) : Option (World × Receipt) :=
  let world := clearTraces world
  if verifyEd25519 signed = false then some (world,.fail .signature)
  else match senderAddress signed with
    | .error e => some (world,.fail e)
    | .ok sender =>
      let account := world.account sender
      match nonceCheck signed.tx account with
      | .error e => some (world,.fail e.reason)
      | .ok () => match gasMeter signed.tx with
        | .error e => some (world,.fail e.reason)
        | .ok gas => applyPayload world sender account gas signed.tx

def applyTxs (world : World) : List SignedTx → Option (World × List Receipt)
  | [] => some (world,[])
  | signed :: rest => match applyTx world signed with
    | none => none
    | some (world,receipt) => match applyTxs world rest with
      | none => none
      | some (world,receipts) => some (world,receipt :: receipts)

def applyBlock (pre : World) (block : Block) : Option (World × List Receipt × Hash) :=
  match applyTxs pre block.txs with
  | none => none
  | some (world,receipts) =>
    some (world,receipts,appHash world.commitStateRoot (txRootSigned block.txs)
      (receiptsRoot (receipts.map Receipt.encode)))

end Seq
end L1
