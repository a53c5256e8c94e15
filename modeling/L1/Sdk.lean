import L1.AccountProofs

/-! The client side of submission: a transaction is sent to a node over its RPC interface, and the
node's status is polled until it shows a finalized height. -/
namespace L1

open Hex Codec

structure PeerRateLimiter where
  counts : Map Bytes U32 := ∅
  limit : U32

namespace PeerRateLimiter

/-- At most a block full of the largest transactions, and never more than the pool holds. -/
def peerMsgLimit : U32 :=
  BitVec.ofNat 32 (min (max (Spec.maxBlockBytes.toNat / Spec.maxTxBytes.toNat) 1)
    Spec.mempoolMaxTxs.toNat)

def new : PeerRateLimiter where
  limit := peerMsgLimit

def allow (limiter : PeerRateLimiter) (peer : Bytes) : Bool × PeerRateLimiter :=
  let n := (limiter.counts[peer]?).getD 0
  if limiter.limit ≤ n then (false,{ limiter with counts := limiter.counts.insert peer n })
  else (true,{ limiter with counts := limiter.counts.insert peer (saturatingAdd n 1) })

end PeerRateLimiter

structure RpcNode where
  peerId : Bytes
  peerCount : U64
  store : Store
  pool : Mempool
  world : World
  lastFinalized : Option Steps.Finalized
  limiter : PeerRateLimiter

inductive TxRpcError where
  | params | rateLimit | mempool | unknown
  deriving DecidableEq, Repr

structure RpcError where
  code : Int
  message : String
  deriving DecidableEq, Repr

def RpcError.invalidParams (message : String) : RpcError := ⟨-32602,message⟩

def RpcError.app (message : String) : RpcError := ⟨-32000,message⟩

def RpcError.ofTx : TxRpcError → RpcError
  | .params => .invalidParams "submitTx/getTx params"
  | .rateLimit => .app "rate limited"
  | .mempool => .app "mempool rejected"
  | .unknown => .app "unknown transaction"

namespace Rpc

variable [Blake3] [Ed25519]

/-- A submitted transaction takes the path of gossip into the pool. A message that was counted
stays counted when the pool rejects it. -/
def submitTx (inner : RpcNode) (params : Json) : Except TxRpcError Json × RpcNode :=
  match (params.get "tx").bind readBytes with
  | none => (.error .params,inner)
  | some bytes => match decodeSignedTx bytes with
    | .error _ => (.error .params,inner)
    | .ok signed => match inner.limiter.allow inner.peerId with
      | (false,limiter) => (.error .rateLimit,{ inner with limiter })
      | (true,limiter) =>
        let inner := { inner with limiter }
        let account := match Mempool.senderAddress signed with
          | .ok addr => inner.world.account addr
          | .error _ => .empty
        match Mempool.wireMempool signed account inner.pool with
        | .error _ => (.error .mempool,inner)
        | .ok pool => (.ok (.object [("hash",text (txHash signed.tx).toList)]),{ inner with pool })

/-- Height and round are those of the last commit. -/
def getStatus (inner : RpcNode) : Json :=
  match inner.lastFinalized with
  | some f => .object [("height",.number (some f.height)),
      ("round",.number (some (f.round.setWidth 64))),("syncing",.bool false),
      ("peerCount",.number (some inner.peerCount)),("blockHash",text f.blockHash.toList),
      ("appHash",text f.appHash.toList)]
  | none => .object [("height",.null),("round",.number (some 0)),("syncing",.bool true),
      ("peerCount",.number (some inner.peerCount)),("blockHash",.null)]

def observeFinalized (inner : RpcNode) (f : Steps.Finalized) : RpcNode :=
  { inner with lastFinalized := some f }

/-- A submission changes the pool and the message counters, and nothing else. -/
theorem submitTx_keeps (inner : RpcNode) (params : Json) :
    (submitTx inner params).2.store = inner.store ∧
      (submitTx inner params).2.lastFinalized = inner.lastFinalized := by
  unfold submitTx
  split
  · exact ⟨rfl,rfl⟩
  split
  · exact ⟨rfl,rfl⟩
  split
  · exact ⟨rfl,rfl⟩
  dsimp only
  split
  · exact ⟨rfl,rfl⟩
  · exact ⟨rfl,rfl⟩

end Rpc

namespace Sdk

open Rpc

/-- What signing uses of an account key. -/
structure SecretKey where
  verifyingKey : Vector UInt8 32
  sign : Bytes → Vector UInt8 64

structure SignedFrom where
  signed : SignedTx
  sender : Address
  deriving DecidableEq

inductive SdkError where
  | transport (text : String) | rpc (code : Int) (message : String) | badResult
  deriving DecidableEq, Repr

inductive WaitError where
  | sdk (reason : SdkError) | timeout (after : Nat)
  deriving DecidableEq, Repr

structure FinalityRecord where
  txHash : Hash
  signed : SignedFrom
  height : U64
  waited : Nat
  deriving DecidableEq

def heightFromStatus (v : Json) : Option U64 := (v.get "height").bind Json.asU64

/-- Poll the status. The caller holds the node meanwhile, so every look at it shows the same
state; what changes is the clock, whose readings since the start are given. `none` means that
the readings ran out while waiting. -/
def waitStatusFinality (inner : RpcNode) (signed : SignedFrom) (hash : Hash) (timeout : Nat) :
    List Nat → Option (Except WaitError FinalityRecord)
  | [] => none
  | elapsed :: later => match heightFromStatus (getStatus inner) with
    | some height => some (.ok ⟨hash,signed,height,elapsed⟩)
    | none =>
      if timeout ≤ elapsed then some (.error (.timeout timeout))
      else waitStatusFinality inner signed hash timeout later

variable [Blake3] [Ed25519]

def signTx (sk : SecretKey) (tx : Tx) : SignedFrom where
  signed := ⟨tx,sk.sign tx.signedMessage,sk.verifyingKey⟩
  sender := fromEd25519 sk.verifyingKey

omit [Ed25519] in
@[simp] theorem signTx_tx (sk : SecretKey) (tx : Tx) : (signTx sk tx).signed.tx = tx := rfl

def hashFromSubmitResult (v : Json) : Except SdkError Hash :=
  okOr .badResult ((v.get "hash").bind read32)

def submitSigned (inner : RpcNode) (signed : SignedTx) : Except SdkError Hash × RpcNode :=
  match submitTx inner (.object [("tx",text (encodeSignedTx signed))]) with
  | (.ok v,inner) => (hashFromSubmitResult v,inner)
  | (.error e,inner) => (.error (.rpc (RpcError.ofTx e).code (RpcError.ofTx e).message),inner)

def submit (inner : RpcNode) (sk : SecretKey) (tx : Tx) :
    Except SdkError (SignedFrom × Hash) × RpcNode :=
  let signed := signTx sk tx
  match submitSigned inner signed.signed with
  | (.ok hash,inner) => (.ok (signed,hash),inner)
  | (.error e,inner) => (.error e,inner)

def waitFinality (inner : RpcNode) (sk : SecretKey) (tx : Tx) (timeout : Nat) (clock : List Nat) :
    Option (Except WaitError FinalityRecord) × RpcNode :=
  match submit inner sk tx with
  | (.error e,inner) => (some (.error (.sdk e)),inner)
  | (.ok (signed,hash),inner) => (waitStatusFinality inner signed hash timeout clock,inner)

/-- A stored block up to a height contains the transaction. -/
def Included (store : Store) (signed : SignedTx) (height : Height) : Prop :=
  ∃ h ≤ height, ∃ block, Blocks.getBlock store h = .ok (some block) ∧ signed ∈ block.txs

omit [Blake3] [Ed25519] in
/-- The status shows a height exactly if there was a commit, whatever it was of. -/
theorem heightFromStatus_getStatus (inner : RpcNode) :
    heightFromStatus (getStatus inner) = inner.lastFinalized.map Steps.Finalized.height := by
  unfold heightFromStatus getStatus
  cases inner.lastFinalized <;> rfl

variable {inner : RpcNode} {signed : SignedFrom} {hash : Hash} {timeout : Nat} {clock : List Nat}
  {record : FinalityRecord} {addr : Address} {limiter : PeerRateLimiter} {pool : Mempool}

omit [Blake3] [Ed25519] in
theorem waitStatusFinality_ok
    (returned : waitStatusFinality inner signed hash timeout clock = some (.ok record)) :
    record.signed = signed ∧ ∃ f, inner.lastFinalized = some f ∧ record.height = f.height := by
  induction clock with
  | nil => cases returned
  | cons elapsed later ih =>
    rw [waitStatusFinality,heightFromStatus_getStatus] at returned
    cases finalized : inner.lastFinalized with
    | none =>
      simp only [finalized,Option.map_none] at returned
      split at returned
      · cases returned
      · obtain ⟨-,f,found,-⟩ := ih returned
        rw [finalized] at found
        cases found
    | some f =>
      simp only [finalized,Option.map_some] at returned
      cases returned
      exact ⟨rfl,f,rfl,rfl⟩

theorem submit_keeps (inner : RpcNode) (sk : SecretKey) (tx : Tx) :
    (submit inner sk tx).2.store = inner.store ∧
      (submit inner sk tx).2.lastFinalized = inner.lastFinalized := by
  have keeps := submitTx_keeps inner (.object [("tx",text (encodeSignedTx (signTx sk tx).signed))])
  unfold submit submitSigned
  dsimp only
  rcases sent : submitTx inner (.object [("tx",text (encodeSignedTx (signTx sk tx).signed))]) with
    ⟨e | v,after⟩
  · rw [sent] at keeps
    exact keeps
  · rw [sent] at keeps
    dsimp only
    cases hashFromSubmitResult v <;> exact keeps

omit [Blake3] [Ed25519] in
/-- A poll that succeeds means inclusion exactly if the last commit did. -/
theorem polled_iff (returned : waitStatusFinality inner signed hash timeout clock = some (.ok record)) :
    Included inner.store record.signed.signed record.height ↔
      ∃ f, inner.lastFinalized = some f ∧ Included inner.store signed.signed f.height := by
  obtain ⟨rfl,f,finalized,height⟩ := waitStatusFinality_ok returned
  rw [height,finalized]
  constructor
  · exact fun included => ⟨f,rfl,included⟩
  · rintro ⟨other,same,included⟩
    cases same
    exact included

/-- A submission that goes through: the message is counted and the pool gains the transaction. -/
theorem submitTx_ok {params : Json} {bytes : Bytes} {signed : SignedTx}
    (given : (params.get "tx").bind readBytes = some bytes)
    (read : decodeSignedTx bytes = .ok signed)
    (allowed : inner.limiter.allow inner.peerId = (true,limiter))
    (sender : Mempool.senderAddress signed = .ok addr)
    (admitted : Mempool.wireMempool signed (inner.world.account addr) inner.pool = .ok pool) :
    submitTx inner params =
      (.ok (.object [("hash",text (txHash signed.tx).toList)]),{ inner with limiter,pool }) := by
  simp only [submitTx,given,read,allowed,sender,admitted]

omit [Blake3] [Ed25519] in
theorem get_tx (bytes : Bytes) :
    (Json.get (.object [("tx",text bytes)]) "tx").bind readBytes = some bytes := by
  rw [Json.get,List.lookup_cons_self,Option.bind_some,readBytes_text]

omit [Blake3] [Ed25519] in
theorem hashFromSubmitResult_text (hash : Hash) :
    hashFromSubmitResult (.object [("hash",text hash.toList)]) = .ok hash := by
  rw [hashFromSubmitResult,Json.get,List.lookup_cons_self,Option.bind_some,read32_text,okOr]

theorem submit_ok {sk : SecretKey} {tx : Tx}
    (read : decodeSignedTx (encodeSignedTx (signTx sk tx).signed) = .ok (signTx sk tx).signed)
    (allowed : inner.limiter.allow inner.peerId = (true,limiter))
    (sender : Mempool.senderAddress (signTx sk tx).signed = .ok addr)
    (admitted : Mempool.wireMempool (signTx sk tx).signed (inner.world.account addr) inner.pool =
      .ok pool) :
    submit inner sk tx = (.ok (signTx sk tx,txHash tx),{ inner with limiter,pool }) := by
  have sent := submitTx_ok (get_tx _) read allowed sender admitted
  rw [signTx_tx] at sent
  unfold submit submitSigned
  simp only [sent,hashFromSubmitResult_text]

end Sdk

/-! A node that has committed one empty block. -/
namespace Sdk.Sample

open Holdings.Sample (address genesis)

attribute [local instance] Holdings.Sample.blake3 Holdings.Sample.ed25519

def key : SecretKey := ⟨address 1,fun _ => Vector.replicate 64 0⟩

def tx : Tx := ⟨1,0,Spec.gasTransfer,1,.transfer ⟨address 2,10⟩⟩

def emptyBlock : Block := ⟨LoneSigner.header.fields,[]⟩

def node : RpcNode := Rpc.observeFinalized {
  peerId := [1]
  peerCount := 0
  store := (Blocks.putBlock ∅ LoneSigner.header emptyBlock [] zeroHash).get (by decide +kernel)
  pool := (Mempool.new genesis.params.registry).get (by decide +kernel)
  world := .fromGenesis genesis
  lastFinalized := none
  limiter := .new } ⟨0,0,LoneSigner.header.hash,zeroHash⟩

end Sdk.Sample
end L1
