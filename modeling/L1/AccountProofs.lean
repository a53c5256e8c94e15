import L1.AccountMpt
import L1.BodyBinding
import L1.Attempts
import L1.Json

/-! Account proofs, as the server answers with them and the light client checks them. -/
namespace L1

open Hex AccountMpt Hashing

inductive StateRpcError where
  | params | unknown | proof
  deriving DecidableEq, Repr

theorem toOption_eq_some {ε α : Type} {x : Except ε α} {a : α} : x.toOption = some a ↔ x = .ok a := by
  cases x <;> simp [Except.toOption]

namespace Rpc

def readBytes (value : Json) : Option Bytes := value.asStr.bind decodeHex

def read32 (value : Json) : Option Hash :=
  (readBytes value).bind fun raw => if raw.length = 32 then some (fixed 32 raw) else none

def parseAddr (params : Json) : Except StateRpcError Address :=
  okOr .params ((params.get "address").bind read32)

def text (bytes : Bytes) : Json := .string (encodeHex bytes)

def proofJson (p : Mpt.MptProof) : Json :=
  .object [("nodes",.array (p.nodes.map text)),
    ("value",(p.value.map text).getD .null),
    ("chainMerkleRoot",text p.chainMerkleRoot.toList),
    ("chainMerkle",.object [("leafIndex",.number (some (BitVec.ofNat 64 p.chainMerkle.leafIndex))),
      ("siblings",.array (p.chainMerkle.siblings.map fun s => text s.toList))])]

/-- A missing value and a null claim absence. -/
def readValue : Option Json → Option (Option Bytes)
  | none => some none
  | some .null => some none
  | some value => (readBytes value).map some

def parseProof (v : Json) : Option Mpt.MptProof := do
  let nodes ← (← (← v.get "nodes").asArray).mapM readBytes
  let value ← readValue (v.get "value")
  let root ← read32 (← v.get "chainMerkleRoot")
  let chain ← v.get "chainMerkle"
  let leafIndex ← (← chain.get "leafIndex").asU64
  let siblings ← (← (← chain.get "siblings").asArray).mapM read32
  return ⟨nodes,value,⟨leafIndex.toNat,siblings⟩,root⟩

/-- Whatever is wrong with a proof, the error is the same. -/
def proofFromJson (v : Json) : Except StateRpcError Mpt.MptProof := okOr .params (parseProof v)

@[simp] theorem readBytes_text (bytes : Bytes) : readBytes (text bytes) = some bytes := by
  simp [readBytes,text,Json.asStr]

@[simp] theorem read32_text (h : Hash) : read32 (text h.toList) = some h := by
  simp [read32]

theorem mapM_texts {α : Type} (write : α → Json) (read : Json → Option α)
    (back : ∀ a, read (write a) = some a) (items : List α) :
    (items.map write).mapM read = some items := by
  induction items with
  | nil => rfl
  | cons a rest ih => simp [List.mapM_cons,back,ih]

theorem readValue_text (value : Option Bytes) :
    readValue (some ((value.map text).getD .null)) = some value := by
  cases value with
  | none => rfl
  | some bytes =>
    change (readBytes (text bytes)).map some = _
    rw [readBytes_text]
    rfl

theorem parseProof_proofJson (p : Mpt.MptProof) (small : p.chainMerkle.leafIndex < 2^64) :
    parseProof (proofJson p) = some p := by
  have nodes := mapM_texts text readBytes readBytes_text p.nodes
  have siblings := mapM_texts (fun s : Hash => text s.toList) read32 read32_text p.chainMerkle.siblings
  have index : (BitVec.ofNat 64 p.chainMerkle.leafIndex).toNat = p.chainMerkle.leafIndex := by
    rw [BitVec.toNat_ofNat,Nat.mod_eq_of_lt small]
  simp [parseProof,proofJson,Json.get,Json.asArray,Json.asU64,List.lookup,nodes,siblings,
    readValue_text,index]

/-- What the server reads to answer: the store, the world, and the nodes of its account trie. -/
structure RpcInner [Blake3] where
  store : Store
  world : World
  accounts : AccountMpt
  held : accounts.Holds world.accounts
  rooted : accounts.root = world.accounts.root

def RpcInner.rebuilt [Blake3] (store : Store) (world : World)
    (safe : Mpt.NoCollision (ofWrites (TrieMap.puts world.accounts.toList)).trie.nodes) : RpcInner where
  store := store
  world := world
  accounts := ofWrites (TrieMap.puts world.accounts.toList)
  held := by
    have held := holds_ofWrites _ safe
    rwa [TrieMap.rebuild] at held
  rooted := rfl

theorem rebuilt_store [Blake3] (store : Store) (world : World)
    (safe : Mpt.NoCollision (ofWrites (TrieMap.puts world.accounts.toList)).trie.nodes) :
    (RpcInner.rebuilt store world safe).store = store := rfl

theorem rebuilt_world [Blake3] (store : Store) (world : World)
    (safe : Mpt.NoCollision (ofWrites (TrieMap.puts world.accounts.toList)).trie.nodes) :
    (RpcInner.rebuilt store world safe).world = world := rfl

theorem rebuilt_accounts [Blake3] (store : Store) (world : World)
    (safe : Mpt.NoCollision (ofWrites (TrieMap.puts world.accounts.toList)).trie.nodes) :
    (RpcInner.rebuilt store world safe).accounts = ofWrites (TrieMap.puts world.accounts.toList) := rfl

/-- The height of the request, or else the tip. -/
def heightOf (store : Store) (params : Json) : Except StateRpcError Height :=
  match (params.get "height").bind Json.asU64 with
  | some height => .ok height
  | none => match Blocks.tip store with
    | .error _ => .error .unknown
    | .ok top => .ok (top.getD 0)

section Server

variable [Blake3]

/-- The state root of the header at a height; without one, the root of the world. -/
def stateRootAt (inner : RpcInner) (height : Height) : Hash :=
  match Blocks.getHeader inner.store height with
  | .ok (some header) => header.stateRoot
  | _ => inner.world.commitStateRoot

/-- The state root is looked up by height, and the other roots are those of the tries as they are. -/
def answer (inner : RpcInner) (height : Height) (proof : Mpt.MptProof) : Json :=
  .object [("height",.number (some height)),
    ("stateRoot",text (stateRootAt inner height).toList),
    ("accountRoot",text inner.accounts.root.toList),
    ("storageRoot",text inner.world.storage.root.toList),
    ("proof",proofJson proof)]

def getProof (inner : RpcInner) (params : Json) : Except StateRpcError Json := do
  let addr ← parseAddr params
  let height ← heightOf inner.store params
  let proof ← okOr .proof (Mpt.prove inner.accounts.trie (accountKey addr))
  return answer inner height proof

/-- The roots fit together, the state root is that of the header at the height, and the proof
verifies. -/
def Matches (store : Store) (addr : Address) (resp : Json) : Prop :=
  ∃ height state accountRoot storageRoot proof,
    (resp.get "height").bind Json.asU64 = some height ∧
    (resp.get "stateRoot").bind read32 = some state ∧
    (resp.get "accountRoot").bind read32 = some accountRoot ∧
    (resp.get "storageRoot").bind read32 = some storageRoot ∧
    (resp.get "proof").bind parseProof = some proof ∧
    stateRoot accountRoot storageRoot = state ∧
    (∃ header, Blocks.getHeader store height = .ok (some header) ∧ state = header.stateRoot) ∧
    Mpt.verify (accountKey addr) proof accountRoot = true

variable (inner : RpcInner)

theorem commitStateRoot_eq (inner : RpcInner) :
    inner.world.commitStateRoot = stateRoot inner.accounts.root inner.world.storage.root := by
  rw [inner.rooted]
  rfl

variable {proof : Mpt.MptProof} {height : Height}

theorem leafIndex_prove {trie : Mpt.Trie} {key : Bytes}
    (proved : Mpt.prove trie key = some proof) : proof.chainMerkle.leafIndex = 0 := by
  unfold Mpt.prove at proved
  dsimp only at proved
  split at proved
  · cases proved
  · rename_i nodes value _
    rw [Option.map_eq_some_iff] at proved
    obtain ⟨bound,chained,rfl⟩ := proved
    rw [Mpt.bindChain,Option.map_eq_some_iff] at chained
    obtain ⟨chain,opened,rfl⟩ := chained
    rw [Merkle.prove] at opened
    split at opened
    · cases opened
    · cases opened
      rfl

structure Reads (inner : RpcInner) (height : Height) (proof : Mpt.MptProof) (resp : Json) : Prop where
  reported : (resp.get "height").bind Json.asU64 = some height
  state : (resp.get "stateRoot").bind read32 = some (stateRootAt inner height)
  accountRoot : (resp.get "accountRoot").bind read32 = some inner.accounts.root
  storageRoot : (resp.get "storageRoot").bind read32 = some inner.world.storage.root
  sent : (resp.get "proof").bind parseProof = some proof

theorem reads_answer
    (small : proof.chainMerkle.leafIndex < 2^64) : Reads inner height proof (answer inner height proof) where
  reported := by simp [answer,Json.get,List.lookup,Json.asU64]
  state := by simp [answer,Json.get,List.lookup]
  accountRoot := by simp [answer,Json.get,List.lookup]
  storageRoot := by simp [answer,Json.get,List.lookup]
  sent := by simp [answer,Json.get,List.lookup,parseProof_proofJson proof small]

/-- Every well-formed request is answered, with a proof from the trie as it is. -/
theorem getProof_answers (safe : Mpt.NoCollision inner.accounts.trie.nodes) {params : Json}
    {addr : Address} (named : parseAddr params = .ok addr)
    (asked : heightOf inner.store params = .ok height) :
    ∃ resp proof, getProof inner params = .ok resp ∧ Reads inner height proof resp ∧
      Mpt.prove inner.accounts.trie (accountKey addr) = some proof ∧
      Mpt.verify (accountKey addr) proof inner.accounts.root = true ∧
      proof.value = inner.world.accounts[addr]?.map Account.encode := by
  obtain ⟨proof,proved,verified,value⟩ := inner.held.prove safe addr
  refine ⟨answer inner height proof,proof,?_,reads_answer inner ?_,proved,verified,value⟩
  · simp only [getProof,bind_eq_ok,okOr_eq_ok]
    exact ⟨addr,named,height,asked,proof,proved,rfl⟩
  · rw [leafIndex_prove proved]
    decide

theorem matches_iff {resp : Json} {addr : Address} (reads : Reads inner height proof resp)
    (verified : Mpt.verify (accountKey addr) proof inner.accounts.root = true) :
    Matches inner.store addr resp ↔ ∃ header, Blocks.getHeader inner.store height = .ok (some header) ∧
      header.stateRoot = inner.world.commitStateRoot := by
  rw [commitStateRoot_eq]
  constructor
  · rintro ⟨h,state,accountRoot,storageRoot,p,reported,first,second,third,-,bound,⟨header,stored,same⟩,-⟩
    rw [reads.reported] at reported
    rw [reads.accountRoot] at second
    rw [reads.storageRoot] at third
    cases reported
    cases second
    cases third
    exact ⟨header,stored,same.symm.trans bound.symm⟩
  · rintro ⟨header,stored,same⟩
    have served : stateRootAt inner height = header.stateRoot := by rw [stateRootAt,stored]
    exact ⟨height,_,_,_,proof,reads.reported,reads.state,reads.accountRoot,reads.storageRoot,reads.sent,
      (served.trans same).symm,⟨header,stored,served⟩,verified⟩

end Server
end Rpc

namespace Light

open Rpc

def parseRoot32 (v : Json) (key : String) : Except LightError Hash :=
  okOr .source ((v.get key).bind read32)

def request (addr : Address) (height : Height) : Json :=
  .object [("address",text addr.toList),("height",.number (some height))]

section Client

variable [Blake3]

def readAccount (header : Header) (answer : Except StateRpcError Json) (addr : Address) :
    Except LightError Account := do
  let resp ← okOr .source answer.toOption
  let accountRoot ← parseRoot32 resp "accountRoot"
  let storageRoot ← parseRoot32 resp "storageRoot"
  if stateRoot accountRoot storageRoot ≠ header.stateRoot then throw .proof
  let proof ← okOr .source ((resp.get "proof").bind parseProof)
  if Mpt.verify (accountKey addr) proof accountRoot = false then throw .proof
  let raw ← okOr .proof proof.value
  okOr .proof (Account.decode raw).toOption

/-- Each block leads to the next world, and its header has the root of that world. -/
def Executes [Wasm] [Ed25519] : World → List BodyOffer → World → Prop
  | world, [], final => world = final
  | world, offer :: rest, final => ∃ next receipts app,
    Seq.applyBlock world offer.block = some (next,receipts,app) ∧
      offer.header.stateRoot = next.commitStateRoot ∧ Executes next rest final

/-- The store holds a chain with the roots of its execution, and the world is the one after it. -/
structure Serves [Wasm] [Ed25519] (inner : RpcInner) (g : Genesis) (chain : List BodyOffer) : Prop where
  kept : Keeps g inner.store chain
  executed : Executes (.fromGenesis g) chain inner.world

variable {chain : List BodyOffer} {offer : BodyOffer} {qc : QuorumCertificate} {validators : ValidatorSet}

/-- What an answer has to show for an account to be read off it. -/
structure Shows (header : Header) (addr : Address) (account : Account) (resp : Json)
    (accountRoot storageRoot : Hash) (proof : Mpt.MptProof) : Prop where
  first : (resp.get "accountRoot").bind read32 = some accountRoot
  second : (resp.get "storageRoot").bind read32 = some storageRoot
  bound : stateRoot accountRoot storageRoot = header.stateRoot
  sent : (resp.get "proof").bind parseProof = some proof
  verified : Mpt.verify (accountKey addr) proof accountRoot = true
  decoded : ∃ raw, proof.value = some raw ∧ Account.decode raw = .ok account

variable {header : Header} {addr : Address} {account : Account}

theorem readAccount_ok_iff {answer : Except StateRpcError Json}
    : readAccount header answer addr = .ok account ↔
      ∃ resp accountRoot storageRoot proof, answer = .ok resp ∧
        Shows header addr account resp accountRoot storageRoot proof := by
  constructor
  · intro done
    unfold readAccount at done
    simp only [bind_eq_ok,okOr_eq_ok,parseRoot32,toOption_eq_some] at done
    obtain ⟨resp,answered,accountRoot,first,storageRoot,second,done⟩ := done
    by_cases bound : stateRoot accountRoot storageRoot = header.stateRoot
    · simp only [bound,ne_eq,not_true_eq_false,if_false,bind_eq_ok,okOr_eq_ok] at done
      obtain ⟨proof,sent,done⟩ := done
      by_cases verified : Mpt.verify (accountKey addr) proof accountRoot = true
      · simp only [verified,Bool.true_eq_false,if_false,bind_eq_ok,okOr_eq_ok,toOption_eq_some] at done
        exact ⟨resp,accountRoot,storageRoot,proof,answered,first,second,bound,sent,verified,done⟩
      · rw [Bool.not_eq_true] at verified
        rw [if_pos verified] at done
        cases done
    · rw [if_pos bound] at done
      cases done
  · rintro ⟨resp,accountRoot,storageRoot,proof,rfl,shown⟩
    unfold readAccount
    simp only [bind_eq_ok,okOr_eq_ok,parseRoot32,toOption_eq_some]
    refine ⟨resp,rfl,accountRoot,shown.first,storageRoot,shown.second,?_⟩
    simp only [shown.bound,ne_eq,not_true_eq_false,if_false,bind_eq_ok,okOr_eq_ok]
    refine ⟨proof,shown.sent,?_⟩
    simp only [shown.verified,Bool.true_eq_false,if_false,bind_eq_ok,okOr_eq_ok,toOption_eq_some]
    exact shown.decoded

/-- The certificate of the header first, then the answer of the source. -/
def verifyAccount [Bls] (header : Header) (qc : QuorumCertificate) (validators : ValidatorSet)
    (source : Json → Except StateRpcError Json) (addr : Address) :
    Option (Except LightError Account) :=
  match verifyQc header qc validators with
  | none => none
  | some (.error e) => some (.error e)
  | some (.ok ()) =>
    some (readAccount header (source (request addr header.fields.height)) addr)

variable [Bls]

theorem verifyAccount_ok_iff {source : Json → Except StateRpcError Json} :
    verifyAccount header qc validators source addr = some (.ok account) ↔
      verifyQc header qc validators = some (.ok ()) ∧
        readAccount header (source (request addr header.fields.height)) addr = .ok account := by
  unfold verifyAccount
  split
  · simp [*]
  · simp [*]
  · simp [*]

/-- BLAKE3 has no collision among the nodes of the trie and of the answer, and none in the trees over
the two roots and over those that the answer claims. -/
def CollisionFree (accounts : AccountMpt) (storageRoot : Hash) (resp : Json) : Prop :=
  ∀ first second proof, (resp.get "accountRoot").bind read32 = some first →
    (resp.get "storageRoot").bind read32 = some second →
    (resp.get "proof").bind parseProof = some proof →
    Set.InjOn dhash {p | p ∈ payloads [accounts.root.toList,storageRoot.toList] ++
      payloads [first.toList,second.toList]} ∧
    Mpt.NoCollision (accounts.trie.nodes ++ Mpt.proofTable proof.nodes)

/-- Whatever the source answers, the light client takes only the account that the trie behind the
header holds. -/
theorem verify_account_sound (writes : List (TrieMap.Write Address Account)) (storage : Mpt.Trie)
    (header : Header) (committed : header.stateRoot = stateRoot (ofWrites writes).root storage.root)
    (qc : QuorumCertificate) (validators : ValidatorSet) (source : Json → Except StateRpcError Json)
    (addr : Address) (account : Account)
    (safe : ∀ resp, source (request addr header.fields.height) = .ok resp →
      CollisionFree (ofWrites writes) storage.root resp)
    (accepted : verifyAccount header qc validators source addr = some (.ok account)) :
    (ofWrites writes).get addr = some (some account) := by
  obtain ⟨-,read⟩ := verifyAccount_ok_iff.mp accepted
  obtain ⟨resp,accountRoot,storageRoot,proof,answered,shown⟩ := readAccount_ok_iff.mp read
  obtain ⟨injective,nodes⟩ := safe resp answered _ _ _ shown.first shown.second shown.sent
  -- the two roots are those of the tries
  have leaves : [(ofWrites writes).root.toList,storage.root.toList] =
      [accountRoot.toList,storageRoot.toList] :=
    merkleRoot_injective rfl injective (committed.symm.trans shown.bound.symm)
  have root : accountRoot = (ofWrites writes).root := toList_injective (List.cons.inj leaves).1.symm
  have own : Mpt.NoCollision (ofWrites writes).trie.nodes := fun p left q right =>
    nodes p (List.mem_append_left _ left) q (List.mem_append_left _ right)
  have held := holds_ofWrites writes own
  -- the proof carries what the trie holds there
  have verified := shown.verified
  rw [root] at verified
  have value := held.verify addr proof nodes verified
  obtain ⟨raw,carried,decoded⟩ := shown.decoded
  rw [held.get own]
  cases present : (writes.foldl TrieMap.Write.apply ∅)[addr]? with
  | none =>
    rw [present,carried] at value
    cases value
  | some found =>
    rw [present,carried,Option.map_some] at value
    obtain rfl := Option.some.inj value
    rw [Account.decode_encode] at decoded
    cases decoded
    rfl

omit [Blake3] [Bls] in
theorem parseAddr_request (addr : Address) (height : Height) :
    parseAddr (request addr height) = .ok addr := by
  simp [parseAddr,request,Json.get,List.lookup]

omit [Blake3] [Bls] in
theorem heightOf_request (store : Store) (addr : Address) (height : Height) :
    heightOf store (request addr height) = .ok height := by
  simp [heightOf,request,Json.get,List.lookup,Json.asU64]

theorem honest_answer_accepted (inner : RpcInner) (safe : Mpt.NoCollision inner.accounts.trie.nodes)
    (certified : verifyQc header qc validators = some (.ok ()))
    (current : header.stateRoot = inner.world.commitStateRoot)
    (present : inner.world.accounts[addr]? = some account) :
    verifyAccount header qc validators (getProof inner) addr = some (.ok account) := by
  obtain ⟨resp,proof,answered,reads,-,verified,value⟩ := getProof_answers inner safe
    (parseAddr_request addr header.fields.height) (heightOf_request inner.store addr header.fields.height)
  refine verifyAccount_ok_iff.mpr ⟨certified,readAccount_ok_iff.mpr ?_⟩
  refine ⟨resp,_,_,proof,answered,reads.accountRoot,reads.storageRoot,
    (commitStateRoot_eq inner).symm.trans current.symm,reads.sent,verified,account.encode,?_,
    account.decode_encode⟩
  rw [value,present]
  rfl

/-- An answer fits the header of its height exactly if that header has the state root of the world
as it is. The light client then gets the account, if there is one, and no other header will do. -/
theorem served_proof_iff (inner : RpcInner) (safe : Mpt.NoCollision inner.accounts.trie.nodes)
    (params : Json) (addr : Address) (height : Height) (named : parseAddr params = .ok addr)
    (asked : heightOf inner.store params = .ok height) :
    (∃ resp, getProof inner params = .ok resp ∧
      (Matches inner.store addr resp ↔
        ∃ header, Blocks.getHeader inner.store height = .ok (some header) ∧
          header.stateRoot = inner.world.commitStateRoot)) ∧
    ∀ header qc validators, verifyQc header qc validators = some (.ok ()) →
      ((∃ account, verifyAccount header qc validators (getProof inner) addr = some (.ok account)) ↔
        header.stateRoot = inner.world.commitStateRoot ∧
          ∃ account, inner.world.accounts[addr]? = some account) := by
  constructor
  · obtain ⟨resp,proof,answered,reads,-,verified,-⟩ := getProof_answers inner safe named asked
    exact ⟨resp,answered,matches_iff inner reads verified⟩
  · intro header qc validators certified
    constructor
    · rintro ⟨account,accepted⟩
      obtain ⟨resp,proof,answered,reads,-,verified,value⟩ := getProof_answers inner safe
        (parseAddr_request addr header.fields.height) (heightOf_request inner.store addr header.fields.height)
      obtain ⟨other,accountRoot,storageRoot,p,same,shown⟩ :=
        readAccount_ok_iff.mp (verifyAccount_ok_iff.mp accepted).2
      cases answered.symm.trans same
      have first := shown.first
      have second := shown.second
      have sent := shown.sent
      rw [reads.accountRoot] at first
      rw [reads.storageRoot] at second
      rw [reads.sent] at sent
      cases first
      cases second
      cases sent
      refine ⟨shown.bound.symm.trans (commitStateRoot_eq inner).symm,?_⟩
      obtain ⟨raw,carried,-⟩ := shown.decoded
      rw [value] at carried
      obtain ⟨account,present,-⟩ := Option.map_eq_some_iff.mp carried
      exact ⟨account,present⟩
    · rintro ⟨current,account,present⟩
      exact ⟨account,honest_answer_accepted inner safe certified current present⟩

end Client

/-! A chain of two blocks, the second with a payment. -/
namespace Sample

@[reducible] def blake3 : Blake3 :=
  ⟨fun bytes => Vector.replicate 32 (UInt8.ofNat (bytes.foldl (fun sum b => (3 * sum + b.toNat + 1) % 251) 0))⟩

attribute [local instance] blake3 LoneSigner.bls Holdings.Sample.ed25519 Holdings.Sample.wasm

def payer : Address := Vector.replicate 32 73

def genesis : Genesis where
  chainId := 1
  alloc := Std.ExtTreeMap.ofList [(payer,⟨100,0,zeroHash⟩)] compare

def origin : World := .fromGenesis genesis

def payment : SignedTx :=
  ⟨⟨1,0,Spec.gasTransfer,3,.transfer ⟨zeroHash,10⟩⟩,Vector.replicate 64 0,zeroHash⟩

def block (height : Height) (txs : List SignedTx) : Block := ⟨⟨height,0,LoneSigner.validator 1,0⟩,txs⟩

def paid : World × List Receipt × Hash :=
  (Seq.applyBlock origin (block 1 [payment])).get (by decide +kernel)

def offer (block : Block) (after : World) (receipts : List Receipt) (appHash : Hash) : BodyOffer where
  header := { LoneSigner.header with fields := block.headerFields,stateRoot := after.commitStateRoot }
  block := block
  receipts := receipts.map Receipt.encode
  appHash := appHash

def first : BodyOffer :=
  offer (block 0 []) origin [] (Seq.appHash origin.commitStateRoot (txRootSigned []) (receiptsRoot []))

def second : BodyOffer := offer (block 1 [payment]) paid.1 paid.2.1 paid.2.2

def store : Store := applyBatch (applyBatch (Blocks.putGenesisHash ∅ genesis)
  (Blocks.offerOps first)) (Blocks.offerOps second)

theorem no_collision : Mpt.NoCollision (ofWrites (TrieMap.puts paid.1.accounts.toList)).trie.nodes := by
  unfold Mpt.NoCollision
  decide +kernel

def server : RpcInner := .rebuilt store paid.1 no_collision

theorem server_safe : Mpt.NoCollision server.accounts.trie.nodes := by
  rw [server,rebuilt_accounts]
  exact no_collision

theorem kept : Keeps genesis store [first,second] := by
  have fresh : Keeps genesis (Blocks.putGenesisHash ∅ genesis) [] :=
    ⟨by decide +kernel,by decide +kernel,by simp,by simp,by simp,by simp⟩
  have one : Keeps genesis _ [first] := fresh.put (by decide +kernel)
  exact one.put (by decide +kernel)

theorem served : Serves server genesis [first,second] := by
  refine ⟨?_,?_⟩
  · rw [server,rebuilt_store]
    exact kept
  · rw [server,rebuilt_world]
    exact ⟨origin,[],_,rfl,rfl,paid.1,paid.2.1,paid.2.2,(Option.some_get _).symm,rfl,rfl⟩

/-- At the tip, the answer fits the header. -/
theorem tip_proof_fits :
    ∃ resp, getProof server (request payer 1) = .ok resp ∧ Matches server.store payer resp := by
  obtain ⟨⟨resp,answered,fits⟩,-⟩ := served_proof_iff server server_safe (request payer 1) payer 1
    (parseAddr_request payer 1) (heightOf_request server.store payer 1)
  refine ⟨resp,answered,fits.mpr ⟨second.header,?_,?_⟩⟩
  · rw [server,rebuilt_store]
    decide +kernel
  · rw [server,rebuilt_world]
    rfl

/-- One block later, the server still gives the old state root with the new tries. -/
theorem old_height_does_not_fit :
    Serves server genesis [first,second] ∧
    ∃ resp, getProof server (request payer 0) = .ok resp ∧ ¬ Matches server.store payer resp := by
  obtain ⟨resp,proof,answered,reads,-,verified,-⟩ := getProof_answers server server_safe
    (parseAddr_request payer 0) (heightOf_request server.store payer 0)
  refine ⟨served,resp,answered,fun fits => ?_⟩
  obtain ⟨header,stored,same⟩ := (matches_iff server reads verified).mp fits
  have old : Blocks.getHeader store 0 = .ok (some first.header) := by decide +kernel
  rw [server,rebuilt_store,old] at stored
  cases stored
  rw [server,rebuilt_world] at same
  exact absurd same (by decide +kernel)

theorem no_collision_origin :
    Mpt.NoCollision (ofWrites (TrieMap.puts origin.accounts.toList)).trie.nodes := by
  unfold Mpt.NoCollision
  decide +kernel

def young : RpcInner := .rebuilt ∅ origin no_collision_origin

theorem young_safe : Mpt.NoCollision young.accounts.trie.nodes := by
  rw [young,rebuilt_accounts]
  exact no_collision_origin

def certificate : QuorumCertificate :=
  { LoneSigner.certificate 1 with block := .block first.header.hash }

def accounts : List (TrieMap.Write Address Account) := [.put payer ⟨100,0,zeroHash⟩]

theorem roots_apart : Set.InjOn dhash {p | p ∈
    payloads [(ofWrites accounts).root.toList,Mpt.Trie.new.root.toList] ++
      payloads [(ofWrites accounts).root.toList,Mpt.Trie.new.root.toList]} := by
  have apart : ((payloads [(ofWrites accounts).root.toList,Mpt.Trie.new.root.toList]).map dhash).Nodup := by
    decide +kernel
  intro p left q right same
  exact List.inj_on_of_nodup_map apart ((List.mem_append.mp left).elim id id)
    ((List.mem_append.mp right).elim id id) same

def sentNodes : List Bytes :=
  ((Mpt.prove (ofWrites accounts).trie (accountKey payer)).map Mpt.MptProof.nodes).getD []

theorem nodes_apart : Mpt.NoCollision ((ofWrites accounts).trie.nodes ++ Mpt.proofTable sentNodes) := by
  unfold Mpt.NoCollision
  decide +kernel

/-- The allocation of the payer is read. -/
theorem allocation_read : (ofWrites accounts).get payer = some (some ⟨100,0,zeroHash⟩) := by
  have present : young.world.accounts[payer]? = some ⟨100,0,zeroHash⟩ := by
    rw [young,rebuilt_world]
    decide +kernel
  have current : first.header.stateRoot = young.world.commitStateRoot := by
    rw [young,rebuilt_world]
    rfl
  have accepted := honest_answer_accepted young young_safe
    (by decide +kernel : verifyQc first.header certificate LoneSigner.alone = some (.ok ())) current present
  refine verify_account_sound accounts .new first.header (by decide +kernel) certificate
    LoneSigner.alone (getProof young) payer ⟨100,0,zeroHash⟩ ?_ accepted
  intro resp answered one other proof left right sent
  obtain ⟨resp',proof',answered',reads,proved,-,-⟩ := getProof_answers young young_safe
    (parseAddr_request payer 0) (heightOf_request young.store payer 0)
  cases answered'.symm.trans answered
  cases reads.sent.symm.trans sent
  have written : young.accounts = ofWrites accounts := by
    rw [young,rebuilt_accounts]
    rfl
  have nodes : sentNodes = proof.nodes := by
    rw [sentNodes,← written,proved]
    rfl
  have root := reads.accountRoot
  rw [written] at root
  cases root.symm.trans left
  cases reads.storageRoot.symm.trans right
  exact ⟨roots_apart,nodes ▸ nodes_apart⟩

end Sample
end Light
end L1
