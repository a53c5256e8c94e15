import L1.Commuting
import L1.Contracts

/-! Snapshots of the state: the accounts and the root are exported, the rest is left behind. -/
namespace L1

structure StateSnapshot where
  commitRoot : Hash
  accounts : List (Address × Bytes)

namespace Snapshot

def takeSnapshot (commitRoot : Hash) (accounts : List (Address × Bytes)) : StateSnapshot :=
  ⟨commitRoot,accounts.mergeSort fun a b => (compare a.1 b.1).isLE⟩

def restoreAccountEncodings (snap : StateSnapshot) : List (Address × Bytes) := snap.accounts

def loadAccount (world : World) (e : Address × Bytes) : World :=
  match Account.decode e.2 with
  | .ok account => world.setAccount e.1 account
  | .error _ => world

/-- The encodings go into the account trie, one after the other. -/
def loadAccounts (world : World) (encodings : List (Address × Bytes)) : World :=
  encodings.foldl loadAccount world

theorem loadAccount_of {world : World} {addr : Address} {bytes : Bytes} {account : Account}
    (decoded : Account.decode bytes = .ok account) :
    loadAccount world (addr,bytes) = world.setAccount addr account := by
  simp only [loadAccount,decoded]

section Taken

variable [Blake3]

def ofWorld (w : World) : StateSnapshot :=
  takeSnapshot w.commitStateRoot (w.accounts.toList.map fun e => (e.1,e.2.encode))

/-- A snapshot loaded into an empty world with parameters of its own. -/
def restored (params : ParamsRegistry) (w : World) : World :=
  loadAccounts { params } (restoreAccountEncodings (ofWorld w))

omit [Blake3] in
theorem loadAccounts_encoded (world : World) (entries : List (Address × Account)) :
    loadAccounts world (entries.map fun e => (e.1,e.2.encode)) =
      { world with accounts := entries.foldl (fun acc e => acc.insert e.1 e.2) world.accounts } := by
  induction entries generalizing world with
  | nil => rfl
  | cons e rest ih =>
    have first : loadAccount world (e.1,e.2.encode) = world.setAccount e.1 e.2 :=
      loadAccount_of (Account.decode_encode e.2)
    rw [loadAccounts,List.map_cons,List.foldl_cons,first]
    exact ih (world.setAccount e.1 e.2)

theorem restored_eq (params : ParamsRegistry) (w : World) :
    restored params w = { params, accounts := w.accounts } := by
  have ordered : (w.accounts.toList.map fun e => (e.1,e.2.encode)).Pairwise
      fun a b => (compare a.1 b.1).isLE = true := by
    rw [List.pairwise_map]
    refine w.accounts.ordered_keys_toList.imp ?_
    intro a b below
    rw [below]
    rfl
  have sorted : (w.accounts.toList.map fun e => (e.1,e.2.encode)).mergeSort
      (fun a b => (compare a.1 b.1).isLE) = w.accounts.toList.map fun e => (e.1,e.2.encode) :=
    List.mergeSort_of_pairwise ordered
  have rebuilt := TrieMap.rebuild w.accounts
  rw [TrieMap.foldl_puts] at rebuilt
  rw [restored,restoreAccountEncodings,ofWorld,takeSnapshot]
  dsimp only
  rw [sorted,loadAccounts_encoded,rebuilt]

end Taken
end Snapshot

namespace Stm.SameState

variable [Blake3] [Ed25519] {w q w' q' : World} {signed : SignedTx}

omit [Blake3] [Ed25519] in
theorem sameAt (same : SameState w q) (params : w.params = q.params) (k : Bytes) : SameAt k w q where
  accounts _ _ := by rw [same.accounts]
  code _ _ := by rw [same.code]
  storage _ _ := by rw [same.storage]
  staking _ := same.staking
  params := params

variable [Wasm]

/-- Worlds with one state give one receipt and keep one state. -/
theorem applyTx {r r' : Receipt} (same : SameState w q) (params : w.params = q.params)
    (ran : Seq.applyTx w signed = some (w',r)) (ran' : Seq.applyTx q signed = some (q',r')) :
    r = r' ∧ SameState w' q' ∧ w'.params = q'.params := by
  obtain ⟨receipt,agree⟩ := sameAt_depends (fun k _ => same.sameAt params k) ran ran'
  have after (k) : SameAt k w' q' := by
    by_cases own : k ∈ inferredKeys signed
    · exact agree k own
    · exact ((sameAt_frame ran own).symm.trans (same.sameAt params k)).trans (sameAt_frame ran' own)
  exact ⟨receipt,sameState_of_sameAt after,(after []).params⟩

end Stm.SameState

namespace Snapshot

open Stm (SameState)

section Continuations

variable [Wasm] [Blake3] [Ed25519]

def outcomes (w : World) : List Block → Option (List (List Receipt × Hash))
  | [] => some []
  | block :: rest => match Seq.applyBlock w block with
    | none => none
    | some (w,receipts,app) => (outcomes w rest).map ((receipts,app) :: ·)

variable {w w' q : World} {c : Call} {signed : SignedTx}

theorem applyTxs_same (same : SameState w q) (params : w.params = q.params)
    (sound : w.Sound) (sound' : q.Sound) (txs : List SignedTx) :
    ∃ w' q' receipts, Seq.applyTxs w txs = some (w',receipts) ∧
      Seq.applyTxs q txs = some (q',receipts) ∧ SameState w' q' ∧ w'.params = q'.params ∧
      w'.Sound ∧ q'.Sound := by
  induction txs generalizing w q with
  | nil => exact ⟨w,q,[],rfl,rfl,same,params,sound,sound'⟩
  | cons signed rest ih =>
    obtain ⟨w₁,r,ran,sound₁⟩ := Seq.applyTx_total sound signed
    obtain ⟨q₁,r',ran',sound₁'⟩ := Seq.applyTx_total sound' signed
    obtain ⟨rfl,same₁,params₁⟩ := same.applyTx params ran ran'
    obtain ⟨w₂,q₂,receipts,later,later',last⟩ := ih same₁ params₁ sound₁ sound₁'
    exact ⟨w₂,q₂,r :: receipts,by simp only [Seq.applyTxs,ran,later],
      by simp only [Seq.applyTxs,ran',later'],last⟩

/-- Worlds with one state have one future. -/
theorem outcomes_same (same : SameState w q) (params : w.params = q.params)
    (sound : w.Sound) (sound' : q.Sound) (blocks : List Block) : outcomes w blocks = outcomes q blocks := by
  induction blocks generalizing w q with
  | nil => rfl
  | cons block rest ih =>
    obtain ⟨w₁,q₁,receipts,ran,ran',same₁,params₁,sound₁,sound₁'⟩ :=
      applyTxs_same same params sound sound' block.txs
    have root : w₁.commitStateRoot = q₁.commitStateRoot := by
      rw [World.commitStateRoot,World.commitStateRoot,same₁.accounts,same₁.storage]
    simp only [outcomes,Seq.applyBlock,ran,ran',root,ih same₁ params₁ sound₁ sound₁']

theorem storage_empty {g : Genesis} {blocks : List Block}
    (reached : Seq.applyBlocks (World.fromGenesis g) blocks = some w) (bare : w.code = ∅) :
    w.storage = ∅ := by
  rw [Seq.applyBlocks_eq] at reached
  refine Seq.worldAfter_keep (P := fun w => w.code = ∅ → w.storage = ∅) ?_ reached (fun _ => rfl) bare
  intro world signed world' receipt _ applied before after
  cases Seq.applyTx_outcome applied with
  | rejected => exact before after
  | unstaked => exact before after
  | staked => exact before after
  | deployed =>
    have inserted := congrArg (fun code : Map Address Bytes => code.isEmpty) after
    simp [Seq.installed] at inserted
  | @called c gas paid _ payload admitted _ ran =>
    have keeps := KeepsLedger.call ran
    rw [keeps.code] at after
    have none : ((Seq.clearTraces world).setAccount (fromEd25519 signed.publicKey) paid).code[c.toAddr]? =
        none := by
      rw [after]
      simp
    simp [WasmCall.call,none] at ran
  | transferred => exact before after

theorem sound_reached {g : Genesis} {blocks : List Block}
    (reached : Seq.applyBlocks (World.fromGenesis g) blocks = some w) : w.Sound := by
  rw [Seq.applyBlocks_eq] at reached
  refine Seq.worldAfter_keep (P := World.Sound) ?_ reached (Execution.sound_start g)
  intro world signed world' receipt _ applied sound
  obtain ⟨_,_,again,after⟩ := Seq.applyTx_total sound signed
  rw [applied] at again
  cases again
  exact after

omit [Blake3] [Ed25519] in
/-- Where there is code, a call does not fail for want of it. -/
theorem call_reason {code : Bytes} {fuel : U64} {e : RejectReason}
    (there : w.code[c.toAddr]? = some code)
    (ran : WasmCall.call w c fuel = some (w',.error e)) : e ≠ .wasmNoCode := by
  unfold WasmCall.call WasmCall.execute WasmCall.validateWasm at ran
  simp only [there] at ran
  cases valid : Wasm.validate code with
  | false =>
    simp only [valid,Bool.false_eq_true,if_false] at ran
    cases ran
    decide
  | true =>
    simp only [valid,if_true] at ran
    split at ran
    · cases ran
      decide
    split at ran
    · cases ran
    · rename_i guest
      cases ran
      rintro rfl
      exact absurd (WasmCall.runGuest_error guest) (by decide)

/-- A free call, with its nonce and gas right, runs the code that is there. -/
theorem applyTx_freeCall (verified : verifyEd25519 signed = true) (payload : signed.tx.payload = .call c)
    (metered : gasMeter signed.tx = .ok Spec.gasCall)
    (nonce : (w.account (fromEd25519 signed.publicKey)).nonce = signed.tx.nonce) :
    Seq.applyTx w signed = Seq.applyCall (Seq.clearTraces w) (fromEd25519 signed.publicKey)
      (w.account (fromEd25519 signed.publicKey)) Spec.gasCall signed.tx c := by
  have valid : Ed25519.publicKeyValid signed.publicKey = true :=
    (Bool.and_eq_true_iff.mp verified).1
  have known : senderAddress signed = .ok (fromEd25519 signed.publicKey) := by
    simp [senderAddress,valid]
  have passed : nonceCheck signed.tx (w.account (fromEd25519 signed.publicKey)) = .ok () := by
    simp [nonceCheck,nonce]
  have cleared : (Seq.clearTraces w).account (fromEd25519 signed.publicKey) =
      w.account (fromEd25519 signed.publicKey) := rfl
  simp only [Seq.applyTx,verified,Bool.true_eq_false,if_false,known,cleared,passed,metered,
    Seq.applyPayload,payload]

/-- A free call of a contract ends otherwise where its code is than where it is not. -/
theorem freeCall_tells {q' : World} {code : Bytes}
    {r r' : Receipt} (verified : verifyEd25519 signed = true)
    (payload : signed.tx.payload = .call c) (free : signed.tx.maxFee = 0)
    (metered : gasMeter signed.tx = .ok Spec.gasCall)
    (nonce : (w.account (fromEd25519 signed.publicKey)).nonce = signed.tx.nonce)
    (same : q.account (fromEd25519 signed.publicKey) = w.account (fromEd25519 signed.publicKey))
    (there : w.code[c.toAddr]? = some code) (gone : q.code[c.toAddr]? = none)
    (ran : Seq.applyTx w signed = some (w',r)) (ran' : Seq.applyTx q signed = some (q',r')) :
    r ≠ r' := by
  rw [applyTx_freeCall verified payload metered nonce] at ran
  rw [applyTx_freeCall verified payload metered (same ▸ nonce),same] at ran'
  have passed : valueBalanceCheck signed.tx 0 (w.account (fromEd25519 signed.publicKey)) = .ok () := by
    rw [Mempool.valueBalanceCheck_ok_iff,free]
    exact Nat.zero_le _
  obtain ⟨paid,charged⟩ := Seq.charge_fee passed
  have missing : (Seq.clearTraces q).code[c.toAddr]? = none := gone
  have present : (Seq.clearTraces w).code[c.toAddr]? = some code := there
  simp only [Seq.applyCall,passed,missing] at ran'
  cases ran'
  simp only [Seq.applyCall,passed,present,charged] at ran
  split at ran
  · cases ran
  · rename_i called
    cases ran
    intro equal
    have present' : ((Seq.clearTraces w).setAccount (fromEd25519 signed.publicKey)
        paid).code[c.toAddr]? = some code := there
    exact call_reason present' called (Option.some_inj.mp (congrArg Receipt.reason equal))
  · cases ran
    intro equal
    cases congrArg Receipt.success equal

/-- The restored world has the committed root, and every further block does on it what it does
on the world the snapshot was taken of. -/
def Restores (params : ParamsRegistry) (w : World) : Prop :=
  (restored params w).commitStateRoot = (ofWorld w).commitRoot ∧
    ∀ blocks, outcomes (restored params w) blocks = outcomes w blocks

/-- No further block tells whether the staking ledger and the parameters are kept. -/
def Unstaked (params : ParamsRegistry) (w : World) : Prop :=
  ∀ blocks, outcomes { w with staking := {}, params } blocks = outcomes w blocks

omit [Wasm] [Ed25519] in
theorem sound_restored (params : ParamsRegistry) (w : World) : (restored params w).Sound := by
  rw [restored_eq]
  exact ⟨VersionedSlots.healthy_empty,fun key value held => by simp at held⟩

theorem outcomes_single {r : Receipt}
    (ran : Seq.applyTx w signed = some (w',r)) (fields : HeaderFields) :
    ∃ app, outcomes w [⟨fields,[signed]⟩] = some [([r],app)] := by
  simp only [outcomes,Seq.applyBlock,Seq.applyTxs,ran,Option.map_some]
  exact ⟨_,rfl⟩

/-- A snapshot restores no world with code, as anyone may call it. -/
theorem code_empty_of_restores
    (signs : ∃ pk, Ed25519.publicKeyValid pk = true ∧ ∀ msg, ∃ sig, Ed25519.verify pk msg sig = true)
    (sound : w.Sound) {params : ParamsRegistry} (restores : Restores params w) : w.code = ∅ := by
  apply Std.ExtTreeMap.ext_getElem?
  intro contract
  cases there : w.code[contract]? with
  | none => simp
  | some code =>
    obtain ⟨pk,valid,sign⟩ := signs
    have account : (restored params w).account (fromEd25519 pk) = w.account (fromEd25519 pk) := by
      rw [restored_eq]
      rfl
    have gone : (restored params w).code[contract]? = none := by
      rw [restored_eq]
      simp
    -- a call for no fee, by any key that can sign
    obtain ⟨tx,payload,free,limit,nonce⟩ : ∃ tx : Tx, tx.payload = .call ⟨contract,[]⟩ ∧
        tx.maxFee = 0 ∧ tx.gasLimit = Spec.gasCall ∧ (w.account (fromEd25519 pk)).nonce = tx.nonce :=
      ⟨⟨0,(w.account (fromEd25519 pk)).nonce,Spec.gasCall,0,.call ⟨contract,[]⟩⟩,rfl,rfl,rfl,rfl⟩
    obtain ⟨sig,checked⟩ := sign tx.signedMessage
    have verified : verifyEd25519 ⟨tx,sig,pk⟩ = true := by simp [verifyEd25519,valid,checked]
    have metered : gasMeter tx = .ok Spec.gasCall := by
      have low : ¬ Spec.maxGas < Spec.gasCall := by decide
      simp [gasMeter,limit,payload,gasCost,low]
    obtain ⟨w',r,ran,-⟩ := Seq.applyTx_total sound ⟨tx,sig,pk⟩
    obtain ⟨q',r',ran',-⟩ := Seq.applyTx_total (sound_restored params w) ⟨tx,sig,pk⟩
    obtain ⟨app,single⟩ := outcomes_single ran ⟨0,0,Vector.replicate 48 0,0⟩
    obtain ⟨app',single'⟩ := outcomes_single ran' ⟨0,0,Vector.replicate 48 0,0⟩
    have equal := restores.2 [⟨⟨0,0,Vector.replicate 48 0,0⟩,[⟨tx,sig,pk⟩]⟩]
    rw [single,single'] at equal
    have receipts : r' = r := by
      simpa using congrArg Prod.fst (List.cons.inj (Option.some_inj.mp equal)).1
    exact absurd receipts.symm
      (freeCall_tells verified payload free metered nonce account there gone ran ran')

end Continuations

namespace Sample

open Contracts.Sample (genesis block world contract)

attribute [local instance] Holdings.Sample.blake3 Holdings.Sample.ed25519 Contracts.Sample.wasm

theorem signs : ∃ pk, Ed25519.publicKeyValid pk = true ∧
    ∀ msg, ∃ sig, Ed25519.verify pk msg sig = true :=
  ⟨zeroHash,rfl,fun _ => ⟨Vector.replicate 64 0,rfl⟩⟩

end Sample
end Snapshot
end L1
