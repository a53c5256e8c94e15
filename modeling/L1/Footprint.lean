import L1.Optimistic
import L1.Totality

/-! The footprint of a transaction: the keys of the accounts it names, and one key for the
staking ledger. A contract's code and storage go with the key of its account. -/
namespace L1

namespace Stm

def stakingSlot : Bytes := ascii "stm.staking"

@[simp] theorem length_stakingSlot : stakingSlot.length = 11 := by decide

theorem accountKey_ne_stakingSlot (addr : Address) : accountKey addr ≠ stakingSlot := by
  intro same
  have lengths := congrArg List.length same
  simp at lengths

section Keys

variable [Blake3] [Ed25519]

def senderOf (signed : SignedTx) : Option Address :=
  if Ed25519.publicKeyValid signed.publicKey then some (fromEd25519 signed.publicKey) else none

/-- Account and staking keys that an envelope may touch. -/
def inferredKeys (signed : SignedTx) : OrdSet Bytes :=
  let keys : OrdSet Bytes := ∅
  let keys := match senderOf signed with
    | some sender => keys.insert (accountKey sender)
    | none => keys
  let keys := match signed.tx.asTransfer with
    | some t => keys.insert (accountKey t.toAddr)
    | none => keys
  let keys := if signed.tx.asStake.isSome then keys.insert stakingSlot else keys
  let keys := match signed.tx.asCall with
    | some c => keys.insert (accountKey c.toAddr)
    | none => keys
  match senderOf signed with
    | some sender =>
      if signed.tx.asDeploy.isSome then
        keys.insert (accountKey (WasmCall.createAddress sender signed.tx.nonce))
      else keys
    | none => keys

/-- The addresses that a payload names besides its sender. -/
def named (sender : Address) (tx : Tx) : List Address :=
  match tx.payload with
  | .transfer t => [t.toAddr]
  | .call c => [c.toAddr]
  | .deploy _ => [WasmCall.createAddress sender tx.nonce]
  | .stake _ => []

variable {signed : SignedTx}

theorem mem_inferredKeys (valid : Ed25519.publicKeyValid signed.publicKey = true) (k : Bytes) :
    k ∈ inferredKeys signed ↔ k = accountKey (fromEd25519 signed.publicKey) ∨
      (∃ addr ∈ named (fromEd25519 signed.publicKey) signed.tx, k = accountKey addr) ∨
      (signed.tx.asStake.isSome ∧ k = stakingSlot) := by
  unfold inferredKeys
  simp only [senderOf,valid,if_true]
  unfold named Tx.asTransfer Tx.asStake Tx.asCall Tx.asDeploy
  cases signed.tx.payload <;> simp <;> grind

theorem inferredKeys_cases {k : Bytes} (own : k ∈ inferredKeys signed) :
    (k = stakingSlot ∧ signed.tx.asStake ≠ none) ∨ ∃ addr, k = accountKey addr := by
  unfold inferredKeys at own
  unfold Tx.asTransfer Tx.asStake Tx.asCall Tx.asDeploy at *
  cases senderOf signed <;> cases payload : signed.tx.payload <;> simp_all <;> grind

theorem stakingSlot_mem (stakes : signed.tx.asStake ≠ none) :
    stakingSlot ∈ inferredKeys signed := by
  cases payload : signed.tx.payload with
  | stake s =>
    simp only [inferredKeys,Tx.asTransfer,Tx.asStake,Tx.asCall,Tx.asDeploy,payload]
    cases senderOf signed <;> simp
  | _ => simp [Tx.asStake,payload] at stakes

theorem contract_mem {c : Call} (called : signed.tx.asCall = some c) :
    accountKey c.toAddr ∈ inferredKeys signed := by
  cases payload : signed.tx.payload with
  | call c' =>
    obtain rfl : c' = c := by simpa [Tx.asCall,payload] using called
    simp only [inferredKeys,Tx.asTransfer,Tx.asStake,Tx.asCall,Tx.asDeploy,payload]
    cases senderOf signed <;> simp
  | _ => simp [Tx.asCall,payload] at called

theorem stakingSlot_mem_iff : stakingSlot ∈ inferredKeys signed ↔ signed.tx.asStake ≠ none := by
  refine ⟨fun own => ?_,stakingSlot_mem⟩
  rcases inferredKeys_cases own with ⟨-,stakes⟩ | ⟨addr,same⟩
  · exact stakes
  · exact absurd same.symm (accountKey_ne_stakingSlot addr)

end Keys

structure SameAt (k : Bytes) (w q : World) : Prop where
  accounts : ∀ addr, accountKey addr = k → w.accounts[addr]? = q.accounts[addr]?
  code : ∀ addr, accountKey addr = k → w.code[addr]? = q.code[addr]?
  storage : ∀ key : Bytes, key.take 32 = k → w.storage[key]? = q.storage[key]?
  staking : k = stakingSlot → w.staking = q.staking
  params : w.params = q.params

namespace SameAt

variable {k : Bytes} {w q p w' q' : World}

theorem refl (w : World) : SameAt k w w :=
  ⟨fun _ _ => rfl,fun _ _ => rfl,fun _ _ => rfl,fun _ => rfl,rfl⟩

theorem symm (same : SameAt k w q) : SameAt k q w :=
  ⟨fun a h => (same.accounts a h).symm,fun a h => (same.code a h).symm,
    fun a h => (same.storage a h).symm,fun h => (same.staking h).symm,same.params.symm⟩

theorem trans (first : SameAt k w q) (second : SameAt k q p) : SameAt k w p :=
  ⟨fun a h => (first.accounts a h).trans (second.accounts a h),
    fun a h => (first.code a h).trans (second.code a h),
    fun a h => (first.storage a h).trans (second.storage a h),
    fun h => (first.staking h).trans (second.staking h),first.params.trans second.params⟩

end SameAt

end Stm
end L1
