import L1.Conservation
import L1.Outcome

/-! Account nonces over runs: they never fall, and a successful transaction moves the nonce
of its sender on, until the last one. -/
namespace L1

def lastNonce : Nonce := BitVec.allOnes 64

theorem toNat_lastNonce : lastNonce.toNat = 2^64 - 1 := by decide +kernel

theorem World.account_setAccount (world : World) (addr other : Address) (account : Account) :
    (world.setAccount addr account).account other =
      if other = addr then account else world.account other := by
  simp only [World.account,World.setAccount,Map.get?_insert]
  split <;> rfl

namespace Seq

theorem toNat_nextNonce (nonce : Nonce) :
    (nextNonce nonce).toNat = min (nonce.toNat + 1) (2^64 - 1) := by
  have bound := nonce.isLt
  have one : (1 : Nonce).toNat = 1 := rfl
  unfold nextNonce
  cases sum : checkedAdd nonce 1 with
  | none =>
    rw [checkedAdd_eq_none,one] at sum
    simp only [Option.getD_none]
    omega
  | some next =>
    rw [checkedAdd_eq_some,one] at sum
    simp only [Option.getD_some]
    have := next.isLt
    omega

theorem toNat_lt_nextNonce {nonce : Nonce} (apart : nonce ≠ lastNonce) :
    nonce.toNat < (nextNonce nonce).toNat := by
  have below : nonce.toNat ≠ 2^64 - 1 := by
    rw [← toNat_lastNonce]
    exact fun equal => apart (BitVec.eq_of_toNat_eq equal)
  have bound := nonce.isLt
  rw [toNat_nextNonce]
  omega

theorem nonce_of_charge {account paid : Account} {pay : Amount}
    (charged : charge account pay = some paid) : paid.nonce = nextNonce account.nonce := by
  obtain ⟨balance,-,rfl⟩ := Option.map_eq_some_iff.mp charged
  rfl

theorem nonce_setAccount_paid {world : World} {sender : Address} {account : Account}
    (moved : account.nonce = nextNonce (world.account sender).nonce) (addr : Address) :
    (((clearTraces world).setAccount sender account).account addr).nonce =
      if addr = sender then nextNonce (world.account addr).nonce else (world.account addr).nonce := by
  rw [World.account_setAccount]
  by_cases own : addr = sender
  · subst own
    rw [if_pos rfl,if_pos rfl,moved]
  · rw [if_neg own,if_neg own]
    rfl

variable [Wasm] [Blake3] [Ed25519] {world world' : World} {signed : SignedTx} {receipt : Receipt}

/-- A transaction moves one nonce, that of its sender, and only if it succeeds. -/
theorem Outcome.nonce (outcome : Outcome world signed world' receipt) (addr : Address) :
    (world'.account addr).nonce =
      if receipt.success = true ∧ addr = fromEd25519 signed.publicKey then
        nextNonce (world.account addr).nonce
      else (world.account addr).nonce := by
  cases outcome with
  | rejected => rfl
  | unstaked => rfl
  | @staked s book gas pay paid _ _ _ _ charged =>
    have moved : (if s.kind = .withdraw then credit paid s.amount else paid).nonce =
        nextNonce (world.account (fromEd25519 signed.publicKey)).nonce := by
      rw [← nonce_of_charge charged]
      split <;> rfl
    simp only [Receipt.ok,true_and]
    exact nonce_setAccount_paid moved addr
  | deployed _ _ charged =>
    have paid := nonce_setAccount_paid (nonce_of_charge charged) addr
    simp only [Receipt.ok,true_and]
    rw [← paid]
    change ((World.setAccount _ _ _).account addr).nonce = _
    rw [World.account_setAccount]
    split
    · rename_i created
      rw [created]
    · rfl
  | called _ _ charged ran =>
    have paid := nonce_setAccount_paid (nonce_of_charge charged) addr
    simp only [Receipt.ok,true_and]
    rw [← paid,World.account,World.account,(KeepsLedger.call ran).accounts]
  | transferred _ _ _ charged =>
    have paid := nonce_setAccount_paid (nonce_of_charge charged) addr
    simp only [Receipt.ok,true_and]
    rw [← paid,Seq.transferred,World.account_setAccount]
    split
    · rename_i recipient
      rw [recipient]
      rfl
    · rfl

theorem nonce_mono (outcome : Outcome world signed world' receipt) (addr : Address) :
    (world.account addr).nonce.toNat ≤ (world'.account addr).nonce.toNat := by
  have bound := (world.account addr).nonce.isLt
  rw [outcome.nonce]
  split
  · rw [toNat_nextNonce]
    omega
  · exact le_rfl

theorem Outcome.admitted (outcome : Outcome world signed world' receipt)
    (success : receipt.success = true) : ∃ gas, Admitted world signed gas := by
  cases outcome with
  | rejected => cases success
  | unstaked => cases success
  | staked _ admitted => exact ⟨_,admitted⟩
  | deployed _ admitted => exact ⟨_,admitted⟩
  | called _ admitted => exact ⟨_,admitted⟩
  | transferred _ admitted => exact ⟨_,admitted⟩

end Seq

namespace Holdings

open L1.Seq

section Runs

variable [Wasm] [Blake3] [Ed25519] [Bls]

variable {c c' : Chain} {step : Step} {signed : SignedTx}

theorem next_nonce (stepped : next c step = some c') (addr : Address) :
    (c.world.account addr).nonce.toNat ≤ (c'.world.account addr).nonce.toNat := by
  cases step with
  | apply signed =>
    obtain ⟨⟨world',receipt⟩,applied,rfl⟩ := Option.map_eq_some_iff.mp stepped
    exact nonce_mono (applyTx_outcome applied) addr
  | observe finalized => cases stepped; exact le_rfl
  | epoch finalized => cases stepped; exact le_rfl
  | slash evidence =>
    rw [next] at stepped
    split at stepped
    · cases stepped; exact le_rfl
    · cases stepped; exact le_rfl

theorem run_nonce (steps : List Step) (reached : run c steps = some c') (addr : Address) :
    (c.world.account addr).nonce.toNat ≤ (c'.world.account addr).nonce.toNat := by
  induction steps generalizing c with
  | nil => cases reached; exact le_rfl
  | cons step rest ih =>
    rw [run] at reached
    split at reached
    · cases reached
    · rename_i stepped
      exact (next_nonce stepped addr).trans (ih reached)

def succeeds (signed : SignedTx) (c : Chain) : Step → Nat
  | .apply tx => match applyTx c.world tx with
    | some (_,receipt) => if tx = signed ∧ receipt.success = true then 1 else 0
    | none => 0
  | _ => 0

def successes (signed : SignedTx) (c : Chain) : List Step → Nat
  | [] => 0
  | step :: rest => succeeds signed c step + match next c step with
    | none => 0
    | some c' => successes signed c' rest

/-- A step that succeeds was admitted, and leaves its sender one nonce further. -/
theorem succeeds_spec (signed : SignedTx)
    (stepped : next c step = some c') : succeeds signed c step = 0 ∨
      succeeds signed c step = 1 ∧
      (c.world.account (fromEd25519 signed.publicKey)).nonce = signed.tx.nonce ∧
      (c'.world.account (fromEd25519 signed.publicKey)).nonce = nextNonce signed.tx.nonce := by
  cases step with
  | apply tx =>
    obtain ⟨⟨world',receipt⟩,applied,rfl⟩ := Option.map_eq_some_iff.mp stepped
    simp only [succeeds,applied]
    split
    · rename_i both
      obtain ⟨rfl,success⟩ := both
      have outcome := applyTx_outcome applied
      obtain ⟨gas,admitted⟩ := outcome.admitted success
      exact .inr ⟨rfl,admitted.nonce,by rw [outcome.nonce,if_pos ⟨success,rfl⟩,admitted.nonce]⟩
    · exact .inl rfl
  | observe finalized => exact .inl rfl
  | epoch finalized => exact .inl rfl
  | slash evidence => exact .inl rfl

theorem successes_passed (steps : List Step)
    (passed : signed.tx.nonce.toNat < (c.world.account (fromEd25519 signed.publicKey)).nonce.toNat) :
    successes signed c steps = 0 := by
  induction steps generalizing c with
  | nil => rfl
  | cons step rest ih =>
    rw [successes]
    split
    · rename_i stopped
      cases step with
      | apply tx =>
        simp only [next,Option.map_eq_none_iff] at stopped
        simp [succeeds,stopped]
      | _ => rfl
    · rename_i stepped
      have later := ih (Nat.lt_of_lt_of_le passed (next_nonce stepped _))
      rcases succeeds_spec signed stepped with none | ⟨-,current,-⟩
      · rw [none,later]
      · rw [current] at passed
        exact absurd passed (Nat.lt_irrefl _)

theorem successes_le_one (apart : signed.tx.nonce ≠ lastNonce)
    (steps : List Step) (c : Chain) : successes signed c steps ≤ 1 := by
  induction steps generalizing c with
  | nil => exact Nat.zero_le 1
  | cons step rest ih =>
    rw [successes]
    split
    · cases step with
      | apply tx =>
        rw [succeeds]
        split
        · split <;> omega
        · omega
      | _ => exact Nat.zero_le 1
    · rename_i stepped
      rcases succeeds_spec signed stepped with none | ⟨once,-,moved⟩
      · rw [none,Nat.zero_add]
        exact ih _
      · rw [once,successes_passed rest (by rw [moved]; exact toNat_lt_nextNonce apart)]

/-- In every run from any genesis an envelope succeeds at most once, if its nonce is not the
last. After a success, the nonce check refuses it in all later states if and only if. -/
theorem succeeds_once_iff (signed : SignedTx) :
    (signed.tx.nonce ≠ lastNonce → ∀ g steps, successes signed (start g) steps ≤ 1) ∧
    ∀ g steps c world' receipt, run (start g) steps = some c →
      applyTx c.world signed = some (world',receipt) → receipt.success = true →
      ((∀ later c', run { c with world := world' } later = some c' →
        nonceCheck signed.tx (c'.world.account (fromEd25519 signed.publicKey)) ≠ .ok ()) ↔
      signed.tx.nonce ≠ lastNonce) := by
  refine ⟨fun apart g steps => successes_le_one apart steps (start g),?_⟩
  intro g steps c world' receipt _ applied success
  have outcome := applyTx_outcome applied
  obtain ⟨gas,admitted⟩ := outcome.admitted success
  have moved : (world'.account (fromEd25519 signed.publicKey)).nonce = nextNonce signed.tx.nonce := by
    rw [outcome.nonce,if_pos ⟨success,rfl⟩,admitted.nonce]
  constructor
  · -- at the last nonce the sender stays where it is
    intro never last
    have stays : nextNonce signed.tx.nonce = signed.tx.nonce := by rw [last]; decide +kernel
    exact never [] _ rfl (by rw [nonceCheck,if_pos (moved.trans stays)])
  · intro apart later c' after passed
    have grown := run_nonce later after (fromEd25519 signed.publicKey)
    have further := toNat_lt_nextNonce apart
    unfold nonceCheck at passed
    split at passed
    · rename_i same
      rw [same,moved] at grown
      omega
    · cases passed

end Runs

namespace Sample

attribute [local instance] blake3 ed25519 wasm LoneSigner.bls

def lastGenesis : Genesis where
  chainId := 1
  alloc := Std.ExtTreeMap.ofList [(address 1,⟨100,lastNonce,zeroHash⟩)] compare

def payment : SignedTx := sign 1 lastNonce 1 (.transfer ⟨address 2,10⟩)

/-- One signed payment is made twice. -/
theorem last_payment_repeats :
    successes payment (start lastGenesis) [.apply payment,.apply payment] = 2 := by
  decide +kernel

end Sample
end Holdings
end L1
