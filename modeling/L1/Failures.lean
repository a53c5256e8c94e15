import L1.Ledger
import L1.Outcome

/-! A transaction that fails has no effect, in any world that transactions, slashes, tombstones
and commits lead to. -/
namespace L1.Failures

open Holdings Staking L1.Seq

inductive Event where
  | apply (signed : SignedTx)
  | notice (n : Notice)

section Chain

variable [Wasm] [Blake3] [Ed25519] [Bls]

def books (c : Chain) : Books := ⟨c.world.staking,c.slash⟩

/-- `none` is a panic. -/
def next (c : Chain) : Event → Option Chain
  | .apply signed => (applyTx c.world signed).map fun result => { c with world := result.1 }
  | .notice n =>
    let b := (books c).heed c.world.params n
    some { withStaking c b.staking with slash := b.slash }

def run (c : Chain) : List Event → Option Chain
  | [] => some c
  | event :: rest => match next c event with
    | none => none
    | some c => run c rest

variable {world world' : World} {signed : SignedTx} {receipt : Receipt}

omit [Bls] in
/-- What a transaction does to the ledger is the effect of a payload. -/
theorem staking_effect (outcome : Outcome world signed world' receipt) :
    ∃ result, Effect world.staking world.params (fromEd25519 signed.publicKey) signed.tx
      world'.staking result := by
  cases outcome with
  | rejected => exact ⟨.error .gas,.rejected⟩
  | unstaked payload failed => exact ⟨_,applyStakeTx_effect failed⟩
  | staked payload admitted applied sum charged => exact ⟨_,applyStakeTx_effect applied⟩
  | deployed payload admitted charged => exact ⟨.error .gas,.rejected⟩
  | called payload admitted charged ran =>
    have kept := (KeepsLedger.call ran).staking
    rw [kept]
    exact ⟨.error .gas,.rejected⟩
  | transferred payload admitted sum charged => exact ⟨.error .gas,.rejected⟩

theorem owned_next {c c' : Chain} {event : Event} (owned : Owned c.world.staking)
    (stepped : next c event = some c') : Owned c'.world.staking := by
  cases event with
  | apply signed =>
    obtain ⟨⟨world',receipt⟩,applied,rfl⟩ := Option.map_eq_some_iff.mp stepped
    obtain ⟨result,effect⟩ := staking_effect (applyTx_outcome applied)
    exact effect.owned owned
  | notice n =>
    cases stepped
    exact Books.owned_heed c.world.params (books c) n owned

theorem owned_run {c c' : Chain} (events : List Event) (owned : Owned c.world.staking)
    (reached : run c events = some c') : Owned c'.world.staking := by
  induction events generalizing c with
  | nil =>
    cases reached
    exact owned
  | cons event rest ih =>
    rw [run] at reached
    split at reached
    · cases reached
    rename_i middle stepped
    exact ih (owned_next owned stepped) reached

/-- The state that transactions are about; the traces of storage accesses apart. -/
structure SameState (w w' : World) : Prop where
  accounts : w'.accounts = w.accounts
  storage : w'.storage = w.storage
  code : w'.code = w.code
  staking : w'.staking = w.staking

omit [Bls] in
theorem sameState_of_failed (outcome : Outcome world signed world' receipt)
    (owned : Owned world.staking) (failure : receipt.success = false) : SameState world world' := by
  cases outcome with
  | rejected => exact ⟨rfl,rfl,rfl,rfl⟩
  | unstaked payload failed => exact ⟨rfl,rfl,rfl,(applyStakeTx_effect failed).failed owned⟩
  | staked => cases failure
  | deployed => cases failure
  | called => cases failure
  | transferred => cases failure

/-- A transaction that fails leaves accounts, contract storage, code and the staking ledger
as they were, whatever its kind and the reason. -/
theorem failed_tx_no_effect (g : Genesis) (events : List Event) (c : Chain)
    (reached : run (start g) events = some c) (signed : SignedTx) (world' : World)
    (receipt : Receipt) (applied : applyTx c.world signed = some (world',receipt))
    (failure : receipt.success = false) : SameState c.world world' :=
  sameState_of_failed (applyTx_outcome applied) (owned_run events Books.owned_empty reached) failure

end Chain

namespace Sample

open Holdings.Sample

attribute [local instance] Holdings.Sample.blake3 ed25519 wasm LoneSigner.bls

def stranger : SignedTx := sign 1 0 1 (Tx.stakeWith .unbond StakeKind.unbond_ne (LoneSigner.validator 7) 10)

def barred : Chain :=
  (run (start genesis) [.notice (.tombstone (LoneSigner.validator 7))]).get (by decide +kernel)

def refused : World × Receipt := (applyTx barred.world stranger).get (by decide +kernel)

theorem stranger_unbond_no_effect :
    applyTx barred.world stranger = some refused ∧ refused.2 = .fail .stakeInsufficient ∧
      SameState barred.world refused.1 := by
  have applied : applyTx barred.world stranger = some refused := (Option.some_get _).symm
  have failed : refused.2 = .fail .stakeInsufficient := by decide +kernel
  exact ⟨applied,failed,failed_tx_no_effect genesis _ barred (Option.some_get _).symm stranger
    refused.1 refused.2 applied (by rw [failed]; rfl)⟩

end Sample
end L1.Failures
