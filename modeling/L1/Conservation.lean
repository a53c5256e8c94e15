import L1.Finality
import L1.Holdings

/-! Runs of transactions, slashing and epochs from a genesis, and what becomes of the total. -/
namespace L1.Holdings

open L1.Seq

structure Chain where
  world : World
  slash : SlashState

inductive Step where
  | apply (signed : SignedTx)
  | observe (finalized : Steps.Finalized)
  | epoch (finalized : Steps.Finalized)
  | slash (evidence : Evidence)

def start (g : Genesis) : Chain := ⟨.fromGenesis g,∅⟩

def withStaking (c : Chain) (staking : StakingState) : Chain :=
  { c with world := { c.world with staking } }

section Chain

variable [Wasm] [Blake3] [Ed25519] [Bls]

/-- `none` is a panic; rejected evidence changes nothing. -/
def next (c : Chain) : Step → Option Chain
  | .apply signed => (applyTx c.world signed).map fun result => { c with world := result.1 }
  | .observe finalized => some (withStaking c (Staking.observeCommit c.world.staking finalized))
  | .epoch finalized =>
    some (withStaking c (Staking.epochSetUpdate c.world.staking c.world.params finalized).1)
  | .slash evidence => match Slash.apply c.world.staking c.slash c.world.params evidence with
    | .error _ => some c
    | .ok (staking,slash,_) => some { withStaking c staking with slash }

def run (c : Chain) : List Step → Option Chain
  | [] => some c
  | step :: rest => match next c step with
    | none => none
    | some c => run c rest

end Chain

def allocated (g : Genesis) : Nat := Map.total (fun _ (a : GenesisAccount) => a.balance.toNat) g.alloc

theorem total_start (g : Genesis) : total (start g).world = allocated g := by
  have filled := Map.total_foldl_insert
    (fun addr (a : Account) => counted everyone (some addr) a.balance) Account.fromGenesis
    g.alloc.toList ∅ (Map.nodup_keys g.alloc) (by simp)
  have empty : bookShare everyone {} = 0 := by
    simp [bookShare,bondShare,delegationShare,pendingShare]
  unfold total share accountShare
  change Map.total _ (g.alloc.toList.foldl _ ∅) + bookShare everyone {} = _
  rw [filled,empty,Map.total_empty]
  simp only [counted_everyone,allocated,Map.total,Account.fromGenesis]
  omega

theorem total_applyTx [Wasm] [Blake3] [Ed25519] {world world' : World} {signed : SignedTx} {receipt : Receipt}
    (fits : total world < 2^128) (applied : applyTx world signed = some (world',receipt)) :
    total world' ≤ total world := by
  have settled := applyTx_settled everyone rfl fits applied
  unfold total
  cases outcome : receipt.success with
  | false => exact (settled.failed outcome).le
  | true =>
    have equation := settled.success outcome
    have bound : gained everyone signed.tx ≤
        lost everyone world (fromEd25519 signed.publicKey) signed.tx := by
      unfold gained lost
      cases signed.tx.payload <;> simp
    omega

theorem total_slash [Blake3] [Bls] {staking staking' : StakingState} {slash slash' : SlashState}
    {registry : ParamsRegistry} {evidence : Evidence} {cut : Amount}
    (applied : Slash.apply staking slash registry evidence = .ok (staking',slash',cut)) :
    bookShare everyone staking' ≤ bookShare everyone staking := by
  unfold Slash.apply at applied
  split at applied
  · cases applied
  dsimp only at applied
  split at applied
  · cases applied
    exact Nat.le_refl _
  · cases applied
    have change (next : Amount) := total_insert_counted everyone (fun id => staking.operator[id]?)
      staking.selfBond evidence.a.signer next
    have less : ∀ cur cut : Amount, ((checkedSub cur cut).getD 0).toNat ≤ cur.toNat := by
      intro cur cut
      cases rest : checkedSub cur cut with
      | none => simp
      | some next => have := checkedSub_eq_some.mp rest; simp; omega
    unfold bookShare bondShare
    simp only [counted_everyone] at change ⊢
    have := change ((checkedSub ((staking.selfBond[evidence.a.signer]?).getD 0)
      (saturatingMul ((staking.selfBond[evidence.a.signer]?).getD 0)
        ((Slash.slashPercent registry).setWidth 128) / 100)).getD 0)
    have := less ((staking.selfBond[evidence.a.signer]?).getD 0)
      (saturatingMul ((staking.selfBond[evidence.a.signer]?).getD 0)
        ((Slash.slashPercent registry).setWidth 128) / 100)
    omega

theorem bookShare_epochSetUpdate [Blake3] (own : Owners) (book : StakingState) (registry : ParamsRegistry)
    (finalized : Steps.Finalized) :
    bookShare own (Staking.epochSetUpdate book registry finalized).1 = bookShare own book := by
  unfold Staking.epochSetUpdate
  dsimp only
  split
  · rfl
  · split <;> rfl

section Runs

variable [Wasm] [Blake3] [Ed25519] [Bls]

theorem total_next {c c' : Chain} {step : Step} (fits : total c.world < 2^128)
    (stepped : next c step = some c') : total c'.world ≤ total c.world := by
  cases step with
  | apply signed =>
    obtain ⟨⟨world',receipt⟩,applied,rfl⟩ := Option.map_eq_some_iff.mp stepped
    exact total_applyTx fits applied
  | observe finalized =>
    cases stepped
    exact Nat.le_refl _
  | epoch finalized =>
    cases stepped
    have same := bookShare_epochSetUpdate everyone c.world.staking c.world.params finalized
    unfold total share withStaking
    dsimp only
    omega
  | slash evidence =>
    simp only [next] at stepped
    split at stepped
    · cases stepped
      exact Nat.le_refl _
    · rename_i applied
      cases stepped
      have less := total_slash applied
      unfold total share withStaking
      dsimp only
      omega

theorem total_run {c c' : Chain} (steps : List Step) (fits : total c.world < 2^128)
    (ran : run c steps = some c') : total c'.world ≤ total c.world := by
  induction steps generalizing c with
  | nil =>
    cases ran
    exact Nat.le_refl _
  | cons step rest ih =>
    unfold run at ran
    split at ran
    · cases ran
    · rename_i middle stepped
      have one := total_next fits stepped
      exact Nat.le_trans (ih (Nat.lt_of_le_of_lt one fits) ran) one

/-- In every reachable world the total still fits a balance. -/
theorem reachable_fits {g : Genesis} {steps : List Step} {c : Chain}
    (small : allocated g < 2^128) (reached : run (start g) steps = some c) :
    total c.world < 2^128 := by
  have begin_ := total_start g
  have bound := total_run steps (by omega) reached
  omega

end Runs

/-- The transactions that destroy no value: an undelegation of a positive amount is credited
to nobody, and an unbond overwrites what its slot holds. -/
def Conserving (world : World) (tx : Tx) : Prop :=
  ∀ s, tx.payload = .stake s →
    (s.kind = .undelegate → s.amount = 0) ∧
    (s.kind = .unbond → ∀ e, world.staking.pendingUnbond[world.staking.nextUnbond]? = some e →
      e.amount = 0)

theorem slotShare_everyone (book : StakingState) : slotShare everyone book = 0 ↔
      ∀ e, book.pendingUnbond[book.nextUnbond]? = some e → e.amount = 0 := by
  unfold slotShare Map.part
  cases held : book.pendingUnbond[book.nextUnbond]? with
  | none => simp
  | some e =>
    simp only [Option.elim_some,entryShare,counted_everyone,Option.some.injEq,forall_eq']
    exact ⟨fun zero => BitVec.eq_of_toNat_eq zero,fun zero => by rw [zero]; rfl⟩

/-- Beyond the fee a transaction loses exactly what it destroys. -/
theorem lost_everyone (world : World) (sender : Address) (tx : Tx) :
    lost everyone world sender tx = tx.maxFee.toNat + gained everyone tx ↔ Conserving world tx := by
  unfold lost gained Conserving
  cases payload : tx.payload with
  | transfer t => simp
  | deploy d => simp
  | call c => simp
  | stake s =>
    simp only [TxPayload.stake.injEq,forall_eq',counted_everyone]
    cases kind : s.kind with
    | bond => simp
    | delegate => simp
    | withdraw => simp
    | unbond =>
      have slot := slotShare_everyone world.staking
      simp only [reduceCtorEq,false_implies,true_and,forall_const,← slot]
      omega
    | undelegate =>
      simp only [reduceCtorEq,false_implies,and_true,forall_const]
      constructor
      · intro equal
        apply BitVec.eq_of_toNat_eq
        have zero : (0 : Amount).toNat = 0 := rfl
        omega
      · intro zero
        rw [zero]
        rfl

section Conservation

variable [Wasm] [Blake3] [Ed25519] [Bls]

/-- A failed transaction keeps the total, and a successful one burns exactly its fee if and
only if it is conserving. -/
theorem total_falls_by_fee_iff (g : Genesis) (steps : List Step) (c : Chain)
    (small : allocated g < 2^128) (reached : run (start g) steps = some c) (signed : SignedTx)
    (world' : World) (receipt : Receipt)
    (applied : applyTx c.world signed = some (world',receipt)) :
    (receipt.success = false → total world' = total c.world) ∧
    (receipt.success = true →
      (total world' + signed.tx.maxFee.toNat = total c.world ↔ Conserving c.world signed.tx)) := by
  have settled := applyTx_settled everyone rfl (reachable_fits small reached) applied
  refine ⟨settled.failed,fun success => ?_⟩
  have equation := settled.success success
  rw [← lost_everyone c.world (fromEd25519 signed.publicKey) signed.tx]
  unfold total at *
  omega

end Conservation

/-! A closed instance: every signature is accepted, and the address of a key is the key. -/
namespace Sample

@[reducible] def blake3 : Blake3 := ⟨fun bytes => fixed 32 bytes⟩

@[reducible] def ed25519 : Ed25519 := ⟨fun _ => true,fun _ _ _ => true⟩

@[reducible] def wasm : Wasm := ⟨fun _ => false,fun _ _ => .invalid⟩

attribute [local instance] blake3 ed25519 wasm LoneSigner.bls

def address (tag : UInt8) : Address := Vector.replicate 32 tag

def sign (tag : UInt8) (nonce : Nonce) (maxFee : Amount) (payload : TxPayload) : SignedTx :=
  ⟨⟨1,nonce,Spec.gasTransfer,maxFee,payload⟩,Vector.replicate 64 0,address tag⟩

def genesis : Genesis where
  chainId := 1
  alloc := Std.ExtTreeMap.ofList [(address 1,⟨100,0,zeroHash⟩)] compare

def delegation : SignedTx :=
  sign 1 0 1 (Tx.stakeWith .delegate StakeKind.delegate_ne (LoneSigner.validator 7) 10)

def undelegation : SignedTx :=
  sign 1 1 1 (Tx.stakeWith .undelegate StakeKind.undelegate_ne (LoneSigner.validator 7) 10)

def delegated : World × Receipt :=
  (applyTx (start genesis).world delegation).get (by decide +kernel)

def undelegated : World × Receipt := (applyTx delegated.1 undelegation).get (by decide +kernel)

/-- A delegation burns its fee and nothing else. -/
theorem delegation_burns_fee :
    applyTx (start genesis).world delegation = some delegated ∧ delegated.2.success = true ∧
      total delegated.1 + 1 = total (start genesis).world := by
  have applied : applyTx (start genesis).world delegation = some delegated :=
    (Option.some_get _).symm
  have success : delegated.2.success = true := by decide +kernel
  refine ⟨applied,success,?_⟩
  refine ((total_falls_by_fee_iff genesis [] (start genesis) (by decide +kernel) rfl delegation
    delegated.1 delegated.2 applied).2 success).mpr ?_
  intro s payload
  cases payload
  exact ⟨by simp,by simp⟩

/-- Ten are delegated and taken back: the total falls by eleven with a fee of one. -/
theorem undelegation_burns_stake :
    run (start genesis) [.apply delegation] = some ⟨delegated.1,∅⟩ ∧
    applyTx delegated.1 undelegation = some undelegated ∧ undelegated.2.success = true ∧
    undelegation.tx.maxFee = 1 ∧ total undelegated.1 + 11 = total delegated.1 := by
  have applied : applyTx (start genesis).world delegation = some delegated :=
    (Option.some_get _).symm
  refine ⟨?_,(Option.some_get _).symm,by decide +kernel,rfl,by decide +kernel⟩
  simp only [run,next,applied,Option.map_some]
  rfl

end Sample

end L1.Holdings
