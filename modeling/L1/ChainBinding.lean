import L1.Mempool
import L1.Nonces
import L1.Totality

/-! Transactions of other networks. The chain identifier is signed, and never compared. -/
namespace L1

namespace Seq

def Succeeds (result : Option (World × Receipt)) : Prop :=
  ∃ world receipt, result = some (world,receipt) ∧ receipt.success = true

@[simp] theorem succeeds_none : ¬ Succeeds none := by simp [Succeeds]

@[simp] theorem succeeds_fail (world : World) (reason : RejectReason) :
    ¬ Succeeds (some (world,.fail reason)) := by
  rintro ⟨_,_,same,success⟩
  cases same
  cases success

@[simp] theorem succeeds_ok (world : World) (gas : U64) (event : Event) :
    Succeeds (some (world,.ok gas event)) := ⟨_,_,rfl,rfl⟩

section Payloads

variable {world : World} {sender : Address} {account : Account} {gas : U64} {tx : Tx}

theorem applyTransfer_succeeds {t : Transfer} :
    Succeeds (applyTransfer world sender account gas tx t) ↔ balanceCheck tx t account = .ok () := by
  cases passed : balanceCheck tx t account with
  | error e => simp [applyTransfer,passed]
  | ok _ =>
    obtain ⟨pay,paid,sum,charged⟩ := charge_of_valueBalanceCheck passed
    simp [applyTransfer,passed,sum,charged]

theorem applyStake_succeeds {s : StakePayload} :
    Succeeds (applyStake world sender account gas tx s) ↔
      valueBalanceCheck tx (stakeDebit s) account = .ok () ∧
      ∃ book, Staking.applyStakeTx world.staking world.params sender tx = some (book,.ok ()) := by
  cases passed : valueBalanceCheck tx (stakeDebit s) account with
  | error e => simp [applyStake,passed]
  | ok _ =>
    obtain ⟨pay,paid,sum,charged⟩ := charge_of_valueBalanceCheck passed
    obtain ⟨book,result,staked⟩ := Staking.applyStakeTx_total world.staking world.params sender tx
    cases result <;> simp [applyStake,passed,staked,sum,charged]

variable [Wasm]

theorem applyCall_succeeds {c : Call} : Succeeds (applyCall world sender account gas tx c) ↔
      valueBalanceCheck tx 0 account = .ok () ∧
      ∃ paid world', charge account tx.maxFee = some paid ∧
        WasmCall.call (world.setAccount sender paid) c (WasmCall.fuelBudget tx gas) =
          some (world',.ok ()) := by
  cases passed : valueBalanceCheck tx 0 account with
  | error e =>
    simp only [applyCall,passed]
    simp
  | ok _ =>
    obtain ⟨paid,charged⟩ := charge_fee passed
    cases installed : world.code[c.toAddr]? with
    | none =>
      -- the call itself finds no code either
      have missing : (world.setAccount sender paid).code[c.toAddr]? = none := installed
      simp only [applyCall,passed,installed,charged]
      simp [WasmCall.call,missing]
    | some code =>
      simp only [applyCall,passed,installed,charged]
      split
      · rename_i ran
        simp [ran]
      · rename_i ran
        simp [ran]
      · rename_i ran
        simp [ran]

variable [Blake3]

theorem applyDeploy_succeeds {d : Deploy} (metered : gasMeter tx = .ok gas) :
    Succeeds (applyDeploy world sender account gas tx d) ↔
      valueBalanceCheck tx 0 account = .ok () ∧ Wasm.validate d.code = true := by
  cases passed : valueBalanceCheck tx 0 account with
  | error e =>
    simp only [applyDeploy,passed]
    simp
  | ok _ =>
    obtain ⟨paid,charged⟩ := charge_fee passed
    simp only [applyDeploy,passed,WasmCall.prepare,metered,WasmCall.validateWasm,charged,
      WasmCall.install]
    cases Wasm.validate d.code <;> simp

end Payloads

variable [Wasm] [Blake3] [Ed25519]

/-- What a payload needs besides signature, nonce, gas and funds. -/
def PayloadRuns (world : World) (sender : Address) (tx : Tx) : Prop :=
  match tx.payload with
  | .transfer _ => True
  | .stake _ => ∃ book, Staking.applyStakeTx world.staking world.params sender tx = some (book,.ok ())
  | .deploy d => Wasm.validate d.code = true
  | .call c => ∃ paid world', charge (world.account sender) tx.maxFee = some paid ∧
      WasmCall.call ((clearTraces world).setAccount sender paid) c
        (WasmCall.fuelBudget tx (gasCost tx.payload)) = some (world',.ok ())

/-- All that execution asks of a transaction. -/
structure Executable (world : World) (signed : SignedTx) : Prop where
  verified : verifyEd25519 signed = true
  nonce : (world.account (fromEd25519 signed.publicKey)).nonce = signed.tx.nonce
  metered : gasMeter signed.tx = .ok (gasCost signed.tx.payload)
  funded : (Mempool.debit signed.tx.payload).toNat + signed.tx.maxFee.toNat ≤
    (world.account (fromEd25519 signed.publicKey)).balance.toNat
  runs : PayloadRuns world (fromEd25519 signed.publicKey) signed.tx

variable {world : World} {signed : SignedTx}

omit [Ed25519] in
theorem applyPayload_succeeds {sender : Address} {tx : Tx}
    (metered : gasMeter tx = .ok (gasCost tx.payload)) :
    Succeeds (applyPayload (clearTraces world) sender (world.account sender) (gasCost tx.payload) tx) ↔
      (Mempool.debit tx.payload).toNat + tx.maxFee.toNat ≤ (world.account sender).balance.toNat ∧
        PayloadRuns world sender tx := by
  rw [← Mempool.valueBalanceCheck_ok_iff]
  unfold applyPayload PayloadRuns
  split
  · rename_i payload
    rw [applyStake_succeeds]
    simp only [payload,Mempool.debit]
    rfl
  · rename_i payload
    rw [applyDeploy_succeeds metered]
    simp only [payload,Mempool.debit]
  · rename_i payload
    rw [applyCall_succeeds]
    simp only [payload,Mempool.debit]
  · rename_i payload
    rw [applyTransfer_succeeds]
    simp only [payload,Mempool.debit,balanceCheck,and_true]

theorem applyTx_payload {gas : U64} (admitted : Admitted world signed gas) :
    applyTx world signed = applyPayload (clearTraces world) (fromEd25519 signed.publicKey)
      (world.account (fromEd25519 signed.publicKey)) gas signed.tx := by
  have same : (clearTraces world).account (fromEd25519 signed.publicKey) =
    world.account (fromEd25519 signed.publicKey) := rfl
  simp only [applyTx,admitted.verified,Bool.true_eq_false,if_false,senderAddress,admitted.valid,
    if_true,same,nonceCheck,admitted.nonce,admitted.metered]

theorem applyTx_succeeds : Succeeds (applyTx world signed) ↔ Executable world signed := by
  constructor
  · rintro ⟨world',receipt,applied,success⟩
    obtain ⟨gas,admitted⟩ := (applyTx_outcome applied).admitted success
    have cost := ((gasMeter_ok_iff _ _).mp admitted.metered).1
    have metered := cost ▸ admitted.metered
    have done : Succeeds (applyTx world signed) := ⟨_,_,applied,success⟩
    rw [applyTx_payload admitted,cost,applyPayload_succeeds metered] at done
    exact ⟨admitted.verified,admitted.nonce,metered,done.1,done.2⟩
  · rintro ⟨verified,nonce,metered,funded,runs⟩
    have admitted : Admitted world signed (gasCost signed.tx.payload) :=
      ⟨verified,(Bool.and_eq_true_iff.mp verified).1,nonce,metered⟩
    rw [applyTx_payload admitted]
    exact (applyPayload_succeeds metered).mpr ⟨funded,runs⟩

end Seq

/-! A node that takes transactions from gossip and applies transactions. -/
namespace Gate

open L1.Seq

structure Node where
  world : World
  pool : Mempool

inductive Step where
  | submit (signed : SignedTx) (account : Account)
  | apply (signed : SignedTx)

def Step.signed : Step → SignedTx
  | submit signed _ => signed
  | apply signed => signed

def start (g : Genesis) : Option Node :=
  match Mempool.new g.params.registry with
  | none => none
  | some pool => some ⟨.fromGenesis g,pool⟩

section Runs

variable [Wasm] [Blake3] [Ed25519]

/-- `none` is a panic. A refused transaction leaves the pool as it is. -/
def next (n : Node) : Step → Option Node
  | .submit signed account => match Mempool.wireMempool signed account n.pool with
    | .error _ => some n
    | .ok pool => some { n with pool }
  | .apply signed => (applyTx n.world signed).map fun result => { n with world := result.1 }

def run (n : Node) : List Step → Option Node
  | [] => some n
  | step :: rest => match next n step with
    | none => none
    | some n => run n rest

/-- The state of a node of a genesis after some steps. -/
def reach (g : Genesis) (steps : List Step) : Option Node :=
  match start g with
  | none => none
  | some n => run n steps

/-- The step lets its transaction into the pool, or applies it with success. -/
def Accepts (n : Node) : Step → Prop
  | .submit signed account => ∃ pool, Mempool.wireMempool signed account n.pool = .ok pool
  | .apply signed => Succeeds (applyTx n.world signed)

/-- The transaction of the step passes every check there is: signature, nonce, gas, funds, and
what its payload needs to run. -/
def Passes (n : Node) : Step → Prop
  | .submit signed account => Mempool.Admissible signed account
  | .apply signed => Executable n.world signed

variable {n : Node} {step : Step} {signed : SignedTx} {g : Genesis}

theorem accepts_iff : Accepts n step ↔ Passes n step := by
  cases step with
  | submit signed account =>
    constructor
    · rintro ⟨pool,admitted⟩
      exact (Mempool.wireMempool_ok_iff.mp admitted).1
    · intro passed
      exact ⟨_,Mempool.wireMempool_ok_iff.mpr ⟨passed,rfl⟩⟩
  | apply signed => exact applyTx_succeeds

theorem run_append (n : Node) (steps rest : List Step) :
    run n (steps ++ rest) = (run n steps).bind (run · rest) := by
  induction steps generalizing n with
  | nil => rfl
  | cons step steps ih =>
    rw [List.cons_append,run,run]
    cases next n step with
    | none => rfl
    | some n => exact ih n

theorem reach_append (g : Genesis) (steps rest : List Step) :
    reach g (steps ++ rest) = (reach g steps).bind (run · rest) := by
  unfold reach
  cases start g with
  | none => rfl
  | some n => exact run_append n steps rest

theorem holds_next {n' : Node} (stepped : next n step = some n') (held : n'.pool.Holds signed) :
    n.pool.Holds signed ∨ Accepts n step ∧ step.signed = signed := by
  cases step with
  | submit signed' account =>
    simp only [next] at stepped
    split at stepped
    · cases stepped
      exact .inl held
    · rename_i pool admitted
      cases stepped
      obtain ⟨-,rfl⟩ := Mempool.wireMempool_ok_iff.mp admitted
      rcases Mempool.holds_of_admitPreverified held with rfl | before
      · exact .inr ⟨⟨_,admitted⟩,rfl⟩
      · exact .inl before
  | apply signed' =>
    obtain ⟨result,-,rfl⟩ := Option.map_eq_some_iff.mp stepped
    exact .inl held

omit [Wasm] [Blake3] [Ed25519] in
theorem not_holds_start (started : start g = some n) (signed : SignedTx) :
    ¬ n.pool.Holds signed := by
  unfold start at started
  split at started
  · cases started
  rename_i fresh
  cases started
  unfold Mempool.new at fresh
  split at fresh
  · cases fresh
  · cases fresh
    exact Mempool.not_holds_withLimits _ _ _ signed

/-- If no step of a run lets a transaction of another network in, the pool never has one. -/
theorem pool_bound (steps : List Step)
    (bound : ∀ done step n, done ++ [step] <+: steps → reach g done = some n → Accepts n step →
      step.signed.tx.chainId = g.chainId)
    (reached : reach g steps = some n) (held : n.pool.Holds signed) :
    signed.tx.chainId = g.chainId := by
  induction steps using List.reverseRecOn generalizing n with
  | nil =>
    unfold reach at reached
    split at reached
    · cases reached
    · rename_i started
      cases reached
      exact absurd held (not_holds_start started signed)
  | append_singleton steps step ih =>
    rw [reach_append,Option.bind_eq_some_iff] at reached
    obtain ⟨before,earlier,stepped⟩ := reached
    have one : next before step = some n := by
      unfold run at stepped
      split at stepped
      · cases stepped
      · rename_i moved
        cases stepped
        exact moved
    rcases holds_next one held with old | ⟨accepted,rfl⟩
    · refine ih (fun done other m listed => bound done other m ?_) earlier old
      exact listed.trans (List.prefix_append steps [step])
    · exact bound steps step before (List.prefix_refl _) earlier accepted

/-- In every run no transaction of another network enters the pool or succeeds, if and only if
each one fails a check on something else than the network. Nothing a node does depends on
the network it belongs to. -/
theorem chain_bound_iff (g : Genesis) (steps : List Step) :
    (∀ chainId, reach { g with chainId } steps = reach g steps) ∧
    ((∀ done n, done <+: steps → reach g done = some n →
        (∀ signed, n.pool.Holds signed → signed.tx.chainId = g.chainId) ∧
        ∀ step, done ++ [step] <+: steps → Accepts n step → step.signed.tx.chainId = g.chainId) ↔
      ∀ done step n, done ++ [step] <+: steps → reach g done = some n →
        step.signed.tx.chainId = g.chainId ∨ ¬ Passes n step) := by
  refine ⟨fun _ => rfl,?_,?_⟩
  · intro bound done step n listed reached
    by_cases passed : Passes n step
    · have shorter : done <+: steps := (List.prefix_append done [step]).trans listed
      exact .inl ((bound done n shorter reached).2 step listed (accepts_iff.mpr passed))
    · exact .inr passed
  · intro checked done n listed reached
    have each (earlier : List Step) (step : Step) (m : Node) (within : earlier ++ [step] <+: steps)
        (met : reach g earlier = some m) (accepted : Accepts m step) :
        step.signed.tx.chainId = g.chainId := by
      rcases checked earlier step m within met with same | refused
      · exact same
      · exact absurd (accepts_iff.mp accepted) refused
    refine ⟨fun signed held => ?_,fun step within => each done step n within reached⟩
    exact pool_bound done (fun earlier step m within => each earlier step m (within.trans listed))
      reached held

end Runs

namespace Sample

open Holdings.Sample

attribute [local instance] Holdings.Sample.blake3 ed25519 wasm

def other : Genesis := { Holdings.Sample.genesis with chainId := 2 }

def payment : SignedTx := sign 1 0 1 (.transfer ⟨address 2,10⟩)

def node : Node := (start other).get (by decide +kernel)

def pooled : Node :=
  { node with pool := node.pool.admitPreverified payment (fromEd25519 payment.publicKey) }

/-- The payment enters the pool of network 2 and succeeds there. -/
theorem foreign_payment_succeeds :
    payment.tx.chainId ≠ other.chainId ∧
    reach other [.submit payment (node.world.account (address 1))] = some pooled ∧
    pooled.pool.Holds payment ∧ Accepts pooled (.apply payment) := by
  have started : start other = some node := (Option.some_get _).symm
  have admissible : Mempool.Admissible payment (node.world.account (address 1)) :=
    ⟨by decide +kernel,⟨_,rfl⟩,by decide +kernel,by decide +kernel⟩
  refine ⟨by decide,?_,Mempool.holds_admitted ..,accepts_iff.mpr ?_⟩
  · simp only [reach,started,run,next,Mempool.wireMempool_ok_iff.mpr ⟨admissible,rfl⟩]
    rfl
  · exact ⟨by decide +kernel,by decide +kernel,by decide +kernel,by decide +kernel,trivial⟩

end Sample
end Gate
end L1
