import L1.Executions
import L1.Nonces

/-! Installed code. The address of a contract is made from its deployer and the nonce of the deployment,
and a deployer never comes back to a nonce; so no address is given twice, and code stays what it was. -/
namespace L1

open L1.Seq

/-- Every address with code has an account that names the hash of this code. -/
def World.Authentic [Blake3] (world : World) : Prop :=
  ∀ (addr : Address) code, world.code[addr]? = some code →
    ∃ account : Account, world.accounts[addr]? = some account ∧ account.codeHash = hashToArray code

namespace Contracts

def preimage [Blake3] (signed : SignedTx) : Bytes :=
  (fromEd25519 signed.publicKey).toList ++ toBeBytes 8 signed.tx.nonce

def preimages [Blake3] (txs : List SignedTx) : Set Bytes :=
  {bytes | ∃ signed ∈ txs, (∃ d, signed.tx.payload = .deploy d) ∧ bytes = preimage signed}

theorem preimages_subsingleton [Blake3] (signed : SignedTx) : (preimages [signed]).Subsingleton := by
  rintro a ⟨first,one,-,rfl⟩ b ⟨second,other,-,rfl⟩
  rw [List.mem_singleton.mp one,List.mem_singleton.mp other]

def Unsaturated (world : World) : Prop :=
  ∀ (addr : Address) (account : Account), world.accounts[addr]? = some account → account.nonce ≠ lastNonce

/-- Every address with code was made by a deployment, and its deployer is past that nonce. -/
structure Installed [Blake3] (hashed : Set Bytes) (world : World) : Prop where
  authentic : world.Authentic
  origin : ∀ (addr : Address) code, world.code[addr]? = some code → ∃ (sender : Address) (nonce : Nonce),
    addr = WasmCall.createAddress sender nonce ∧ sender.toList ++ toBeBytes 8 nonce ∈ hashed ∧
    nonce.toNat < (world.account sender).nonce.toNat

variable {addr : Address} {hash : Hash}

theorem Unsaturated.account {world : World} (below : Unsaturated world) (addr : Address) :
    (world.account addr).nonce ≠ lastNonce := by
  unfold World.account
  cases held : world.accounts[addr]? with
  | none => decide +kernel
  | some account => exact below addr account held

theorem append_toBeBytes_inj {a b : Address} {m n : Nonce}
    (same : a.toList ++ toBeBytes 8 m = b.toList ++ toBeBytes 8 n) : a = b ∧ m = n := by
  obtain ⟨first,second⟩ := List.append_inj same (by simp)
  refine ⟨toList_injective first,?_⟩
  rw [← fromBeBytes_toBeBytes 8 m (by decide),second,fromBeBytes_toBeBytes 8 n (by decide)]

/-! Paying and being paid leave the code hash of an account alone. -/

theorem codeHash_charge {account paid : Account} {pay : Amount}
    (charged : charge account pay = some paid) : paid.codeHash = account.codeHash := by
  obtain ⟨balance,-,rfl⟩ := Option.map_eq_some_iff.mp charged
  rfl

theorem codeHash_credit (account : Account) (amount : Amount) :
    (credit account amount).codeHash = account.codeHash := rfl

def Names (world : World) (addr : Address) (hash : Hash) : Prop :=
  ∃ account : Account, world.accounts[addr]? = some account ∧ account.codeHash = hash

theorem Names.account {world : World} (names : Names world addr hash) : (world.account addr).codeHash = hash := by
  obtain ⟨account,held,same⟩ := names
  rw [World.account,held]
  exact same

theorem Names.setAccount {world : World} {other : Address} {account : Account}
    (names : Names world addr hash) (kept : account.codeHash = (world.account other).codeHash) :
    Names (world.setAccount other account) addr hash := by
  by_cases own : addr = other
  · subst own
    refine ⟨account,?_,kept.trans names.account⟩
    rw [World.setAccount,Map.get?_insert,if_pos rfl]
  · obtain ⟨found,held,same⟩ := names
    refine ⟨found,?_,same⟩
    rw [World.setAccount,Map.get?_insert,if_neg own,held]

theorem Names.paid {world : World} {sender : Address} {paid : Account} {pay : Amount}
    (names : Names world addr hash) (charged : charge (world.account sender) pay = some paid) :
    Names ((clearTraces world).setAccount sender paid) addr hash :=
  have cleared : Names (clearTraces world) addr hash := names
  cleared.setAccount (codeHash_charge charged)

section Step

variable [Wasm] [Blake3] [Ed25519] {world world' : World} {signed : SignedTx} {receipt : Receipt}

/-- The one transaction that writes code is a deployment, which writes it under the created address. -/
theorem outcome_code (outcome : Outcome world signed world' receipt) :
    world'.code = world.code ∧ (∀ addr hash, Names world addr hash → Names world' addr hash) ∨
    ∃ d, signed.tx.payload = .deploy d ∧ receipt.success = true ∧
      world'.code = world.code.insert
        (WasmCall.createAddress (fromEd25519 signed.publicKey) signed.tx.nonce) d.code ∧
      (∀ addr hash, addr ≠ WasmCall.createAddress (fromEd25519 signed.publicKey) signed.tx.nonce →
        Names world addr hash → Names world' addr hash) ∧
      Names world' (WasmCall.createAddress (fromEd25519 signed.publicKey) signed.tx.nonce)
        (hashToArray d.code) := by
  cases outcome with
  | rejected => exact .inl ⟨rfl,fun _ _ names => names⟩
  | unstaked => exact .inl ⟨rfl,fun _ _ names => names⟩
  | @staked s book gas pay paid _ _ _ _ charged =>
    refine .inl ⟨rfl,fun addr hash names => ?_⟩
    have kept : (if s.kind = .withdraw then credit paid s.amount else paid).codeHash =
        (world.account (fromEd25519 signed.publicKey)).codeHash := by
      rw [← codeHash_charge charged]
      split <;> rfl
    obtain ⟨account,held,same⟩ : Names ((clearTraces world).setAccount (fromEd25519 signed.publicKey)
        (if s.kind = .withdraw then credit paid s.amount else paid)) addr hash :=
      Names.setAccount names kept
    exact ⟨account,held,same⟩
  | @deployed d gas paid payload _ charged =>
    refine .inr ⟨d,payload,rfl,rfl,fun addr hash apart names => ?_,?_⟩
    · obtain ⟨account,held,same⟩ := names.paid charged
      refine ⟨account,?_,same⟩
      show (Std.ExtTreeMap.insert _ _ _)[addr]? = _
      rw [Map.get?_insert,if_neg apart]
      exact held
    · exact ⟨_,(Map.get?_insert _ _ _ _).trans (if_pos rfl),rfl⟩
  | called _ _ charged ran =>
    have kept := KeepsLedger.call ran
    refine .inl ⟨kept.code,fun addr hash names => ?_⟩
    obtain ⟨account,held,same⟩ := names.paid charged
    exact ⟨account,kept.accounts ▸ held,same⟩
  | @transferred t gas pay paid _ _ _ charged =>
    refine .inl ⟨rfl,fun addr hash names => ?_⟩
    exact (names.paid charged).setAccount (codeHash_credit _ _)

omit [Wasm] [Ed25519] in
theorem fresh_address {hashed : Set Bytes} (separate : Set.InjOn hashToArray hashed)
    (holds : Installed hashed world) (listed : preimage signed ∈ hashed)
    (current : (world.account (fromEd25519 signed.publicKey)).nonce = signed.tx.nonce) :
    world.code[WasmCall.createAddress (fromEd25519 signed.publicKey) signed.tx.nonce]? = none := by
  by_contra taken
  obtain ⟨code,found⟩ := Option.ne_none_iff_exists'.mp taken
  obtain ⟨sender,nonce,same,other,past⟩ := holds.origin _ code found
  obtain ⟨rfl,rfl⟩ := append_toBeBytes_inj (separate listed other same)
  rw [current] at past
  exact Nat.lt_irrefl _ past

/-- A transaction keeps what is known of installed code, and keeps the code itself. -/
theorem step_installed {hashed : Set Bytes} (separate : Set.InjOn hashToArray hashed)
    (listed : (∃ d, signed.tx.payload = .deploy d) → preimage signed ∈ hashed)
    (below : Unsaturated world') (outcome : Outcome world signed world' receipt)
    (holds : Installed hashed world) : Installed hashed world' ∧
      ∀ (addr : Address) code, world.code[addr]? = some code → world'.code[addr]? = some code := by
  have later {sender : Address} {nonce : Nonce} (past : nonce.toNat < (world.account sender).nonce.toNat) :
      nonce.toNat < (world'.account sender).nonce.toNat := past.trans_le (nonce_mono outcome sender)
  rcases outcome_code outcome with ⟨same,names⟩ | ⟨d,payload,success,put,names,own⟩
  · refine ⟨⟨fun addr code found => ?_,fun addr code found => ?_⟩,fun addr code found => same ▸ found⟩
    · exact names addr _ (holds.authentic addr code (same ▸ found))
    · obtain ⟨sender,nonce,made,known,past⟩ := holds.origin addr code (same ▸ found)
      exact ⟨sender,nonce,made,known,later past⟩
  · obtain ⟨gas,admitted⟩ := outcome.admitted success
    have known := listed ⟨d,payload⟩
    have free := fresh_address separate holds known admitted.nonce
    have moved : signed.tx.nonce.toNat < (world'.account (fromEd25519 signed.publicKey)).nonce.toNat := by
      have unspent := below.account (fromEd25519 signed.publicKey)
      rw [outcome.nonce,if_pos ⟨success,rfl⟩,admitted.nonce] at unspent ⊢
      refine toNat_lt_nextNonce fun last => unspent ?_
      rw [last]
      decide +kernel
    have read (addr : Address) : world'.code[addr]? =
        if addr = WasmCall.createAddress (fromEd25519 signed.publicKey) signed.tx.nonce then
          some d.code else world.code[addr]? := by
      rw [put,Map.get?_insert]
    refine ⟨⟨fun addr code found => ?_,fun addr code found => ?_⟩,fun addr code found => ?_⟩
    · rw [read] at found
      split at found
      · rename_i here
        cases found
        rw [here]
        exact own
      · rename_i apart
        exact names addr _ apart (holds.authentic addr code found)
    · rw [read] at found
      split at found
      · rename_i here
        exact ⟨_,_,here,known,moved⟩
      · obtain ⟨sender,nonce,made,listed,past⟩ := holds.origin addr code found
        exact ⟨sender,nonce,made,listed,later past⟩
    · rw [read,if_neg]
      · exact found
      · rintro rfl
        rw [free] at found
        cases found

end Step

section Runs

variable [Wasm] [Blake3] [Ed25519] {world world' : World} {txs : List SignedTx}

theorem worldAfter_nonce (reached : worldAfter world txs = some world') (addr : Address) :
    (world.account addr).nonce.toNat ≤ (world'.account addr).nonce.toNat :=
  worldAfter_keep (P := fun w => (world.account addr).nonce.toNat ≤ (w.account addr).nonce.toNat)
    (fun _ _ _ _ _ applied grown => grown.trans (nonce_mono (applyTx_outcome applied) addr)) reached le_rfl

/-- Nonces only grow, so a run to an unsaturated world passed through such worlds. -/
theorem Unsaturated.before (below : Unsaturated world') (reached : worldAfter world txs = some world') :
    Unsaturated world := by
  intro addr account held last
  have here : (world.account addr).nonce = lastNonce := by rw [World.account,held]; exact last
  have grown := worldAfter_nonce reached addr
  have bound := (world'.account addr).nonce.isLt
  rw [here,toNat_lastNonce] at grown
  refine below.account addr (BitVec.eq_of_toNat_eq ?_)
  rw [toNat_lastNonce]
  omega

theorem run_installed {hashed : Set Bytes} (separate : Set.InjOn hashToArray hashed)
    (listed : preimages txs ⊆ hashed) (below : Unsaturated world')
    (reached : worldAfter world txs = some world') (holds : Installed hashed world) :
    Installed hashed world' ∧
      ∀ (addr : Address) code, world.code[addr]? = some code → world'.code[addr]? = some code := by
  induction txs generalizing world with
  | nil =>
    cases reached
    exact ⟨holds,fun _ _ found => found⟩
  | cons signed rest ih =>
    rw [worldAfter_cons] at reached
    obtain ⟨⟨middle,receipt⟩,applied,later⟩ := Option.bind_eq_some_iff.mp reached
    obtain ⟨kept,stays⟩ := step_installed separate
      (fun deploys => listed ⟨signed,List.mem_cons_self ..,deploys,rfl⟩) (below.before later)
      (applyTx_outcome applied) holds
    have others : preimages rest ⊆ hashed := by
      rintro bytes ⟨other,member,deploys,rfl⟩
      exact listed ⟨other,List.mem_cons_of_mem _ member,deploys,rfl⟩
    obtain ⟨final,after⟩ := ih others later kept
    exact ⟨final,fun addr code found => after addr code (stays addr code found)⟩

omit [Wasm] [Ed25519] in
theorem installed_fromGenesis (hashed : Set Bytes) (g : Genesis) : Installed hashed (.fromGenesis g) where
  authentic addr code found := by
    have none : (World.fromGenesis g).code[addr]? = none := Std.ExtTreeMap.getElem?_empty
    rw [none] at found
    cases found
  origin addr code found := by
    have none : (World.fromGenesis g).code[addr]? = none := Std.ExtTreeMap.getElem?_empty
    rw [none] at found
    cases found

/-- In every world that blocks reach from a genesis without using up a nonce, installed code is named by
the account at its address, and whatever code was installed after some of the transactions is still
there. The hash need only tell apart what the deployments of the run hash to addresses. -/
theorem code_authentic_immutable (g : Genesis) (blocks : List Block) (world : World)
    (reached : applyBlocks (.fromGenesis g) blocks = some world) (below : Unsaturated world)
    (separate : Set.InjOn hashToArray (preimages (blocks.flatMap Block.txs))) :
    world.Authentic ∧ ∀ done more before, blocks.flatMap Block.txs = done ++ more →
      worldAfter (.fromGenesis g) done = some before → ∀ (addr : Address) code,
      before.code[addr]? = some code → world.code[addr]? = some code := by
  rw [applyBlocks_eq] at reached
  have fresh := installed_fromGenesis (preimages (blocks.flatMap Block.txs)) g
  refine ⟨(run_installed separate le_rfl below reached fresh).1.authentic,?_⟩
  intro done more before split first addr code found
  rw [split,worldAfter_append,first] at reached
  have within : ∀ part, part ⊆ done ++ more → preimages part ⊆ preimages (blocks.flatMap Block.txs) := by
    rintro part inside bytes ⟨signed,listed,deploys,rfl⟩
    exact ⟨signed,split ▸ inside listed,deploys,rfl⟩
  have held := (run_installed separate (within done (by simp)) (below.before reached) first fresh).1
  exact (run_installed separate (within more (by simp)) below reached held).2 addr code found

end Runs

namespace Sample

@[reducible] def wasm : Wasm := ⟨fun _ => true,fun _ fuel => .done fuel⟩

attribute [local instance] Holdings.Sample.blake3 Holdings.Sample.ed25519 wasm

def deployment : SignedTx :=
  ⟨⟨1,0,Spec.gasDeploy,0,.deploy ⟨[7]⟩⟩,Vector.replicate 64 0,Vector.replicate 32 1⟩

def block : Block := ⟨⟨0,0,Vector.replicate 48 0,0⟩,[deployment]⟩

def genesis : Genesis where
  chainId := 1

def contract : Address := WasmCall.createAddress (fromEd25519 deployment.publicKey) 0

def world : World := (applyBlocks (.fromGenesis genesis) [block]).get (by decide +kernel)

theorem contract_installed : world.code[contract]? = some [7] ∧ world.Authentic := by
  have reached : applyBlocks (.fromGenesis genesis) [block] = some world := (Option.some_get _).symm
  have below : Unsaturated world := by
    have every : ∀ e ∈ world.accounts.toList, e.2.nonce ≠ lastNonce := by decide +kernel
    intro addr account held
    exact every (addr,account) (Std.ExtTreeMap.mem_toList_iff_getElem?_eq_some.mpr held)
  have listed : [block].flatMap Block.txs = [deployment] := rfl
  refine ⟨by decide +kernel,(code_authentic_immutable genesis [block] world reached below ?_).1⟩
  rw [listed]
  exact (preimages_subsingleton deployment).injOn _

end Sample
end Contracts
end L1
