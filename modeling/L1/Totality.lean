import L1.Conservation

/-! No transaction stops the sequential transition: what an `expect` relies on was checked
before it, and the version headers that the storage host reads are always well formed. -/
namespace L1

open VersionedSlots

namespace Host

@[simp] theorem length_storageKey (contract : Address) (slot : U32) :
    (storageKey contract slot).length = 64 := by
  simp [storageKey]

theorem slotKey_storageKey (contract : Address) (slot : U32) : SlotKey (storageKey contract slot) :=
  .inr (.inr (length_storageKey contract slot))

@[simp] theorem take_storageKey (contract : Address) (slot : U32) :
    (storageKey contract slot).take 32 = contract.toList := by
  rw [storageKey,List.append_assoc,List.take_left' (by simp)]

/-- Storage holds words, under the storage keys of contracts. -/
def Shaped (storage : ContractStorageTrie) : Prop :=
  ∀ key value, storage[key]? = some value →
    ∃ contract slot, ∃ word : U64, key = storageKey contract slot ∧ value = toBeBytes 8 word

theorem Shaped.insert {storage : ContractStorageTrie} (shaped : Shaped storage) (contract : Address)
    (slot : U32) (word : U64) :
    Shaped (storage.insert (storageKey contract slot) (toBeBytes 8 word)) := by
  intro key value held
  rw [Map.get?_insert] at held
  split at held
  · rename_i same
    cases held
    exact ⟨contract,slot,word,same,rfl⟩
  · exact shaped key value held

theorem sload_eq {world : World} (healthy : Healthy world.versioned) (contract : Address)
    (slot : U32) : sload world contract slot =
      some ({ world with storageReads := world.storageReads.insert (storageKey contract slot) },
        wordFromValue world.storage[storageKey contract slot]?) := by
  obtain ⟨version,known⟩ := healthy _ (slotKey_storageKey contract slot)
  simp only [sload,current_eq,known]

theorem sstore_eq {world : World} (healthy : Healthy world.versioned) (contract : Address)
    (slot : U32) (value : U64) :
    ∃ versioned, Healthy versioned ∧ sstore world contract slot value = some { world with
      storageReads := world.storageReads.insert (storageKey contract slot)
      storageWrites := world.storageWrites.insert (storageKey contract slot)
      storage := world.storage.insert (storageKey contract slot) (toBeBytes 8 value)
      versioned } := by
  obtain ⟨versioned,_,-,written,after⟩ :=
    healthy.write (slotKey_storageKey contract slot) (toBeBytes 8 value)
  exact ⟨versioned,after,by simp only [sstore,sload_eq healthy,written]⟩

end Host

def World.Sound (world : World) : Prop := Healthy world.versioned ∧ Host.Shaped world.storage

theorem Host.sstore_sound {world : World} (sound : world.Sound) (contract : Address) (slot : U32)
    (value : U64) : ∃ world', sstore world contract slot value = some world' ∧ world'.Sound ∧
      world'.executing = world.executing := by
  obtain ⟨versioned,after,stored⟩ := sstore_eq sound.1 contract slot value
  exact ⟨_,stored,⟨after,sound.2.insert contract slot value⟩,rfl⟩

namespace WasmCall

theorem runGuest_total (contract : Address) (guest : Guest) (world : World)
    (sound : world.Sound) (running : contract ∈ world.executing) :
    ∃ world' result, runGuest contract guest world = some (world',result) ∧
      world'.Sound := by
  induction guest generalizing world with
  | done fuelLeft => exact ⟨_,_,rfl,sound⟩
  | trap text fuelLeft => exact ⟨_,_,rfl,sound⟩
  | invalid => exact ⟨_,_,rfl,sound⟩
  | sload slot next ih =>
    rw [runGuest,Host.sload_eq sound.1]
    exact ih _ _ sound running
  | sstore slot value next ih =>
    obtain ⟨stored,returned,after,same⟩ := Host.sstore_sound sound contract slot value
    rw [runGuest,returned]
    exact ih stored after (same ▸ running)
  | reenter rejected ih =>
    rw [runGuest,if_pos running]
    exact ih world sound running

variable [Wasm]

theorem execute_total (world : World) (contract : Address) (fuel : U64) (sound : world.Sound) :
    ∃ world' result, execute world contract fuel = some (world',result) ∧
      world'.Sound := by
  by_cases running : contract ∈ world.executing
  · simp only [execute,if_pos running]
    exact ⟨_,_,rfl,sound⟩
  cases installed : world.code[contract]? with
  | none =>
    simp only [execute,if_neg running,installed]
    exact ⟨_,_,rfl,sound⟩
  | some code =>
    obtain ⟨world',result,ran,after⟩ := runGuest_total contract (Wasm.start code fuel)
      { world with executing := world.executing.insert contract } sound (by simp)
    simp only [execute,if_neg running,installed,ran]
    exact ⟨_,_,rfl,after⟩

theorem call_total (world : World) (payload : Call) (fuel : U64) (sound : world.Sound) :
    ∃ world' result, call world payload fuel = some (world',result) ∧ world'.Sound := by
  cases installed : world.code[payload.toAddr]? with
  | none =>
    simp only [call,installed]
    exact ⟨_,_,rfl,sound⟩
  | some code =>
    cases valid : validateWasm code with
    | error e =>
      simp only [call,installed,valid]
      exact ⟨_,_,rfl,sound⟩
    | ok _ =>
      obtain ⟨world',result,ran,after⟩ := execute_total world payload.toAddr fuel sound
      exact ⟨world',result,by simp only [call,installed,valid,ran],after⟩

end WasmCall

namespace Staking

/-- The withdraw loop subtracts only what is there. -/
theorem applyStakeTx_total (book : StakingState) (registry : ParamsRegistry) (sender : Address)
    (tx : Tx) : ∃ book' result, applyStakeTx book registry sender tx = some (book',result) := by
  have withdraws (amount : Amount) : ∃ result, withdraw book sender amount = some result := by
    obtain ⟨pending,-,ran,-⟩ := Holdings.withdrawLoop_taken sender book.lastCommitHeight
      (book.pendingUnbond.toList.map Prod.fst) amount book.pendingUnbond (Map.nodup_keys _)
    unfold withdraw
    dsimp only
    split
    · split <;> exact ⟨_,rfl⟩
    · rw [ran]
      exact ⟨_,rfl⟩
  rw [applyStakeTx]
  cases tx.asStake with
  | none => exact ⟨_,_,rfl⟩
  | some s =>
    obtain ⟨result,returned⟩ := withdraws s.amount
    dsimp only
    split
    · rw [returned]
      exact ⟨_,_,rfl⟩
    all_goals exact ⟨_,_,rfl⟩

end Staking

namespace Seq

/-- A sender that passed the balance check can be charged. -/
theorem charge_of_valueBalanceCheck {tx : Tx} {amount : Amount} {account : Account}
    (passed : valueBalanceCheck tx amount account = .ok ()) :
    ∃ pay paid, checkedAdd amount tx.maxFee = some pay ∧ charge account pay = some paid := by
  obtain ⟨pay,rest,sum,left⟩ := valueBalanceCheck_ok passed
  exact ⟨pay,_,sum,by rw [charge,left,Option.map_some]⟩

theorem charge_fee {tx : Tx} {account : Account} (passed : valueBalanceCheck tx 0 account = .ok ()) :
    ∃ paid, charge account tx.maxFee = some paid := by
  obtain ⟨pay,paid,sum,charged⟩ := charge_of_valueBalanceCheck passed
  rw [checkedAdd_eq_some] at sum
  have fee : pay = tx.maxFee := BitVec.eq_of_toNat_eq (by simpa [eq_comm] using sum)
  exact ⟨paid,fee ▸ charged⟩

variable {world : World} (sound : world.Sound) (sender : Address) (account : Account)
  (gas : U64) (tx : Tx)

include sound in
theorem applyStake_total (s : StakePayload) :
    ∃ world' receipt, applyStake world sender account gas tx s = some (world',receipt) ∧
      world'.Sound := by
  cases passed : valueBalanceCheck tx (stakeDebit s) account with
  | error e =>
    simp only [applyStake,passed]
    exact ⟨_,_,rfl,sound⟩
  | ok _ =>
    obtain ⟨book,result,staked⟩ := Staking.applyStakeTx_total world.staking world.params sender tx
    obtain ⟨pay,paid,sum,charged⟩ := charge_of_valueBalanceCheck passed
    cases result with
    | error e =>
      simp only [applyStake,passed,staked]
      exact ⟨_,_,rfl,sound⟩
    | ok _ =>
      simp only [applyStake,passed,staked,sum,charged]
      exact ⟨_,_,rfl,sound⟩

include sound in
theorem applyTransfer_total (t : Transfer) :
    ∃ world' receipt, applyTransfer world sender account gas tx t = some (world',receipt) ∧
      world'.Sound := by
  cases passed : balanceCheck tx t account with
  | error e =>
    simp only [applyTransfer,passed]
    exact ⟨_,_,rfl,sound⟩
  | ok _ =>
    obtain ⟨pay,paid,sum,charged⟩ := charge_of_valueBalanceCheck passed
    simp only [applyTransfer,passed,sum,charged]
    exact ⟨_,_,rfl,sound⟩

variable [Wasm]

include sound in
theorem applyCall_total (c : Call) :
    ∃ world' receipt, applyCall world sender account gas tx c = some (world',receipt) ∧
      world'.Sound := by
  cases passed : valueBalanceCheck tx 0 account with
  | error e =>
    simp only [applyCall,passed]
    exact ⟨_,_,rfl,sound⟩
  | ok _ =>
    obtain ⟨paid,charged⟩ := charge_fee passed
    cases installed : world.code[c.toAddr]? with
    | none =>
      simp only [applyCall,passed,installed]
      exact ⟨_,_,rfl,sound⟩
    | some code =>
      obtain ⟨called,result,ran,after⟩ := WasmCall.call_total (world.setAccount sender paid) c
        (WasmCall.fuelBudget tx gas) sound
      cases result with
      | error e =>
        simp only [applyCall,passed,installed,charged,ran]
        exact ⟨_,_,rfl,sound⟩
      | ok _ =>
        simp only [applyCall,passed,installed,charged,ran]
        exact ⟨_,_,rfl,after⟩

variable [Blake3]

include sound in
theorem applyDeploy_total (d : Deploy) :
    ∃ world' receipt, applyDeploy world sender account gas tx d = some (world',receipt) ∧
      world'.Sound := by
  cases passed : valueBalanceCheck tx 0 account with
  | error e =>
    simp only [applyDeploy,passed]
    exact ⟨_,_,rfl,sound⟩
  | ok _ =>
    obtain ⟨paid,charged⟩ := charge_fee passed
    cases ready : WasmCall.prepare tx d with
    | error e =>
      simp only [applyDeploy,passed,ready]
      exact ⟨_,_,rfl,sound⟩
    | ok _ =>
      cases valid : WasmCall.validateWasm d.code with
      | error e =>
        simp only [applyDeploy,passed,ready,charged,WasmCall.install,valid]
        exact ⟨_,_,rfl,sound⟩
      | ok _ =>
        simp only [applyDeploy,passed,ready,charged,WasmCall.install,valid]
        exact ⟨_,_,rfl,sound⟩

variable [Ed25519]

theorem applyTx_total (sound : world.Sound) (signed : SignedTx) :
    ∃ world' receipt, applyTx world signed = some (world',receipt) ∧ world'.Sound := by
  have cleared : (clearTraces world).Sound := sound
  by_cases bad : verifyEd25519 signed = false
  · simp only [applyTx,if_pos bad]
    exact ⟨_,_,rfl,cleared⟩
  cases key : senderAddress signed with
  | error e =>
    simp only [applyTx,if_neg bad,key]
    exact ⟨_,_,rfl,cleared⟩
  | ok sender =>
    cases current : nonceCheck signed.tx ((clearTraces world).account sender) with
    | error e =>
      simp only [applyTx,if_neg bad,key,current]
      exact ⟨_,_,rfl,cleared⟩
    | ok _ =>
      cases metered : gasMeter signed.tx with
      | error e =>
        simp only [applyTx,if_neg bad,key,current,metered]
        exact ⟨_,_,rfl,cleared⟩
      | ok gas =>
        simp only [applyTx,if_neg bad,key,current,metered,applyPayload]
        cases signed.tx.payload with
        | stake s => exact applyStake_total cleared sender _ gas signed.tx s
        | deploy d => exact applyDeploy_total cleared sender _ gas signed.tx d
        | call c => exact applyCall_total cleared sender _ gas signed.tx c
        | transfer t => exact applyTransfer_total cleared sender _ gas signed.tx t

theorem applyTxs_total (sound : world.Sound) (txs : List SignedTx) :
    ∃ world' receipts, applyTxs world txs = some (world',receipts) ∧ world'.Sound := by
  induction txs generalizing world with
  | nil => exact ⟨world,[],rfl,sound⟩
  | cons signed rest ih =>
    obtain ⟨world₁,receipt,applied,sound₁⟩ := applyTx_total sound signed
    obtain ⟨world₂,receipts,finished,sound₂⟩ := ih sound₁
    exact ⟨world₂,receipt :: receipts,by simp only [applyTxs,applied,finished],sound₂⟩

theorem applyBlock_total {pre : World} (sound : pre.Sound) (block : Block) :
    ∃ world receipts hash, applyBlock pre block = some (world,receipts,hash) ∧
      world.Sound := by
  obtain ⟨world,receipts,applied,after⟩ := applyTxs_total sound block.txs
  simp only [applyBlock,applied]
  exact ⟨_,_,_,rfl,after⟩

end Seq

def accountKey (addr : Address) : Bytes := addr.toList

@[simp] theorem length_accountKey (addr : Address) : (accountKey addr).length = 32 := by
  simp [accountKey]

/-! Runs of blocks, with slashing and epoch changes in between. -/
namespace Execution

open Holdings (Chain start withStaking)

inductive Event where
  | block (block : Block)
  | slash (evidence : Evidence)
  | epoch (finalized : Steps.Finalized)

variable [Wasm] [Blake3] [Ed25519] [Bls]

/-- `none` is a panic. -/
def next (c : Chain) : Event → Option Chain
  | .block block => (Seq.applyBlock c.world block).map fun result => { c with world := result.1 }
  | .slash evidence => Holdings.next c (.slash evidence)
  | .epoch finalized => Holdings.next c (.epoch finalized)

def run (c : Chain) : List Event → Option Chain
  | [] => some c
  | event :: rest => match next c event with
    | none => none
    | some c => run c rest

theorem next_total {c : Chain} (sound : c.world.Sound) (event : Event) :
    ∃ c', next c event = some c' ∧ c'.world.Sound := by
  cases event with
  | block block =>
    obtain ⟨world,receipts,hash,applied,after⟩ := Seq.applyBlock_total sound block
    exact ⟨{ c with world },by simp only [next,applied,Option.map_some],after⟩
  | slash evidence =>
    simp only [next,Holdings.next]
    split
    · exact ⟨_,rfl,sound⟩
    · exact ⟨_,rfl,sound⟩
  | epoch finalized => exact ⟨_,rfl,sound⟩

theorem run_total {c : Chain} (sound : c.world.Sound) (events : List Event) :
    ∃ c', run c events = some c' ∧ c'.world.Sound := by
  induction events generalizing c with
  | nil => exact ⟨c,rfl,sound⟩
  | cons event rest ih =>
    obtain ⟨c₁,stepped,sound₁⟩ := next_total sound event
    obtain ⟨c₂,finished,sound₂⟩ := ih sound₁
    exact ⟨c₂,by simp only [run,stepped,finished],sound₂⟩

/-! The tries below the maps of a world: accounts under their addresses, and words under the
storage keys of contracts. -/

abbrev AccountWrite := TrieMap.Write Address Account

abbrev StorageWrite := TrieMap.Write (Address × U32) U64

def accountOp : AccountWrite → Mpt.Op := TrieMap.Write.op accountKey Account.encode

def storageOp : StorageWrite → Mpt.Op :=
  TrieMap.Write.op (fun key => Host.storageKey key.1 key.2) (toBeBytes 8)

omit [Wasm] [Ed25519] [Bls] in
/-- A trie with keys and values of short fixed sizes answers every write and every read. -/
theorem trie_total {K V : Type} (keyBytes : K → Bytes) (valueBytes : V → Bytes)
    (keys : ∀ key, (keyBytes key).length ≤ 64) (values : ∀ value, (valueBytes value).length ≤ 64)
    (writes : List (TrieMap.Write K V))
    (safe : Mpt.NoCollision (Mpt.run .new (writes.map (TrieMap.Write.op keyBytes valueBytes))).2.nodes) :
    (Mpt.run .new (writes.map (TrieMap.Write.op keyBytes valueBytes))).1 = some () ∧
      ∀ key, ∃ found,
        (Mpt.run .new (writes.map (TrieMap.Write.op keyBytes valueBytes))).2.get key = some found := by
  have fits : ∀ op ∈ writes.map (TrieMap.Write.op keyBytes valueBytes), op.Fits := by
    intro op member
    obtain ⟨write,-,rfl⟩ := List.mem_map.mp member
    cases write with
    | put key value =>
      have small := keys key
      have small' := values value
      simp only [TrieMap.Write.op,Mpt.Op.Fits]
      omega
    | delete key => trivial
  obtain ⟨ran,tree,commits⟩ := Mpt.commits_new.run _ fits safe
  exact ⟨ran,fun key => ⟨_,commits.get safe key⟩⟩

omit [Wasm] [Blake3] [Ed25519] [Bls] in
theorem sound_start (g : Genesis) : (start g).world.Sound :=
  ⟨healthy_empty,fun key value held => by simp [start,World.fromGenesis] at held⟩

/-- No run of blocks, slashes and epochs from any genesis panics, nor does any block after it;
and no history of writes to the two tries below does, where the storage of the run holds
nothing but words under storage keys. -/
theorem execution_never_panics (g : Genesis) (events : List Event) :
    ∃ c, run (start g) events = some c ∧
      (∀ block, ∃ world receipts hash,
        Seq.applyBlock c.world block = some (world,receipts,hash)) ∧
      Host.Shaped c.world.storage ∧
      (∀ writes : List AccountWrite, Mpt.NoCollision (Mpt.run .new (writes.map accountOp)).2.nodes →
        (Mpt.run .new (writes.map accountOp)).1 = some () ∧
        ∀ key, ∃ found, (Mpt.run .new (writes.map accountOp)).2.get key = some found) ∧
      (∀ writes : List StorageWrite, Mpt.NoCollision (Mpt.run .new (writes.map storageOp)).2.nodes →
        (Mpt.run .new (writes.map storageOp)).1 = some () ∧
        ∀ key, ∃ found, (Mpt.run .new (writes.map storageOp)).2.get key = some found) := by
  obtain ⟨c,ran,sound⟩ := run_total (sound_start g) events
  refine ⟨c,ran,fun block => ?_,sound.2,?_,?_⟩
  · obtain ⟨world,receipts,hash,applied,-⟩ := Seq.applyBlock_total sound block
    exact ⟨world,receipts,hash,applied⟩
  · exact trie_total accountKey Account.encode (by simp)
      (fun a => by simp [Account.encode,Encoding.encode,Account.length_payload])
  · exact trie_total (fun key : Address × U32 => Host.storageKey key.1 key.2) (toBeBytes 8)
      (by simp) (by simp)

end Execution
end L1
