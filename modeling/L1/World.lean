import L1.Staking
import L1.Versioned

/-! The world state and the contract host. The WebAssembly engine is a parameter: a guest
is the tree of the host calls it makes, and touches the world through these alone. -/
namespace L1

structure World where
  accounts : AccountTrie := ∅
  storage : ContractStorageTrie := ∅
  staking : StakingState := {}
  params : ParamsRegistry
  code : Map Address Bytes := ∅
  executing : OrdSet Address := ∅
  storageReads : OrdSet Bytes := ∅
  storageWrites : OrdSet Bytes := ∅
  versioned : VersionedSlots := ∅
  wasmFuelLeft : U64 := 0

namespace World

def fromGenesis (g : Genesis) : World where
  accounts := g.alloc.toList.foldl (fun accounts e => accounts.insert e.1 (.fromGenesis e.2)) ∅
  params := g.params.registry

def account (world : World) (addr : Address) : Account := (world.accounts[addr]?).getD .empty

def setAccount (world : World) (addr : Address) (account : Account) : World :=
  { world with accounts := world.accounts.insert addr account }

/-- Two-leaf root over the account and the storage tries. -/
def commitStateRoot [Blake3] (world : World) : Hash :=
  Merkle.computeRoot [world.accounts.root.toList,world.storage.root.toList]

end World

/-- A run of guest code up to its end: host calls with what follows each answer. -/
inductive Guest where
  | done (fuelLeft : U64)
  | trap (text : String) (fuelLeft : U64)
  | invalid
  | sload (slot : U32) (next : U64 → Guest)
  | sstore (slot : U32) (value : U64) (next : Guest)
  | reenter (rejected : Guest)

/-- The engine: validation of a module, and the run of its `call` export on given fuel. -/
class Wasm where
  validate : Bytes → Bool
  start : Bytes → U64 → Guest

namespace Host

/-- `contract:32 || 28×0x00 || slot:u32`. -/
def storageKey (contract : Address) (slot : U32) : Bytes :=
  contract.toList ++ List.replicate 28 0 ++ toBeBytes 4 slot

def wordFromValue : Option Bytes → U64
  | some raw => if raw.length = 8 then fromBeBytes 64 raw else 0
  | none => 0

/-- Load a slot. The version is looked up and read, and only the trie value is used. -/
def sload (world : World) (contract : Address) (slot : U32) : Option (World × U64) :=
  let key := storageKey contract slot
  match world.versioned.current key with
  | none => none
  | some _ =>
    some ({ world with storageReads := world.storageReads.insert key },
      wordFromValue world.storage[key]?)

def sstore (world : World) (contract : Address) (slot : U32) (value : U64) : Option World :=
  match sload world contract slot with
  | none => none
  | some (world,_) =>
    let key := storageKey contract slot
    match world.versioned.write key (toBeBytes 8 value) with
    | none => none
    | some (versioned,_) => some { world with
        storageWrites := world.storageWrites.insert key
        storage := world.storage.insert key (toBeBytes 8 value)
        versioned }

end Host

namespace WasmCall

/-- The reason of a trap, read from its text. -/
def mapTrap (text : String) : RejectReason :=
  let lower := text.toList.map Char.toLower
  if "reentrancy".toList <:+: lower then .wasmReentrancy
  else if "fuel".toList <:+: lower then .wasmGas
  else .wasmInvalid

/-- Answer the host calls of a guest. A contract that is running cannot be entered again;
one that is not running never asks. -/
def runGuest (contract : Address) : Guest → World → Option (World × Except RejectReason Unit)
  | .done fuelLeft, world => some ({ world with wasmFuelLeft := fuelLeft },.ok ())
  | .trap text fuelLeft, world =>
    some ({ world with wasmFuelLeft := fuelLeft },.error (mapTrap text))
  | .invalid, world => some (world,.error .wasmInvalid)
  | .sload slot next, world => match Host.sload world contract slot with
    | none => none
    | some (world,value) => runGuest contract (next value) world
  | .sstore slot value next, world => match Host.sstore world contract slot value with
    | none => none
    | some world => runGuest contract next world
  | .reenter rejected, world =>
    if contract ∈ world.executing then runGuest contract rejected world else none

/-- By induction on the run of the guest: whatever it was answered, it fails in a trap. -/
theorem runGuest_error {contract : Address} {guest : Guest} {world world' : World}
    {reason : RejectReason} (failed : runGuest contract guest world = some (world',.error reason)) :
    reason ∈ [.wasmReentrancy,.wasmGas,.wasmInvalid] := by
  induction guest generalizing world with
  | done => cases failed
  | trap text =>
    cases failed
    unfold mapTrap
    dsimp only
    split
    · decide
    · split <;> decide
  | invalid =>
    cases failed
    decide
  | sload slot next ih =>
    rw [runGuest] at failed
    split at failed
    · cases failed
    · exact ih _ failed
  | sstore slot value next ih =>
    rw [runGuest] at failed
    split at failed
    · cases failed
    · exact ih failed
  | reenter rejected ih =>
    rw [runGuest] at failed
    split at failed
    · exact ih failed
    · cases failed

variable [Wasm]

/-- Run the `call` export of a contract, marked as running meanwhile. -/
def execute (world : World) (contract : Address) (fuel : U64) :
    Option (World × Except RejectReason Unit) :=
  if contract ∈ world.executing then some (world,.error .wasmReentrancy)
  else match world.code[contract]? with
    | none => some (world,.error .wasmNoCode)
    | some code =>
      match runGuest contract (Wasm.start code fuel)
          { world with executing := world.executing.insert contract } with
      | none => none
      | some (world,result) =>
        some ({ world with executing := world.executing.erase contract },result)

def validateWasm (code : Bytes) : Except RejectReason Unit :=
  if Wasm.validate code then .ok () else .error .wasmInvalid

def call (world : World) (payload : Call) (fuel : U64) :
    Option (World × Except RejectReason Unit) :=
  match world.code[payload.toAddr]? with
  | none => some (world,.error .wasmNoCode)
  | some code => match validateWasm code with
    | .error e => some (world,.error e)
    | .ok () => execute world payload.toAddr fuel

/-- Fuel is the declared limit minus the intrinsic cost. -/
def fuelBudget (tx : Tx) (intrinsic : U64) : U64 := saturatingSub tx.gasLimit intrinsic

variable [Blake3]

def createAddress (sender : Address) (nonce : Nonce) : Address :=
  hashToArray (sender.toList ++ toBeBytes 8 nonce)

def install (world : World) (addr : Address) (code : Bytes) : Except RejectReason World :=
  match validateWasm code with
  | .error e => .error e
  | .ok () => .ok { world.setAccount addr { world.account addr with codeHash := hashToArray code } with
      code := world.code.insert addr code }

def prepare (tx : Tx) (deploy : Deploy) : Except RejectReason Unit :=
  match gasMeter tx with
  | .error e => .error e.reason
  | .ok _ => validateWasm deploy.code

end WasmCall

/-- A relation that a contract's host calls move along, and with them every guest. -/
structure HostRule (contract : Address) (R : World → World → Prop) : Prop where
  refl : ∀ w, R w w
  trans : ∀ {w w' w''}, R w w' → R w' w'' → R w w''
  fuel : ∀ {w} left, R w { w with wasmFuelLeft := left }
  sload : ∀ {w w' slot value}, Host.sload w contract slot = some (w',value) → R w w'
  sstore : ∀ {w w' slot value}, Host.sstore w contract slot value = some w' → R w w'
  marked : ∀ {w w' before after},
    R { w with executing := before } w' → R w { w' with executing := after }

namespace HostRule

variable {contract : Address} {R : World → World → Prop} {w w' : World}
  {result : Except RejectReason Unit}

theorem runGuest (rule : HostRule contract R) {guest : Guest}
    (returned : WasmCall.runGuest contract guest w = some (w',result)) : R w w' := by
  induction guest generalizing w with
  | done => cases returned; exact rule.fuel _
  | trap => cases returned; exact rule.fuel _
  | invalid => cases returned; exact rule.refl _
  | sload slot next ih =>
    unfold WasmCall.runGuest at returned
    split at returned
    · cases returned
    · rename_i loaded
      exact rule.trans (rule.sload loaded) (ih _ returned)
  | sstore slot value next ih =>
    unfold WasmCall.runGuest at returned
    split at returned
    · cases returned
    · rename_i stored
      exact rule.trans (rule.sstore stored) (ih returned)
  | reenter rejected ih =>
    unfold WasmCall.runGuest at returned
    split at returned
    · exact ih returned
    · cases returned

theorem call [Wasm] {payload : Call} {fuel : U64} (rule : HostRule payload.toAddr R)
    (returned : WasmCall.call w payload fuel = some (w',result)) : R w w' := by
  unfold WasmCall.call at returned
  split at returned
  · cases returned
    exact rule.refl w
  split at returned
  · cases returned
    exact rule.refl w
  unfold WasmCall.execute at returned
  split at returned
  · cases returned
    exact rule.refl w
  split at returned
  · cases returned
    exact rule.refl w
  split at returned
  · cases returned
  · rename_i ran
    cases returned
    exact rule.marked (rule.runGuest ran)

end HostRule

/-- Guest code leaves accounts, staking, parameters and code alone. -/
structure KeepsLedger (w w' : World) : Prop where
  accounts : w'.accounts = w.accounts
  staking : w'.staking = w.staking
  params : w'.params = w.params
  code : w'.code = w.code

namespace KeepsLedger

theorem refl (w : World) : KeepsLedger w w := ⟨rfl,rfl,rfl,rfl⟩

theorem trans {a b c : World} (first : KeepsLedger a b) (second : KeepsLedger b c) :
    KeepsLedger a c :=
  ⟨second.accounts.trans first.accounts,second.staking.trans first.staking,
    second.params.trans first.params,second.code.trans first.code⟩

variable {w w' : World} {contract : Address} {result : Except RejectReason Unit}

theorem sload {slot : U32} {value : U64}
    (returned : Host.sload w contract slot = some (w',value)) : KeepsLedger w w' := by
  unfold Host.sload at returned
  dsimp only at returned
  split at returned
  · cases returned
  · cases returned
    exact ⟨rfl,rfl,rfl,rfl⟩

theorem sstore {slot : U32} {value : U64}
    (returned : Host.sstore w contract slot value = some w') : KeepsLedger w w' := by
  unfold Host.sstore at returned
  split at returned
  · cases returned
  rename_i loaded
  dsimp only at returned
  split at returned
  · cases returned
  · cases returned
    exact (sload loaded).trans ⟨rfl,rfl,rfl,rfl⟩

theorem rule : HostRule contract KeepsLedger where
  refl := refl
  trans := trans
  fuel _ := ⟨rfl,rfl,rfl,rfl⟩
  sload := sload
  sstore := sstore
  marked inner := ⟨inner.accounts,inner.staking,inner.params,inner.code⟩

theorem call [Wasm] {payload : Call} {fuel : U64}
    (returned : WasmCall.call w payload fuel = some (w',result)) : KeepsLedger w w' :=
  rule.call returned

end KeepsLedger
end L1
