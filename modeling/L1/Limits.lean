import L1.Builder
import L1.Codec

/-! The limits a block is checked against before it is executed. The check sums up the intrinsic costs;
a call is then granted its whole declared limit. -/
namespace L1

open L1.Seq

namespace Limits

inductive LimitError where
  | blockBytes | blockGas | stateGrowth
  deriving DecidableEq, Repr

def least {w : Nat} (a b : BitVec w) : BitVec w := if b < a then b else a

/-- Byte cap; the parameter is cut to 32 bits. -/
def maxBlockBytes (g : Genesis) : U32 :=
  least Spec.maxBlockBytes
    (((g.params.registry.get .maxBlockBytes).getD (Spec.maxBlockBytes.setWidth 64)).setWidth 32)

def maxGasParam (g : Genesis) : U64 := (g.params.registry.get .maxGas).getD Spec.maxGas

/-- Gas cap: the parameter, as far as the byte budget can carry it. -/
def maxGas (g : Genesis) : U64 :=
  let bytes : U64 := (maxBlockBytes g).setWidth 64
  let fromBytes := saturatingMul (bytes / 100) Spec.gasTransfer
  least (least (maxGasParam g) fromBytes) Spec.maxGas

def meterAll (cap : U64) : List SignedTx → U64 → Except LimitError Unit
  | [], _ => .ok ()
  | s :: rest, gas => match gasMeter s.tx with
    | .error _ => .error .blockGas
    | .ok g =>
      if cap < saturatingAdd gas g then .error .blockGas
      else meterAll cap rest (saturatingAdd gas g)

/-- Reject an oversized or overgassed block without executing it. -/
def precheckBlock (g : Genesis) (block : Block) : Except LimitError Unit :=
  if maxBlockBytes g < BitVec.ofNat 32 (Codec.encodeBlockBody block).length then .error .blockBytes
  else meterAll (maxGas g) block.txs 0

/-! What execution may consume. -/

/-- The fuel granted to a transaction that costs `gas`. -/
def fuel (tx : Tx) (gas : U64) : Nat :=
  match tx.payload with
  | .call _ => (WasmCall.fuelBudget tx gas).toNat
  | _ => 0

def granted (tx : Tx) : Nat :=
  match gasMeter tx with
  | .error _ => 0
  | .ok gas => gas.toNat + fuel tx gas

/-- The cost of a transaction to its block: the declared limit of a call, else the intrinsic cost. -/
def declared (tx : Tx) : Nat :=
  match tx.payload with
  | .call _ => tx.gasLimit.toNat
  | payload => (gasCost payload).toNat

def executionGas (txs : List SignedTx) : Nat := (txs.map fun s => granted s.tx).sum

def declaredGas (txs : List SignedTx) : Nat := (txs.map fun s => declared s.tx).sum

def intrinsicGas (txs : List SignedTx) : Nat := (txs.map fun s => (gasCost s.tx.payload).toNat).sum

variable {gas cap : U64} {txs : List SignedTx} {w : Nat}

theorem least_le_left (a b : BitVec w) : (least a b).toNat ≤ a.toNat := by
  unfold least
  split
  · rename_i less
    rw [BitVec.lt_def] at less
    omega
  · omega

theorem least_le_right (a b : BitVec w) : (least a b).toNat ≤ b.toNat := by
  unfold least
  split
  · omega
  · rename_i least
    rw [BitVec.lt_def] at least
    omega

theorem maxGas_le (g : Genesis) :
    (maxGas g).toNat ≤ (maxGasParam g).toNat ∧ (maxGas g).toNat ≤ Spec.maxGas.toNat :=
  ⟨(least_le_left _ _).trans (least_le_left _ _),least_le_right _ _⟩

theorem granted_eq_declared {tx : Tx} (met : gasMeter tx = .ok gas) : granted tx = declared tx := by
  obtain ⟨rfl,-,enough⟩ := (gasMeter_ok_iff tx gas).mp met
  rw [BitVec.le_def] at enough
  simp only [granted,met,fuel,declared]
  cases payload : tx.payload with
  | call c =>
    rw [payload] at enough
    rw [WasmCall.fuelBudget,saturatingSub,BitVec.toNat_ofNat,
      Nat.mod_eq_of_lt (lt_of_le_of_lt (Nat.sub_le _ _) tx.gasLimit.isLt)]
    exact Nat.add_sub_cancel' enough
  | transfer t => rfl
  | stake s => rfl
  | deploy d => rfl

theorem executionGas_eq_declaredGas
    (met : ∀ s ∈ txs, ∃ gas, gasMeter s.tx = .ok gas) : executionGas txs = declaredGas txs := by
  unfold executionGas declaredGas
  congr 1
  refine List.map_congr_left fun s listed => ?_
  obtain ⟨gas,metered⟩ := met s listed
  exact granted_eq_declared metered

/-- The loop accepts transactions that the meter accepts and whose costs stay below the cap. -/
theorem meterAll_ok (small : cap.toNat < 2^64 - 1)
    (within : gas.toNat ≤ cap.toNat) (accepted : meterAll cap txs gas = .ok ()) :
    (∀ s ∈ txs, ∃ gas, gasMeter s.tx = .ok gas) ∧ gas.toNat + intrinsicGas txs ≤ cap.toNat := by
  induction txs generalizing gas with
  | nil => exact ⟨by simp,by simpa [intrinsicGas] using within⟩
  | cons s rest ih =>
    unfold meterAll at accepted
    split at accepted
    · cases accepted
    rename_i g met
    split at accepted
    · cases accepted
    rename_i below
    rw [BitVec.lt_def,toNat_saturatingAdd] at below
    obtain ⟨others,bound⟩ := ih (by rw [toNat_saturatingAdd]; omega) accepted
    rw [toNat_saturatingAdd] at bound
    have cost := ((gasMeter_ok_iff _ _).mp met).1
    refine ⟨List.forall_mem_cons.mpr ⟨⟨g,met⟩,others⟩,?_⟩
    simp only [intrinsicGas,List.map_cons,List.sum_cons,← cost] at bound ⊢
    omega

theorem selectTxs_met {bytes : U32} {used : U32} :
    ∀ s ∈ Builder.selectTxs cap bytes txs gas used, ∃ gas, gasMeter s.tx = .ok gas := by
  induction txs generalizing gas used with
  | nil => simp [Builder.selectTxs]
  | cons s rest ih =>
    unfold Builder.selectTxs
    split
    · exact ih
    rename_i g met
    dsimp only
    split
    · exact ih
    split
    · exact ih
    · exact List.forall_mem_cons.mpr ⟨⟨g,met⟩,ih⟩

theorem buildLocal_met [Wasm] [Blake3] [Ed25519] {R : Type} [ReadyTxs R] {pool pool' : R} {g : Genesis}
    {pre : World} {fields : HeaderFields} {built : BuiltBlock}
    (done : Builder.buildLocal pool g pre fields = some (built,pool')) :
    ∀ s ∈ built.block.txs, ∃ gas, gasMeter s.tx = .ok gas := by
  obtain ⟨maxGas,maxBytes,-,-,executed⟩ := Builder.buildLocal_spec done
  rw [(Builder.executeBlock_some executed).1]
  exact selectTxs_met

/-- The check bounds the intrinsic costs. The costs with the granted fuel stay below the parameter, for
an accepted block as for one that was built locally, exactly if the declared limits of its calls and
the intrinsic costs of the others do. -/
theorem block_gas_iff [Wasm] [Blake3] [Ed25519] (g : Genesis) :
    (∀ block, precheckBlock g block = .ok () → intrinsicGas block.txs ≤ (maxGasParam g).toNat ∧
      (executionGas block.txs ≤ (maxGasParam g).toNat ↔
        declaredGas block.txs ≤ (maxGasParam g).toNat)) ∧
    (∀ (R : Type) [ReadyTxs R] (pool pool' : R) (pre : World) (fields : HeaderFields)
      (built : BuiltBlock), Builder.buildLocal pool g pre fields = some (built,pool') →
      (executionGas built.block.txs ≤ (maxGasParam g).toNat ↔
        declaredGas built.block.txs ≤ (maxGasParam g).toNat)) := by
  refine ⟨fun block accepted => ?_,fun R _ pool pool' pre fields built done => ?_⟩
  · unfold precheckBlock at accepted
    split at accepted
    · cases accepted
    obtain ⟨param,spec⟩ := maxGas_le g
    have small : (maxGas g).toNat < 2^64 - 1 := spec.trans_lt (by decide)
    obtain ⟨met,bound⟩ := meterAll_ok small (Nat.zero_le _) accepted
    refine ⟨?_,by rw [executionGas_eq_declaredGas met]⟩
    exact (Nat.le_add_left _ _).trans (bound.trans param)
  · rw [executionGas_eq_declaredGas (buildLocal_met done)]

namespace Sample

@[reducible] def blake3 : Blake3 := ⟨fun bytes => fixed 32 bytes⟩

@[reducible] def ed25519 : Ed25519 := ⟨fun _ => true,fun _ _ _ => true⟩

@[reducible] def wasm : Wasm := ⟨fun _ => true,fun _ fuel => .done fuel⟩

attribute [local instance] blake3 ed25519 wasm

def genesis : Genesis where
  chainId := 1

def address (tag : UInt8) : Address := Vector.replicate 32 tag

def call (nonce : Nonce) (limit : U64) : SignedTx :=
  ⟨⟨1,nonce,limit,0,.call ⟨address 2,[]⟩⟩,Vector.replicate 64 0,address 1⟩

def block (limit : U64) : Block := ⟨⟨0,0,Vector.replicate 48 0,0⟩,[call 0 limit,call 1 limit]⟩

def world : World where
  params := .new
  code := Std.ExtTreeMap.ofList [(address 2,[0])] compare

/-- Two calls with the least limit. -/
theorem modest_calls_bounded :
    precheckBlock genesis (block Spec.gasCall) = .ok () ∧
      executionGas (block Spec.gasCall).txs ≤ (maxGasParam genesis).toNat := by
  have accepted : precheckBlock genesis (block Spec.gasCall) = .ok () := by decide +kernel
  exact ⟨accepted,(((block_gas_iff genesis).1 _ accepted).2).mpr (by decide +kernel)⟩

/-- Two calls with the largest limit are accepted and executed, on twice the fuel of the cap. -/
theorem greedy_calls_exceed :
    precheckBlock genesis (block Spec.maxGas) = .ok () ∧
    (applyBlock world (block Spec.maxGas)).map (fun r => r.2.1.map Receipt.success) =
      some [true,true] ∧
    (maxGasParam genesis).toNat = 50000000 ∧ executionGas (block Spec.maxGas).txs = 100000000 := by
  decide +kernel

end Sample
end Limits
end L1
