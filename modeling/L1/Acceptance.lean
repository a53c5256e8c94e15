import L1.Readiness
import L1.Limits

/-! Whether a block that was built locally passes the gate. The builder counts envelopes against the
parameters; the gate counts the whole body, with signatures and framing, against caps of its own. -/
namespace L1.Limits

open L1.Seq

def maxBytesParam (g : Genesis) : U32 :=
  ((g.params.registry.get .maxBlockBytes).getD (Spec.maxBlockBytes.setWidth 64)).setWidth 32

def handedOut (g : Genesis) (pool : Mempool) : List SignedTx :=
  (ReadyTxs.takeReady pool (maxGasParam g) (maxBytesParam g)).1

/-- The builder passes over none of what the pool hands out: both count alike. -/
theorem selectTxs_takeLoop (maxGas : U64) (maxBytes : U32) (fuel : Nat) (pool : Mempool)
    (localNonce : Map Address Nonce) (skip : OrdSet (Address × Nonce)) (gas : U64) (bytes : U32) :
    Builder.selectTxs maxGas maxBytes
      (Mempool.takeLoop maxGas maxBytes fuel pool localNonce skip gas bytes).1 gas bytes =
      (Mempool.takeLoop maxGas maxBytes fuel pool localNonce skip gas bytes).1 := by
  refine Mempool.takeLoop_rule (P := fun _ _ _ gas bytes result =>
    Builder.selectTxs maxGas maxBytes result.1 gas bytes = result.1) ?_ ?_ ?_
    fuel pool localNonce skip gas bytes
  · exact fun _ _ _ _ _ => rfl
  · exact fun _ _ _ _ _ _ _ rest => rest
  · intro _ _ _ gas bytes _ signed g result _ metered fits rest
    obtain ⟨gasFits,bytesFit⟩ := not_or.mp fits
    simp only [Builder.selectTxs,metered,if_neg gasFits,if_neg bytesFit]
    rw [rest]

theorem built_txs [Wasm] [Blake3] [Ed25519] {g : Genesis} {pre : World} {fields : HeaderFields}
    {pool pool' : Mempool} {built : BuiltBlock}
    (done : Builder.buildLocal pool g pre fields = some (built,pool')) :
    built.block.txs = handedOut g pool := by
  obtain ⟨maxGas,maxBytes,gas,bytes,executed⟩ := Builder.buildLocal_spec done
  have gasParam : maxGasParam g = maxGas := by rw [maxGasParam,gas,Option.getD_some]
  have bytesParam : maxBytesParam g = maxBytes.setWidth 32 := by
    rw [maxBytesParam,bytes,Option.getD_some]
  rw [(Builder.executeBlock_some executed).1,handedOut,gasParam,bytesParam]
  exact selectTxs_takeLoop ..

/-- The bytes of a body: header fields and count, then each envelope with signature, key and framing. -/
def bodySize (txs : List SignedTx) : Nat := 77 + (txs.map fun s => s.tx.encode.length + 109).sum

theorem length_encodeBlockBody (block : Block) :
    (Codec.encodeBlockBody block).length = bodySize block.txs := by
  have each (s : SignedTx) : (chunk (Codec.encodeSignedTx s)).length = s.tx.encode.length + 109 := by
    simp only [length_chunk,Codec.encodeSignedTx,Encoding.length_encode,Codec.signedTxPayload,
      List.length_append,Vector.length_toList]
  simp only [Codec.encodeBlockBody,Encoding.length_encode,Codec.bodyPayload,List.length_append,
    Codec.length_encodeFields,BigEndian.length_encode,List.length_flatMap,each,bodySize]
  omega

theorem meterAll_ok_iff {cap gas : U64} {txs : List SignedTx} (small : cap.toNat < 2^64 - 1)
    (within : gas.toNat ≤ cap.toNat) (met : ∀ s ∈ txs, ∃ gas, gasMeter s.tx = .ok gas) :
    meterAll cap txs gas = .ok () ↔ gas.toNat + intrinsicGas txs ≤ cap.toNat := by
  constructor
  · exact fun accepted => (meterAll_ok small within accepted).2
  · intro bound
    induction txs generalizing gas with
    | nil => rfl
    | cons s rest ih =>
      obtain ⟨⟨g,metered⟩,others⟩ := List.forall_mem_cons.mp met
      have cost := ((gasMeter_ok_iff _ _).mp metered).1
      simp only [intrinsicGas,List.map_cons,List.sum_cons,← cost] at bound
      have sum : (saturatingAdd gas g).toNat = gas.toNat + g.toNat :=
        Mempool.toNat_saturatingAdd_of_le (c := cap) (by omega)
      have fits : ¬ cap < saturatingAdd gas g := by
        rw [BitVec.lt_def,sum]
        omega
      simp only [meterAll,metered,if_neg fits]
      refine ih (by omega) others ?_
      rw [sum,intrinsicGas]
      omega

/-- The gate on a block whose transactions have gas costs: the cut to 32 bits aside, it compares the
size of the body and the sum of the costs. -/
theorem precheckBlock_iff {g : Genesis} {block : Block}
    (met : ∀ s ∈ block.txs, ∃ gas, gasMeter s.tx = .ok gas) : (precheckBlock g block = .ok () ∧
        (Codec.encodeBlockBody block).length ≤ (maxBlockBytes g).toNat ∧
        intrinsicGas block.txs ≤ (maxGas g).toNat) ↔
      bodySize block.txs ≤ (maxBlockBytes g).toNat ∧ intrinsicGas block.txs ≤ (maxGas g).toNat := by
  have small : (maxGas g).toNat < 2^64 - 1 := (maxGas_le g).2.trans_lt (by decide)
  rw [length_encodeBlockBody]
  constructor
  · rintro ⟨-,both⟩
    exact both
  · rintro ⟨size,gas⟩
    refine ⟨?_,size,gas⟩
    have exact_ : (BitVec.ofNat 32 (bodySize block.txs)).toNat = bodySize block.txs := by
      rw [BitVec.toNat_ofNat,Nat.mod_eq_of_lt (size.trans_lt (maxBlockBytes g).isLt)]
    have fits : ¬ maxBlockBytes g < BitVec.ofNat 32 (Codec.encodeBlockBody block).length := by
      rw [length_encodeBlockBody,BitVec.lt_def,exact_]
      exact Nat.not_lt.mpr size
    rw [precheckBlock,if_neg fits]
    exact (meterAll_ok_iff small (Nat.zero_le _) met).mpr ((Nat.zero_add _).trans_le gas)

/-- A block that was built locally passes the gate exactly if what the pool hands out, with its
framing, fits the caps of the gate. -/
theorem built_block_passes_iff [Wasm] [Blake3] [Ed25519] (g : Genesis) (pre : World)
    (fields : HeaderFields) (pool pool' : Mempool) (built : BuiltBlock)
    (done : Builder.buildLocal pool g pre fields = some (built,pool')) :
    (precheckBlock g built.block = .ok () ∧
        (Codec.encodeBlockBody built.block).length ≤ (maxBlockBytes g).toNat ∧
        intrinsicGas built.block.txs ≤ (maxGas g).toNat) ↔
      77 + ((handedOut g pool).map fun s => s.tx.encode.length + 109).sum ≤ (maxBlockBytes g).toNat ∧
        ((handedOut g pool).map fun s => (gasCost s.tx.payload).toNat).sum ≤ (maxGas g).toNat := by
  rw [precheckBlock_iff (buildLocal_met done),built_txs done]
  rfl

namespace Sample

open Mempool.Sample

attribute [local instance] LoneSigner.blake3 Holdings.Sample.ed25519 Holdings.Sample.wasm

def capped (bytes : U64) : Genesis where
  chainId := 1
  alloc := Std.ExtTreeMap.ofList [(fromEd25519 zeroHash,⟨100,0,zeroHash⟩)] compare
  params := { registry := ParamsRegistry.new.insert .maxBlockBytes bytes }

def pool : Mempool := (Mempool.withLimits 1 10 10000).admitPreverified (payment 0 1) (fromEd25519 zeroHash)

def built (bytes : U64) : Option (BuiltBlock × Mempool) :=
  Builder.buildLocal pool (capped bytes) (.fromGenesis (capped bytes)) ⟨0,0,Vector.replicate 48 0,0⟩

theorem exists_of_elim {α : Type} {P : α → Prop} [DecidablePred P] {result : Option α}
    (checked : result.elim false (fun a => decide (P a)) = true) : ∃ a, result = some a ∧ P a := by
  cases result with
  | none => cases checked
  | some a => exact ⟨a,rfl,of_decide_eq_true checked⟩

/-- With a thousand bytes the payment fits. -/
theorem payment_passes :
    ∃ result, built 1000 = some result ∧ precheckBlock (capped 1000) result.1.block = .ok () ∧
      (Codec.encodeBlockBody result.1.block).length ≤ (maxBlockBytes (capped 1000)).toNat ∧
      intrinsicGas result.1.block.txs ≤ (maxGas (capped 1000)).toNat := by
  have returns : (built 1000).isSome = true := by decide +kernel
  obtain ⟨result,done⟩ := Option.isSome_iff_exists.mp returns
  exact ⟨result,done,(built_block_passes_iff (capped 1000) _ _ pool result.2 result.1 done).mpr
    (by decide +kernel)⟩

/-- With a hundred bytes the builder takes the payment and the gate refuses the block. -/
theorem payment_refused :
    ∃ result, built 100 = some result ∧ result.1.block.txs = [payment 0 1] ∧
      precheckBlock (capped 100) result.1.block = .error .blockBytes :=
  exists_of_elim (by decide +kernel)

end Sample
end L1.Limits
