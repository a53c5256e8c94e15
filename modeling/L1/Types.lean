import L1.Encoding
import L1.MachineInt
import L1.OrderedMap

/-! Identifiers, amounts, chain parameters and the genesis object. -/
namespace L1

abbrev Address := Vector UInt8 32
/-- Compressed BLS12-381 G1 public key. -/
abbrev ValidatorId := Vector UInt8 48
abbrev Amount := U128
abbrev Nonce := U64
abbrev Height := U64
abbrev Round := U32
abbrev Epoch := U64
abbrev VotingPower := U64
abbrev ChainId := U64

-- The keys of the maps below, each with its order law under one name.
instance addressTransOrd : Std.TransOrd Address := inferInstance

instance validatorIdTransOrd : Std.TransOrd ValidatorId := inferInstance

instance heightTransOrd : Std.TransOrd Height := inferInstance

instance bytesTransOrd : Std.TransOrd Bytes := inferInstance

instance slotTransOrd : Std.TransOrd (Address × Nonce) := inferInstance

instance delegationTransOrd : Std.TransOrd (Address × ValidatorId) := inferInstance

def zeroHash : Hash := Vector.replicate 32 0

/-- Successor height; the last height is its own successor. -/
def saturatingNext (h : Height) : Height := saturatingAdd h 1

namespace Spec

def maxBlockBytes : U32 := 2 * 1024 * 1024
def maxTxBytes : U32 := 64 * 1024
def mempoolMaxTxs : U32 := 4096
def minTxFee : U128 := 1
def maxGas : U64 := 50000000
def gasTransfer : U64 := 21000
def gasDeploy : U64 := 50000
def gasCall : U64 := 21000
def epochLength : U64 := 100
def unbondingPeriod : U64 := 1000
def minSelfBond : U64 := 100
def delegationCap : U64 := 1000
def slashPercent : U64 := 5
def timeoutProposeMs : U64 := 3000
def timeoutPrevoteMs : U64 := 1000
def timeoutPrecommitMs : U64 := 1000
def timeoutDeltaMs : U64 := 500
def maxTimestampDriftMs : U64 := 15000

end Spec

inductive ParamId where
  | maxBlockBytes | maxTxBytes | maxGas | epochLength | unbondingPeriod
  | timeoutProposeMs | timeoutPrevoteMs | timeoutPrecommitMs | timeoutDeltaMs
  | maxTimestampDriftMs | minSelfBond | delegationCap | slashPercent
  deriving DecidableEq, Repr

namespace ParamId

/-- The byte of a parameter in the genesis preimage; declaration order. -/
def byte : ParamId → UInt8
  | maxBlockBytes => 0 | maxTxBytes => 1 | maxGas => 2 | epochLength => 3 | unbondingPeriod => 4
  | timeoutProposeMs => 5 | timeoutPrevoteMs => 6 | timeoutPrecommitMs => 7 | timeoutDeltaMs => 8
  | maxTimestampDriftMs => 9 | minSelfBond => 10 | delegationCap => 11 | slashPercent => 12

theorem byte_injective {a b : ParamId} (same : a.byte = b.byte) : a = b := by
  cases a <;> cases b <;> first | rfl | exact absurd same (by decide)

instance : Ord ParamId := ⟨compareOn byte⟩

instance : Std.TransOrd ParamId := inferInstanceAs (Std.TransCmp (compareOn byte))

instance : Std.LawfulEqOrd ParamId where
  compare_self {a} := by
    change compare a.byte a.byte = .eq
    exact Std.ReflCmp.compare_self
  eq_of_compare {a b} same := by
    change compare a.byte b.byte = .eq at same
    exact byte_injective (Std.LawfulEqCmp.eq_of_compare same)

end ParamId

abbrev ParamsRegistry := Map ParamId U64

namespace ParamsRegistry

/-- Defaults from the specification. The staking parameters are left unset. -/
def new : ParamsRegistry := Std.ExtTreeMap.ofList [
  (.maxBlockBytes,Spec.maxBlockBytes.setWidth 64),(.maxTxBytes,Spec.maxTxBytes.setWidth 64),
  (.maxGas,Spec.maxGas),(.epochLength,Spec.epochLength),(.unbondingPeriod,Spec.unbondingPeriod),
  (.timeoutProposeMs,Spec.timeoutProposeMs),(.timeoutPrevoteMs,Spec.timeoutPrevoteMs),
  (.timeoutPrecommitMs,Spec.timeoutPrecommitMs),(.timeoutDeltaMs,Spec.timeoutDeltaMs),
  (.maxTimestampDriftMs,Spec.maxTimestampDriftMs)] compare

def get (registry : ParamsRegistry) (id : ParamId) : Option U64 := registry[id]?

end ParamsRegistry

structure GenesisAccount where
  balance : Amount
  nonce : Nonce
  codeHash : Hash
  deriving DecidableEq, Repr

structure GenesisTimeouts where
  proposeMs : U64 := Spec.timeoutProposeMs
  prevoteMs : U64 := Spec.timeoutPrevoteMs
  precommitMs : U64 := Spec.timeoutPrecommitMs
  deltaMs : U64 := Spec.timeoutDeltaMs
  deriving DecidableEq, Repr

structure GenesisParams where
  registry : ParamsRegistry := .new
  timeouts : GenesisTimeouts := {}

structure Genesis where
  chainId : ChainId
  alloc : Map Address GenesisAccount := ∅
  validators : Map ValidatorId VotingPower := ∅
  params : GenesisParams := {}

namespace Genesis

def hashPreimage (g : Genesis) : Bytes :=
  toBeBytes 8 g.chainId ++ BigEndian.encode 4 g.alloc.size ++
  g.alloc.toList.flatMap (fun (addr,a) =>
    addr.toList ++ toBeBytes 16 a.balance ++ toBeBytes 8 a.nonce ++ a.codeHash.toList) ++
  BigEndian.encode 4 g.validators.size ++
  g.validators.toList.flatMap (fun (id,power) => id.toList ++ toBeBytes 8 power) ++
  BigEndian.encode 4 g.params.registry.size ++
  g.params.registry.toList.flatMap (fun (id,v) => id.byte :: toBeBytes 8 v) ++
  toBeBytes 8 g.params.timeouts.proposeMs ++ toBeBytes 8 g.params.timeouts.prevoteMs ++
  toBeBytes 8 g.params.timeouts.precommitMs ++ toBeBytes 8 g.params.timeouts.deltaMs

def hash [Blake3] (g : Genesis) : Hash := hashToArray g.hashPreimage

end Genesis
end L1
