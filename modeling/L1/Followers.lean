import L1.Accountability
import L1.Agreement
import L1.Live

/-! What a follower makes of a leader's proposal. The leader builds from its pool, the follower
from the header alone. -/
namespace L1.Wire

open Builder Steps

section Rebuilding

variable [Wasm] [Blake3] [Ed25519]

def chosenTxs {R : Type} [ReadyTxs R] (pool : R) (g : Genesis) : List SignedTx :=
  match g.params.registry.get .maxGas, g.params.registry.get .maxBlockBytes with
  | some maxGas, some maxBytes =>
    selectTxs maxGas (maxBytes.setWidth 32) (ReadyTxs.takeReady pool maxGas (maxBytes.setWidth 32)).1 0 0
  | _, _ => []

theorem buildLocal_eq_some {R : Type} [ReadyTxs R] {pool pool' : R} {g : Genesis} {pre : World}
    {fields : HeaderFields} {built : BuiltBlock}
    (done : buildLocal pool g pre fields = some (built,pool')) :
    (∃ maxGas, g.params.registry.get .maxGas = some maxGas) ∧
    (∃ maxBytes, g.params.registry.get .maxBlockBytes = some maxBytes) ∧
    executeBlock g pre ⟨fields,chosenTxs pool g⟩ = some built := by
  obtain ⟨maxGas,maxBytes,gas,bytes,executed⟩ := buildLocal_spec done
  refine ⟨⟨maxGas,gas⟩,⟨maxBytes,bytes⟩,?_⟩
  simp only [chosenTxs,gas,bytes]
  exact executed

theorem builtFromProposal_eq {g : Genesis} {world : World} {proposal : Proposal} {maxGas maxBytes : U64}
    (gas : g.params.registry.get .maxGas = some maxGas)
    (bytes : g.params.registry.get .maxBlockBytes = some maxBytes) :
    builtFromProposal g world proposal =
      (executeBlock g world ⟨proposal.header.fields,[]⟩).map fun built =>
        if built.header.hash ≠ proposal.header.hash ∨ built.appHash ≠ proposal.appHash then none
        else some built := by
  obtain ⟨pool,made⟩ : ∃ pool, Mempool.new g.params.registry = some pool := by
    simp [Mempool.new,Mempool.minFeeFloor,gas]
  have drawn := takeReady_new made maxGas (maxBytes.setWidth 32)
  have assembled : buildLocal pool g world proposal.header.fields =
      (executeBlock g world ⟨proposal.header.fields,[]⟩).map fun built => (built,pool) := by
    simp only [buildLocal,gas,bytes,drawn,selectTxs]
  simp only [builtFromProposal,made,assembled]
  cases executeBlock g world ⟨proposal.header.fields,[]⟩ with
  | none => rfl
  | some built =>
    simp only [Option.map_some]
    split <;> rfl

variable [Bls] [Vrf]

/-- A follower in the same world agrees with the leader on the proposal exactly when the leader's
pool had nothing to offer. -/
theorem follower_agrees_iff (g : Genesis) (sk : Bls.SecretKey) (ourId vrfSource : ValidatorId)
    (sourceVrfPk : Vector UInt8 32) (sourceProof : VrfProof) (seed : VrfSeed) (height : Height)
    (round : Round) (ts now lastTs : U64) (world : World) (pool pool' : Mempool)
    (proposal : Proposal) (built : BuiltBlock)
    (done : wirePropose g sk ourId vrfSource sourceVrfPk sourceProof seed height round ts now lastTs
      world pool = some (.ok (proposal,built),pool')) :
    (∃ b, builtFromProposal g world proposal = some (some b) ∧ b.block.txs = built.block.txs ∧
      b.receipts = built.receipts ∧ b.world = built.world ∧ b.appHash = built.appHash) ↔
    chosenTxs pool g = [] := by
  obtain ⟨-,-,header,app,-,-,-,-,assembled,-⟩ := wirePropose_ok done
  obtain ⟨⟨maxGas,gas⟩,⟨maxBytes,bytes⟩,executed⟩ := buildLocal_eq_some assembled
  obtain ⟨block,executes⟩ := executeBlock_some executed
  constructor
  · rintro ⟨b,rebuilt,txs,-⟩
    obtain ⟨empty,-⟩ := builtFromProposal_some rebuilt
    rw [empty,block] at txs
    exact txs.symm
  · intro idle
    have fields : proposal.header.fields = ⟨height,round,ourId,ts⟩ := by
      rw [header,executes.header,block]
    rw [idle] at executed
    refine ⟨built,?_,rfl,rfl,rfl,rfl⟩
    rw [builtFromProposal_eq gas bytes,fields,executed,Option.map_some,header,app]
    simp

end Rebuilding
end L1.Wire

/-! A network of three validators. The first one wins every lottery. -/
namespace L1.Devnet

open Wire LoneSigner

attribute [local instance] ScalarBls.bls LoneSigner.blake3 Holdings.Sample.ed25519
  Holdings.Sample.wasm Agreement.Solo.vrf

def key : Vector UInt8 32 := Vector.replicate 32 1

def genesis : Genesis where
  chainId := 1
  alloc := Std.ExtTreeMap.ofList [(fromEd25519 key,⟨100,0,zeroHash⟩)] compare
  validators := validators

def config (tag : UInt8) : NodeConfig where
  genesis
  blsSk := tag
  ourId := validator tag
  vrfSk := zeroHash
  vrfSecrets := ∅
  vrfPks := Std.ExtTreeMap.ofList [(validator 1,zeroHash)] compare

def origin : World := .fromGenesis genesis

def emptyPool : Mempool := (Mempool.new genesis.params.registry).get (by decide +kernel)

def payment : SignedTx :=
  ⟨⟨1,0,Spec.gasTransfer,1,.transfer ⟨zeroHash,10⟩⟩,Vector.replicate 64 0,key⟩

def proposed (pool : Mempool) : Option (Except WireError (Proposal × BuiltBlock) × Mempool) :=
  wirePropose genesis (1 : UInt8) (validator 1) (validator 1) zeroHash (Vector.replicate 80 0)
    (roundSeed genesis.hash) 0 0 0 0 0 origin pool

def isProposed : Option (Except WireError (Proposal × BuiltBlock) × Mempool) → Bool
  | some (.ok _,_) => true
  | _ => false

theorem exists_of_isProposed (result : Option (Except WireError (Proposal × BuiltBlock) × Mempool))
    (proposes : isProposed result = true) : ∃ p b pool, result = some (.ok (p,b),pool) := by
  rcases result with _ | ⟨_ | ⟨p,b⟩,pool⟩
  · cases proposes
  · cases proposes
  · exact ⟨p,b,pool,rfl⟩

/-- From an empty pool the follower rebuilds what the leader built. -/
theorem empty_proposal_rebuilt :
    ∃ p b pool, proposed emptyPool = some (.ok (p,b),pool) ∧
      ∃ b', builtFromProposal genesis origin p = some (some b') ∧ b'.block.txs = b.block.txs ∧
        b'.receipts = b.receipts ∧ b'.world = b.world ∧ b'.appHash = b.appHash := by
  obtain ⟨p,b,pool,done⟩ := exists_of_isProposed (proposed emptyPool) (by decide +kernel)
  exact ⟨p,b,pool,done,(follower_agrees_iff genesis _ _ _ _ _ _ _ _ _ _ _ origin emptyPool pool p b
    done).mpr (by decide +kernel)⟩

def isRefused : Option (Except WireError (Proposal × BuiltBlock) × Mempool) → Bool
  | some (.ok (p,b),_) =>
    decide (b.block.txs = [payment]) && (builtFromProposal genesis origin p).elim false Option.isNone
  | _ => false

/-- With one payment in the leader's pool, the follower refuses the proposal. -/
theorem full_proposal_refused :
    ∃ p b pool, proposed (emptyPool.admitPreverified payment (fromEd25519 key)) =
        some (.ok (p,b),pool) ∧
      b.block.txs = [payment] ∧ builtFromProposal genesis origin p = some none := by
  have refused : isRefused (proposed (emptyPool.admitPreverified payment (fromEd25519 key))) = true := by
    decide +kernel
  generalize proposed (emptyPool.admitPreverified payment (fromEd25519 key)) = result at refused ⊢
  rcases result with _ | ⟨_ | ⟨p,b⟩,pool⟩
  · cases refused
  · cases refused
  · obtain ⟨txs,rebuilt⟩ := Bool.and_eq_true_iff.mp refused
    refine ⟨p,b,pool,rfl,of_decide_eq_true txs,?_⟩
    cases again : builtFromProposal genesis origin p with
    | none => simp [again] at rebuilt
    | some r => cases r with
      | none => rfl
      | some built => simp [again] at rebuilt

end L1.Devnet
