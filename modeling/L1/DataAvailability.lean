import L1.Codec
import L1.MerkleProofs

/-! Erasure-coded chunks of a block body, their commitment, and the sampling of a light node. The
erasure code and the polynomial commitment are parameters. -/
namespace L1

abbrev U16 := BitVec 16

namespace Da

inductive RsError where
  | params | reconstruct
  deriving DecidableEq, Repr

inductive KzgError where
  | degree | tooLong | point
  deriving DecidableEq, Repr

/-- The erasure code of the library crate: it fills the parity shards. -/
class ErasureCode where
  parity (k m : Nat) (shards : List Bytes) : Except RsError (Vector Bytes m)

/-- The polynomial commitment over the hashes of the chunks, with its fixed setup. -/
class Kzg where
  Commitment : Type
  commit (hashes : List Hash) : Except KzgError Commitment

def padLen (dataLen k : Nat) : Nat :=
  let body := 8 + dataLen
  if body % k = 0 then body else body + (k - body % k)

section Shards

variable [ErasureCode]

/-- The data behind its length, padded, in `k` shards of one length, with `m` parity shards. -/
def rsEncode (data : Bytes) (k m : Nat) : Except RsError (List Bytes) :=
  if k = 0 ∨ m = 0 then .error .params
  else
    let total := padLen data.length k
    let shardLen := total / k
    let buf := BigEndian.encode 8 data.length ++ data ++ List.replicate (total - 8 - data.length) 0
    let shards := (List.range k).map fun i => slice buf (i * shardLen) ((i + 1) * shardLen)
    match ErasureCode.parity k m shards with
    | .error e => .error e
    | .ok parity => .ok (shards ++ parity.toList)

def dataShards : Nat := 4
def parityShards : Nat := 2

structure DaShard where
  index : U16
  payload : Bytes
  deriving DecidableEq

inductive ChunkError where
  | rs (reason : RsError) | badBody | width (expected got : Nat)
  deriving DecidableEq, Repr

def numbered (payloads : List Bytes) : List DaShard :=
  payloads.zipIdx.map fun (payload,i) => ⟨BitVec.ofNat 16 i,payload⟩

def split (block : Block) : Except ChunkError (List DaShard) :=
  match rsEncode (Codec.encodeBlockBody block) dataShards parityShards with
  | .error e => .error (.rs e)
  | .ok shards => .ok (numbered shards)

def leafBytes (shard : DaShard) : Bytes := toBeBytes 2 shard.index ++ shard.payload

omit [ErasureCode] in
theorem leafBytes_injective {a b : DaShard} (same : leafBytes a = leafBytes b) : a = b := by
  obtain ⟨index,payload⟩ := List.append_inj same (by simp)
  obtain ⟨i,p⟩ := a
  obtain ⟨j,q⟩ := b
  rw [show i = j from toBeBytes_injective 2 (by decide) index,show p = q from payload]

theorem length_rsEncode {data : Bytes} {k m : Nat} {shards : List Bytes}
    (done : rsEncode data k m = .ok shards) : shards.length = k + m := by
  unfold rsEncode at done
  split at done
  · cases done
  dsimp only at done
  split at done
  · cases done
  · cases done
    simp

omit [ErasureCode] in
theorem numbered_getElem? (payloads : List Bytes) (i : Nat) :
    (numbered payloads)[i]? = payloads[i]?.map fun payload => ⟨BitVec.ofNat 16 i,payload⟩ := by
  simp [numbered,List.getElem?_map,List.getElem?_zipIdx,Function.comp_def]

theorem length_split {block : Block} {shards : List DaShard} (done : split block = .ok shards) :
    shards.length = 6 := by
  unfold split at done
  split at done
  · cases done
  · rename_i payloads coded
    cases done
    rw [numbered,List.length_map,List.length_zipIdx]
    exact length_rsEncode coded

theorem split_index {block : Block} {shards : List DaShard} (done : split block = .ok shards)
    {shard : DaShard} (listed : shard ∈ shards) : shards[shard.index.toNat]? = some shard := by
  have length := length_split done
  unfold split at done
  split at done
  · cases done
  · rename_i payloads coded
    cases done
    obtain ⟨i,bound,rfl⟩ := List.getElem_of_mem listed
    have found := List.getElem?_eq_getElem bound
    have entry := numbered_getElem? payloads i
    rw [found] at entry
    obtain ⟨payload,-,same⟩ := Option.map_eq_some_iff.mp entry.symm
    have small : i % 2^16 = i := Nat.mod_eq_of_lt (by omega)
    rw [← same,BitVec.toNat_ofNat,small,found,same]

end Shards

section Root

variable [Blake3]

structure DaRoot [Kzg] where
  merkle : Hash
  kzg : Kzg.Commitment
  dataShards : Nat
  parityShards : Nat

structure ProvenChunk where
  shard : DaShard
  proof : Merkle.Proof
  deriving DecidableEq

inductive RootError where
  | chunk (reason : ChunkError) | kzg (reason : KzgError) | proof
  deriving DecidableEq, Repr

def proveAll (leaves : List Bytes) : List (DaShard × Nat) → Option (List ProvenChunk)
  | [] => some []
  | (shard,i) :: rest => match Merkle.prove leaves i with
    | none => none
    | some proof => (proveAll leaves rest).map fun more => ⟨shard,proof⟩ :: more

variable [ErasureCode] [Kzg]

/-- The commitment to a body, with a proof for each of its shards. -/
def commit (block : Block) : Except RootError (DaRoot × List ProvenChunk) :=
  match split block with
  | .error e => .error (.chunk e)
  | .ok shards =>
    let leafSet := shards.map leafBytes
    match Kzg.commit (leafSet.map hashToArray) with
    | .error e => .error (.kzg e)
    | .ok kzg => match proveAll leafSet shards.zipIdx with
      | none => .error .proof
      | some proven => .ok (⟨Merkle.computeRoot leafSet,kzg,dataShards,parityShards⟩,proven)

def verifyChunk (root : DaRoot) (proven : ProvenChunk) : Bool :=
  Merkle.verify (leafBytes proven.shard) proven.proof root.merkle

theorem commit_ok {block : Block} {root : DaRoot} {proven : List ProvenChunk}
    (done : commit block = .ok (root,proven)) :
    ∃ shards, split block = .ok shards ∧ root.merkle = Merkle.computeRoot (shards.map leafBytes) ∧
      root.dataShards = 4 ∧ root.parityShards = 2 := by
  unfold commit at done
  split at done
  · cases done
  rename_i shards coded
  dsimp only at done
  split at done
  · cases done
  split at done
  · cases done
  · cases done
    exact ⟨shards,coded,rfl,rfl,rfl⟩

end Root

/-! Sampling. -/

def shuffleRound (s : Array U16 × U64 × U64) (i : Nat) : Array U16 × U64 × U64 :=
  let s0 : U64 := s.2.1 * 0x9e3779b97f4a7c15 + s.2.2
  let s1 : U64 := s.2.2.rotateLeft 7 ^^^ s0
  (s.1.swapIfInBounds i (s0.toNat % (i + 1)),s0,s1)

def shuffleIndices (n : Nat) (seed : Hash) : List U16 :=
  let idx := ((List.range (n % 2^16)).map (BitVec.ofNat 16)).toArray
  let s0 : U64 := fromBeBytes 64 (slice seed.toList 0 8).reverse
  let s1 : U64 := fromBeBytes 64 (slice seed.toList 8 16).reverse
  let s0 := if s0 = 0 ∧ s1 = 0 then 1 else s0
  ((List.range' 1 (idx.size - 1)).reverse.foldl shuffleRound (idx,s0,s1)).1.toList

def sampleCount : Nat := 3

section Sampling

variable [Kzg]

def sampleIndices (root : DaRoot) : List U16 :=
  let n := root.dataShards + root.parityShards
  ((shuffleIndices n root.merkle).take (min sampleCount n)).insertionSort (· ≤ ·)

structure SampleReport where
  successes : Nat
  queried : List U16
  required : Nat
  deriving DecidableEq, Repr

inductive Availability where
  | available | notAvailable
  deriving DecidableEq, Repr

variable [Blake3]

def sample (root : DaRoot) (fetch : U16 → Option ProvenChunk) : SampleReport where
  successes := (sampleIndices root).countP fun i =>
    (fetch i).any fun chunk => decide (chunk.shard.index = i) && verifyChunk root chunk
  queried := sampleIndices root
  required := sampleCount

def failClosed (report : SampleReport) : Availability :=
  if report.required ≤ report.successes then .available else .notAvailable

end Sampling

/-! The indices that are sampled. -/

theorem swapIfInBounds_perm (a : Array U16) (i j : Nat) : (a.swapIfInBounds i j).toList.Perm a.toList := by
  unfold Array.swapIfInBounds
  split
  · split
    · exact Array.perm_iff_toList_perm.mp (Array.swap_perm ..)
    · exact List.Perm.refl _
  · exact List.Perm.refl _

theorem shuffle_perm (rounds : List Nat) (s : Array U16 × U64 × U64) :
    ((rounds.foldl shuffleRound s).1.toList).Perm s.1.toList := by
  induction rounds generalizing s with
  | nil => exact List.Perm.refl _
  | cons i rest ih => exact (ih (shuffleRound s i)).trans (swapIfInBounds_perm ..)

/-- The shuffle is a permutation, whatever the seed. -/
theorem shuffleIndices_perm (n : Nat) (seed : Hash) :
    (shuffleIndices n seed).Perm ((List.range (n % 2^16)).map (BitVec.ofNat 16)) := by
  unfold shuffleIndices
  exact shuffle_perm _ _

section Soundness

variable [Kzg]

theorem sampleIndices_spec {root : DaRoot} (data : root.dataShards = 4) (parity : root.parityShards = 2) :
    (sampleIndices root).Nodup ∧ (sampleIndices root).length = 3 ∧
      ∀ i ∈ sampleIndices root, i.toNat < 6 := by
  have shuffled := shuffleIndices_perm 6 root.merkle
  have sorted : (sampleIndices root).Perm ((shuffleIndices 6 root.merkle).take 3) := by
    rw [sampleIndices,data,parity]
    exact List.perm_insertionSort ..
  have six : ((List.range (6 % 2^16)).map (BitVec.ofNat 16)).Nodup := by decide
  refine ⟨?_,?_,fun i listed => ?_⟩
  · rw [sorted.nodup_iff]
    exact (shuffled.nodup_iff.mpr six).sublist (List.take_sublist ..)
  · rw [sorted.length_eq,List.length_take,shuffled.length_eq]
    rfl
  · have member := shuffled.mem_iff.mp (List.mem_of_mem_take (sorted.mem_iff.mp listed))
    obtain ⟨k,small,rfl⟩ := List.mem_map.mp member
    have below : k < 6 := List.mem_range.mp small
    rw [BitVec.toNat_ofNat]
    omega

variable [Blake3] [ErasureCode]

/-- What is hashed for the root of a block and to check the chunks that are fetched. -/
def hashed (block : Block) (fetch : U16 → Option ProvenChunk) : Set Bytes :=
  {p | (∃ shards, split block = .ok shards ∧ p ∈ Merkle.payloads (shards.map leafBytes)) ∨
    ∃ i chunk, fetch i = some chunk ∧ p ∈ Merkle.proofPayloads (leafBytes chunk.shard) chunk.proof}

theorem verifyChunk_sound {block : Block} {root : DaRoot} {shards : List DaShard} {fetch : U16 → Option ProvenChunk} (coded : split block = .ok shards)
    (tree : root.merkle = Merkle.computeRoot (shards.map leafBytes))
    (collisionFree : Set.InjOn Merkle.dhash (hashed block fetch)) {i : U16} {chunk : ProvenChunk}
    (got : fetch i = some chunk) (accepted : verifyChunk root chunk = true) :
    shards[chunk.shard.index.toNat]? = some chunk.shard := by
  have filled : shards.map leafBytes ≠ [] := by
    intro empty
    have length := length_split coded
    rw [List.map_eq_nil_iff.mp empty] at length
    cases length
  rw [verifyChunk,tree] at accepted
  have member := Merkle.verify_sound collisionFree filled (fun p listed => .inl ⟨shards,coded,listed⟩)
    (fun p listed => .inr ⟨i,chunk,got,listed⟩) accepted
  obtain ⟨shard,listed,same⟩ := List.mem_map.mp member
  rw [← leafBytes_injective same]
  exact split_index coded listed

/-- If a sample says that a block is available, then as many distinct shards as required were
fetched, and each is the shard of the block at its index. -/
theorem sampling_sound (block : Block) (root : DaRoot) (proven : List ProvenChunk)
    (fetch : U16 → Option ProvenChunk) (committed : commit block = .ok (root,proven))
    (collisionFree : Set.InjOn Merkle.dhash (hashed block fetch))
    (available : failClosed (sample root fetch) = .available) :
    ∃ shards, split block = .ok shards ∧ (sample root fetch).queried.Nodup ∧
      (sample root fetch).required ≤ (sample root fetch).queried.length ∧
      ∀ i ∈ (sample root fetch).queried, ∃ chunk, fetch i = some chunk ∧ chunk.shard.index = i ∧
        shards[i.toNat]? = some chunk.shard := by
  obtain ⟨shards,coded,tree,data,parity⟩ := commit_ok committed
  obtain ⟨distinct,three,-⟩ := sampleIndices_spec data parity
  have enough : sampleCount ≤ (sample root fetch).successes := by
    unfold failClosed at available
    split at available
    · assumption
    · cases available
  -- as many successes as queries
  have every : ∀ i ∈ sampleIndices root, ((fetch i).any fun chunk =>
      decide (chunk.shard.index = i) && verifyChunk root chunk) = true := by
    apply List.countP_eq_length.mp
    have most := List.countP_le_length (l := sampleIndices root) (p := fun i =>
      (fetch i).any fun chunk => decide (chunk.shard.index = i) && verifyChunk root chunk)
    rw [three] at most ⊢
    exact Nat.le_antisymm most enough
  refine ⟨shards,coded,distinct,three.ge,fun i listed => ?_⟩
  obtain ⟨chunk,got,passed⟩ : ∃ chunk, fetch i = some chunk ∧
      (decide (chunk.shard.index = i) && verifyChunk root chunk) = true := by
    have one := every i listed
    cases got : fetch i with
    | none =>
      rw [got] at one
      cases one
    | some chunk =>
      rw [got] at one
      exact ⟨chunk,rfl,one⟩
  obtain ⟨index,accepted⟩ := Bool.and_eq_true_iff.mp passed
  have index := of_decide_eq_true index
  have found := verifyChunk_sound coded tree collisionFree got accepted
  rw [index] at found
  exact ⟨chunk,got,index,found⟩

end Soundness

/-! An empty block, whose chunks are all served. -/
namespace Sample

@[reducible] def blake3 : Blake3 :=
  ⟨fun bytes => Vector.replicate 32 (UInt8.ofNat (bytes.foldl (fun acc b => (7 * acc + b.toNat + 1) % 251) 0))⟩

@[reducible] def erasureCode : ErasureCode where
  parity _ m shards := .ok (Vector.replicate m (shards.headD []))

@[reducible] def kzg : Kzg where
  Commitment := Unit
  commit _ := .ok ()

attribute [local instance] blake3 erasureCode kzg

def block : Block := ⟨⟨0,0,Vector.replicate 48 1,0⟩,[]⟩

def shards : List DaShard := (split block).toOption.get (by decide +kernel)

def committed : DaRoot × List ProvenChunk := (commit block).toOption.get (by decide +kernel)

def fetch (i : U16) : Option ProvenChunk := committed.2[i.toNat]?

theorem split_block : split block = .ok shards := by
  have found : (split block).toOption = some shards := (Option.some_get _).symm
  cases done : split block with
  | error e =>
    rw [done] at found
    cases found
  | ok l =>
    rw [done] at found
    rw [Option.some.inj found]

theorem commit_block : commit block = .ok committed := by
  have found : (commit block).toOption = some committed := (Option.some_get _).symm
  cases done : commit block with
  | error e =>
    rw [done] at found
    cases found
  | ok r =>
    rw [done] at found
    rw [Option.some.inj found]

theorem no_collision : Set.InjOn Merkle.dhash (hashed block fetch) := by
  have distinct : ((Merkle.payloads (shards.map leafBytes)).map Merkle.dhash).Nodup := by
    decide +kernel
  have within : ∀ chunk ∈ committed.2, ∀ p ∈ Merkle.proofPayloads (leafBytes chunk.shard) chunk.proof,
      p ∈ Merkle.payloads (shards.map leafBytes) := by
    decide +kernel
  have all (p : Bytes) (member : p ∈ hashed block fetch) : p ∈ Merkle.payloads (shards.map leafBytes) := by
    rcases member with ⟨found,coded,listed⟩ | ⟨i,chunk,got,listed⟩
    · rw [split_block] at coded
      cases coded
      exact listed
    · exact within chunk (List.mem_of_getElem? got) p listed
  intro p left q right same
  exact List.inj_on_of_nodup_map distinct (all p left) (all q right) same

/-- All three samples are served, and they are shards of the block. -/
theorem served_block_available :
    failClosed (sample committed.1 fetch) = .available ∧
    ∃ shards, split block = .ok shards ∧ (sample committed.1 fetch).queried.Nodup ∧
      (sample committed.1 fetch).required ≤ (sample committed.1 fetch).queried.length ∧
      ∀ i ∈ (sample committed.1 fetch).queried, ∃ chunk, fetch i = some chunk ∧
        chunk.shard.index = i ∧ shards[i.toNat]? = some chunk.shard := by
  have available : failClosed (sample committed.1 fetch) = .available := by decide +kernel
  exact ⟨available,sampling_sound block committed.1 committed.2 fetch commit_block no_collision available⟩

end Sample
end Da
end L1
