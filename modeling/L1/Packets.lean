import L1.LightClient

/-! Packets committed to another chain: a proof that is accepted at an index shows the packet
committed at that index, whoever made the proof. -/
namespace L1.Light

open L1.Mpt

section Commitment

variable [Blake3]

/-- Write the packets under their indices. `none` is a panic. -/
def putPackets : Trie → Nat → List Bytes → Option Trie
  | trie, _, [] => some trie
  | trie, i, packet :: rest => match trie.put (packetKey (BitVec.ofNat 32 i)) packet with
    | (none,_) => none
    | (some (),trie) => putPackets trie (i + 1) rest

/-- Commit to packets after verifying the certificate of the header. `none` is a stop. -/
def commitment [Bls] (header : Header) (qc : QuorumCertificate) (validators : ValidatorSet)
    (packets : List Bytes) : Option (Except LightError (IbcCommitment × Trie)) :=
  match verifyQc header qc validators with
  | none => none
  | some (.error e) => some (.error e)
  | some (.ok ()) =>
    let merkleRoot := Merkle.computeRoot packets
    match putPackets .new 0 packets with
    | none => none
    | some trie => some (.ok (⟨header.hash,header.fields.height,merkleRoot,trie.root⟩,trie))

end Commitment

def packetOps : Nat → List Bytes → List Op
  | _, [] => []
  | i, packet :: rest => .put (packetKey (BitVec.ofNat 32 i)) packet :: packetOps (i + 1) rest

theorem packetKey_injective {i j : U32} (same : packetKey i = packetKey j) : i = j :=
  toBeBytes_injective 4 (by decide) (List.append_cancel_left same)

theorem length_packetKey (i : U32) : (packetKey i).length = 12 := by
  simp [packetKey,ascii]

theorem packetOps_fit (packets : List Bytes) (short : ∀ packet ∈ packets,packet.length < 2^32)
    (i : Nat) : ∀ op ∈ packetOps i packets,op.Fits := by
  induction packets generalizing i with
  | nil => simp [packetOps]
  | cons packet rest ih =>
    rw [packetOps,List.forall_mem_cons]
    refine ⟨⟨?_,short packet (by simp)⟩,ih (fun p member => short p (by simp [member])) (i + 1)⟩
    rw [length_packetKey]
    decide

/-- The packets before an index leave its key alone, and so do those behind it. -/
theorem mapAfter_packetOps (m : Bytes → Option Bytes) (packets : List Bytes) (i : Nat) (index : U32)
    (few : i + packets.length ≤ 2^32) : mapAfter m (packetOps i packets) (packetKey index) =
      if i ≤ index.toNat ∧ index.toNat < i + packets.length then packets[index.toNat - i]?
      else m (packetKey index) := by
  induction packets generalizing i m with
  | nil =>
    rw [packetOps,mapAfter,if_neg]
    simp only [List.length_nil]
    omega
  | cons packet rest ih =>
    simp only [List.length_cons] at few ⊢
    rw [packetOps,mapAfter,ih _ (i + 1) (by omega)]
    by_cases here : index.toNat = i
    · have key : BitVec.ofNat 32 i = index := by rw [← here,BitVec.ofNat_toNat,BitVec.setWidth_eq]
      rw [if_neg (by omega),if_pos (by omega),key,Function.update_self,here,Nat.sub_self]
      rfl
    · have apart : packetKey index ≠ packetKey (BitVec.ofNat 32 i) := by
        intro same
        have value := congrArg BitVec.toNat (packetKey_injective same)
        rw [BitVec.toNat_ofNat,Nat.mod_eq_of_lt (by omega)] at value
        exact here value
      rw [Function.update_of_ne apart]
      by_cases later : i < index.toNat
      · have position : index.toNat - i = index.toNat - (i + 1) + 1 := by omega
        simp only [show i + 1 ≤ index.toNat by omega,show i ≤ index.toNat by omega,true_and,
          position,List.getElem?_cons_succ,show i + 1 + rest.length = i + (rest.length + 1) by omega]
      · rw [if_neg (by omega),if_neg (by omega)]

theorem mapAfter_packets (packets : List Bytes) (few : packets.length < 2^32) (index : U32) :
    mapAfter emptyMap (packetOps 0 packets) (packetKey index) = packets[index.toNat]? := by
  rw [mapAfter_packetOps emptyMap packets 0 index (by omega),Nat.sub_zero]
  split
  · rfl
  · rw [List.getElem?_eq_none (by omega)]

variable [Blake3]

theorem putPackets_eq (trie : Trie) (i : Nat) (packets : List Bytes) : putPackets trie i packets =
      ((run trie (packetOps i packets)).1.map fun _ => (run trie (packetOps i packets)).2) := by
  induction packets generalizing trie i with
  | nil => rfl
  | cons packet rest ih =>
    rw [putPackets,packetOps,run,Trie.apply]
    split
    · rename_i stop
      rw [stop]
      rfl
    · rename_i next
      rw [next]
      exact ih _ (i + 1)

variable [Bls] {header : Header} {qc : QuorumCertificate} {validators : ValidatorSet}
  {packets : List Bytes} {commit : IbcCommitment} {trie : Trie}

theorem commitment_ok (committed : commitment header qc validators packets = some (.ok (commit,trie))) :
    commit.mptRoot = trie.root ∧ (run .new (packetOps 0 packets)).2 = trie := by
  unfold commitment at committed
  split at committed
  · cases committed
  · cases committed
  dsimp only at committed
  split at committed
  · cases committed
  rename_i written
  rw [putPackets_eq] at written
  obtain ⟨_,-,same⟩ := Option.map_eq_some_iff.mp written
  cases committed
  exact ⟨rfl,same⟩

omit [Bls] in
theorem verifyPacket_ok_iff {index : U32} {proof : MptProof} {expected : Bytes} :
    verifyPacket commit index proof expected = some (.ok ()) ↔
      Mpt.verify (packetKey index) proof commit.mptRoot = true ∧ proof.value = some expected := by
  rw [verifyPacket_eq]
  split
  · simp [*]
  · simp [*]

/-- Packets below `2^32` bytes: an accepted packet is the committed one, and each committed packet
has a proof. The hash may not collide on the payloads of the trie and of the proof offered. -/
theorem packet_proofs_exact (packets : List Bytes) (few : packets.length < 2^32)
    (short : ∀ packet ∈ packets,packet.length < 2^32)
    (committed : commitment header qc validators packets = some (.ok (commit,trie)))
    (safe : NoCollision trie.nodes) :
    (∀ index proof expected, NoCollision (trie.nodes ++ proofTable proof.nodes) →
      verifyPacket commit index proof expected = some (.ok ()) →
      packets[index.toNat]? = some expected) ∧
    ∀ index expected, packets[index.toNat]? = some expected →
      ∃ proof, prove trie (packetKey index) = some proof ∧
        verifyPacket commit index proof expected = some (.ok ()) := by
  obtain ⟨root,reached⟩ := commitment_ok committed
  have kept : NoCollision (run .new (packetOps 0 packets)).2.nodes := reached ▸ safe
  obtain ⟨-,tree,commits⟩ := commits_new.run (packetOps 0 packets) (packetOps_fit packets short 0) kept
  rw [reached] at commits
  constructor
  · intro index proof expected apart accepted
    obtain ⟨verified,value⟩ := verifyPacket_ok_iff.mp accepted
    rw [root] at verified
    rw [← mapAfter_packets packets few,← verify_sound commits _ proof apart verified,value]
  · intro index expected listed
    obtain ⟨proof,proved,verified,value⟩ := prove_complete commits safe (packetKey index)
    rw [mapAfter_packets packets few,listed] at value
    exact ⟨proof,proved,verifyPacket_ok_iff.mpr ⟨root ▸ verified,value⟩⟩

end L1.Light

namespace L1.Light.Sample

open L1.Mpt

attribute [local instance] LoneSigner.bls Mpt.lengthHash

def anchored : QuorumCertificate :=
  { LoneSigner.certificate 1 with block := .block LoneSigner.header.hash }

def single (packet : Bytes) : Trie :=
  ⟨tableOf [.leaf (bytesToNibbles (packetKey 0)) packet,.empty],
    hashNode (.leaf (bytesToNibbles (packetKey 0)) packet)⟩

def payload (packet : Bytes) : Bytes := serializeNode (.leaf (bytesToNibbles (packetKey 0)) packet)

def singleCommitment (packet : Bytes) : IbcCommitment :=
  ⟨LoneSigner.header.hash,0,Merkle.computeRoot [packet],(single packet).root⟩

theorem commitment_single (packet : Bytes) :
    commitment LoneSigner.header anchored LoneSigner.alone [packet] =
      some (.ok (singleCommitment packet,single packet)) := by
  have verified : verifyQc LoneSigner.header anchored LoneSigner.alone = some (.ok ()) := by
    decide +kernel
  have written : putPackets .new 0 [packet] = some (single packet) := by
    simp only [putPackets]
    rw [put_new]
    rfl
  simp only [commitment,verified,written]
  rfl

/-- Leaf and empty node differ in length. -/
theorem noCollision_single (packet : Bytes) (bound : packet.length ≤ 2^32) :
    NoCollision (single packet).nodes := by
  have size := length_serialize_leaf (bytesToNibbles (packetKey 0)) packet
  rw [length_bytesToNibbles,length_packetKey] at size
  have one : (serializeNode .empty).length = 1 := rfl
  apply noCollision_lengthHash
  · simp only [List.mem_cons,List.not_mem_nil,or_false]
    rintro a (rfl | rfl) <;> omega
  · simp only [List.mem_cons,List.not_mem_nil,or_false]
    rintro a (rfl | rfl) b (rfl | rfl) same
    · rfl
    · omega
    · omega
    · rfl

theorem single_packet_proved :
    (∀ index proof expected, NoCollision ((single [7]).nodes ++ proofTable proof.nodes) →
      verifyPacket (singleCommitment [7]) index proof expected = some (.ok ()) →
      [[7]][index.toNat]? = some expected) ∧
    ∀ index expected, [[7]][index.toNat]? = some expected →
      ∃ proof, prove (single [7]) (packetKey index) = some proof ∧
        verifyPacket (singleCommitment [7]) index proof expected = some (.ok ()) :=
  packet_proofs_exact [[7]] (by decide) (by decide) (commitment_single [7])
    (noCollision_single [7] (by decide))

theorem root_single (packet : Bytes) : hashEncoded (payload packet) = (single packet).root := rfl

theorem read_wrapped {packet : Bytes} (wraps : packet.length = 2^32) :
    deserializeNode (payload packet) = some (.leaf (bytesToNibbles (packetKey 0)) []) := by
  apply deserialize_wrapped_value _ packet _ wraps
  rw [length_bytesToNibbles,length_packetKey]
  decide

theorem lookup_single {packet : Bytes} (safe : NoCollision (single packet).nodes) :
    (single packet).nodes.lookup (single packet).root = some (payload packet) :=
  lookup_of_mem _ safe ((single packet).root,payload packet) (List.mem_cons_self ..)

/-- The payload in the proof is the one in the trie. -/
theorem noCollision_offered {packet : Bytes} (safe : NoCollision (single packet).nodes) :
    NoCollision ((single packet).nodes ++ proofTable [payload packet]) := by
  have within : ∀ r ∈ (single packet).nodes ++ proofTable [payload packet],
      r ∈ (single packet).nodes := by
    intro r member
    rcases List.mem_append.mp member with stored | offered
    · exact stored
    · rw [List.mem_singleton.mp offered]
      exact List.mem_cons_self ..
  intro p left q right
  exact safe p (within p left) q (within q right)

/-- The trie's own proof of a packet of `2^32` bytes shows the empty packet. -/
theorem proof_of_wrapped_packet (packet : Bytes) (wraps : packet.length = 2^32) :
    ∃ proof, prove (single packet) (packetKey 0) = some proof ∧
      NoCollision ((single packet).nodes ++ proofTable proof.nodes) ∧
      verifyPacket (singleCommitment packet) 0 proof [] = some (.ok ()) := by
  have safe := noCollision_single packet (Nat.le_of_eq wraps)
  have read := read_wrapped wraps
  obtain ⟨chain,bound,linked⟩ := bindChain_verify (payload packet) []
  refine ⟨⟨[payload packet],some [],chain,Merkle.computeRoot [payload packet]⟩,?_,
    noCollision_offered safe,?_⟩
  · simp only [prove]
    rw [collect_leaf (lookup_single safe) read,if_pos rfl]
    simp only [bound,Option.map_some]
  · rw [verifyPacket_ok_iff]
    refine ⟨?_,rfl⟩
    have rooted : hashEncoded (payload packet) = (singleCommitment packet).mptRoot :=
      root_single packet
    simp only [Mpt.verify,rooted,linked,ne_eq,not_true_eq_false,if_false,Bool.true_eq_false]
    rw [walkVerify_leaf read]
    simp

/-- A packet of `2^32` bytes is committed with length zero: the empty packet is accepted in its
place. -/
theorem wrapped_packet_forged :
    ∃ packet commit trie proof,
      commitment LoneSigner.header anchored LoneSigner.alone [packet] = some (.ok (commit,trie)) ∧
      NoCollision (trie.nodes ++ proofTable proof.nodes) ∧
      prove trie (packetKey 0) = some proof ∧
      verifyPacket commit 0 proof [] = some (.ok ()) ∧ [packet][0]? ≠ some [] := by
  have long : (List.replicate (2^32) (0 : UInt8)).length = 2^32 := List.length_replicate
  obtain ⟨proof,proved,apart,accepted⟩ := proof_of_wrapped_packet _ long
  refine ⟨_,_,_,proof,commitment_single _,apart,proved,accepted,?_⟩
  intro empty
  have lengths := congrArg List.length (Option.some.inj empty)
  rw [long] at lengths
  cases lengths

end L1.Light.Sample
