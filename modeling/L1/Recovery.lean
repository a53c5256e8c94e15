import L1.DataAvailability
import L1.StoredFormats
import Mathlib.Data.List.Forall2

/-! Recovery of erasure-coded data. The data is framed with its length, padded and cut into shards; what
the code gives back from enough of them is the frame. -/
namespace L1

/-! Lists cut into pieces of one size. -/
namespace Pieces

variable {α : Type}

def pieces (size : Nat) : Nat → List α → List (List α)
  | 0, _ => []
  | k + 1, l => l.take size :: pieces size k (l.drop size)

theorem pieces_eq_map (size k : Nat) (l : List α) :
    pieces size k l = (List.range k).map fun i => (l.drop (i * size)).take size := by
  induction k generalizing l with
  | zero => rfl
  | succ k ih =>
    rw [pieces,ih,List.range_succ_eq_map,List.map_cons,List.map_map,Nat.zero_mul,List.drop_zero]
    congr 2
    funext i
    rw [Function.comp,List.drop_drop,Nat.succ_mul,Nat.add_comm]

theorem flatten_pieces {size k : Nat} {l : List α} (whole : l.length = k * size) :
    (pieces size k l).flatten = l := by
  induction k generalizing l with
  | zero =>
    rw [Nat.zero_mul] at whole
    rw [List.length_eq_zero_iff.mp whole]
    rfl
  | succ k ih =>
    rw [Nat.succ_mul] at whole
    rw [pieces,List.flatten_cons,ih (by rw [List.length_drop]; omega),List.take_append_drop]

theorem pieces_flatten {size : Nat} {ps : List (List α)} (even : ∀ p ∈ ps, p.length = size) :
    pieces size ps.length ps.flatten = ps := by
  induction ps with
  | nil => rfl
  | cons p rest ih =>
    obtain ⟨first,others⟩ := List.forall_mem_cons.mp even
    rw [List.length_cons,pieces,List.flatten_cons,List.take_left' first,List.drop_left' first,ih others]

theorem length_pieces (size k : Nat) (l : List α) : (pieces size k l).length = k := by
  rw [pieces_eq_map,List.length_map,List.length_range]

theorem length_of_mem_pieces {size k : Nat} {l p : List α} (whole : l.length = k * size)
    (member : p ∈ pieces size k l) : p.length = size := by
  induction k generalizing l with
  | zero => cases member
  | succ k ih =>
    rw [Nat.succ_mul] at whole
    rcases List.mem_cons.mp member with rfl | later
    · rw [List.length_take]
      omega
    · exact ih (by rw [List.length_drop]; omega) later

end Pieces

namespace Da

/-- The other half of the library crate: it fills the missing shards. -/
class Reconstruction where
  fill (k m : Nat) (slots : List (Option Bytes)) : Except RsError (List (Option Bytes))

section Decoding

variable [Reconstruction]

/-- The data in the first `k` shards, behind its length. -/
def rsDecode (slots : List (Option Bytes)) (k m : Nat) : Except RsError Bytes :=
  if k = 0 ∨ m = 0 then .error .params
  else match Reconstruction.fill k m slots with
    | .error e => .error e
    | .ok working => match (working.take k).mapM id with
      | none => .error .reconstruct
      | some present =>
        let buf := present.flatten
        if buf.length < 8 then .error .reconstruct
        else
          let len := BigEndian.decode (buf.take 8)
          let rest := buf.drop 8
          if rest.length < len then .error .reconstruct else .ok (rest.take len)

def reconstruct (slots : List (Option Bytes)) : Except ChunkError Block :=
  if slots.length ≠ dataShards + parityShards then .error (.width (dataShards + parityShards) slots.length)
  else match rsDecode slots dataShards parityShards with
    | .error e => .error (.rs e)
    | .ok bytes => match Codec.decodeBlockBody bytes with
      | .error _ => .error .badBody
      | .ok block => .ok block

end Decoding

def Erased (m : Nat) (shards : List Bytes) (slots : List (Option Bytes)) : Prop :=
  List.Forall₂ (fun shard slot => slot = none ∨ slot = some shard) shards slots ∧ slots.count none ≤ m

/-- What is assumed of the library for some sizes: shards of one length are coded, and the codeword is
filled in again while at most `m` shards are missing. -/
structure Recovers [ErasureCode] [Reconstruction] (k m : Nat) : Prop where
  codes : ∀ (shards : List Bytes) (size : Nat), 0 < size → shards.length = k →
    (∀ shard ∈ shards, shard.length = size) → ∃ parity, ErasureCode.parity k m shards = .ok parity
  fills : ∀ (shards : List Bytes) (size : Nat) (parity : Vector Bytes m) (slots : List (Option Bytes)),
    0 < size → shards.length = k → (∀ shard ∈ shards, shard.length = size) →
    ErasureCode.parity k m shards = .ok parity → Erased m (shards ++ parity.toList) slots →
    Reconstruction.fill k m slots = .ok ((shards ++ parity.toList).map some)

/-! The frame. -/

def frame (data : Bytes) (k : Nat) : Bytes :=
  BigEndian.encode 8 data.length ++ data ++ List.replicate (padLen data.length k - 8 - data.length) 0

variable {k m : Nat}

theorem padLen_spec (n : Nat) (positive : 0 < k) : 8 + n ≤ padLen n k ∧ padLen n k % k = 0 := by
  unfold padLen
  dsimp only
  split
  · rename_i whole
    exact ⟨le_rfl,whole⟩
  · have rest := Nat.mod_lt (8 + n) positive
    have split := Nat.div_add_mod (8 + n) k
    refine ⟨by omega,?_⟩
    have next : 8 + n + (k - (8 + n) % k) = k * ((8 + n) / k + 1) := by
      rw [Nat.mul_add,Nat.mul_one]
      omega
    rw [next,Nat.mul_mod_right]

theorem length_frame (data : Bytes) (positive : 0 < k) :
    (frame data k).length = k * (padLen data.length k / k) := by
  obtain ⟨long,whole⟩ := padLen_spec data.length positive
  rw [Nat.mul_div_cancel' (Nat.dvd_of_mod_eq_zero whole),frame]
  simp only [List.length_append,BigEndian.length_encode,List.length_replicate]
  omega

theorem shardLen_pos (data : Bytes) (positive : 0 < k) : 0 < padLen data.length k / k := by
  obtain ⟨long,whole⟩ := padLen_spec data.length positive
  exact Nat.div_pos (Nat.le_of_dvd (by omega) (Nat.dvd_of_mod_eq_zero whole)) positive

def shards (data : Bytes) (k : Nat) : List Bytes :=
  Pieces.pieces (padLen data.length k / k) k (frame data k)

theorem length_of_mem_shards {data : Bytes} (positive : 0 < k) {shard : Bytes}
    (member : shard ∈ shards data k) : shard.length = padLen data.length k / k :=
  Pieces.length_of_mem_pieces (length_frame data positive) member

theorem rsEncode_eq [ErasureCode] (data : Bytes) (some_ : 0 < k) (spare : 0 < m) :
    rsEncode data k m = (ErasureCode.parity k m (shards data k)).map fun parity =>
      shards data k ++ parity.toList := by
  have cut : ((List.range k).map fun i => slice (frame data k) (i * (padLen data.length k / k))
      ((i + 1) * (padLen data.length k / k))) = shards data k := by
    rw [shards,Pieces.pieces_eq_map]
    congr 1
    funext i
    rw [slice,Nat.succ_mul,Nat.add_sub_cancel_left]
  rw [rsEncode,if_neg (by omega)]
  dsimp only
  rw [← frame,cut]
  cases ErasureCode.parity k m (shards data k) <;> rfl

/-- What stands behind the length is the data, if the length fits. -/
theorem frame_read (data : Bytes) (k : Nat) (fits : data.length < 2^64) :
    8 ≤ (frame data k).length ∧ BigEndian.decode ((frame data k).take 8) = data.length ∧
      ∃ padding, (frame data k).drop 8 = data ++ padding := by
  have head : (BigEndian.encode 8 data.length).length = 8 := BigEndian.length_encode ..
  refine ⟨?_,?_,List.replicate (padLen data.length k - 8 - data.length) 0,?_⟩
  · rw [frame]
    simp only [List.length_append,head]
    omega
  · rw [frame,List.append_assoc,List.take_left' head]
    exact BigEndian.decode_encode_of_lt 8 _ fits
  · rw [frame,List.append_assoc,List.drop_left' head]

theorem mapM_some {α : Type} (l : List α) : (l.map some).mapM id = some l := by
  induction l with
  | nil => rfl
  | cons x l ih => simp [ih]

theorem Erased.all (m : Nat) (codeword : List Bytes) : Erased m codeword (codeword.map some) := by
  refine ⟨?_,?_⟩
  · rw [List.forall₂_map_right_iff]
    exact List.forall₂_same.mpr fun _ _ => .inr rfl
  · rw [List.count_eq_zero_of_not_mem (by simp)]
    exact Nat.zero_le m

theorem Erased.length {codeword : List Bytes} {slots : List (Option Bytes)}
    (erased : Erased m codeword slots) : slots.length = codeword.length := erased.1.length_eq.symm

section Recovery

variable [ErasureCode] [Reconstruction] {k m : Nat}

theorem rsEncode_ok (some_ : 0 < k) (spare : 0 < m) (library : Recovers k m) (data : Bytes) :
    ∃ parity, ErasureCode.parity k m (shards data k) = .ok parity ∧
      rsEncode data k m = .ok (shards data k ++ parity.toList) := by
  obtain ⟨parity,coded⟩ := library.codes (shards data k) _ (shardLen_pos data some_)
    (Pieces.length_pieces ..) fun shard member => length_of_mem_shards some_ member
  exact ⟨parity,coded,by rw [rsEncode_eq data some_ spare,coded]; rfl⟩

variable {slots : List (Option Bytes)} {block : Block}

/-- Whatever shards are missing, up to `m` of them, the data is found again. -/
theorem rsDecode_ok (some_ : 0 < k) (spare : 0 < m) (library : Recovers k m) {data : Bytes}
    (fits : data.length < 2^64) {parity : Vector Bytes m}
    (coded : ErasureCode.parity k m (shards data k) = .ok parity)
    (erased : Erased m (shards data k ++ parity.toList) slots) : rsDecode slots k m = .ok data := by
  have filled := library.fills (shards data k) _ parity slots (shardLen_pos data some_)
    (Pieces.length_pieces ..) (fun shard member => length_of_mem_shards some_ member) coded erased
  have first : ((shards data k ++ parity.toList).map some).take k = (shards data k).map some := by
    rw [List.map_append]
    exact List.take_left' (by rw [List.length_map]; exact Pieces.length_pieces ..)
  have whole : (shards data k).flatten = frame data k := Pieces.flatten_pieces (length_frame data some_)
  obtain ⟨long,length,padding,behind⟩ := frame_read data k fits
  rw [rsDecode,if_neg (by omega),filled]
  dsimp only
  rw [first,mapM_some]
  dsimp only
  rw [whole,if_neg (by omega),length,behind,if_neg (by simp),List.take_left' rfl]

omit [ErasureCode] in
theorem reconstruct_ok_iff {bytes : Bytes}
    (size : slots.length = 6) (read : rsDecode slots dataShards parityShards = .ok bytes) :
    reconstruct slots = .ok block ↔ Codec.decodeBlockBody bytes = .ok block := by
  have width : ¬ slots.length ≠ dataShards + parityShards := not_not.mpr size
  rw [reconstruct,if_neg width,read]
  dsimp only
  cases Codec.decodeBlockBody bytes <;> simp

omit [ErasureCode] in
theorem reconstruct_fits
    (done : reconstruct slots = .ok block) : (Codec.bodyPayload block).length < 2^32 := by
  unfold reconstruct at done
  split at done
  · cases done
  split at done
  · cases done
  split at done
  · cases done
  rename_i decoded
  cases done
  exact (Codec.exact_body.sound _ _ decoded).1

theorem split_eq (library : Recovers dataShards parityShards) (block : Block) :
    ∃ parity, ErasureCode.parity dataShards parityShards
        (shards (Codec.encodeBlockBody block) dataShards) = .ok parity ∧
      ∃ chunks, split block = .ok chunks ∧ chunks.map DaShard.payload =
        shards (Codec.encodeBlockBody block) dataShards ++ parity.toList := by
  obtain ⟨parity,coded,done⟩ := rsEncode_ok (by decide) (by decide) library (Codec.encodeBlockBody block)
  refine ⟨parity,coded,_,by rw [split,done],?_⟩
  rw [numbered,List.map_map]
  exact List.zipIdx_map_fst ..

/-- Data is recovered from any `k` of its shards, and a block exactly if its body can be read back. -/
theorem recovery (library : ∀ k m, 0 < k → 0 < m → k + m ≤ 256 → Recovers k m) :
    (∀ (data : Bytes) (k m : Nat), data.length < 2^64 → 0 < k → 0 < m → k + m ≤ 256 →
      ∃ codeword, rsEncode data k m = .ok codeword ∧ codeword.length = k + m ∧
        ∀ slots, Erased m codeword slots → rsDecode slots k m = .ok data) ∧
    ∀ block, (∃ chunks, split block = .ok chunks ∧
      ∀ slots, Erased parityShards (chunks.map DaShard.payload) slots → reconstruct slots = .ok block) ↔
        (Codec.bodyPayload block).length < 2^32 := by
  refine ⟨fun data k m fits some_ spare field => ?_,fun block => ⟨?_,fun fits => ?_⟩⟩
  · have recovers := library k m some_ spare field
    obtain ⟨parity,coded,done⟩ := rsEncode_ok some_ spare recovers data
    exact ⟨_,done,length_rsEncode done,fun slots erased =>
      rsDecode_ok some_ spare recovers fits coded erased⟩
  · rintro ⟨chunks,-,every⟩
    exact reconstruct_fits (every _ (Erased.all parityShards _))
  · have recovers := library dataShards parityShards (by decide) (by decide) (by decide)
    obtain ⟨parity,coded,chunks,done,carried⟩ := split_eq recovers block
    refine ⟨chunks,done,fun slots erased => ?_⟩
    rw [carried] at erased
    have body : (Codec.encodeBlockBody block).length < 2^64 := by
      rw [Codec.encodeBlockBody,Encoding.length_encode]
      omega
    have size : slots.length = 6 := by
      rw [erased.length,← carried,List.length_map]
      exact length_split done
    rw [reconstruct_ok_iff size (rsDecode_ok (by decide) (by decide) recovers body coded erased)]
    exact Codec.decodeBlockBody_encodeBlockBody block fits

end Recovery

/-! A code with copies of all data in place of the parity shards. -/
namespace Copies

@[reducible] def erasureCode : ErasureCode where
  parity _ m shards := .ok (Vector.replicate m shards.flatten)

def data (k : Nat) (slots : List (Option Bytes)) : List Bytes :=
  match (slots.drop k).findSome? id with
  | some whole => Pieces.pieces (whole.length / k) k whole
  | none => (slots.take k).reduceOption

@[reducible] def reconstruction : Reconstruction where
  fill k m slots := .ok ((data k slots ++ List.replicate m (data k slots).flatten).map some)

attribute [local instance] erasureCode reconstruction

theorem forall₂_mem_right {α β : Type} {R : α → β → Prop} {l : List α} {r : List β}
    (related : List.Forall₂ R l r) {y : β} (member : y ∈ r) : ∃ x ∈ l, R x y := by
  induction related with
  | nil => cases member
  | cons here _ ih =>
    rcases List.mem_cons.mp member with rfl | later
    · exact ⟨_,List.mem_cons_self,here⟩
    · obtain ⟨x,listed,held⟩ := ih later
      exact ⟨x,List.mem_cons_of_mem _ listed,held⟩

variable {shards : List Bytes} {slots : List (Option Bytes)}

theorem reduceOption_full
    (related : List.Forall₂ (fun shard slot => slot = none ∨ slot = some shard) shards slots)
    (full : none ∉ slots) : slots.reduceOption = shards := by
  induction related with
  | nil => rfl
  | cons here _ ih =>
    obtain ⟨present,others⟩ := not_or.mp fun either => full (List.mem_cons.mpr either)
    rcases here with rfl | rfl
    · exact absurd rfl present
    · rw [List.reduceOption_cons_of_some,ih others]

theorem data_erased {k m size : Nat}
    (positive : 0 < k) (count : shards.length = k) (even : ∀ shard ∈ shards, shard.length = size)
    (erased : Erased m (shards ++ List.replicate m shards.flatten) slots) : data k slots = shards := by
  obtain ⟨related,few⟩ := erased
  have front := List.forall₂_take k related
  have back := List.forall₂_drop k related
  rw [List.take_left' count] at front
  rw [List.drop_left' count] at back
  unfold data
  split
  · rename_i whole found
    obtain ⟨slot,member,same⟩ := List.exists_of_findSome?_eq_some found
    obtain ⟨copy,listed,held⟩ := forall₂_mem_right back member
    obtain rfl : copy = shards.flatten := List.eq_of_mem_replicate listed
    obtain rfl : whole = shards.flatten := by
      rcases held with rfl | rfl
      · cases same
      · exact (Option.some.inj same).symm
    have length : shards.flatten.length = k * size := by
      rw [List.length_flatten,List.map_congr_left even,List.map_const',List.sum_replicate,count,smul_eq_mul]
    rw [length,Nat.mul_div_cancel_left _ positive,← count]
    exact Pieces.pieces_flatten even
  · rename_i absent
    refine reduceOption_full front fun missing => ?_
    -- all copies are missing, so that nothing else is
    have copies : (slots.drop k).count none = m := by
      rw [List.count_eq_length.mpr fun slot member => (List.findSome?_eq_none_iff.mp absent slot member).symm,
        ← back.length_eq,List.length_replicate]
    have one := List.count_pos_iff.mpr missing
    have all : slots.count none = (slots.take k).count none + (slots.drop k).count none := by
      rw [← List.count_append,List.take_append_drop]
    omega

theorem recovers (k m : Nat) (positive : 0 < k) : Recovers k m where
  codes _ _ _ _ _ := ⟨_,rfl⟩
  fills shards size parity slots _ count even coded erased := by
    obtain rfl : Vector.replicate m shards.flatten = parity := Except.ok.inj coded
    rw [Vector.toList_replicate] at erased ⊢
    exact congrArg (fun l => Except.ok ((l ++ List.replicate m l.flatten).map some))
      (data_erased positive count even erased)

def block : Block := ⟨⟨0,0,Vector.replicate 48 1,0⟩,[]⟩

/-- An empty block comes back from any four of its chunks. -/
theorem empty_block_recovered : (∀ k m, 0 < k → 0 < m → k + m ≤ 256 → Recovers k m) ∧
    ∃ chunks, split block = .ok chunks ∧ ∀ slots,
      Erased parityShards (chunks.map DaShard.payload) slots → reconstruct slots = .ok block :=
  ⟨fun k m positive _ _ => recovers k m positive,
    ((recovery fun k m positive _ _ => recovers k m positive).2 block).mpr (by decide +kernel)⟩

def deployment (code : Bytes) : SignedTx :=
  ⟨⟨1,0,0,0,.deploy ⟨code⟩⟩,Vector.replicate 64 0,Vector.replicate 32 0⟩

theorem length_deployment (code : Bytes) :
    (Codec.signedTxPayload (deployment code)).length = 150 + code.length := by
  simp [Codec.signedTxPayload,deployment,chunk,Tx.encode,Encoding.encode,Tx.payloadBytes,
    Tx.variantBytes]
  omega

theorem lt_length_bodyPayload (fields : HeaderFields) (tx : SignedTx) :
    (Codec.signedTxPayload tx).length < (Codec.bodyPayload ⟨fields,[tx]⟩).length := by
  simp [Codec.bodyPayload,chunk,Codec.encodeSignedTx]
  omega

theorem wide_not_recovered {tx : SignedTx} (long : (Codec.signedTxPayload tx).length + 1 = 2^32) :
    Codec.decodeSignedTx (Codec.encodeSignedTx tx) = .ok tx ∧
    (∃ chunks, split ⟨block.headerFields,[tx]⟩ = .ok chunks) ∧
      ∀ slots, reconstruct slots ≠ .ok ⟨block.headerFields,[tx]⟩ := by
  refine ⟨Codec.decodeSignedTx_encodeSignedTx tx (by omega),?_,fun slots done => ?_⟩
  · obtain ⟨-,-,chunks,done,-⟩ := split_eq (recovers _ _ (by decide)) ⟨block.headerFields,[tx]⟩
    exact ⟨chunks,done⟩
  · have fits := reconstruct_fits done
    have wider := lt_length_bodyPayload block.headerFields tx
    omega

/-- A block of 4 GiB is split, and no chunks give it back. -/
theorem wide_block_lost : (∀ k m, 0 < k → 0 < m → k + m ≤ 256 → Recovers k m) ∧ ∃ tx,
    Codec.decodeSignedTx (Codec.encodeSignedTx tx) = .ok tx ∧
    (∃ chunks, split ⟨block.headerFields,[tx]⟩ = .ok chunks) ∧
      ∀ slots, reconstruct slots ≠ .ok ⟨block.headerFields,[tx]⟩ := by
  refine ⟨fun k m positive _ _ => recovers k m positive,
    deployment (List.replicate (2^32 - 151) 0),wide_not_recovered ?_⟩
  rw [length_deployment,List.length_replicate]
  decide

end Copies

end Da
end L1
