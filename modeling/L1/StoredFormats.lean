import L1.Codec
import L1.Formats

/-! The formats of transactions, block bodies and headers are exact: every reader accepts what its
writer gives, and no other bytes. -/
namespace L1

namespace Tx

section Variant

variable {raw : Bytes}

theorem transfer_written (size : raw.length = 89) :
    (fixed 32 (slice raw 41 73)).toList ++ toBeBytes 16 (fromBeBytes 128 (slice raw 73 89) : Amount) =
      raw.drop 41 := by
  rw [← slice_drop raw 41 size]
  simp (disch := omega) only [fixed_slice,toBeBytes_slice,slice_append_slice]

theorem stake_written (size : raw.length = 105) :
    (fixed 48 (slice raw 41 89)).toList ++ toBeBytes 16 (fromBeBytes 128 (slice raw 89 105) : Amount) =
      raw.drop 41 := by
  rw [← slice_drop raw 41 size]
  simp (disch := omega) only [fixed_slice,toBeBytes_slice,slice_append_slice]

theorem withdraw_written (size : raw.length = 57) :
    toBeBytes 16 (fromBeBytes 128 (slice raw 41 57) : Amount) = raw.drop 41 := by
  rw [← slice_drop raw 41 size]
  exact toBeBytes_slice (by omega) rfl (by decide)

theorem deploy_written (size : raw.length = 45 + BigEndian.decode (slice raw 41 45)) :
    BigEndian.encode 4 (raw.drop 45).length ++ raw.drop 45 = raw.drop 41 := by
  have length : (raw.drop 45).length = BigEndian.decode (slice raw 41 45) := by
    rw [List.length_drop,size,Nat.add_sub_cancel_left]
  rw [length,← slice_drop raw 45 rfl,← slice_drop raw 41 rfl]
  simp (disch := omega) only [encode_decode_slice,slice_append_slice]

theorem call_written (size : raw.length = 77 + BigEndian.decode (slice raw 73 77)) :
    (fixed 32 (slice raw 41 73)).toList ++ (BigEndian.encode 4 (raw.drop 77).length ++ raw.drop 77) =
      raw.drop 41 := by
  have length : (raw.drop 77).length = BigEndian.decode (slice raw 73 77) := by
    rw [List.length_drop,size,Nat.add_sub_cancel_left]
  rw [length,← slice_drop raw 77 rfl,← slice_drop raw 41 rfl]
  simp (disch := omega) only [encode_decode_slice,fixed_slice,slice_append_slice]

theorem variantBytes_of_decode {tag : UInt8} {payload : TxPayload}
    (read : decodeVariant tag raw = .ok payload) : variantBytes payload = tag :: raw.drop 41 := by
  have staked (kind : StakeKind) (other : kind ≠ .withdraw) (same : tag = kind.tag)
      (read : (if raw.length ≠ 41 + 48 + 16 then .error (.badLength 105 raw.length)
        else .ok (stakeWith kind other (fixed 48 (slice raw 41 89))
          (fromBeBytes 128 (slice raw 89 105)))) = (.ok payload : Except TypesError TxPayload)) :
      variantBytes payload = tag :: raw.drop 41 := by
    split at read
    · cases read
    rename_i size
    cases read
    rw [same,← stake_written (not_not.mp size)]
    rfl
  unfold decodeVariant at read
  dsimp only at read
  by_cases zero : tag = 0
  · rw [if_pos zero] at read
    split at read
    · cases read
    rename_i size
    cases read
    rw [zero,← transfer_written (not_not.mp size)]
    rfl
  rw [if_neg zero] at read
  by_cases one : tag = 1
  · rw [if_pos one] at read
    exact staked .bond StakeKind.bond_ne one read
  rw [if_neg one] at read
  by_cases two : tag = 2
  · rw [if_pos two] at read
    exact staked .unbond StakeKind.unbond_ne two read
  rw [if_neg two] at read
  by_cases three : tag = 3
  · rw [if_pos three] at read
    exact staked .delegate StakeKind.delegate_ne three read
  rw [if_neg three] at read
  by_cases four : tag = 4
  · rw [if_pos four] at read
    exact staked .undelegate StakeKind.undelegate_ne four read
  rw [if_neg four] at read
  by_cases five : tag = 5
  · rw [if_pos five] at read
    split at read
    · cases read
    rename_i size
    cases read
    rw [five,← withdraw_written (not_not.mp size)]
    rfl
  rw [if_neg five] at read
  by_cases six : tag = 6
  · rw [if_pos six] at read
    split at read
    · cases read
    split at read
    · cases read
    rename_i size
    cases read
    rw [six,← deploy_written (not_not.mp size)]
    rfl
  rw [if_neg six] at read
  by_cases seven : tag = 7
  · rw [if_pos seven] at read
    split at read
    · cases read
    split at read
    · cases read
    rename_i size
    cases read
    rw [seven,← call_written (not_not.mp size)]
    rfl
  · rw [if_neg seven] at read
    cases read

end Variant

theorem head_written {raw : Bytes} {payload : TxPayload} (long : 40 ≤ raw.length) :
    head ⟨fromBeBytes 64 (slice raw 0 8),fromBeBytes 64 (slice raw 8 16),fromBeBytes 64 (slice raw 16 24),
      fromBeBytes 128 (slice raw 24 40),payload⟩ = slice raw 0 40 := by
  simp (disch := omega) only [head,toBeBytes_slice,slice_append_slice]

theorem exact_tx : Exact encode decode fun tx => tx.payloadBytes.length < 2^32 where
  complete := decode_encode
  sound bytes tx read := by
    unfold decode at read
    split at read
    · cases read
    rename_i raw opened
    obtain ⟨fits,rfl⟩ := (Encoding.decode_ok_iff _ _).mp opened
    split at read
    · cases read
    rename_i long
    split at read
    · cases read
    rename_i payload variant
    cases read
    have written : payloadBytes ⟨fromBeBytes 64 (slice raw 0 8),fromBeBytes 64 (slice raw 8 16),
        fromBeBytes 64 (slice raw 16 24),fromBeBytes 128 (slice raw 24 40),payload⟩ = raw := by
      rw [payloadBytes_eq,head_written (by omega),variantBytes_of_decode variant,
        ← drop_getD (by omega),slice]
      exact List.take_append_drop 40 raw
    exact ⟨written.symm ▸ fits,congrArg Encoding.encode written.symm⟩

end Tx

namespace Codec

theorem fields_written {p : Bytes} (long : 68 ≤ p.length) : encodeFields (fieldsAt p) = slice p 0 68 := by
  simp (disch := omega) only [encodeFields,fieldsAt,toBeBytes_slice,fixed_slice,slice_append_slice]

theorem exact_header : Exact Header.hashPreimage headerFromPreimage fun _ => True where
  complete h _ := headerFromPreimage_hashPreimage h
  sound p h read := by
    unfold headerFromPreimage at read
    split at read
    · cases read
    rename_i size
    have size : p.length = 228 := not_not.mp size
    cases read
    refine ⟨trivial,?_⟩
    rw [hashPreimage_eq]
    simp (disch := omega) only [fields_written,fixed_slice,slice_append_slice,slice_zero]

theorem exact_signedTx :
    Exact encodeSignedTx decodeSignedTx fun s => (signedTxPayload s).length < 2^32 where
  complete := decodeSignedTx_encodeSignedTx
  sound bytes s read := by
    unfold decodeSignedTx at read
    split at read
    · cases read
    rename_i p opened
    obtain ⟨fits,rfl⟩ := (Encoding.decode_ok_iff _ _).mp opened
    split at read
    · cases read
    rename_i long
    dsimp only at read
    split at read
    · cases read
    rename_i size
    have size := not_not.mp size
    split at read
    · cases read
    rename_i tx inner
    cases read
    generalize count : BigEndian.decode (slice p 0 4) = tlen at size inner ⊢
    have body := (Tx.exact_tx.sound _ _ inner).2
    have head : BigEndian.encode 4 (slice p 4 (4 + tlen)).length = slice p 0 4 := by
      rw [length_slice (by omega),Nat.add_sub_cancel_left,← count]
      exact encode_decode_slice (by omega) rfl
    have written : signedTxPayload ⟨tx,fixed 64 (slice p (4 + tlen) (4 + tlen + 64)),
        fixed 32 (slice p (4 + tlen + 64) (4 + tlen + 64 + 32))⟩ = p := by
      simp (disch := omega) only [signedTxPayload,← body,chunk,head,fixed_slice,slice_append_slice,
        slice_zero]
    exact ⟨written.symm ▸ fits,congrArg Encoding.encode written.symm⟩

/-- The transactions that were read, in their chunks, and the rest make up the bytes. -/
theorem txs_written {n : Nat} {bytes rest : Bytes} {txs : List SignedTx}
    (read : decodeTxs n bytes = .ok (txs,rest)) :
    txs.length = n ∧ bytes = (txs.flatMap fun tx => chunk (encodeSignedTx tx)) ++ rest := by
  induction n generalizing bytes txs with
  | zero =>
    cases read
    exact ⟨rfl,rfl⟩
  | succ n ih =>
    unfold decodeTxs at read
    split at read
    · cases read
    rename_i found after taken
    split at read
    · cases read
    rename_i tx one
    split at read
    · cases read
    rename_i more rest' others
    cases read
    obtain ⟨-,rfl⟩ := takeChunk_eq_some taken
    obtain ⟨-,rfl⟩ := exact_signedTx.sound _ _ one
    obtain ⟨count,rfl⟩ := ih others
    refine ⟨by rw [List.length_cons,count],?_⟩
    rw [List.flatMap_cons,List.append_assoc]

theorem exact_body :
    Exact encodeBlockBody decodeBlockBody fun block => (bodyPayload block).length < 2^32 where
  complete := decodeBlockBody_encodeBlockBody
  sound bytes block read := by
    unfold decodeBlockBody at read
    split at read
    · cases read
    rename_i p opened
    obtain ⟨fits,rfl⟩ := (Encoding.decode_ok_iff _ _).mp opened
    split at read
    · cases read
    rename_i long
    split at read
    · cases read
    rename_i txs rest listed
    split at read
    · cases read
    rename_i empty
    obtain rfl := not_not.mp empty
    cases read
    obtain ⟨count,behind⟩ := txs_written listed
    have written : bodyPayload ⟨fieldsAt p,txs⟩ = p := by
      rw [List.append_nil] at behind
      rw [bodyPayload,fields_written (by omega),count,← behind,encode_decode_slice (by omega) rfl,
        ← slice_drop p 72 rfl]
      simp (disch := omega) only [slice_append_slice,slice_zero]
    exact ⟨written.symm ▸ fits,congrArg Encoding.encode written.symm⟩

/-- The formats of what is signed, hashed and stored are exact; in particular no two byte strings
stand for one transaction or one block. -/
theorem stored_formats_exact :
    (Exact Tx.encode Tx.decode fun tx => tx.payloadBytes.length < 2^32) ∧
    (Exact encodeSignedTx decodeSignedTx fun s => (signedTxPayload s).length < 2^32) ∧
    (Exact encodeBlockBody decodeBlockBody fun block => (bodyPayload block).length < 2^32) ∧
    (Exact Header.hashPreimage headerFromPreimage fun _ => True) ∧
    (∀ a b tx, Tx.decode a = .ok tx → Tx.decode b = .ok tx → a = b) ∧
    (∀ a b block, decodeBlockBody a = .ok block → decodeBlockBody b = .ok block → a = b) :=
  ⟨Tx.exact_tx,exact_signedTx,exact_body,exact_header,fun _ _ _ => Tx.exact_tx.unique,
    fun _ _ _ => exact_body.unique⟩

end Codec
end L1
