import L1.Header
import L1.Slices

/-! The byte formats of the store: keys, headers, signed transactions and block bodies. -/
namespace L1

/-! The variant of a payload stands behind 40 bytes of head. -/
namespace Tx

section Variant

variable {head : Bytes} (length : head.length = 40)

include length

theorem decode_transfer (addr : Address) (amount : Amount) :
    decodeVariant 0 (head ++ 0 :: (addr.toList ++ toBeBytes 16 amount)) =
      .ok (.transfer ⟨addr,amount⟩) := by
  simp [decodeVariant,length,fromBeBytes_toBeBytes]

/-- The four staking kinds with a validator have one layout. -/
theorem decode_stakeWith (kind : StakeKind) (other : kind ≠ .withdraw) (id : ValidatorId)
    (amount : Amount) :
    decodeVariant kind.tag (head ++ kind.tag :: (id.toList ++ toBeBytes 16 amount)) =
      .ok (stakeWith kind other id amount) := by
  cases kind with
  | withdraw => exact absurd rfl other
  | _ => simp [decodeVariant,StakeKind.tag,length,fromBeBytes_toBeBytes]

theorem decode_withdraw (amount : Amount) : decodeVariant 5 (head ++ 5 :: toBeBytes 16 amount) =
      .ok (.stake ⟨.withdraw,none,amount,by simp⟩) := by
  simp [decodeVariant,length,fromBeBytes_toBeBytes]

theorem decode_deploy (code : Bytes) (fits : code.length < 2^32) :
    decodeVariant 6 (head ++ 6 :: (BigEndian.encode 4 code.length ++ code)) =
      .ok (.deploy ⟨code⟩) := by
  have whole : 40 + (4 + code.length + 1) = 45 + code.length := by omega
  simp [decodeVariant,length,BigEndian.decode_encode_of_lt 4 code.length (by omega),whole]

theorem decode_call (addr : Address) (data : Bytes) (fits : data.length < 2^32) :
    decodeVariant 7 (head ++ 7 :: (addr.toList ++ (BigEndian.encode 4 data.length ++ data))) =
      .ok (.call ⟨addr,data⟩) := by
  have whole : 40 + (32 + (4 + data.length) + 1) = 77 + data.length := by omega
  simp [decodeVariant,length,BigEndian.decode_encode_of_lt 4 data.length (by omega),whole]

end Variant

def head (tx : Tx) : Bytes :=
  toBeBytes 8 tx.chainId ++ (toBeBytes 8 tx.nonce ++ (toBeBytes 8 tx.gasLimit ++ toBeBytes 16 tx.maxFee))

@[simp] theorem length_head (tx : Tx) : tx.head.length = 40 := by simp [head]

theorem payloadBytes_eq (tx : Tx) : tx.payloadBytes = tx.head ++ variantBytes tx.payload := by
  simp only [payloadBytes,head,List.append_assoc]

theorem decodeVariant_variantBytes {head : Bytes} (length : head.length = 40) (payload : TxPayload)
    (fits : (variantBytes payload).length < 2^32) :
    decodeVariant ((head ++ variantBytes payload).getD 40 0) (head ++ variantBytes payload) =
      .ok payload := by
  have first (tag : UInt8) (body : Bytes) : (head ++ tag :: body).getD 40 0 = tag := by
    simp [List.getD_eq_getElem?_getD,length]
  cases payload with
  | transfer t =>
    rw [variantBytes,first]
    exact decode_transfer length t.toAddr t.amount
  | stake s =>
    obtain ⟨kind,validator,amount,target⟩ := s
    rw [variantBytes,first]
    cases validator with
    | none =>
      obtain rfl := target.mp rfl
      exact decode_withdraw length amount
    | some id =>
      have other : kind ≠ .withdraw := fun same => by cases target.mpr same
      exact decode_stakeWith length kind other id amount
  | deploy d =>
    rw [variantBytes,first]
    exact decode_deploy length d.code (by simp [variantBytes] at fits; omega)
  | call c =>
    rw [variantBytes,first]
    exact decode_call length c.toAddr c.data (by simp [variantBytes] at fits; omega)

theorem decode_of_raw {buf raw : Bytes} {payload : TxPayload} (decoded : Encoding.decode buf = .ok raw)
    (long : ¬ raw.length < 8 + 8 + 8 + 16 + 1)
    (variant : decodeVariant (raw.getD 40 0) raw = .ok payload) :
    decode buf = .ok ⟨fromBeBytes 64 (slice raw 0 8),fromBeBytes 64 (slice raw 8 16),
      fromBeBytes 64 (slice raw 16 24),fromBeBytes 128 (slice raw 24 40),payload⟩ := by
  simp only [decode,decoded,if_neg long,variant]

theorem decode_encode (tx : Tx) (fits : tx.payloadBytes.length < 2^32) :
    decode tx.encode = .ok tx := by
  have long : ¬ tx.payloadBytes.length < 8 + 8 + 8 + 16 + 1 := by
    have tagged : 0 < (variantBytes tx.payload).length := by cases tx.payload <;> simp [variantBytes]
    rw [payloadBytes_eq,List.length_append,length_head]
    omega
  have variant : decodeVariant (tx.payloadBytes.getD 40 0) tx.payloadBytes = .ok tx.payload := by
    rw [payloadBytes_eq] at fits ⊢
    exact decodeVariant_variantBytes tx.length_head tx.payload (by simp at fits; omega)
  rw [encode,decode_of_raw (Encoding.decode_encode _ fits) long variant]
  simp [payloadBytes,fromBeBytes_toBeBytes]

end Tx

/-! Headers, signed transactions and bodies as they are stored. -/
namespace Codec

def headerPreimageLen : Nat := 8 + 4 + 48 + 8 + 32 * 5

def fieldsAt (p : Bytes) : HeaderFields where
  height := fromBeBytes 64 (slice p 0 8)
  round := fromBeBytes 32 (slice p 8 12)
  proposer := fixed 48 (slice p 12 60)
  timestampMs := fromBeBytes 64 (slice p 60 68)

def headerFromPreimage (p : Bytes) : Except TypesError Header :=
  if p.length ≠ headerPreimageLen then .error (.badLength headerPreimageLen p.length)
  else .ok {
    fields := fieldsAt p
    txRoot := fixed 32 (slice p 68 100)
    stateRoot := fixed 32 (slice p 100 132)
    receiptsRoot := fixed 32 (slice p 132 164)
    validatorsHash := fixed 32 (slice p 164 196)
    daRoot := fixed 32 (slice p 196 228) }

def signedTxPayload (s : SignedTx) : Bytes :=
  chunk s.tx.encode ++ (s.signature.toList ++ s.publicKey.toList)

def encodeSignedTx (s : SignedTx) : Bytes := Encoding.encode (signedTxPayload s)

def decodeSignedTx (buf : Bytes) : Except TypesError SignedTx :=
  match Encoding.decode buf with
  | .error e => .error e
  | .ok p =>
    if p.length < 4 + 64 + 32 then .error (.badLength 100 p.length)
    else
      let tlen := BigEndian.decode (slice p 0 4)
      let need := 4 + tlen + 64 + 32
      if p.length ≠ need then .error (.badLength need p.length)
      else match Tx.decode (slice p 4 (4 + tlen)) with
        | .error e => .error e
        | .ok tx => .ok {
            tx
            signature := fixed 64 (slice p (4 + tlen) (4 + tlen + 64))
            publicKey := fixed 32 (slice p (4 + tlen + 64) need) }

def encodeFields (f : HeaderFields) : Bytes :=
  toBeBytes 8 f.height ++ (toBeBytes 4 f.round ++ (f.proposer.toList ++ toBeBytes 8 f.timestampMs))

def bodyPayload (block : Block) : Bytes :=
  encodeFields block.headerFields ++ (BigEndian.encode 4 block.txs.length ++
    block.txs.flatMap fun tx => chunk (encodeSignedTx tx))

def encodeBlockBody (block : Block) : Bytes := Encoding.encode (bodyPayload block)

/-- The next transactions of a body, and the bytes behind them. -/
def decodeTxs : Nat → Bytes → Except TypesError (List SignedTx × Bytes)
  | 0, rest => .ok ([],rest)
  | n + 1, rest => match takeChunk rest with
    | none => .error .codecTruncated
    | some (bytes,rest) => match decodeSignedTx bytes with
      | .error e => .error e
      | .ok tx => match decodeTxs n rest with
        | .error e => .error e
        | .ok (txs,rest) => .ok (tx :: txs,rest)

def decodeBlockBody (buf : Bytes) : Except TypesError Block :=
  match Encoding.decode buf with
  | .error e => .error e
  | .ok p =>
    if p.length < 8 + 4 + 48 + 8 + 4 then .error (.badLength 72 p.length)
    else match decodeTxs (BigEndian.decode (slice p 68 72)) (p.drop 72) with
      | .error e => .error e
      | .ok (txs,rest) =>
        if rest ≠ [] then .error (.codecLength (p.length - rest.length) p.length)
        else .ok { headerFields := fieldsAt p, txs }

@[simp] theorem length_encodeFields (f : HeaderFields) : (encodeFields f).length = 68 := by
  simp [encodeFields]

theorem fieldsAt_encodeFields (f : HeaderFields) (rest : Bytes) :
    fieldsAt (encodeFields f ++ rest) = f := by
  simp [fieldsAt,encodeFields,fromBeBytes_toBeBytes]

theorem hashPreimage_eq (h : Header) : h.hashPreimage = encodeFields h.fields ++ (h.txRoot.toList ++
    (h.stateRoot.toList ++ (h.receiptsRoot.toList ++ (h.validatorsHash.toList ++ h.daRoot.toList)))) := by
  simp only [Header.hashPreimage,encodeFields,List.append_assoc]

theorem headerFromPreimage_hashPreimage (h : Header) : headerFromPreimage h.hashPreimage = .ok h := by
  have size : h.hashPreimage.length = headerPreimageLen := h.length_hashPreimage
  rw [headerFromPreimage,if_neg (not_not.mpr size),hashPreimage_eq,fieldsAt_encodeFields]
  simp

theorem decodeSignedTx_of_payload {buf t : Bytes} {tx : Tx} {signature : Vector UInt8 64}
    {publicKey : Vector UInt8 32}
    (decoded : Encoding.decode buf = .ok (chunk t ++ (signature.toList ++ publicKey.toList)))
    (fits : t.length < 2^32) (body : Tx.decode t = .ok tx) :
    decodeSignedTx buf = .ok ⟨tx,signature,publicKey⟩ := by
  have size : (chunk t ++ (signature.toList ++ publicKey.toList)).length =
      4 + t.length + 64 + 32 := by
    simp
    omega
  have long : ¬ 4 + t.length + 64 + 32 < 4 + 64 + 32 := by omega
  simp only [decodeSignedTx,decoded,size,if_neg long]
  simp [chunk,body,BigEndian.decode_encode_of_lt 4 t.length (by omega),Nat.add_assoc]

theorem decodeSignedTx_encodeSignedTx (s : SignedTx) (fits : (signedTxPayload s).length < 2^32) :
    decodeSignedTx (encodeSignedTx s) = .ok s := by
  have size : s.tx.encode.length < 2^32 := by
    simp [signedTxPayload] at fits
    omega
  have inner : s.tx.payloadBytes.length < 2^32 := by
    rw [Tx.encode,Encoding.length_encode] at size
    omega
  exact decodeSignedTx_of_payload (Encoding.decode_encode _ fits) size (Tx.decode_encode s.tx inner)

theorem decodeTxs_succ {n : Nat} {bytes found rest rest' : Bytes} {tx : SignedTx}
    {txs : List SignedTx} (read : takeChunk bytes = some (found,rest))
    (one : decodeSignedTx found = .ok tx) (others : decodeTxs n rest = .ok (txs,rest')) :
    decodeTxs (n + 1) bytes = .ok (tx :: txs,rest') := by
  simp only [decodeTxs,read,one,others]

theorem decodeTxs_flatMap (txs : List SignedTx) (rest : Bytes)
    (fits : ∀ tx ∈ txs, (encodeSignedTx tx).length < 2^32) :
    decodeTxs txs.length ((txs.flatMap fun tx => chunk (encodeSignedTx tx)) ++ rest) =
      .ok (txs,rest) := by
  induction txs with
  | nil => rfl
  | cons tx txs ih =>
    have here := fits tx (List.mem_cons_self ..)
    have inner : (signedTxPayload tx).length < 2^32 := by
      rw [encodeSignedTx,Encoding.length_encode] at here
      omega
    have later := ih fun other listed => fits other (List.mem_cons_of_mem _ listed)
    rw [List.flatMap_cons,List.append_assoc,List.length_cons]
    exact decodeTxs_succ (takeChunk_chunk _ _ here) (decodeSignedTx_encodeSignedTx tx inner) later

theorem length_le_flatMap {α : Type} (f : α → Bytes) {l : List α} {a : α} (listed : a ∈ l) :
    (f a).length ≤ (l.flatMap f).length := by
  obtain ⟨before,after,rfl⟩ := List.append_of_mem listed
  simp
  omega

theorem count_le_flatMap {α : Type} (f : α → Bytes) (filled : ∀ a, 0 < (f a).length) (l : List α) :
    l.length ≤ (l.flatMap f).length := by
  induction l with
  | nil => simp
  | cons a rest ih =>
    have one := filled a
    rw [List.flatMap_cons,List.length_append,List.length_cons]
    omega

theorem decodeBlockBody_of_payload {buf : Bytes} {block : Block}
    (decoded : Encoding.decode buf = .ok (bodyPayload block))
    (fits : (bodyPayload block).length < 2^32) : decodeBlockBody buf = .ok block := by
  have part : (block.txs.flatMap fun tx => chunk (encodeSignedTx tx)).length < 2^32 := by
    rw [bodyPayload,List.length_append,List.length_append] at fits
    omega
  have each : ∀ tx ∈ block.txs, (encodeSignedTx tx).length < 2^32 := by
    intro tx listed
    have one := length_le_flatMap (fun tx => chunk (encodeSignedTx tx)) listed
    rw [length_chunk] at one
    omega
  have many : block.txs.length < 2^32 :=
    Nat.lt_of_le_of_lt (count_le_flatMap _ (fun tx => by simp) block.txs) part
  have count : slice (bodyPayload block) 68 72 = BigEndian.encode 4 block.txs.length := by
    simp [bodyPayload]
  have behind : (bodyPayload block).drop 72 = block.txs.flatMap fun tx => chunk (encodeSignedTx tx) := by
    simp [bodyPayload]
  have listed := decodeTxs_flatMap block.txs [] each
  rw [List.append_nil] at listed
  have long : ¬ (bodyPayload block).length < 8 + 4 + 48 + 8 + 4 := by
    simp [bodyPayload]
    omega
  have fields : fieldsAt (bodyPayload block) = block.headerFields :=
    fieldsAt_encodeFields block.headerFields _
  simp only [decodeBlockBody,decoded,if_neg long,count,
    BigEndian.decode_encode_of_lt 4 block.txs.length (by omega),behind,listed,ne_eq,not_true_eq_false,
    if_false,fields]

/-- A payload that does not fit cannot be read. -/
theorem decode_encode_wide {payload : Bytes} (wide : ¬ payload.length < 2^32) :
    ∃ e, Encoding.decode (Encoding.encode payload) = .error e := by
  cases decoded : Encoding.decode (Encoding.encode payload) with
  | error e => exact ⟨e,rfl⟩
  | ok p =>
    obtain ⟨fits,same⟩ := (Encoding.decode_ok_iff _ _).mp decoded
    exact absurd (Encoding.encode_injective same ▸ fits) wide

theorem decodeBlockBody_error {buf : Bytes} {e : TypesError} (failed : Encoding.decode buf = .error e) :
    decodeBlockBody buf = .error e := by
  simp only [decodeBlockBody,failed]

theorem decodeBlockBody_encodeBlockBody (block : Block) (fits : (bodyPayload block).length < 2^32) :
    decodeBlockBody (encodeBlockBody block) = .ok block :=
  decodeBlockBody_of_payload (Encoding.decode_encode _ fits) fits

/-- A body that does not fit is refused, whatever it holds. -/
theorem decodeBlockBody_wide {block : Block} (wide : ¬ (bodyPayload block).length < 2^32) :
    ∃ e, decodeBlockBody (encodeBlockBody block) = .error e := by
  obtain ⟨e,failed⟩ := decode_encode_wide wide
  exact ⟨e,decodeBlockBody_error failed⟩

end Codec
end L1
