import L1.BigEndian
import Mathlib.Tactic.Common

/-! Byte strings, the canonical codec and the hash domains. BLAKE3 is a parameter:
nothing below depends on which function it is. -/
namespace L1

abbrev Bytes := List UInt8

abbrev Hash := Vector UInt8 32

/-- The BLAKE3-256 wrapper of the crypto crate. -/
class Blake3 where
  hashToArray : Bytes → Hash

export Blake3 (hashToArray)

inductive TypesError where
  | codecTruncated
  | codecVersion (version : UInt8)
  | codecLength (expected actual : Nat)
  | badLength (expected actual : Nat)
  | kv (reason : String)
  deriving DecidableEq, Repr

def ascii (text : String) : Bytes := text.toList.map fun c => UInt8.ofNat c.toNat

/-- `bytes[start..stop]`. -/
def slice (bytes : Bytes) (start stop : Nat) : Bytes := (bytes.drop start).take (stop - start)

/-- A fixed-size array filled from a slice. -/
def fixed (n : Nat) (bytes : Bytes) : Vector UInt8 n := Vector.ofFn fun i => bytes.getD i 0

@[simp] theorem fixed_toList (v : Vector UInt8 n) : fixed n v.toList = v := by
  ext i bound
  simp [fixed]

theorem toList_fixed (bytes : Bytes) (length : bytes.length = n) : (fixed n bytes).toList = bytes := by
  apply List.ext_getElem <;> simp [fixed,length]

theorem toList_injective {v w : Vector UInt8 n} (same : v.toList = w.toList) : v = w := by
  rw [← fixed_toList v,← fixed_toList w,same]

namespace Encoding

def codecVersion : UInt8 := 1

/-- `version || u32_be(len) || payload`, with a saturated length. -/
def encode (payload : Bytes) : Bytes :=
  codecVersion :: (BigEndian.encode 4 (min payload.length (2^32 - 1)) ++ payload)

/-- Rejects wrong version, truncated buffers, and trailing bytes. -/
def decode (buf : Bytes) : Except TypesError Bytes :=
  if buf.length < 5 then .error .codecTruncated
  else if buf.getD 0 0 ≠ codecVersion then .error (.codecVersion (buf.getD 0 0))
  else
    let len := BigEndian.decode ((buf.drop 1).take 4)
    let rest := buf.drop 5
    if rest.length ≠ len then .error (.codecLength len rest.length) else .ok rest

@[simp] theorem length_encode (payload : Bytes) : (encode payload).length = payload.length + 5 := by
  simp [encode]; omega

theorem drop_encode (payload : Bytes) : (encode payload).drop 5 = payload := by
  simp [encode]

theorem encode_injective {p q : Bytes} (same : encode p = encode q) : p = q := by
  rw [← drop_encode p,← drop_encode q,same]

theorem decode_encode (payload : Bytes) (fits : payload.length < 2^32) :
    decode (encode payload) = .ok payload := by
  have len : BigEndian.decode (((encode payload).drop 1).take 4) = payload.length := by
    have least : min payload.length (2^32 - 1) = payload.length := by omega
    simp only [encode,least,List.drop_succ_cons,List.drop_zero]
    rw [List.take_left' (by simp),BigEndian.decode_encode_of_lt 4 _ (by omega)]
  have long : ¬ (encode payload).length < 5 := by simp
  have version : (encode payload).getD 0 0 = codecVersion := rfl
  simp only [decode,if_neg long,version,ne_eq,not_true_eq_false,if_false,drop_encode,len]

/-- What the codec accepts is exactly what it writes for a payload that fits. -/
theorem decode_ok_iff (buf payload : Bytes) :
    decode buf = .ok payload ↔ payload.length < 2^32 ∧ buf = encode payload := by
  constructor
  · intro accepted
    unfold decode at accepted
    split at accepted
    · cases accepted
    split at accepted
    · cases accepted
    rename_i long version
    simp only [ne_eq,not_not] at version
    dsimp only at accepted
    split at accepted
    · cases accepted
    rename_i length
    simp only [ne_eq,not_not] at length
    obtain rfl : buf.drop 5 = payload := by simpa using accepted
    have bound := BigEndian.decode_lt ((buf.drop 1).take 4)
    have four : ((buf.drop 1).take 4).length = 4 := by simp; omega
    rw [four] at bound
    refine ⟨by omega,?_⟩
    match buf,long,version,length,four with
    | v :: rest,long,version,length,four =>
      simp only [List.getD_cons_zero] at version
      simp only [List.drop_succ_cons,List.drop_zero] at length bound four ⊢
      have least : min (rest.drop 4).length (2^32 - 1) = BigEndian.decode (rest.take 4) := by omega
      have header := BigEndian.encode_decode (rest.take 4)
      rw [four] at header
      rw [encode,least,header,List.take_append_drop,version]
  · rintro ⟨fits,rfl⟩
    exact decode_encode payload fits

end Encoding

inductive DomainTag where
  | tx | header | vote | vrf | mptNode | merkle
  deriving DecidableEq, Repr

namespace DomainTag

def label : DomainTag → Bytes
  | tx => ascii "tx"
  | header => ascii "header"
  | vote => ascii "vote"
  | vrf => ascii "vrf"
  | mptNode => ascii "mpt-node"
  | merkle => ascii "merkle"

/-- `L1/{label}\0{msg}`. -/
def apply (tag : DomainTag) (msg : Bytes) : Bytes := ascii "L1/" ++ tag.label ++ 0 :: msg

/-- Labels are closed by a zero byte, so no two domains overlap. -/
theorem apply_injective {s t : DomainTag} {p q : Bytes} (same : s.apply p = t.apply q) :
    s = t ∧ p = q := by
  cases s <;> cases t <;> simp [apply,label,ascii] at same ⊢ <;> exact same

end DomainTag
end L1
