import Mathlib.Algebra.Order.Ring.Nat
import Mathlib.Tactic.Ring

/-! Fixed-width big-endian integers over bytes. Encoding keeps the low bytes of
its argument, which is how a narrowing cast followed by a byte dump behaves. -/
namespace L1.BigEndian

/-- The low `width` bytes of `n`, most significant first. -/
def encode : Nat → Nat → List UInt8
  | 0, _ => []
  | width + 1, n => UInt8.ofNat (n / 256 ^ width) :: encode width n

def decode : List UInt8 → Nat
  | [] => 0
  | b :: rest => b.toNat * 256 ^ rest.length + decode rest

@[simp] theorem length_encode (width n : Nat) : (encode width n).length = width := by
  induction width with
  | zero => rfl
  | succ width ih => simp [encode,ih]

theorem decode_lt (bytes : List UInt8) : decode bytes < 256 ^ bytes.length := by
  induction bytes with
  | nil => simp [decode]
  | cons b rest ih =>
    have high : b.toNat < 256 := b.toNat_lt
    calc decode (b :: rest) < b.toNat * 256 ^ rest.length + 256 ^ rest.length := by
          simp only [decode]; omega
      _ = (b.toNat + 1) * 256 ^ rest.length := by ring
      _ ≤ 256 * 256 ^ rest.length := Nat.mul_le_mul_right _ high
      _ = 256 ^ (b :: rest).length := by rw [List.length_cons, pow_succ]; ring

theorem decode_encode (width n : Nat) : decode (encode width n) = n % 256 ^ width := by
  induction width with
  | zero => simp [encode,decode,Nat.mod_one]
  | succ width ih =>
    rw [encode, decode, ih, length_encode, pow_succ, Nat.mod_mul]
    simp only [UInt8.toNat_ofNat']
    rw [Nat.add_comm, Nat.mul_comm]

theorem decode_encode_of_lt (width n : Nat) (bound : n < 256 ^ width) :
    decode (encode width n) = n := by
  rw [decode_encode, Nat.mod_eq_of_lt bound]

theorem encode_add_mul (width k n : Nat) : encode width (k * 256 ^ width + n) = encode width n := by
  induction width generalizing k with
  | zero => rfl
  | succ width ih =>
    have split : k * 256 ^ (width + 1) + n = (k * 256) * 256 ^ width + n := by ring
    rw [encode, encode, split, ih (k * 256)]
    congr 1
    apply UInt8.toNat_inj.mp
    rw [UInt8.toNat_ofNat', UInt8.toNat_ofNat', Nat.mul_comm (k * 256),
      Nat.mul_add_div (Nat.pow_pos (by decide))]
    omega

theorem encode_decode (bytes : List UInt8) : encode bytes.length (decode bytes) = bytes := by
  induction bytes with
  | nil => rfl
  | cons b rest ih =>
    have high : (b.toNat * 256 ^ rest.length + decode rest) / 256 ^ rest.length = b.toNat := by
      rw [Nat.mul_comm, Nat.mul_add_div (Nat.pow_pos (by decide)),
        Nat.div_eq_of_lt (decode_lt rest), Nat.add_zero]
    simp only [List.length_cons, encode, decode, high, encode_add_mul, ih]
    simp

theorem encode_injective {width m n : Nat} (hm : m < 256 ^ width) (hn : n < 256 ^ width)
    (same : encode width m = encode width n) : m = n := by
  rw [← decode_encode_of_lt width m hm, ← decode_encode_of_lt width n hn, same]

end L1.BigEndian
