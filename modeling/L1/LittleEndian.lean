import L1.BigEndian

/-! Little-endian integers are big-endian ones read from the other end. -/
namespace L1.LittleEndian

/-- The low `width` bytes of `n`, least significant first. -/
def encode (width n : Nat) : List UInt8 := (BigEndian.encode width n).reverse

def decode (bytes : List UInt8) : Nat := BigEndian.decode bytes.reverse

@[simp] theorem length_encode (width n : Nat) : (encode width n).length = width := by
  simp [encode]

theorem decode_lt (bytes : List UInt8) : decode bytes < 256 ^ bytes.length := by
  simpa [decode] using BigEndian.decode_lt bytes.reverse

theorem decode_encode (width n : Nat) (bound : n < 256 ^ width) : decode (encode width n) = n := by
  rw [decode,encode,List.reverse_reverse,BigEndian.decode_encode_of_lt width n bound]

theorem encode_decode (bytes : List UInt8) : encode bytes.length (decode bytes) = bytes := by
  have back := BigEndian.encode_decode bytes.reverse
  rw [List.length_reverse] at back
  rw [encode,decode,back,List.reverse_reverse]

theorem encode_add (high low n : Nat) :
    BigEndian.encode (high + low) n = BigEndian.encode high (n / 256 ^ low) ++ BigEndian.encode low n := by
  induction high with
  | zero => simp [BigEndian.encode]
  | succ high ih =>
    rw [Nat.succ_add,BigEndian.encode,BigEndian.encode,ih,List.cons_append,Nat.div_div_eq_div_mul,← pow_add,
      Nat.add_comm low]

theorem take_encode (low high n : Nat) : (encode (high + low) n).take low = encode low n := by
  rw [encode,encode_add,List.reverse_append]
  exact List.take_left' (by simp)

theorem decode_zeros (bytes : List UInt8) (count : Nat) :
    decode (bytes ++ List.replicate count 0) = decode bytes := by
  rw [decode,decode,List.reverse_append,List.reverse_replicate]
  induction count with
  | zero => rfl
  | succ count ih => rw [List.replicate_succ,List.cons_append,BigEndian.decode,ih]; simp

end L1.LittleEndian
