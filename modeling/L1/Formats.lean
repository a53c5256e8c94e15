import L1.Slices
import L1.MachineInt

/-! Byte formats that are exact: what fits is read back, and nothing else is accepted. A reader that
takes the fields of a byte string at their offsets is exact if the fields follow each other up to the
end. -/
namespace L1

/-- Values that fit are read back, and what is accepted was written for a value that fits. -/
structure Exact {α ε : Type} (encode : α → Bytes) (decode : Bytes → Except ε α) (fits : α → Prop) :
    Prop where
  complete : ∀ v, fits v → decode (encode v) = .ok v
  sound : ∀ bytes v, decode bytes = .ok v → fits v ∧ bytes = encode v

theorem Exact.unique {α ε : Type} {encode : α → Bytes} {decode : Bytes → Except ε α} {fits : α → Prop}
    (exact_ : Exact encode decode fits) {a b : Bytes} {v : α} (one : decode a = .ok v)
    (other : decode b = .ok v) : a = b := by
  rw [(exact_.sound a v one).2,(exact_.sound b v other).2]

/-! Fields of a byte string. -/

variable {i j n : Nat} {p : Bytes}

theorem length_slice (within : j ≤ p.length) : (slice p i j).length = j - i := by
  simp only [slice,List.length_take,List.length_drop]
  omega

theorem slice_append_slice (p : Bytes) {k : Nat} (first : i ≤ j) (second : j ≤ k) :
    slice p i j ++ slice p j k = slice p i k := by
  have start : p.drop j = (p.drop i).drop (j - i) := by
    rw [List.drop_drop,Nat.add_sub_cancel' first]
  have span : k - i = (j - i) + (k - j) := by omega
  rw [slice,slice,slice,start,span,List.take_add]

theorem slice_middle {a b : Bytes} (rest : Bytes) (before : a.length = i)
    (span : i + b.length = j) : slice (a ++ (b ++ rest)) i j = b := by
  subst before span
  simp

theorem slice_drop (p : Bytes) (i : Nat) (whole : p.length = n) : slice p i n = p.drop i := by
  rw [slice,← whole,← List.length_drop,List.take_length]

theorem slice_zero (p : Bytes) (whole : p.length = n) : slice p 0 n = p := by
  rw [slice_drop p 0 whole,List.drop_zero]

theorem toBeBytes_slice {w : Nat} (within : j ≤ p.length) (span : j - i = n)
    (narrow : 256^n ≤ 2^w) : toBeBytes n (fromBeBytes w (slice p i j)) = slice p i j := by
  have length := (length_slice within).trans span
  have back := toBeBytes_fromBeBytes (slice p i j) (length.symm ▸ narrow)
  rwa [length] at back

theorem fixed_slice (within : j ≤ p.length) (span : j - i = n) :
    (fixed n (slice p i j)).toList = slice p i j :=
  toList_fixed _ ((length_slice within).trans span)

theorem drop_getD (inside : i < p.length) : p.drop i = p.getD i 0 :: p.drop (i + 1) := by
  rw [List.drop_eq_getElem_cons inside,List.getD_eq_getElem?_getD,List.getElem?_eq_getElem inside,
    Option.getD_some]

/-- A length read from four bytes is written as these bytes. -/
theorem encode_decode_slice (within : j ≤ p.length) (span : j - i = 4) :
    BigEndian.encode 4 (BigEndian.decode (slice p i j)) = slice p i j := by
  have length := (length_slice within).trans span
  have back := BigEndian.encode_decode (slice p i j)
  rwa [length] at back

theorem decode_slice_lt (within : j ≤ p.length) (span : j - i = 4) :
    BigEndian.decode (slice p i j) < 2^32 := by
  have bound := BigEndian.decode_lt (slice p i j)
  rw [length_slice within,span] at bound
  exact bound

end L1
