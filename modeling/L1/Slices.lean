import L1.Encoding

/-! Reading fields out of concatenated byte strings: fixed offsets, and chunks that stand
behind their length. -/
namespace L1

variable {n i j : Nat} {a b bytes rest : Bytes}

@[simp] theorem drop_behind (behind : a.length ≤ i) : (a ++ b).drop i = b.drop (i - a.length) := by
  rw [List.drop_append,List.drop_eq_nil_of_le behind,List.nil_append]

@[simp] theorem slice_within (within : j ≤ a.length) : slice (a ++ b) i j = slice a i j := by
  rw [slice,slice,List.drop_append,List.take_append_of_le_length (by simp; omega)]

@[simp] theorem slice_behind (behind : a.length ≤ i) :
    slice (a ++ b) i j = slice b (i - a.length) (j - a.length) := by
  have gap : j - a.length - (i - a.length) = j - i := by omega
  rw [slice,slice,gap,drop_behind behind]

@[simp] theorem slice_cons (byte : UInt8) (behind : 1 ≤ i) :
    slice (byte :: a) i j = slice a (i - 1) (j - 1) :=
  slice_behind (a := [byte]) behind

@[simp] theorem slice_all (all : a.length ≤ j) : slice a 0 j = a := by
  simp [slice,List.take_of_length_le all]

/-- A byte string behind its length, which wraps at 2^32. -/
def chunk (bytes : Bytes) : Bytes := BigEndian.encode 4 bytes.length ++ bytes

def takeU32 (bytes : Bytes) : Option (Nat × Bytes) :=
  if bytes.length < 4 then none else some (BigEndian.decode (bytes.take 4),bytes.drop 4)

def takeChunk (bytes : Bytes) : Option (Bytes × Bytes) :=
  match takeU32 bytes with
  | none => none
  | some (n,rest) => if rest.length < n then none else some (rest.take n,rest.drop n)

@[simp] theorem length_chunk (bytes : Bytes) : (chunk bytes).length = bytes.length + 4 := by
  simp [chunk]
  omega

theorem takeU32_encode (n : Nat) (rest : Bytes) (fits : n < 2^32) :
    takeU32 (BigEndian.encode 4 n ++ rest) = some (n,rest) := by
  have long : ¬ (BigEndian.encode 4 n ++ rest).length < 4 := by simp
  rw [takeU32,if_neg long,List.take_left' (by simp),List.drop_left' (by simp),
    BigEndian.decode_encode_of_lt 4 n (by omega)]

theorem takeChunk_chunk (bytes rest : Bytes) (fits : bytes.length < 2^32) :
    takeChunk (chunk bytes ++ rest) = some (bytes,rest) := by
  have long : ¬ (bytes ++ rest).length < bytes.length := by simp
  simp only [takeChunk,chunk,List.append_assoc,takeU32_encode _ _ fits,if_neg long,List.take_left,
    List.drop_left]

theorem takeU32_eq_some (read : takeU32 bytes = some (n,rest)) :
    n < 2^32 ∧ bytes = BigEndian.encode 4 n ++ rest := by
  unfold takeU32 at read
  split at read
  · cases read
  · rename_i long
    have four : (bytes.take 4).length = 4 := by simp; omega
    have bound := BigEndian.decode_lt (bytes.take 4)
    have back := BigEndian.encode_decode (bytes.take 4)
    rw [four] at bound back
    cases read
    exact ⟨by omega,by rw [back,List.take_append_drop]⟩

theorem takeChunk_eq_some {found : Bytes} (read : takeChunk bytes = some (found,rest)) :
    found.length < 2^32 ∧ bytes = chunk found ++ rest := by
  unfold takeChunk at read
  split at read
  · cases read
  · rename_i n after header
    obtain ⟨bound,rfl⟩ := takeU32_eq_some header
    split at read
    · cases read
    · rename_i long
      have length : (after.take n).length = n := by simp; omega
      cases read
      refine ⟨by omega,?_⟩
      rw [chunk,length,List.append_assoc,List.take_append_drop]

end L1
