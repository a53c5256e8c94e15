import L1.Formats

/-! Byte strings read by index, in a program that stops when an index is out of range. Readers keep a
cursor into the whole string; they agree with readers of the remaining bytes. -/
namespace L1

/-- A computation that may fail, or stop at an index that is out of range. -/
abbrev Checked (ε α : Type) := ExceptT ε Option α

namespace Checked

variable {ε δ α β : Type}

def returned (outcome : Except ε α) : Checked ε α := ExceptT.mk (some outcome)

def stop : Checked ε α := ExceptT.mk none

def rejectIf (c : Prop) [Decidable c] (e : ε) : Checked ε Unit := if c then throw e else pure ()

/-- `p[i]` -/
def index (p : Bytes) (i : Nat) : Checked ε UInt8 := if i < p.length then pure (p.getD i 0) else stop

/-- `p[i..j]` -/
def range (p : Bytes) (i j : Nat) : Checked ε Bytes :=
  if i ≤ j ∧ j ≤ p.length then pure (slice p i j) else stop

/-- `p[i..]` -/
def tail (p : Bytes) (i : Nat) : Checked ε Bytes := if i ≤ p.length then pure (p.drop i) else stop

def sized (n : Nat) (bytes : Bytes) : Checked ε Bytes := if bytes.length = n then pure bytes else stop

/-- `p[i..j]` as an array of `n` bytes. -/
def field (n : Nat) (p : Bytes) (i j : Nat) : Checked ε Bytes := do
  let bytes ← range p i j
  sized n bytes

def mapError (f : ε → δ) (x : Checked ε α) : Checked δ α := ExceptT.mk (x.run.map (Except.mapError f))

theorem returned_ok (a : α) : (returned (.ok a) : Checked ε α) = pure a := rfl

theorem returned_error (e : ε) : (returned (.error e) : Checked ε α) = throw e := rfl

theorem throw_bind (e : ε) (f : α → Checked ε β) : (throw e : Checked ε α) >>= f = throw e := rfl

theorem mapError_returned (f : ε → δ) (outcome : Except ε α) :
    mapError f (returned outcome) = returned (outcome.mapError f) := rfl

variable {p : Bytes} {i j : Nat}

theorem index_eq (inside : i < p.length) :
    (index p i : Checked ε UInt8) = pure (p.getD i 0) := if_pos inside

theorem range_eq (ordered : i ≤ j) (within : j ≤ p.length) :
    (range p i j : Checked ε Bytes) = pure (slice p i j) := if_pos ⟨ordered,within⟩

theorem tail_eq (within : i ≤ p.length) :
    (tail p i : Checked ε Bytes) = pure (p.drop i) := if_pos within

theorem field_eq {n : Nat} (span : i + n = j) (within : j ≤ p.length) :
    (field n p i j : Checked ε Bytes) = pure (slice p i j) := by
  rw [field,range_eq (by omega) within,pure_bind,sized,if_pos (by rw [length_slice within]; omega)]

theorem rejectIf_bind {c : Prop} [Decidable c] {e : ε} {f : Unit → Checked ε α} {r : Except ε α}
    (passed : ¬ c → f () = returned r) : rejectIf c e >>= f = returned (if c then .error e else r) := by
  by_cases failed : c
  · rw [rejectIf,if_pos failed,if_pos failed,throw_bind,returned_error]
  · rw [rejectIf,if_neg failed,if_neg failed,pure_bind,passed failed]

/-! Cursors. -/

/-- The next `n` bytes, and the cursor behind them. -/
def take (e : ε) (p : Bytes) (i n : Nat) : Checked ε (Bytes × Nat) := do
  rejectIf (p.length < i + n) e
  let bytes ← range p i (i + n)
  return (bytes,i + n)

def takeNumber (e : ε) (p : Bytes) (i : Nat) : Checked ε (Nat × Nat) := do
  let (bytes,i) ← take e p i 4
  let bytes ← sized 4 bytes
  return (BigEndian.decode bytes,i)

def takePart (e : ε) (p : Bytes) (i : Nat) : Checked ε (Bytes × Nat) := do
  let (n,i) ← takeNumber e p i
  take e p i n

def takeParts (e : ε) (p : Bytes) : Nat → Nat → Checked ε (List Bytes × Nat)
  | 0, i => return ([],i)
  | n + 1, i => do
    let (bytes,i) ← takePart e p i
    let (others,i) ← takeParts e p n i
    return (bytes :: others,i)

section Cursors

variable {e : ε} {p : Bytes} {i n : Nat}

theorem take_short (short : p.length < i + n) : take e p i n = throw e := by
  rw [take,rejectIf,if_pos short,throw_bind]

theorem take_eq (within : i + n ≤ p.length) : take e p i n = pure (slice p i (i + n),i + n) := by
  rw [take,rejectIf,if_neg (by omega),pure_bind,range_eq (by omega) within,pure_bind]

theorem slice_drop_take (p : Bytes) (i n : Nat) : slice p i (i + n) = (p.drop i).take n := by
  rw [slice,Nat.add_sub_cancel_left]

theorem takeNumber_none (short : takeU32 (p.drop i) = none) : takeNumber e p i = throw e := by
  have few : p.length < i + 4 := by
    by_contra enough
    rw [takeU32,if_neg (by rw [List.length_drop]; omega)] at short
    cases short
  rw [takeNumber,take_short few,throw_bind]

theorem takeNumber_some {rest : Bytes} (read : takeU32 (p.drop i) = some (n,rest)) :
    takeNumber e p i = pure (n,i + 4) ∧ i + 4 ≤ p.length ∧ rest = p.drop (i + 4) := by
  unfold takeU32 at read
  split at read
  · cases read
  rename_i enough
  rw [List.length_drop] at enough
  have within : i + 4 ≤ p.length := by omega
  cases read
  refine ⟨?_,within,List.drop_drop ..⟩
  rw [takeNumber,take_eq within,pure_bind]
  show sized 4 (slice p i (i + 4)) >>= _ = _
  rw [sized,if_pos (by rw [length_slice within]; omega),pure_bind,slice_drop_take]

theorem takePart_none (short : takeChunk (p.drop i) = none) : takePart e p i = throw e := by
  rw [takePart]
  cases read : takeU32 (p.drop i) with
  | none => rw [takeNumber_none read,throw_bind]
  | some found =>
    obtain ⟨n,rest⟩ := found
    obtain ⟨number,inside,rfl⟩ := takeNumber_some (e := e) read
    simp only [takeChunk,read] at short
    split at short
    · rename_i few
      rw [List.length_drop] at few
      rw [number,pure_bind]
      exact take_short (by omega)
    · cases short

theorem takePart_some {found rest : Bytes} (read : takeChunk (p.drop i) = some (found,rest)) :
    ∃ k, takePart e p i = pure (found,k) ∧ k ≤ p.length ∧ rest = p.drop k := by
  unfold takeChunk at read
  split at read
  · cases read
  rename_i n after number
  obtain ⟨counted,inside,rfl⟩ := takeNumber_some (e := e) number
  split at read
  · cases read
  rename_i enough
  rw [List.length_drop] at enough
  cases read
  refine ⟨i + 4 + n,?_,by omega,List.drop_drop ..⟩
  rw [takePart,counted,pure_bind]
  show take e p (i + 4) n = _
  rw [take_eq (by omega),slice_drop_take]

end Cursors
end Checked
end L1
