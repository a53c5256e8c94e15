import L1.Formats

/-! Readers that take a value off the front of a byte string. A reader for a writer accepts what was
written, whatever follows, and nothing else; readers in sequence read the concatenation. -/
namespace L1

/-- `read` takes off the front exactly what `write` puts there for a value that fits. -/
def ReaderFor {α : Type} (write : α → Bytes) (fits : α → Prop) (read : Bytes → Option (α × Bytes)) :
    Prop :=
  ∀ bytes a rest, read bytes = some (a,rest) ↔ fits a ∧ bytes = write a ++ rest

def takeArray (n : Nat) (bytes : Bytes) : Option (Vector UInt8 n × Bytes) :=
  if bytes.length < n then none else some (fixed n (bytes.take n),bytes.drop n)

def takeWord (n w : Nat) (bytes : Bytes) : Option (BitVec w × Bytes) :=
  if bytes.length < n then none else some (fromBeBytes w (bytes.take n),bytes.drop n)

def takeMany {α : Type} (read : Bytes → Option (α × Bytes)) : Nat → Bytes → Option (List α × Bytes)
  | 0, bytes => some ([],bytes)
  | n + 1, bytes => do
    let (a,bytes) ← read bytes
    let (more,bytes) ← takeMany read n bytes
    return (a :: more,bytes)

def takeCounted {α : Type} (read : Bytes → Option (α × Bytes)) (bytes : Bytes) :
    Option (List α × Bytes) := do
  let (n,bytes) ← takeU32 bytes
  takeMany read n bytes

theorem reads_array (n : Nat) : ReaderFor Vector.toList (fun _ => True) (takeArray n) := by
  intro bytes v rest
  unfold takeArray
  constructor
  · intro read
    split at read
    · cases read
    rename_i enough
    cases read
    refine ⟨trivial,?_⟩
    rw [toList_fixed _ (by rw [List.length_take]; omega),List.take_append_drop]
  · rintro ⟨-,rfl⟩
    have enough : ¬ (v.toList ++ rest).length < n := by simp
    rw [if_neg enough,List.take_left' v.length_toList,List.drop_left' v.length_toList,fixed_toList]

theorem reads_word {n w : Nat} (exact_ : 256^n = 2^w) :
    ReaderFor (toBeBytes n) (fun _ => True) (takeWord n w) := by
  intro bytes v rest
  have length := length_toBeBytes n v
  unfold takeWord
  constructor
  · intro read
    split at read
    · cases read
    rename_i enough
    cases read
    have whole : (bytes.take n).length = n := by
      rw [List.length_take]
      omega
    have back := toBeBytes_fromBeBytes (w := w) (bytes.take n) (by rw [whole,exact_])
    rw [whole] at back
    exact ⟨trivial,by rw [back,List.take_append_drop]⟩
  · rintro ⟨-,rfl⟩
    have enough : ¬ (toBeBytes n v ++ rest).length < n := by
      rw [List.length_append]
      omega
    rw [if_neg enough,List.take_left' length,List.drop_left' length,
      fromBeBytes_toBeBytes n v exact_.ge]

theorem reads_u32 : ReaderFor (BigEndian.encode 4) (fun n => n < 2^32) takeU32 := by
  intro bytes n rest
  constructor
  · exact takeU32_eq_some
  · rintro ⟨fits,rfl⟩
    exact takeU32_encode n rest fits

section Lists

variable {α : Type} {write : α → Bytes} {fits : α → Prop} {read : Bytes → Option (α × Bytes)}

theorem ReaderFor.many (reads : ReaderFor write fits read) (n : Nat) (bytes rest : Bytes) (l : List α) :
    takeMany read n bytes = some (l,rest) ↔
      l.length = n ∧ (∀ a ∈ l, fits a) ∧ bytes = l.flatMap write ++ rest := by
  induction n generalizing bytes rest l with
  | zero =>
    constructor
    · intro read
      cases read
      exact ⟨rfl,by simp,rfl⟩
    · rintro ⟨none,-,rfl⟩
      obtain rfl := List.length_eq_zero_iff.mp none
      rfl
  | succ n ih =>
    simp only [takeMany,Option.bind_eq_bind,Option.bind_eq_some_iff,Prod.exists,reads _ _ _,ih,
      Option.pure_def,Option.some.injEq,Prod.mk.injEq]
    constructor
    · rintro ⟨a,_,⟨fit,rfl⟩,more,_,⟨rfl,all,rfl⟩,rfl,rfl⟩
      refine ⟨rfl,List.forall_mem_cons.mpr ⟨fit,all⟩,?_⟩
      rw [List.flatMap_cons,List.append_assoc]
    · rintro ⟨count,all,rfl⟩
      obtain ⟨a,more,rfl⟩ := List.exists_cons_of_length_eq_add_one count
      obtain ⟨fit,others⟩ := List.forall_mem_cons.mp all
      refine ⟨a,_,⟨fit,?_⟩,more,rest,⟨by simpa using count,others,rfl⟩,rfl,rfl⟩
      rw [List.flatMap_cons,List.append_assoc]

theorem ReaderFor.counted (reads : ReaderFor write fits read) :
    ReaderFor (fun l => BigEndian.encode 4 l.length ++ l.flatMap write)
      (fun l => l.length < 2^32 ∧ ∀ a ∈ l, fits a) (takeCounted read) := by
  intro bytes l rest
  simp only [takeCounted,Option.bind_eq_bind,Option.bind_eq_some_iff,Prod.exists,reads_u32 _ _ _,
    reads.many,List.append_assoc]
  constructor
  · rintro ⟨n,_,⟨bound,rfl⟩,rfl,all,rfl⟩
    exact ⟨⟨bound,all⟩,rfl⟩
  · rintro ⟨⟨bound,all⟩,rfl⟩
    exact ⟨l.length,_,⟨bound,rfl⟩,rfl,all,rfl⟩

end Lists
end L1
