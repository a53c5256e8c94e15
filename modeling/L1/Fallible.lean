import L1.Batch

/-! A store whose operations may fail. One that fails changes nothing that can be read; the others
do what they do in a batch. -/
namespace L1.Fallible

open L1.Batch

/-- Reading and writing in states of type `S`. Which calls fail is left to the states: they may
count calls, or look at keys. -/
structure Device (S K V E : Type) [DecidableEq K] where
  get : S → K → Except E (Option V)
  put : S → K → V → Except E Unit × S
  delete : S → K → Except E Unit × S
  /-- What a state holds. -/
  content : S → K → Option V
  get_ok : ∀ s key value, get s key = .ok value → value = content s key
  put_ok : ∀ s key value, (put s key value).1 = .ok () →
    ∀ k, content (put s key value).2 k = if key = k then some value else content s k
  put_error : ∀ s key value e, (put s key value).1 = .error e →
    content (put s key value).2 = content s
  delete_ok : ∀ s key, (delete s key).1 = .ok () →
    ∀ k, content (delete s key).2 k = if key = k then none else content s k
  delete_error : ∀ s key e, (delete s key).1 = .error e → content (delete s key).2 = content s

namespace Device

variable {S K V E : Type} [DecidableEq K] (d : Device S K V E)

def write (s : S) : Op K V → Except E Unit × S
  | .put key value => d.put s key value
  | .delete key => d.delete s key

/-- The state after some calls, whatever they returned. -/
def after (s : S) (calls : List (Op K V)) : S := calls.foldl (fun s op => (d.write s op).2) s

/-- The operation fails when it comes after these calls. -/
def Refuses (s : S) (calls : List (Op K V)) (op : Op K V) : Prop :=
  ∃ e, (d.write (d.after s calls) op).1 = .error e

def Carried (s : S) : List (Op K V) → Prop
  | [] => True
  | op :: rest => (d.write s op).1 = .ok () ∧ Carried (d.write s op).2 rest

theorem content_write_ok (s : S) (op : Op K V) (fine : (d.write s op).1 = .ok ()) (key : K) :
    d.content (d.write s op).2 key = if op.key = key then op.left else d.content s key := by
  cases op with
  | put k value => exact d.put_ok s k value fine key
  | delete k => exact d.delete_ok s k fine key

theorem content_write_error {s : S} {op : Op K V} {e : E} (failed : (d.write s op).1 = .error e) :
    d.content (d.write s op).2 = d.content s := by
  cases op with
  | put k value => exact d.put_error s k value e failed
  | delete k => exact d.delete_error s k e failed

theorem content_write_other (s : S) {op : Op K V} {key : K} (other : op.key ≠ key) :
    d.content (d.write s op).2 key = d.content s key := by
  cases result : (d.write s op).1 with
  | error e => rw [d.content_write_error result]
  | ok u => rw [d.content_write_ok s op result,if_neg other]

@[simp] theorem after_nil (s : S) : d.after s [] = s := rfl

@[simp] theorem after_cons (s : S) (op : Op K V) (rest : List (Op K V)) :
    d.after s (op :: rest) = d.after (d.write s op).2 rest := rfl

theorem after_append (s : S) (calls more : List (Op K V)) :
    d.after s (calls ++ more) = d.after (d.after s calls) more := List.foldl_append ..

theorem refuses_append (s : S) (calls more : List (Op K V)) (op : Op K V) :
    d.Refuses s (calls ++ more) op ↔ d.Refuses (d.after s calls) more op := by
  rw [Refuses,after_append,Refuses]

theorem content_after_other (s : S) (calls : List (Op K V)) {key : K}
    (other : ∀ op ∈ calls, op.key ≠ key) : d.content (d.after s calls) key = d.content s key := by
  induction calls generalizing s with
  | nil => rfl
  | cons op rest ih =>
    rw [after_cons,ih _ fun o inside => other o (.tail _ inside),
      d.content_write_other s (other op (.head _))]

/-- Operations none of which fails leave what the batch of them leaves. -/
theorem content_after_carried (s : S) (ops : List (Op K V)) (fine : d.Carried s ops) (key : K) :
    d.content (d.after s ops) key = (last key ops).getD (d.content s key) := by
  induction ops generalizing s with
  | nil => rfl
  | cons op rest ih =>
    rw [after_cons,ih _ fine.2,d.content_write_ok s op fine.1,last]
    cases last key rest with
    | some _ => rfl
    | none => split <;> rfl

/-- Where one call among others is the only one at its key, it alone decides what is left. -/
theorem content_after_at (s : S) (front back : List (Op K V)) (op : Op K V)
    (before : ∀ o ∈ front, o.key ≠ op.key) (behind : ∀ o ∈ back, o.key ≠ op.key) :
    (d.Refuses s front op → d.content (d.after s (front ++ op :: back)) op.key = d.content s op.key) ∧
    (¬ d.Refuses s front op → d.content (d.after s (front ++ op :: back)) op.key = op.left) := by
  rw [after_append,after_cons,d.content_after_other _ back behind]
  refine ⟨fun ⟨e,failed⟩ => ?_,fun accepted => ?_⟩
  · rw [d.content_write_error failed,d.content_after_other s front before]
  · cases result : (d.write (d.after s front) op).1 with
    | error e => exact absurd ⟨e,result⟩ accepted
    | ok u => rw [d.content_write_ok _ op result,if_pos rfl]

/-- The first operation that fails, with those before it. -/
structure Stops (s : S) (ops done : List (Op K V)) (op : Op K V) (rest : List (Op K V)) : Prop where
  split : ops = done ++ op :: rest
  carried : d.Carried s done
  refused : d.Refuses s done op

/-- Up to and with the first failure, only the operations before it count. -/
theorem Stops.content {s : S} {ops done rest : List (Op K V)} {op : Op K V}
    (stops : d.Stops s ops done op rest) (key : K) :
    d.content (d.after s (done ++ [op])) key = (last key done).getD (d.content s key) := by
  obtain ⟨e,failed⟩ := stops.refused
  rw [after_append,after_cons,after_nil,d.content_write_error failed,
    d.content_after_carried s done stops.carried]

theorem carried_or_stops (s : S) (ops : List (Op K V)) :
    d.Carried s ops ∨ ∃ done op rest, d.Stops s ops done op rest := by
  induction ops generalizing s with
  | nil => exact .inl trivial
  | cons op rest ih =>
    cases result : (d.write s op).1 with
    | error e => exact .inr ⟨[],op,rest,rfl,trivial,e,result⟩
    | ok u =>
      obtain fine | ⟨done,o,back,⟨split,carried,refused⟩⟩ := ih (d.write s op).2
      · exact .inl ⟨result,fine⟩
      · exact .inr ⟨op :: done,o,back,by rw [split,List.cons_append],⟨result,carried⟩,refused⟩

end Device
end L1.Fallible
