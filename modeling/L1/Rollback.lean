import L1.Fallible
import L1.Store

/-! `apply_batch` over a store whose operations may fail: a snapshot of the keys, the operations,
and on the first failure a rollback that is itself made of such operations. -/
namespace L1.Kv

open Batch Fallible

/-- The `Store` trait with its contract. -/
abbrev FallibleStore (S : Type) := Device S Bytes Bytes TypesError

section ApplyBatch

variable {S : Type} (store : FallibleStore S)

abbrev Snapshot := List (Bytes × Option Bytes)

/-- The values at the keys of the operations, read at the first operation that names the key. -/
def snapshot (s : S) : List BatchOp → Snapshot → Except TypesError Snapshot
  | [],snap => .ok snap
  | op :: rest,snap =>
    if snap.any (fun entry => entry.1 = op.key) then snapshot s rest snap
    else match store.get s op.key with
      | .error e => .error e
      | .ok value => snapshot s rest (snap ++ [(op.key,value)])

/-- Failures of the rollback are ignored. -/
def restore (s : S) (snap : Snapshot) : S :=
  snap.foldl (fun s (key,value) => match value with
    | some value => (store.put s key value).2
    | none => (store.delete s key).2) s

def applyOps (snap : Snapshot) : S → List BatchOp → Except TypesError Unit × S
  | s,[] => (.ok (),s)
  | s,op :: rest => match store.write s op with
    | (.error e,s') => (.error e,restore store s' snap)
    | (.ok (),s') => applyOps snap s' rest

def applyBatch (s : S) (ops : List BatchOp) : Except TypesError Unit × S :=
  match snapshot store s ops [] with
  | .error e => (.error e,s)
  | .ok snap => applyOps store snap s ops

/-- The keys of the operations that are not among `seen`, each once, in the order of first use. -/
def fresh : List BatchOp → List Bytes → List Bytes
  | [],_ => []
  | op :: rest,seen =>
    if op.key ∈ seen then fresh rest seen else op.key :: fresh rest (seen ++ [op.key])

def keys (ops : List BatchOp) : List Bytes := fresh ops []

theorem mem_fresh (ops : List BatchOp) (seen : List Bytes) (key : Bytes) :
    key ∈ fresh ops seen ↔ key ∉ seen ∧ ∃ op ∈ ops, op.key = key := by
  induction ops generalizing seen with
  | nil => simp [fresh]
  | cons op rest ih =>
    by_cases known : op.key ∈ seen
    · rw [fresh,if_pos known,ih]
      refine and_congr_right fun unseen => ?_
      have other : op.key ≠ key := fun same => unseen (same ▸ known)
      simp [other]
    · rw [fresh,if_neg known,List.mem_cons,ih]
      by_cases same : op.key = key
      · subst same
        simp [known]
      · simp [same,Ne.symm same]

theorem nodup_fresh (ops : List BatchOp) (seen : List Bytes) : (fresh ops seen).Nodup := by
  induction ops generalizing seen with
  | nil => exact .nil
  | cons op rest ih =>
    rw [fresh]
    split
    · exact ih seen
    · refine List.nodup_cons.mpr ⟨fun again => ?_,ih _⟩
      exact ((mem_fresh _ _ _).mp again).1 (by simp)

theorem mem_keys (ops : List BatchOp) (key : Bytes) : key ∈ keys ops ↔ ∃ op ∈ ops, op.key = key := by
  simp [keys,mem_fresh]

def undo (s : S) (key : Bytes) : BatchOp :=
  match store.content s key with
  | some value => .put key value
  | none => .delete key

@[simp] theorem key_undo (s : S) (key : Bytes) : (undo store s key).key = key := by
  unfold undo
  split <;> rfl

@[simp] theorem left_undo (s : S) (key : Bytes) : (undo store s key).left = store.content s key := by
  unfold undo
  split <;> rename_i held <;> exact held.symm

def Readable (s : S) (ops : List BatchOp) : Prop := ∀ op ∈ ops, ∃ value, store.get s op.key = .ok value

theorem snapshot_ok (s : S) (ops : List BatchOp) (snap : Snapshot) (reads : Readable store s ops) :
    snapshot store s ops snap =
      .ok (snap ++ (fresh ops (snap.map (·.1))).map fun key => (key,store.content s key)) := by
  induction ops generalizing snap with
  | nil => simp [snapshot,fresh]
  | cons op rest ih =>
    have tail : Readable store s rest := fun o inside => reads o (.tail _ inside)
    have known_iff : snap.any (fun entry => entry.1 = op.key) ↔ op.key ∈ snap.map (·.1) := by simp
    by_cases known : op.key ∈ snap.map (·.1)
    · rw [snapshot,if_pos (known_iff.mpr known),ih _ tail,fresh,if_pos known]
    · obtain ⟨value,read⟩ := reads op (.head _)
      rw [snapshot,if_neg (mt known_iff.mp known),read]
      dsimp only
      rw [ih _ tail,fresh,if_neg known,store.get_ok _ _ _ read]
      simp

variable {ops done rest : List BatchOp} {op : BatchOp}

/-- A key that cannot be read stops the batch before it writes. -/
theorem readable_of_snapshot {s : S} {snap got : Snapshot}
    (held : ∀ entry ∈ snap, ∃ value, store.get s entry.1 = .ok value)
    (taken : snapshot store s ops snap = .ok got) : Readable store s ops := by
  induction ops generalizing snap with
  | nil => exact fun _ inside => absurd inside List.not_mem_nil
  | cons op rest ih =>
    rw [snapshot] at taken
    split at taken
    · rename_i known
      obtain ⟨entry,inside,same⟩ := List.any_eq_true.mp known
      have read := held entry inside
      rw [of_decide_eq_true same] at read
      exact List.forall_mem_cons.mpr ⟨read,ih held taken⟩
    · cases read : store.get s op.key with
      | error e => rw [read] at taken; cases taken
      | ok value =>
        rw [read] at taken
        refine List.forall_mem_cons.mpr ⟨⟨value,read⟩,ih ?_ taken⟩
        refine List.forall_mem_append.mpr ⟨held,?_⟩
        simp [read]

theorem restore_eq (s s' : S) (names : List Bytes) :
    restore store s' (names.map fun key => (key,store.content s key)) =
      store.after s' (names.map (undo store s)) := by
  induction names generalizing s' with
  | nil => rfl
  | cons key rest ih =>
    rw [List.map_cons,List.map_cons,Device.after_cons,← ih,restore,List.foldl_cons,← restore]
    congr 1
    unfold undo
    cases store.content s key <;> rfl

theorem applyOps_carried (snap : Snapshot) {s : S} (fine : store.Carried s ops) :
    applyOps store snap s ops = (.ok (),store.after s ops) := by
  induction ops generalizing s with
  | nil => rfl
  | cons op rest ih =>
    obtain ⟨first,others⟩ := fine
    rw [applyOps,Device.after_cons,← ih others]
    split
    · rename_i e s' result
      rw [result] at first
      cases first
    · rename_i s' result
      rw [result]

theorem applyOps_stops (snap : Snapshot) {s : S}
    (rest : List BatchOp) (fine : store.Carried s done) (refused : store.Refuses s done op) :
    ∃ e, applyOps store snap s (done ++ op :: rest) =
      (.error e,restore store (store.after s (done ++ [op])) snap) := by
  induction done generalizing s with
  | nil =>
    obtain ⟨e,failed⟩ := refused
    refine ⟨e,?_⟩
    rw [List.nil_append,List.nil_append,applyOps]
    split
    · rename_i e' s' result
      rw [Device.after_nil,result] at failed
      rw [Device.after_cons,Device.after_nil,result,Except.error.inj failed]
    · rename_i s' result
      rw [Device.after_nil,result] at failed
      cases failed
  | cons first done ih =>
    obtain ⟨e,stopped⟩ := ih fine.2 refused
    refine ⟨e,?_⟩
    rw [List.cons_append,List.cons_append,applyOps,Device.after_cons,← stopped]
    split
    · rename_i e' s' result
      have carried := fine.1
      rw [result] at carried
      cases carried
    · rename_i s' result
      rw [result]

theorem applyBatch_unread {s : S} (unread : ¬ Readable store s ops) :
    ∃ e, applyBatch store s ops = (.error e,s) := by
  unfold applyBatch
  cases taken : snapshot store s ops [] with
  | error e => exact ⟨e,rfl⟩
  | ok snap =>
    have none_held : ∀ entry ∈ ([] : Snapshot), ∃ value, store.get s entry.1 = .ok value := by simp
    exact absurd (readable_of_snapshot store none_held taken) unread

theorem applyBatch_carried {s : S} (reads : Readable store s ops)
    (fine : store.Carried s ops) : applyBatch store s ops = (.ok (),store.after s ops) := by
  rw [applyBatch,snapshot_ok store s ops [] reads]
  exact applyOps_carried store _ fine

theorem applyBatch_stops {s : S}
    (reads : Readable store s ops) (stops : store.Stops s ops done op rest) :
    ∃ e, applyBatch store s ops =
      (.error e,store.after s (done ++ op :: (keys ops).map (undo store s))) := by
  obtain ⟨split,fine,refused⟩ := stops
  rw [applyBatch,snapshot_ok store s ops [] reads]
  obtain ⟨e,stopped⟩ := applyOps_stops store
    ((keys ops).map fun key => (key,store.content s key)) rest fine refused
  refine ⟨e,?_⟩
  rw [← split,restore_eq,← Device.after_append,List.append_assoc,List.singleton_append] at stopped
  exact stopped

/-- What the operations before the failed one left at a key is what was there. -/
def Kept (s : S) (done : List BatchOp) (key : Bytes) : Prop :=
  (last key done).getD (store.content s key) = store.content s key

/-- Whichever operation is the first to fail, the rollback has no failure at a key that the
operations before it changed. -/
def Recovers (s : S) (ops : List BatchOp) : Prop :=
  ∀ done op rest, store.Stops s ops done op rest →
    ∀ undone key others, keys ops = undone ++ key :: others →
      store.Refuses s (done ++ op :: undone.map (undo store s)) (undo store s key) →
        Kept store s done key

/-- The rollback brings a key back unless its write there fails and there is something to undo. -/
theorem content_rolledBack {s : S}
    (stops : store.Stops s ops done op rest) {undone others : List Bytes} {key : Bytes}
    (split : keys ops = undone ++ key :: others) :
    store.content (store.after s (done ++ op :: (keys ops).map (undo store s))) key =
        store.content s key ↔
      (store.Refuses s (done ++ op :: undone.map (undo store s)) (undo store s key) →
        Kept store s done key) := by
  have distinct : (undone ++ key :: others).Nodup := split ▸ nodup_fresh ops []
  have front : ∀ o ∈ undone.map (undo store s), o.key ≠ (undo store s key).key := by
    simp only [List.forall_mem_map,key_undo]
    rintro k inside rfl
    exact (List.nodup_append'.mp distinct).2.2 inside (.head _)
  have back : ∀ o ∈ others.map (undo store s), o.key ≠ (undo store s key).key := by
    simp only [List.forall_mem_map,key_undo]
    rintro k inside rfl
    exact (List.nodup_cons.mp (List.nodup_append'.mp distinct).2.1).1 inside
  have stopped := stops.content store key
  obtain ⟨failed,accepted⟩ := store.content_after_at (store.after s (done ++ [op])) _ _ _ front back
  rw [← Device.refuses_append,← Device.after_append,List.append_assoc,List.append_assoc,
    List.singleton_append,List.singleton_append,key_undo] at failed accepted
  rw [split,List.map_append,List.map_cons]
  by_cases refused : store.Refuses s (done ++ op :: undone.map (undo store s)) (undo store s key)
  · rw [failed refused,stopped,Kept]
    exact ⟨fun kept _ => kept,fun kept => kept refused⟩
  · rw [accepted refused,left_undo]
    exact ⟨fun _ now => absurd now refused,fun _ => rfl⟩

theorem content_unnamed {s : S}
    (stops : store.Stops s ops done op rest) {key : Bytes} (unnamed : key ∉ keys ops) :
    store.content (store.after s (done ++ op :: (keys ops).map (undo store s))) key =
      store.content s key := by
  have apart : ∀ o ∈ ops, o.key ≠ key := by simpa [mem_keys] using unnamed
  apply store.content_after_other
  rw [stops.split,List.forall_mem_append,List.forall_mem_cons] at apart
  refine List.forall_mem_append.mpr ⟨apart.1,List.forall_mem_cons.mpr ⟨apart.2.1,?_⟩⟩
  simp only [List.forall_mem_map,key_undo]
  rintro k inside rfl
  exact unnamed inside

/-- An error leaves every key as it was, and success what the last operation at the key says. -/
def AllOrNothing (s : S) (ops : List BatchOp) : Prop :=
  (∀ e, (applyBatch store s ops).1 = .error e →
    ∀ key, store.content (applyBatch store s ops).2 key = store.content s key) ∧
  ((applyBatch store s ops).1 = .ok () →
    ∀ key, store.content (applyBatch store s ops).2 key = (last key ops).getD (store.content s key))

/-- A batch is all or nothing exactly if no failure hits the rollback where it has something to
undo. -/
theorem all_or_nothing_iff (s : S) (ops : List BatchOp) :
    AllOrNothing store s ops ↔ (Readable store s ops → Recovers store s ops) := by
  constructor
  · intro ⟨untouched,_⟩ reads done op rest stops undone key others split
    obtain ⟨e,result⟩ := applyBatch_stops store reads stops
    rw [result] at untouched
    exact (content_rolledBack store stops split).mp (untouched e rfl key)
  · intro recovers
    by_cases reads : Readable store s ops
    · obtain fine | ⟨done,op,rest,stops⟩ := store.carried_or_stops s ops
      · rw [AllOrNothing,applyBatch_carried store reads fine]
        refine ⟨fun e failed => ?_,fun _ => store.content_after_carried s ops fine⟩
        cases failed
      · obtain ⟨e,result⟩ := applyBatch_stops store reads stops
        rw [AllOrNothing,result]
        refine ⟨fun _ _ key => ?_,fun success => ?_⟩
        · by_cases named : key ∈ keys ops
          · obtain ⟨undone,others,split⟩ := List.append_of_mem named
            exact (content_rolledBack store stops split).mpr
              (recovers reads done op rest stops undone key others split)
          · exact content_unnamed store stops named
        · cases success
    · obtain ⟨e,result⟩ := applyBatch_unread store reads
      rw [AllOrNothing,result]
      refine ⟨fun _ _ _ => rfl,fun success => ?_⟩
      cases success

end ApplyBatch

namespace MemoryStore

def get (store : Store) (key : Bytes) : Except TypesError (Option Bytes) := .ok store[key]?
def put (store : Store) (key value : Bytes) : Except TypesError Unit × Store :=
  (.ok (),store.insert key value)
def delete (store : Store) (key : Bytes) : Except TypesError Unit × Store := (.ok (),store.erase key)
def content (store : Store) (key : Bytes) : Option Bytes := store[key]?

theorem get_ok (store : Store) (key : Bytes) (value : Option Bytes)
    (read : get store key = .ok value) : value = content store key := (Except.ok.inj read).symm

theorem put_ok (store : Store) (key value : Bytes) (_ : (put store key value).1 = .ok ()) (k : Bytes) :
    content (put store key value).2 k = if key = k then some value else content store k :=
  get?_apply store (.put key value) k

theorem put_error (store : Store) (key value : Bytes) (e : TypesError)
    (failed : (put store key value).1 = .error e) :
    content (put store key value).2 = content store := by cases failed

theorem delete_ok (store : Store) (key : Bytes) (_ : (delete store key).1 = .ok ()) (k : Bytes) :
    content (delete store key).2 k = if key = k then none else content store k :=
  get?_apply store (.delete key) k

theorem delete_error (store : Store) (key : Bytes) (e : TypesError)
    (failed : (delete store key).1 = .error e) :
    content (delete store key).2 = content store := by cases failed

end MemoryStore

/-- The store in memory never fails. -/
def memoryStore : FallibleStore Store where
  get := MemoryStore.get
  put := MemoryStore.put
  delete := MemoryStore.delete
  content := MemoryStore.content
  get_ok := MemoryStore.get_ok
  put_ok := MemoryStore.put_ok
  put_error := MemoryStore.put_error
  delete_ok := MemoryStore.delete_ok
  delete_error := MemoryStore.delete_error

theorem memoryStore_carried (store : Store) (ops : List BatchOp) : memoryStore.Carried store ops := by
  induction ops generalizing store with
  | nil => trivial
  | cons op rest ih => exact ⟨by cases op <;> rfl,ih _⟩

/-- Without failures a batch is the run of its operations. -/
theorem applyBatch_memoryStore (store : Store) (ops : List BatchOp) :
    applyBatch memoryStore store ops = (.ok (),L1.applyBatch store ops) := by
  have reads : Readable memoryStore store ops := fun op _ => ⟨store[op.key]?,rfl⟩
  have same : (fun s op => (memoryStore.write s op).2) = Op.apply := by
    funext s op
    cases op <;> rfl
  rw [applyBatch_carried memoryStore reads (memoryStore_carried store ops),Device.after,same]
  rfl

/-- A store that can do a number of `put`s. -/
structure FailAfter where
  inner : Store
  remaining : Nat

namespace FailAfter

def get (s : FailAfter) (key : Bytes) : Except TypesError (Option Bytes) := .ok s.inner[key]?

def put (s : FailAfter) (key value : Bytes) : Except TypesError Unit × FailAfter :=
  if s.remaining = 0 then (.error (.kv "simulated mid-batch failure"),s)
  else (.ok (),⟨s.inner.insert key value,s.remaining - 1⟩)

def delete (s : FailAfter) (key : Bytes) : Except TypesError Unit × FailAfter :=
  (.ok (),{ s with inner := s.inner.erase key })

def content (s : FailAfter) (key : Bytes) : Option Bytes := s.inner[key]?

theorem get_ok (s : FailAfter) (key : Bytes) (value : Option Bytes)
    (read : get s key = .ok value) : value = content s key := (Except.ok.inj read).symm

theorem put_ok (s : FailAfter) (key value : Bytes) (fine : (put s key value).1 = .ok ()) (k : Bytes) :
    content (put s key value).2 k = if key = k then some value else content s k := by
  unfold put at fine ⊢
  split at fine
  · cases fine
  · rename_i left
    rw [if_neg left]
    exact get?_apply s.inner (.put key value) k

theorem put_error (s : FailAfter) (key value : Bytes) (e : TypesError)
    (failed : (put s key value).1 = .error e) : content (put s key value).2 = content s := by
  unfold put at failed ⊢
  split at failed
  · rename_i spent
    rw [if_pos spent]
  · cases failed

theorem delete_ok (s : FailAfter) (key : Bytes) (_ : (delete s key).1 = .ok ()) (k : Bytes) :
    content (delete s key).2 k = if key = k then none else content s k :=
  get?_apply s.inner (.delete key) k

theorem delete_error (s : FailAfter) (key : Bytes) (e : TypesError)
    (failed : (delete s key).1 = .error e) : content (delete s key).2 = content s := by cases failed

end FailAfter

def failAfter : FallibleStore FailAfter where
  get := FailAfter.get
  put := FailAfter.put
  delete := FailAfter.delete
  content := FailAfter.content
  get_ok := FailAfter.get_ok
  put_ok := FailAfter.put_ok
  put_error := FailAfter.put_error
  delete_ok := FailAfter.delete_ok
  delete_error := FailAfter.delete_error

namespace Sample

def start (remaining : Nat) : FailAfter :=
  ⟨(∅ : Store).insert (ascii "keep") (ascii "old"),remaining⟩

def batch : List BatchOp := [.put (ascii "keep") (ascii "new"),.put (ascii "other") (ascii "x")]

/-- The first `put` is done and the second fails, and so does the one that would undo the first. -/
theorem half_batch_kept :
    (applyBatch failAfter (start 1) batch).1 = .error (.kv "simulated mid-batch failure") ∧
    failAfter.content (applyBatch failAfter (start 1) batch).2 (ascii "keep") = some (ascii "new") ∧
    failAfter.content (start 1) (ascii "keep") = some (ascii "old") := by
  decide +kernel

end Sample
end L1.Kv
