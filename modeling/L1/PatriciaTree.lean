import Mathlib.Data.List.Infix
import Mathlib.Logic.Function.Basic
import Mathlib.Tactic.Common

/-! Path-compressed radix trees over an arbitrary alphabet, as values. Absent
children are the empty tree, so a branch is a function of the next symbol. The
canonical trees are exactly one per finite map, which is what makes a root
commitment independent of the order of updates. -/
namespace L1.PatriciaTree

inductive Tree (α β : Type) where
  | empty
  | leaf (path : List α) (value : β)
  | ext (path : List α) (next : Tree α β)
  | branch (children : α → Tree α β) (value : Option β)

namespace Tree

def isEmpty : Tree α β → Bool
  | .empty => true
  | _ => false

def isBranch : Tree α β → Bool
  | .branch _ _ => true
  | _ => false

@[simp] theorem isEmpty_iff (t : Tree α β) : t.isEmpty = true ↔ t = .empty := by
  cases t <;> simp [isEmpty]

def commonPrefixLen [DecidableEq α] : List α → List α → Nat
  | a :: as, b :: bs => if a = b then commonPrefixLen as bs + 1 else 0
  | _, _ => 0

variable [DecidableEq α]

def lookup : Tree α β → List α → Option β
  | .empty, _ => none
  | .leaf path value, key => if path = key then some value else none
  | .ext path next, key => if path <+: key then next.lookup (key.drop path.length) else none
  | .branch _ value, [] => value
  | .branch children _, n :: key => (children n).lookup key

/-- Put a path in front of a tree, merging it into a compressed node below. -/
def compress (path : List α) : Tree α β → Tree α β
  | .empty => .empty
  | .leaf rest value => .leaf (path ++ rest) value
  | .ext rest next => .ext (path ++ rest) next
  | .branch children value => if path = [] then .branch children value
      else .ext path (.branch children value)

/-- The branch under which two entries with diverging paths meet. -/
def splitToBranch (a : List α) (old : β) (b : List α) (new : β) : Tree α β :=
  let children : α → Tree α β := match a with
    | [] => fun _ => .empty
    | n :: rest => Function.update (fun _ => .empty) n (.leaf rest old)
  let value := match a with
    | [] => some old
    | _ :: _ => none
  match b with
  | [] => .branch children (some new)
  | n :: rest => .branch (Function.update children n (.leaf rest new)) value

/-- The branch under which a new entry leaves a compressed path. -/
def splitExtension (n : α) (rest : List α) (next : Tree α β) (b : List α) (new : β) : Tree α β :=
  let children : α → Tree α β := Function.update (fun _ => .empty) n (compress rest next)
  match b with
  | [] => .branch children (some new)
  | m :: rest => .branch (Function.update children m (.leaf rest new)) none

def insert : Tree α β → List α → β → Tree α β
  | .empty, key, value => .leaf key value
  | .leaf path old, key, value =>
    if path = key then .leaf path value
    else
      let cp := commonPrefixLen path key
      compress (path.take cp) (splitToBranch (path.drop cp) old (key.drop cp) value)
  | .ext path next, key, value =>
    if path <+: key then .ext path (next.insert (key.drop path.length) value)
    else
      let cp := commonPrefixLen path key
      match path.drop cp with
      | [] => .ext path next
      | n :: rest => compress (path.take cp) (splitExtension n rest next (key.drop cp) value)
  | .branch children _, [], value => .branch children (some value)
  | .branch children old, n :: key, value =>
    .branch (Function.update children n ((children n).insert key value)) old

open Classical in
/-- Restore canonical shape after an occupant of a branch has gone. -/
noncomputable def collapse (children : α → Tree α β) (value : Option β) : Tree α β :=
  if present : ∃ n, children n ≠ .empty then
    if value = none ∧ ∀ m, m ≠ present.choose → children m = .empty then
      compress [present.choose] (children present.choose)
    else .branch children value
  else match value with
    | none => .empty
    | some v => .leaf [] v

noncomputable def remove : Tree α β → List α → Tree α β
  | .empty, _ => .empty
  | .leaf path value, key => if path = key then .empty else .leaf path value
  | .ext path next, key =>
    if path <+: key then compress path (next.remove (key.drop path.length)) else .ext path next
  | .branch children value, [] =>
    if value = none then .branch children none else collapse children none
  | .branch children value, n :: key =>
    let child := (children n).remove key
    if child.isEmpty then collapse (Function.update children n .empty) value
    else .branch (Function.update children n child) value

/-- Canonical nonempty trees: compressed paths are nonempty and lead to a branch,
and every branch has at least two occupants. -/
def Canonical : Tree α β → Prop
  | .empty => False
  | .leaf _ _ => True
  | .ext path next => path ≠ [] ∧ next.isBranch = true ∧ next.Canonical
  | .branch children value =>
    (∀ n, children n = .empty ∨ (children n).Canonical) ∧
    ((value ≠ none ∧ ∃ n, children n ≠ .empty) ∨
      ∃ n m, n ≠ m ∧ children n ≠ .empty ∧ children m ≠ .empty)

theorem take_commonPrefixLen (a b : List α) :
    a.take (commonPrefixLen a b) = b.take (commonPrefixLen a b) := by
  induction a generalizing b with
  | nil => simp [commonPrefixLen]
  | cons x a ih =>
    cases b with
    | nil => simp [commonPrefixLen]
    | cons y b =>
      by_cases same : x = y
      · subst y; simp [commonPrefixLen,ih b]
      · simp [commonPrefixLen,same]

/-- What is left after the common prefix never continues with the same symbol. -/
theorem drop_commonPrefixLen_ne (a b : List α)
    (ha : a.drop (commonPrefixLen a b) = n :: as) (hb : b.drop (commonPrefixLen a b) = m :: bs) :
    n ≠ m := by
  induction a generalizing b with
  | nil => simp at ha
  | cons x a ih =>
    cases b with
    | nil => simp at hb
    | cons y b =>
      by_cases same : x = y
      · subst y
        simp only [commonPrefixLen, if_true, List.drop_succ_cons] at ha hb
        exact ih b ha hb
      · simp only [commonPrefixLen, if_neg same, List.drop_zero, List.cons.injEq] at ha hb
        rw [← ha.1, ← hb.1]; exact same

def shift (path : List α) (f : List α → Option β) : List α → Option β :=
  fun key => if path <+: key then f (key.drop path.length) else none

@[simp] theorem shift_nil (f : List α → Option β) : shift [] f = f := by
  funext key; simp [shift]

@[simp] theorem shift_none (path : List α) :
    shift path (fun _ => none : List α → Option β) = fun _ => none := by
  funext key; simp [shift]

@[simp] theorem shift_at (path key : List α) (f : List α → Option β) :
    shift path f (path ++ key) = f key := by
  simp [shift]

theorem shift_outside (path key : List α) (f : List α → Option β) (outside : ¬ path <+: key) :
    shift path f key = none := by
  simp [shift,outside]

theorem shift_append (path rest : List α) (f : List α → Option β) :
    shift (path ++ rest) f = shift path (shift rest f) := by
  funext key
  by_cases under : path <+: key
  · obtain ⟨tail, rfl⟩ := under
    simp [shift, List.prefix_append_right_inj]
  · rw [shift_outside path key _ under, shift_outside]
    intro both
    exact under ((List.prefix_append path rest).trans both)

theorem shift_update (path key : List α) (f : List α → Option β) (value : Option β) :
    shift path (Function.update f key value) = Function.update (shift path f) (path ++ key) value := by
  funext other
  by_cases under : path <+: other
  · obtain ⟨tail, rfl⟩ := under
    simp [Function.update_apply]
  · rw [shift_outside path other _ under, Function.update_of_ne, shift_outside path other _ under]
    rintro rfl
    exact under (List.prefix_append path key)

theorem shift_injective (path : List α) {f g : List α → Option β} (same : shift path f = shift path g) :
    f = g := by
  funext key
  simpa using congrFun same (path ++ key)

@[simp] theorem lookup_empty : (Tree.empty : Tree α β).lookup = fun _ => none := by
  funext key; rfl

@[simp] theorem lookup_leaf (path : List α) (value : β) :
    (Tree.leaf path value).lookup = Function.update (fun _ => none) path (some value) := by
  funext key
  simp [lookup, Function.update_apply, eq_comm]

@[simp] theorem lookup_ext (path : List α) (next : Tree α β) :
    (Tree.ext path next).lookup = shift path next.lookup := by
  funext key; rfl

@[simp] theorem lookup_branch_nil (children : α → Tree α β) (value : Option β) :
    (Tree.branch children value).lookup [] = value := rfl

@[simp] theorem lookup_branch_cons (children : α → Tree α β) (value : Option β) (n : α)
    (key : List α) : (Tree.branch children value).lookup (n :: key) = (children n).lookup key := rfl

/-- Compression moves every entry below the path and adds none. -/
theorem lookup_compress (path : List α) (t : Tree α β) :
    (compress path t).lookup = shift path t.lookup := by
  cases t with
  | empty => simp [compress]
  | leaf rest value => simp [compress,shift_update]
  | ext rest next => simp [compress,shift_append]
  | branch children value =>
    by_cases nil : path = []
    · subst path; simp [compress]
    · simp [compress,nil]

/-- Replacing one child of a branch updates the entries under its symbol. -/
theorem lookup_branch_update (children : α → Tree α β) (value : Option β) (n : α)
    (child : Tree α β) (key : List α) (new : Option β)
    (updated : child.lookup = Function.update (children n).lookup key new) :
    (Tree.branch (Function.update children n child) value).lookup =
      Function.update (Tree.branch children value).lookup (n :: key) new := by
  funext other
  cases other with
  | nil => simp
  | cons m rest =>
    by_cases same : m = n
    · subst m; simp [updated, Function.update_apply]
    · simp [same]

theorem lookup_branch_value (children : α → Tree α β) (old value : Option β) :
    (Tree.branch children value).lookup =
      Function.update (Tree.branch children old).lookup [] value := by
  funext other
  cases other <;> simp

/-- Two remainders after a common prefix never start with the same symbol. -/
def Diverge (a b : List α) : Prop := ∀ n m as bs, a = n :: as → b = m :: bs → n ≠ m

theorem lookup_empty_branch : (Tree.branch (fun _ => .empty) none : Tree α β).lookup = fun _ => none := by
  funext key
  cases key <;> simp

theorem lookup_splitToBranch (a b : List α) (old new : β) (apart : a ≠ b) (diverge : Diverge a b) :
    (splitToBranch a old b new).lookup =
      Function.update (Tree.leaf a old).lookup b (some new) := by
  cases a with
  | nil =>
    cases b with
    | nil => exact absurd rfl apart
    | cons m bs =>
      rw [splitToBranch, lookup_branch_update _ _ m _ bs (some new) (by simp),
        lookup_branch_value _ none, lookup_empty_branch, lookup_leaf]
  | cons n as =>
    have first : (Tree.branch (Function.update (fun _ => .empty) n (.leaf as old)) none :
        Tree α β).lookup = (Tree.leaf (n :: as) old).lookup := by
      rw [lookup_branch_update _ _ n _ as (some old) (by simp), lookup_empty_branch, lookup_leaf]
    cases b with
    | nil => rw [splitToBranch, lookup_branch_value _ none, first]
    | cons m bs =>
      have other : m ≠ n := (diverge n m as bs rfl rfl).symm
      rw [splitToBranch, lookup_branch_update _ _ m _ bs (some new) (by simp [other]), first]

theorem lookup_splitExtension (n : α) (rest : List α) (next : Tree α β) (b : List α) (new : β)
    (diverge : Diverge (n :: rest) b) : (splitExtension n rest next b new).lookup =
      Function.update (shift (n :: rest) next.lookup) b (some new) := by
  have first : (Tree.branch (Function.update (fun _ => .empty) n (compress rest next)) none :
      Tree α β).lookup = shift (n :: rest) next.lookup := by
    funext key
    cases key with
    | nil => simp [shift]
    | cons m key =>
      by_cases same : m = n
      · subst m; simp [lookup_compress, shift]
      · simp [same, shift, Ne.symm same]
  cases b with
  | nil => rw [splitExtension, lookup_branch_value _ none, first]
  | cons m bs =>
    have other : m ≠ n := (diverge n m rest bs rfl rfl).symm
    rw [splitExtension, lookup_branch_update _ _ m _ bs (some new) (by simp [other]), first]

/-- A path that is no prefix of the key leaves it at some symbol. -/
theorem split_outside (path key : List α) (outside : ¬ path <+: key) :
    ∃ n rest, path.drop (commonPrefixLen path key) = n :: rest ∧
      path = path.take (commonPrefixLen path key) ++ n :: rest := by
  cases rest : path.drop (commonPrefixLen path key) with
  | nil =>
    refine absurd ?_ outside
    have whole := List.take_append_drop (commonPrefixLen path key) path
    rw [rest, List.append_nil, take_commonPrefixLen] at whole
    rw [← whole]
    exact List.take_prefix _ _
  | cons n rest' => exact ⟨n, rest', rfl, by rw [← rest, List.take_append_drop]⟩

theorem diverge_commonPrefix (path key : List α) :
    Diverge (path.drop (commonPrefixLen path key)) (key.drop (commonPrefixLen path key)) :=
  fun _ _ _ _ ha hb => drop_commonPrefixLen_ne path key ha hb

theorem key_split (path key : List α) :
    path.take (commonPrefixLen path key) ++ key.drop (commonPrefixLen path key) = key := by
  rw [take_commonPrefixLen, List.take_append_drop]

theorem drop_ne (path key : List α) (apart : path ≠ key) :
    path.drop (commonPrefixLen path key) ≠ key.drop (commonPrefixLen path key) := by
  intro equal
  apply apart
  rw [← key_split path key, ← equal, List.take_append_drop]

theorem isBranch_splitToBranch (a b : List α) (old new : β) :
    (splitToBranch a old b new).isBranch = true := by
  cases b <;> rfl

theorem lookup_insert (t : Tree α β) (key : List α) (value : β) :
    (t.insert key value).lookup = Function.update t.lookup key (some value) := by
  induction t generalizing key with
  | empty => simp [insert]
  | leaf path old =>
    by_cases same : path = key
    · simp [insert,same]
    · have apart := drop_ne path key same
      simp only [insert, if_neg same]
      rw [lookup_compress, lookup_splitToBranch _ _ _ _ apart (diverge_commonPrefix path key),
        shift_update, lookup_leaf, shift_update, shift_none, key_split, List.take_append_drop,
        lookup_leaf]
  | ext path next ih =>
    by_cases under : path <+: key
    · obtain ⟨tail, rfl⟩ := under
      simp [insert,ih,shift_update]
    · obtain ⟨n, rest, leaves, whole⟩ := split_outside path key under
      simp only [insert, if_neg under, leaves]
      rw [lookup_compress, lookup_splitExtension _ _ _ _ _ (leaves ▸ diverge_commonPrefix path key),
        shift_update, key_split, ← shift_append, ← whole, lookup_ext]
  | branch children old ih =>
    cases key with
    | nil => exact lookup_branch_value _ _ _
    | cons n key => exact lookup_branch_update _ _ _ _ _ _ (ih n key)

/-- Collapsing a branch changes its shape and none of its entries. -/
theorem lookup_collapse (children : α → Tree α β) (value : Option β) :
    (collapse children value).lookup = (Tree.branch children value).lookup := by
  unfold collapse
  split
  · rename_i present
    split
    · rename_i single
      obtain ⟨rfl, others⟩ := single
      rw [lookup_compress]
      funext key
      cases key with
      | nil => simp [shift]
      | cons m key =>
        by_cases same : m = present.choose
        · simp [shift,← same]
        · simp [shift,others m same,Ne.symm same]
    · rfl
  · rename_i absent
    have none : ∀ n, children n = .empty := by
      intro n
      by_contra occupied
      exact absent ⟨n, occupied⟩
    cases value with
    | none =>
      funext key
      cases key <;> simp [none]
    | some v =>
      funext key
      cases key <;> simp [none]

theorem lookup_remove (t : Tree α β) (key : List α) :
    (t.remove key).lookup = Function.update t.lookup key none := by
  induction t generalizing key with
  | empty => funext other; simp [remove, Function.update_apply]
  | leaf path value =>
    by_cases same : path = key
    · simp [remove,same]
    · have absent : (Tree.leaf path value).lookup key = none := by simp [Ne.symm same]
      rw [remove, if_neg same, Function.update_eq_self_iff.mpr absent.symm]
  | ext path next ih =>
    by_cases under : path <+: key
    · obtain ⟨tail, rfl⟩ := under
      simp [remove,ih,lookup_compress,shift_update]
    · simp only [remove, if_neg under, lookup_ext]
      rw [Function.update_eq_self_iff.mpr (shift_outside _ _ _ under).symm]
  | branch children value ih =>
    cases key with
    | nil =>
      by_cases absent : value = none
      · subst value
        simp only [remove, if_true]
        exact lookup_branch_value _ _ _
      · simp only [remove, if_neg absent, lookup_collapse]
        exact lookup_branch_value _ _ _
    | cons n key =>
      have updated := lookup_branch_update children value n _ key none (ih n key)
      by_cases gone : (children n).remove key = .empty
      · rw [gone] at updated
        simpa [remove,gone,isEmpty,lookup_collapse] using updated
      · simpa [remove,gone] using updated

def Proper (t : Tree α β) : Prop := t = .empty ∨ t.Canonical

omit [DecidableEq α] in
theorem canonical_compress (path : List α) (t : Tree α β) (canonical : t.Canonical) :
    (compress path t).Canonical := by
  cases t with
  | empty => exact canonical
  | leaf rest value => trivial
  | ext rest next =>
    obtain ⟨nonempty, branching, next⟩ := canonical
    exact ⟨by simp [nonempty], branching, next⟩
  | branch children value =>
    by_cases nil : path = []
    · simpa [compress,nil] using canonical
    · simp only [compress, if_neg nil]
      exact ⟨nil, rfl, canonical⟩

omit [DecidableEq α] in
theorem proper_compress (path : List α) (t : Tree α β) (proper : t.Proper) :
    (compress path t).Proper := by
  rcases proper with rfl | canonical
  · exact .inl rfl
  · exact .inr (canonical_compress path t canonical)

theorem proper_update (children : α → Tree α β) (n : α) (child : Tree α β)
    (proper : ∀ m, (children m).Proper) (childProper : child.Proper) (m : α) :
    (Function.update children n child m).Proper := by
  by_cases same : m = n
  · subst m; simpa using childProper
  · simpa [same] using proper m

omit [DecidableEq α] in
theorem Canonical.ne_empty {t : Tree α β} (canonical : t.Canonical) : t ≠ .empty := by
  rintro rfl
  exact canonical

/-- A branch stays canonical when one child is replaced by a canonical tree. -/
theorem canonical_branch_update (children : α → Tree α β) (value : Option β) (n : α)
    (child : Tree α β) (branch : (Tree.branch children value).Canonical)
    (childCanonical : child.Canonical) :
    (Tree.branch (Function.update children n child) value).Canonical := by
  obtain ⟨proper, occupants⟩ := branch
  refine ⟨proper_update children n child proper (.inr childCanonical), ?_⟩
  have kept : ∀ m, children m ≠ .empty → Function.update children n child m ≠ .empty := by
    intro m occupied
    by_cases same : m = n
    · subst m; simpa using childCanonical.ne_empty
    · simpa [same] using occupied
  rcases occupants with ⟨present, m, occupied⟩ | ⟨m, k, apart, first, second⟩
  · exact .inl ⟨present, m, kept m occupied⟩
  · exact .inr ⟨m, k, apart, kept m first, kept k second⟩

theorem canonical_splitToBranch (a b : List α) (old new : β) (apart : a ≠ b)
    (diverge : Diverge a b) : (splitToBranch a old b new).Canonical := by
  have noChild : ∀ m, ((fun _ => Tree.empty : α → Tree α β) m).Proper := fun _ => .inl rfl
  cases a with
  | nil =>
    cases b with
    | nil => exact absurd rfl apart
    | cons m bs =>
      exact ⟨proper_update _ m _ noChild (.inr trivial), .inl ⟨by simp, m, by simp⟩⟩
  | cons n as =>
    have oneChild := proper_update _ n (.leaf as old) noChild (.inr trivial)
    cases b with
    | nil => exact ⟨oneChild, .inl ⟨by simp, n, by simp⟩⟩
    | cons m bs =>
      have other : n ≠ m := diverge n m as bs rfl rfl
      exact ⟨proper_update _ m _ oneChild (.inr trivial),
        .inr ⟨n, m, other, by simp [other], by simp⟩⟩

theorem canonical_splitExtension (n : α) (rest : List α) (next : Tree α β) (b : List α) (new : β)
    (canonical : next.Canonical) (diverge : Diverge (n :: rest) b) :
    (splitExtension n rest next b new).Canonical := by
  have below := canonical_compress rest next canonical
  have oneChild := proper_update (fun _ => .empty) n _ (fun _ => .inl rfl) (.inr below)
  cases b with
  | nil => exact ⟨oneChild, .inl ⟨by simp, n, by simpa using below.ne_empty⟩⟩
  | cons m bs =>
    have other : n ≠ m := diverge n m rest bs rfl rfl
    exact ⟨proper_update _ m _ oneChild (.inr trivial),
      .inr ⟨n, m, other, by simpa [other] using below.ne_empty, by simp⟩⟩

theorem isBranch_insert (t : Tree α β) (key : List α) (value : β) (branching : t.isBranch = true) :
    (t.insert key value).isBranch = true := by
  cases t with
  | branch children old => cases key <;> rfl
  | _ => simp [isBranch] at branching

theorem canonical_insert (t : Tree α β) (key : List α) (value : β) (proper : t.Proper) :
    (t.insert key value).Canonical := by
  induction t generalizing key with
  | empty => trivial
  | leaf path old =>
    by_cases same : path = key
    · simp [insert,same,Canonical]
    · have apart := drop_ne path key same
      simp only [insert, if_neg same]
      exact canonical_compress _ _ (canonical_splitToBranch _ _ _ _ apart (diverge_commonPrefix _ _))
  | ext path next ih =>
    obtain ⟨nonempty, branching, canonical⟩ := proper.resolve_left (by simp)
    by_cases under : path <+: key
    · simp only [insert, if_pos under]
      exact ⟨nonempty, isBranch_insert _ _ _ branching, ih _ (.inr canonical)⟩
    · obtain ⟨n, rest, leaves, -⟩ := split_outside path key under
      simp only [insert, if_neg under, leaves]
      exact canonical_compress _ _
        (canonical_splitExtension _ _ _ _ _ canonical (leaves ▸ diverge_commonPrefix path key))
  | branch children old ih =>
    have canonical := proper.resolve_left (by simp)
    cases key with
    | nil =>
      obtain ⟨childProper, occupants⟩ := canonical
      refine ⟨childProper, ?_⟩
      rcases occupants with ⟨-, n, occupied⟩ | two
      · exact .inl ⟨by simp, n, occupied⟩
      · exact .inr two
    | cons n key => exact canonical_branch_update _ _ _ _ canonical (ih n key (canonical.1 n))

omit [DecidableEq α] in
theorem proper_collapse (children : α → Tree α β) (value : Option β)
    (proper : ∀ n, (children n).Proper) : (collapse children value).Proper := by
  unfold collapse
  split
  · rename_i present
    split
    · exact proper_compress _ _ (proper _)
    · rename_i several
      refine .inr ⟨proper, ?_⟩
      by_cases held : value = none
      · right
        simp only [held, true_and, not_forall] at several
        obtain ⟨m, other, occupied⟩ := several
        exact ⟨m, present.choose, other, occupied, present.choose_spec⟩
      · exact .inl ⟨held, present⟩
  · cases value with
    | none => exact .inl rfl
    | some v => exact .inr trivial

theorem proper_remove (t : Tree α β) (key : List α) (proper : t.Proper) : (t.remove key).Proper := by
  induction t generalizing key with
  | empty => exact .inl rfl
  | leaf path value =>
    by_cases same : path = key
    · exact .inl (by simp [remove,same])
    · simpa [remove,same] using proper
  | ext path next ih =>
    obtain ⟨nonempty, branching, canonical⟩ := proper.resolve_left (by simp)
    by_cases under : path <+: key
    · simp only [remove, if_pos under]
      exact proper_compress _ _ (ih _ (.inr canonical))
    · simpa [remove,under] using proper
  | branch children value ih =>
    have canonical := proper.resolve_left (by simp)
    cases key with
    | nil =>
      by_cases absent : value = none
      · subst value; simpa [remove] using proper
      · simp only [remove, if_neg absent]
        exact proper_collapse _ _ canonical.1
    | cons n key =>
      by_cases gone : (children n).remove key = .empty
      · simp only [remove, gone, isEmpty, if_true]
        exact proper_collapse _ _ (proper_update _ _ _ canonical.1 (.inl rfl))
      · have kept := (ih n key (canonical.1 n)).resolve_left gone
        have occupied : ¬ ((children n).remove key).isEmpty = true := by simpa using gone
        simp only [remove, if_neg occupied]
        exact .inr (canonical_branch_update _ _ _ _ canonical kept)

theorem Canonical.occupied {t : Tree α β} (canonical : t.Canonical) :
    ∃ key, t.lookup key ≠ none := by
  induction t with
  | empty => exact canonical.elim
  | leaf path value => exact ⟨path, by simp⟩
  | ext path next ih =>
    obtain ⟨key, present⟩ := ih canonical.2.2
    exact ⟨path ++ key, by simpa using present⟩
  | branch children value ih =>
    obtain ⟨proper, ⟨held, -⟩ | ⟨n, -, -, occupied, -⟩⟩ := canonical
    · exact ⟨[], by simpa using held⟩
    · obtain ⟨key, present⟩ := ih n ((proper n).resolve_left occupied)
      exact ⟨n :: key, by simpa using present⟩

theorem child_occupied (children : α → Tree α β) (value : Option β) (n : α)
    (canonical : (Tree.branch children value).Canonical) (occupied : children n ≠ .empty) :
    ∃ key, (Tree.branch children value).lookup (n :: key) ≠ none := by
  obtain ⟨key, present⟩ := ((canonical.1 n).resolve_left occupied).occupied
  exact ⟨key, by simpa using present⟩

/-- The entries of a canonical branch do not all start with one symbol. -/
theorem branch_escapes (children : α → Tree α β) (value : Option β) (n : α)
    (canonical : (Tree.branch children value).Canonical) :
    ∃ key, (Tree.branch children value).lookup key ≠ none ∧ ¬ [n] <+: key := by
  rcases canonical.2 with ⟨held, -⟩ | ⟨m, k, apart, first, second⟩
  · exact ⟨[], by simpa using held, by simp⟩
  · by_cases same : m = n
    · obtain ⟨key, present⟩ := child_occupied children value k canonical second
      exact ⟨k :: key, present, by simpa [← same] using apart⟩
    · obtain ⟨key, present⟩ := child_occupied children value m canonical first
      exact ⟨m :: key, present, by simpa using Ne.symm same⟩

theorem branch_second (children : α → Tree α β) (value : Option β) (key : List α)
    (canonical : (Tree.branch children value).Canonical) :
    ∃ other, other ≠ key ∧ (Tree.branch children value).lookup other ≠ none := by
  cases key with
  | cons n key =>
    obtain ⟨other, present, outside⟩ := branch_escapes children value n canonical
    exact ⟨other, by rintro rfl; exact outside (by simp), present⟩
  | nil =>
    have child : ∃ n, children n ≠ .empty := by
      rcases canonical.2 with ⟨-, some⟩ | ⟨n, -, -, occupied, -⟩
      · exact some
      · exact ⟨n, occupied⟩
    obtain ⟨n, occupied⟩ := child
    obtain ⟨key, present⟩ := child_occupied children value n canonical occupied
    exact ⟨n :: key, by simp, present⟩

/-- A canonical tree that is not a leaf holds two entries. -/
theorem ext_second (path : List α) (next : Tree α β) (key : List α)
    (canonical : (Tree.ext path next).Canonical) :
    ∃ other, other ≠ key ∧ (Tree.ext path next).lookup other ≠ none := by
  obtain ⟨-, branching, below⟩ := canonical
  cases next with
  | branch children value =>
    obtain ⟨other, apart, present⟩ := branch_second children value (key.drop path.length) below
    refine ⟨path ++ other, ?_, by simpa using present⟩
    rintro rfl
    exact apart (by simp)
  | _ => simp [isBranch] at branching

theorem leaf_single (path : List α) (value : β) (t : Tree α β)
    (second : ∃ other, other ≠ path ∧ t.lookup other ≠ none) :
    (Tree.leaf path value).lookup ≠ t.lookup := by
  intro same
  obtain ⟨other, apart, present⟩ := second
  rw [← same] at present
  simp [apart] at present

theorem ext_ne_branch (path : List α) (next : Tree α β) (children : α → Tree α β)
    (value : Option β) (nonempty : path ≠ []) (canonical : (Tree.branch children value).Canonical) :
    (Tree.ext path next).lookup ≠ (Tree.branch children value).lookup := by
  intro same
  obtain ⟨n, rest, rfl⟩ := List.exists_cons_of_ne_nil nonempty
  obtain ⟨key, present, outside⟩ := branch_escapes children value n canonical
  rw [← same, lookup_ext, shift_outside] at present
  · exact present rfl
  · intro under
    exact outside (List.IsPrefix.trans (by simp) under)

/-- Two compressed paths over the same entries are equal: neither can be longer,
since a branch does not stay under one symbol. -/
theorem ext_path_le (path other : List α) (next below : Tree α β)
    (canonical : (Tree.ext path next).Canonical) (otherCanonical : (Tree.ext other below).Canonical)
    (same : (Tree.ext path next).lookup = (Tree.ext other below).lookup) : other <+: path := by
  obtain ⟨key, present⟩ := otherCanonical.occupied
  have within : path <+: key ∧ other <+: key := by
    constructor <;> by_contra outside
    · rw [← same, lookup_ext, shift_outside _ _ _ outside] at present; exact present rfl
    · rw [lookup_ext, shift_outside _ _ _ outside] at present; exact present rfl
  rcases List.prefix_or_prefix_of_prefix within.2 within.1 with shorter | longer
  · exact shorter
  · obtain ⟨tail, rfl⟩ := longer
    rw [lookup_ext, lookup_ext, shift_append] at same
    have entries := shift_injective path same
    cases tail with
    | nil => simp
    | cons n tail =>
      obtain ⟨-, branching, nextCanonical⟩ := canonical
      cases next with
      | branch children value =>
        exact absurd entries.symm (by
          rw [← lookup_ext]
          exact ext_ne_branch _ _ _ _ (by simp) nextCanonical)
      | _ => simp [isBranch] at branching

theorem Canonical.lookup_ne_empty {t : Tree α β} (canonical : t.Canonical) :
    t.lookup ≠ (Tree.empty : Tree α β).lookup := by
  intro same
  obtain ⟨key, present⟩ := canonical.occupied
  rw [same] at present
  exact present rfl

/-- A map has one canonical tree. -/
theorem canonical_unique (t u : Tree α β) (first : t.Canonical) (second : u.Canonical)
    (same : t.lookup = u.lookup) : t = u := by
  induction t generalizing u with
  | empty => exact first.elim
  | leaf path value =>
    cases u with
    | empty => exact second.elim
    | leaf other new =>
      have at_path := congrFun same path
      by_cases equal : path = other
      · subst other; simpa using at_path
      · simp [equal] at at_path
    | ext other next => exact absurd same (leaf_single _ _ _ (ext_second _ _ _ second))
    | branch children held => exact absurd same (leaf_single _ _ _ (branch_second _ _ _ second))
  | ext path next ih =>
    cases u with
    | empty => exact second.elim
    | leaf other new => exact absurd same.symm (leaf_single _ _ _ (ext_second _ _ _ first))
    | ext other below =>
      have equal : path = other :=
        (ext_path_le _ _ _ _ second first same.symm).eq_of_length_le
          (ext_path_le _ _ _ _ first second same).length_le
      subst other
      rw [lookup_ext, lookup_ext] at same
      rw [ih below first.2.2 second.2.2 (shift_injective path same)]
    | branch children held => exact absurd same (ext_ne_branch _ _ _ _ first.1 second)
  | branch children value ih =>
    cases u with
    | empty => exact second.elim
    | leaf other new => exact absurd same.symm (leaf_single _ _ _ (branch_second _ _ _ first))
    | ext other next => exact absurd same.symm (ext_ne_branch _ _ _ _ second.1 first)
    | branch others held =>
      have values : value = held := by simpa using congrFun same []
      have below : ∀ n, (children n).lookup = (others n).lookup := by
        intro n
        funext key
        simpa using congrFun same (n :: key)
      have equal : children = others := by
        funext n
        rcases first.1 n with left | left <;> rcases second.1 n with right | right
        · rw [left, right]
        · exact absurd ((below n).symm.trans (by rw [left])) right.lookup_ne_empty
        · exact absurd ((below n).trans (by rw [right])) left.lookup_ne_empty
        · exact ih n (others n) left right (below n)
      rw [values, equal]

theorem proper_unique (t u : Tree α β) (first : t.Proper) (second : u.Proper)
    (same : t.lookup = u.lookup) : t = u := by
  rcases first with rfl | left <;> rcases second with rfl | right
  · rfl
  · exact absurd same.symm right.lookup_ne_empty
  · exact absurd same left.lookup_ne_empty
  · exact canonical_unique t u left right same

/-- Collapsing leaves a branch that is already canonical as it is. -/
theorem collapse_canonical (children : α → Tree α β) (value : Option β)
    (canonical : (Tree.branch children value).Canonical) :
    collapse children value = .branch children value :=
  proper_unique _ _ (proper_collapse _ _ canonical.1) (.inr canonical) (lookup_collapse _ _)

end Tree
end L1.PatriciaTree
