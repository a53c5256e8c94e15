import L1.Mpt

/-! The node table refines canonical trees: an operation on the hash of a tree returns
the hash of the updated tree and leaves all of its nodes in the table. Loads return
what was stored because no two stored payloads share a hash. -/
namespace L1.Mpt

open PatriciaTree (Tree)
open PatriciaTree.Tree (commonPrefixLen compress)
open TrieM

variable [Blake3]

theorem grows_load (h : Hash) : (load h).Grows := by
  intro σ
  unfold load
  split
  · exact List.suffix_refl σ
  · split <;> exact List.suffix_refl σ

theorem grows_store (node : Node) : (store node).Grows := fun σ => List.suffix_cons _ σ

theorem grows_extend (path : List Nibble) (h : Hash) : (extend path h).Grows := by
  unfold extend
  split
  · exact grows_pure h
  · exact grows_store _

theorem grows_place (slots : (Nibble → Option Hash) × Option Bytes) (rest : List Nibble)
    (value : Bytes) : (place slots rest value).Grows := by
  cases rest with
  | nil =>
    simp only [place]
    split
    · exact grows_pure _
    · exact grows_panic
  | cons n rest => exact grows_bind (grows_store _) fun _ => grows_pure _

theorem grows_splitToBranch (a b : List Nibble) (aVal bVal : Bytes) :
    (splitToBranch a aVal b bVal).Grows :=
  grows_bind (grows_place _ _ _) fun _ => grows_bind (grows_place _ _ _) fun _ => grows_store _

theorem grows_splitExtension (path : List Nibble) (next : Hash) (key : List Nibble)
    (value : Bytes) : (splitExtension path next key value).Grows := by
  unfold splitExtension
  dsimp only
  split
  · exact grows_panic
  · refine grows_bind (grows_extend _ _) fun _ => ?_
    split
    · exact grows_bind (grows_store _) fun _ => grows_extend _ _
    · exact grows_bind (grows_store _) fun _ => grows_bind (grows_store _) fun _ =>
        grows_extend _ _

theorem grows_insert (depth : Nat) (h : Hash) (key : List Nibble) (value : Bytes) :
    (insert depth h key value).Grows := by
  induction depth generalizing h key with
  | zero => exact grows_panic
  | succ depth ih =>
    refine grows_bind (grows_load h) fun node => ?_
    cases node with
    | empty => exact grows_store _
    | leaf path oldVal =>
      dsimp only
      split
      · exact grows_store _
      · exact grows_bind (grows_splitToBranch _ _ _ _) fun _ => grows_extend _ _
    | extension path next =>
      dsimp only
      split
      · exact grows_bind (ih _ _) fun _ => grows_store _
      · exact grows_splitExtension _ _ _ _
    | branch children brVal =>
      cases key with
      | nil => exact grows_store _
      | cons n rest => exact grows_bind (ih _ _) fun _ => grows_store _

theorem grows_prefixChild (nibble : Nibble) (h : Hash) : (prefixChild nibble h).Grows := by
  refine grows_bind (grows_load h) fun node => ?_
  cases node <;> exact grows_store _

theorem grows_collapseBranch (children : Nibble → Option Hash) (value : Option Bytes) :
    (collapseBranch children value).Grows := by
  unfold collapseBranch
  split
  · exact grows_pure _
  · exact grows_bind (grows_store _) fun _ => grows_pure _
  · exact grows_bind (grows_prefixChild _ _) fun _ => grows_pure _
  · exact grows_bind (grows_store _) fun _ => grows_pure _

theorem grows_normalizeExtension (path : List Nibble) (next : Hash) :
    (normalizeExtension path next).Grows := by
  refine grows_bind (grows_load next) fun node => ?_
  cases node <;> exact grows_store _

theorem grows_keep (node : Node) : (do return some (← store node) : TrieM (Option Hash)).Grows :=
  grows_bind (grows_store node) fun _ => grows_pure _

theorem grows_removeExtension (path : List Nibble) (below : Option Hash) : (match below with
      | none => pure none
      | some newNext => do return some (← normalizeExtension path newNext) :
      TrieM (Option Hash)).Grows := by
  cases below with
  | none => exact grows_pure _
  | some newNext => exact grows_bind (grows_normalizeExtension _ _) fun _ => grows_pure _

theorem grows_removeBranch (children : Nibble → Option Hash) (value : Option Bytes) (n : Nibble)
    (below : Option Hash) : (match below with
      | none => collapseBranch (Function.update children n none) value
      | some newC => do
        return some (← store (.branch (Function.update children n (some newC)) value)) :
      TrieM (Option Hash)).Grows := by
  cases below with
  | none => exact grows_collapseBranch _ _
  | some newC => exact grows_keep _

theorem grows_remove (depth : Nat) (h : Hash) (key : List Nibble) : (remove depth h key).Grows := by
  induction depth generalizing h key with
  | zero => exact grows_panic
  | succ depth ih =>
    refine grows_bind (grows_load h) fun node => ?_
    cases node with
    | empty => exact grows_pure _
    | leaf path value =>
      dsimp only
      split
      · exact grows_pure _
      · exact grows_keep _
    | extension path next =>
      dsimp only
      split
      · exact grows_bind (ih _ _) (grows_removeExtension path)
      · exact grows_keep _
    | branch children value =>
      cases key with
      | nil =>
        dsimp only
        split
        · exact grows_keep _
        · exact grows_collapseBranch _ _
      | cons n rest =>
        dsimp only
        split
        · exact grows_keep _
        · exact grows_bind (ih _ _) (grows_removeBranch children value n)

/-- No two different stored payloads have the same hash. -/
def NoCollision (σ : NodeStore) : Prop := ∀ p ∈ σ,∀ q ∈ σ,p.1 = q.1 → p.2 = q.2

variable {σ : NodeStore} {t next : Tree Nibble Bytes}

variable {σ' : NodeStore} {m : TrieM Hash} {u : Tree Nibble Bytes} {h : Hash} {node : Node}

omit [Blake3] in
theorem NoCollision.of_suffix (safe : NoCollision σ') (older : σ <:+ σ') : NoCollision σ :=
  fun p hp q hq => safe p (older.subset hp) q (older.subset hq)

omit [Blake3] in
theorem lookup_of_mem (σ : NodeStore) (safe : NoCollision σ) (entry : Hash × Bytes)
    (member : entry ∈ σ) : σ.lookup entry.1 = some entry.2 := by
  induction σ with
  | nil => cases member
  | cons head σ ih =>
    by_cases same : entry.1 = head.1
    · have payload := safe entry member head (List.mem_cons_self ..) same
      rw [List.lookup_cons,same,beq_self_eq_true,payload]
    · have older : entry ∈ σ := by
        rcases List.mem_cons.mp member with rfl | older
        · exact absurd rfl same
        · exact older
      rw [List.lookup_cons,beq_eq_false_iff_ne.mpr same]
      exact ih (safe.of_suffix (List.suffix_cons _ _)) older

def HasNode (σ : NodeStore) (node : Node) : Prop := (hashNode node,serializeNode node) ∈ σ

theorem load_of (σ : NodeStore) (safe : NoCollision σ) (node : Node) (member : HasNode σ node)
    (fits : node.Fits) : load (hashNode node) σ = (some node,σ) := by
  unfold load
  rw [lookup_of_mem σ safe _ member]
  simp only [hashNode,if_true,deserialize_serializeNode node fits]

def nodeOf : Tree Nibble Bytes → Node
  | .empty => .empty
  | .leaf path value => .leaf path value
  | .ext path next => .extension path (hashNode (nodeOf next))
  | .branch children value =>
    .branch (fun n => if (children n).isEmpty then none else some (hashNode (nodeOf (children n)))) value

def treeHash (t : Tree Nibble Bytes) : Hash := hashNode (nodeOf t)

def childRef (t : Tree Nibble Bytes) : Option Hash := if t.isEmpty then none else some (treeHash t)

theorem nodeOf_ext (path : List Nibble) (next : Tree Nibble Bytes) :
    nodeOf (.ext path next) = .extension path (treeHash next) := rfl

theorem nodeOf_branch (children : Nibble → Tree Nibble Bytes) (value : Option Bytes) :
    nodeOf (.branch children value) = .branch (fun n => childRef (children n)) value := rfl

@[simp] theorem childRef_empty : childRef .empty = none := rfl

@[simp] theorem childRef_leaf (path : List Nibble) (value : Bytes) :
    childRef (.leaf path value) = some (treeHash (.leaf path value)) := rfl

theorem childRef_of_ne (occupied : t ≠ .empty) : childRef t = some (treeHash t) := by
  simp [childRef,occupied]

theorem childRef_eq_none : childRef t = none ↔ t = .empty := by
  by_cases empty : t = .empty
  · simp [empty]
  · simp [childRef_of_ne empty,empty]

theorem childRef_update (children : Nibble → Tree Nibble Bytes) (n : Nibble)
    (child : Tree Nibble Bytes) : (fun m => childRef (Function.update children n child m)) =
      Function.update (fun m => childRef (children m)) n (childRef child) := by
  funext m
  by_cases same : m = n
  · subst m; simp
  · simp [same]

def Stored (σ : NodeStore) : Tree Nibble Bytes → Prop
  | .empty => HasNode σ .empty
  | .leaf path value => HasNode σ (.leaf path value)
  | .ext path next => HasNode σ (nodeOf (.ext path next)) ∧ Stored σ next
  | .branch children value =>
    HasNode σ (nodeOf (.branch children value)) ∧ ∀ n,Stored σ (children n)

theorem Stored.mono (older : σ <:+ σ') (stored : Stored σ t) : Stored σ' t := by
  induction t with
  | empty => exact older.subset stored
  | leaf path value => exact older.subset stored
  | ext path next ih => exact ⟨older.subset stored.1,ih stored.2⟩
  | branch children value ih => exact ⟨older.subset stored.1,fun n => ih n (stored.2 n)⟩

theorem Stored.append (stored : Stored σ t) (newer : NodeStore) : Stored (σ ++ newer) t := by
  induction t with
  | empty => exact List.mem_append_left _ stored
  | leaf path value => exact List.mem_append_left _ stored
  | ext path next ih => exact ⟨List.mem_append_left _ stored.1,ih stored.2⟩
  | branch children value ih =>
    exact ⟨List.mem_append_left _ stored.1,fun n => ih n (stored.2 n)⟩

theorem Stored.root (stored : Stored σ t) : HasNode σ (nodeOf t) := by
  cases t with
  | empty => exact stored
  | leaf path value => exact stored
  | ext path next => exact stored.1
  | branch children value => exact stored.1

/-- Every entry is short enough for its path and value lengths to survive the cast. -/
def Short (t : Tree Nibble Bytes) : Prop :=
  ∀ key value,t.lookup key = some value → key.length / 2 + 1 < 2^32 ∧ value.length < 2^32

omit [Blake3] in
theorem Short.ext {path : List Nibble} (short : Short (.ext path next)) : Short next := by
  intro key value found
  obtain ⟨path_fits,value_fits⟩ := short (path ++ key) value (by simpa using found)
  simp only [List.length_append] at path_fits
  exact ⟨by omega,value_fits⟩

omit [Blake3] in
theorem Short.child {children : Nibble → Tree Nibble Bytes} {value : Option Bytes}
    (short : Short (.branch children value)) (n : Nibble) : Short (children n) := by
  intro key found present
  obtain ⟨path_fits,value_fits⟩ := short (n :: key) found (by simpa using present)
  simp only [List.length_cons] at path_fits
  exact ⟨by omega,value_fits⟩

omit [Blake3] in
theorem short_update {children : Nibble → Tree Nibble Bytes} (n : Nibble)
    (short : ∀ m,Short (children m)) (m : Nibble) : Short (Function.update children n .empty m) := by
  by_cases same : m = n
  · subst m
    intro key value found
    simp at found
  · simpa [same] using short m

omit [Blake3] in
theorem Short.remove (short : Short t) (key : List Nibble) : Short (t.remove key) := by
  intro other value found
  rw [Tree.lookup_remove] at found
  by_cases same : other = key
  · simp [same] at found
  · exact short other value (by simpa [same] using found)

theorem fits_nodeOf (proper : t.Proper) (short : Short t) : (nodeOf t).Fits := by
  rcases proper with rfl | canonical
  · trivial
  cases t with
  | empty => trivial
  | leaf path value => exact short path value (by simp)
  | ext path next =>
    obtain ⟨key,present⟩ := canonical.2.2.occupied
    obtain ⟨value,found⟩ := Option.ne_none_iff_exists'.mp present
    have := (short (path ++ key) value (by simpa using found)).1
    simp only [List.length_append] at this
    simp only [nodeOf,Node.Fits]
    omega
  | branch children value =>
    intro v held
    exact (short [] v (by simpa using held)).2

theorem load_tree (safe : NoCollision σ)
    (stored : Stored σ t) (proper : t.Proper) (short : Short t) :
    load (treeHash t) σ = (some (nodeOf t),σ) :=
  load_of σ safe (nodeOf t) stored.root (fits_nodeOf proper short)

/-- The operation returns the hash of the tree and leaves its nodes in the table. -/
def Yields (σ : NodeStore) (m : TrieM Hash) (t : Tree Nibble Bytes) : Prop :=
  ∃ σ',m σ = (some (treeHash t),σ') ∧ σ <:+ σ' ∧ Stored σ' t

theorem yields_pure (stored : Stored σ t) : Yields σ (pure (treeHash t)) t :=
  ⟨σ,rfl,List.suffix_refl σ,stored⟩

theorem yields_bind {f : Hash → TrieM Hash} (first : Yields σ m t)
    (next : ∀ σ',σ <:+ σ' → Stored σ' t → Yields σ' (f (treeHash t)) u) : Yields σ (m >>= f) u := by
  obtain ⟨σ₁,returns,older,stored⟩ := first
  obtain ⟨σ₂,finish,newer,result⟩ := next σ₁ older stored
  exact ⟨σ₂,by rw [bind_of returns,finish],older.trans newer,result⟩

theorem yields_load {f : Node → TrieM Hash}
    (loaded : load h σ = (some node,σ)) (next : Yields σ (f node) t) :
    Yields σ (load h >>= f) t := by
  obtain ⟨σ',finish,rest⟩ := next
  exact ⟨σ',by rw [bind_of loaded,finish],rest⟩

theorem yields_leaf (σ : NodeStore) (path : List Nibble) (value : Bytes) :
    Yields σ (store (.leaf path value)) (.leaf path value) :=
  ⟨_,rfl,List.suffix_cons _ _,List.mem_cons_self ..⟩

theorem yields_empty (σ : NodeStore) : Yields σ (store .empty) .empty :=
  ⟨_,rfl,List.suffix_cons _ _,List.mem_cons_self ..⟩

theorem yields_ext (path : List Nibble) (stored : Stored σ next) :
    Yields σ (store (.extension path (treeHash next))) (.ext path next) :=
  ⟨_,rfl,List.suffix_cons _ _,List.mem_cons_self ..,stored.mono (List.suffix_cons _ _)⟩

theorem yields_branch {children : Nibble → Tree Nibble Bytes}
    (value : Option Bytes) (stored : ∀ n,Stored σ (children n)) :
    Yields σ (store (.branch (fun n => childRef (children n)) value)) (.branch children value) :=
  ⟨_,rfl,List.suffix_cons _ _,List.mem_cons_self ..,
    fun n => (stored n).mono (List.suffix_cons _ _)⟩

theorem stored_update {children : Nibble → Tree Nibble Bytes} (n : Nibble)
    {child : Tree Nibble Bytes} (stored : ∀ m,Stored σ (children m)) (new : Stored σ child)
    (m : Nibble) : Stored σ (Function.update children n child m) := by
  by_cases same : m = n
  · subst m; simpa using new
  · simpa [same] using stored m

theorem yields_branch_update (children : Nibble → Tree Nibble Bytes) (n : Nibble)
    (child : Tree Nibble Bytes) (value : Option Bytes) (stored : ∀ m,Stored σ (children m))
    (new : Stored σ child) :
    Yields σ (store (.branch (Function.update (fun m => childRef (children m)) n (childRef child)) value))
      (.branch (Function.update children n child) value) := by
  rw [← childRef_update]
  exact yields_branch value (stored_update n stored new)

theorem yields_extend (path : List Nibble)
    (branching : next.isBranch = true) (stored : Stored σ next) :
    Yields σ (extend path (treeHash next)) (compress path next) := by
  cases next with
  | branch children value =>
    by_cases nil : path = []
    · subst path
      exact yields_pure stored
    · have long : ¬ path.length = 0 := by simpa using nil
      simp only [extend,compress,if_neg long,if_neg nil]
      exact yields_ext path stored
  | _ => simp [Tree.isBranch] at branching

theorem yields_splitToBranch (base : HasNode σ .empty) (a b : List Nibble)
    (old new : Bytes) (apart : a ≠ b) :
    Yields σ (splitToBranch a old b new) (Tree.splitToBranch a old b new) := by
  have none : ∀ {σ' : NodeStore},σ <:+ σ' → ∀ _ : Nibble,Stored σ' .empty :=
    fun older _ => older.subset base
  cases a with
  | nil =>
    cases b with
    | nil => exact absurd rfl apart
    | cons m bs =>
      have steps : splitToBranch [] old (m :: bs) new = (do
          let h ← store (.leaf bs new)
          store (.branch (Function.update (fun _ => .none) m (some h)) (some old))) := rfl
      rw [steps]
      refine yields_bind (yields_leaf σ bs new) fun σ₁ older leaf => ?_
      simpa [Tree.splitToBranch] using yields_branch_update (fun _ => .empty) m _ (some old) (none older) leaf
  | cons n as =>
    cases b with
    | nil =>
      have steps : splitToBranch (n :: as) old [] new = (do
          let h ← store (.leaf as old)
          store (.branch (Function.update (fun _ => .none) n (some h)) (some new))) := rfl
      rw [steps]
      refine yields_bind (yields_leaf σ as old) fun σ₁ older leaf => ?_
      simpa [Tree.splitToBranch] using yields_branch_update (fun _ => .empty) n _ (some new) (none older) leaf
    | cons m bs =>
      have steps : splitToBranch (n :: as) old (m :: bs) new = (do
          let h ← store (.leaf as old)
          let h' ← store (.leaf bs new)
          store (.branch (Function.update (Function.update (fun _ => .none) n (some h)) m (some h'))
            .none)) := rfl
      rw [steps]
      refine yields_bind (yields_leaf σ as old) fun σ₁ older first => ?_
      refine yields_bind (yields_leaf σ₁ bs new) fun σ₂ newer second => ?_
      have children := stored_update n (none (older.trans newer)) (first.mono newer)
      simpa [Tree.splitToBranch,childRef_update] using yields_branch_update _ m _ .none children second

omit [Blake3] in
theorem NoCollision.of_bind {m : TrieM α} {f : α → TrieM β}
    (safe : NoCollision ((m >>= f) σ).2) (grows : ∀ a,(f a).Grows) : NoCollision (m σ).2 := by
  simp only [bind] at safe
  match m σ,safe with
  | (some a,σ'),safe => exact safe.of_suffix (grows a σ')
  | (none,σ'),safe => exact safe

theorem yields_splitExtension (base : HasNode σ .empty) (path key : List Nibble)
    (next : Tree Nibble Bytes) (value : Bytes) (branching : next.isBranch = true)
    (stored : Stored σ next) (outside : ¬ path <+: key) :
    Yields σ (splitExtension path (treeHash next) key value) ((Tree.ext path next).insert key value) := by
  obtain ⟨n,rest,leaves,-⟩ := Tree.split_outside path key outside
  have whole := Tree.key_split path key
  simp only [splitExtension,Tree.insert,if_neg outside,leaves]
  refine yields_bind (yields_extend rest branching stored) fun σ₁ older child => ?_
  have vacant : ∀ _ : Nibble,Stored σ₁ .empty := fun _ => older.subset base
  have slots := stored_update n vacant child
  have occupied : childRef (compress rest next) = some (treeHash (compress rest next)) := by
    apply childRef_of_ne
    cases next with
    | branch children held => by_cases nil : rest = [] <;> simp [compress,nil]
    | _ => simp [Tree.isBranch] at branching
  cases left : key.drop (commonPrefixLen path key) with
  | nil =>
    rw [left,List.append_nil] at whole
    rw [whole]
    refine yields_bind ?_ fun σ₂ newer branch => yields_extend key rfl branch
    simpa [Tree.splitExtension,childRef_update,occupied] using yields_branch (some value) slots
  | cons m tail =>
    refine yields_bind (yields_leaf σ₁ tail value) fun σ₂ newer leaf => ?_
    refine yields_bind ?_ fun σ₃ newest branch => yields_extend _ rfl branch
    have written := yields_branch_update _ m _ none (fun m => (slots m).mono newer) leaf
    simpa [Tree.splitExtension,childRef_update,occupied] using written

theorem yields_insert (base : HasNode σ .empty) (t : Tree Nibble Bytes)
    (depth : Nat) (key : List Nibble) (value : Bytes) (proper : t.Proper) (short : Short t)
    (stored : Stored σ t) (deep : key.length < depth)
    (safe : NoCollision (insert depth (treeHash t) key value σ).2) :
    Yields σ (insert depth (treeHash t) key value) (t.insert key value) := by
  induction t generalizing depth key with
  | empty =>
    obtain ⟨depth,rfl⟩ : ∃ d,depth = d + 1 := ⟨depth - 1,by omega⟩
    have loaded := load_tree (safe.of_suffix (grows_insert _ _ _ _ σ)) stored proper short
    rw [insert]
    exact yields_load loaded (yields_leaf σ key value)
  | leaf path old =>
    obtain ⟨depth,rfl⟩ : ∃ d,depth = d + 1 := ⟨depth - 1,by omega⟩
    have loaded := load_tree (safe.of_suffix (grows_insert _ _ _ _ σ)) stored proper short
    rw [insert]
    refine yields_load loaded ?_
    by_cases same : path = key
    · simpa [nodeOf,Tree.insert,same] using yields_leaf σ key value
    · simp only [nodeOf,Tree.insert,if_neg same]
      refine yields_bind (yields_splitToBranch base _ _ _ _ (Tree.drop_ne path key same)) ?_
      intro σ' older branch
      exact yields_extend _ (Tree.isBranch_splitToBranch _ _ _ _) branch
  | ext path next ih =>
    obtain ⟨depth,rfl⟩ : ∃ d,depth = d + 1 := ⟨depth - 1,by omega⟩
    have loaded := load_tree (safe.of_suffix (grows_insert _ _ _ _ σ)) stored proper short
    obtain ⟨nonempty,branching,canonical⟩ := proper.resolve_left (by simp)
    rw [insert,bind_of loaded] at safe
    rw [insert]
    refine yields_load loaded ?_
    simp only [nodeOf_ext] at safe ⊢
    by_cases under : path <+: key
    · have shorter : (key.drop path.length).length < depth := by
        have := List.length_pos_iff.mpr nonempty
        have := under.length_le
        simp only [List.length_drop]; omega
      simp only [if_pos under,Tree.insert] at safe ⊢
      exact yields_bind
        (ih depth _ (.inr canonical) short.ext stored.2 shorter (safe.of_bind fun _ => grows_store _))
        fun _ _ below => yields_ext path below
    · simp only [if_neg under]
      exact yields_splitExtension base path key next value branching stored.2 under
  | branch children held ih =>
    obtain ⟨depth,rfl⟩ : ∃ d,depth = d + 1 := ⟨depth - 1,by omega⟩
    have loaded := load_tree (safe.of_suffix (grows_insert _ _ _ _ σ)) stored proper short
    have canonical := proper.resolve_left (by simp)
    rw [insert,bind_of loaded] at safe
    rw [insert]
    refine yields_load loaded ?_
    cases key with
    | nil => exact yields_branch (some value) stored.2
    | cons n rest =>
      have child : (childRef (children n)).getD (hashNode .empty) = treeHash (children n) := by
        by_cases empty : children n = .empty
        · simp [empty,treeHash,nodeOf]
        · simp [childRef_of_ne empty]
      simp only [nodeOf_branch,child,Tree.insert] at safe ⊢
      have inserted := Tree.canonical_insert (children n) rest value (canonical.1 n)
      refine yields_bind (ih n depth rest (canonical.1 n) (short.child n) (stored.2 n)
        (by simpa using deep) (safe.of_bind fun _ => grows_store _)) ?_
      intro σ' older below
      rw [← childRef_of_ne inserted.ne_empty]
      exact yields_branch_update _ _ _ _ (fun m => (stored.2 m).mono older) below

theorem getAt_tree (safe : NoCollision σ) (t : Tree Nibble Bytes) (depth : Nat)
    (key : List Nibble) (proper : t.Proper) (short : Short t) (stored : Stored σ t)
    (deep : key.length < depth) : getAt depth (treeHash t) key σ = (some (t.lookup key),σ) := by
  induction t generalizing depth key with
  | empty =>
    obtain ⟨depth,rfl⟩ : ∃ d,depth = d + 1 := ⟨depth - 1,by omega⟩
    rw [getAt,bind_of (load_tree safe stored proper short)]
    rfl
  | leaf path value =>
    obtain ⟨depth,rfl⟩ : ∃ d,depth = d + 1 := ⟨depth - 1,by omega⟩
    rw [getAt,bind_of (load_tree safe stored proper short)]
    rfl
  | ext path next ih =>
    obtain ⟨depth,rfl⟩ : ∃ d,depth = d + 1 := ⟨depth - 1,by omega⟩
    rw [getAt,bind_of (load_tree safe stored proper short)]
    obtain ⟨nonempty,-,canonical⟩ := proper.resolve_left (by simp)
    simp only [nodeOf_ext,Tree.lookup]
    by_cases under : path <+: key
    · have shorter : (key.drop path.length).length < depth := by
        have := List.length_pos_iff.mpr nonempty
        have := under.length_le
        simp only [List.length_drop]; omega
      simp only [if_pos under]
      exact ih depth _ (.inr canonical) short.ext stored.2 shorter
    · simp only [if_neg under,pure_apply]
  | branch children value ih =>
    obtain ⟨depth,rfl⟩ : ∃ d,depth = d + 1 := ⟨depth - 1,by omega⟩
    rw [getAt,bind_of (load_tree safe stored proper short)]
    have canonical := proper.resolve_left (by simp)
    cases key with
    | nil => rfl
    | cons n rest =>
      simp only [nodeOf_branch,Tree.lookup]
      by_cases empty : children n = .empty
      · simp [empty]
      · simp only [childRef_of_ne empty]
        exact ih n depth rest (canonical.1 n) (short.child n) (stored.2 n) (by simpa using deep)

/-- As `Yields`, for an operation that reports an emptied subtree as `none`. -/
def YieldsRef (σ : NodeStore) (m : TrieM (Option Hash)) (t : Tree Nibble Bytes) : Prop :=
  ∃ σ',m σ = (some (childRef t),σ') ∧ σ <:+ σ' ∧ Stored σ' t

theorem Yields.ref (yields : Yields σ m t)
    (occupied : t ≠ .empty) : YieldsRef σ (do return some (← m)) t := by
  obtain ⟨σ',returns,rest⟩ := yields
  exact ⟨σ',by rw [bind_of returns,childRef_of_ne occupied]; rfl,rest⟩

theorem yieldsRef_empty (base : HasNode σ .empty) : YieldsRef σ (pure none) .empty :=
  ⟨σ,rfl,List.suffix_refl σ,base⟩

theorem yieldsRef_load {f : Node → TrieM (Option Hash)}
    (loaded : load h σ = (some node,σ)) (next : YieldsRef σ (f node) t) :
    YieldsRef σ (load h >>= f) t := by
  obtain ⟨σ',finish,rest⟩ := next
  exact ⟨σ',by rw [bind_of loaded,finish],rest⟩

theorem yieldsRef_bind {m : TrieM (Option Hash)}
    {f : Option Hash → TrieM (Option Hash)} (first : YieldsRef σ m t)
    (next : ∀ σ',m σ = (some (childRef t),σ') → σ <:+ σ' → Stored σ' t →
      YieldsRef σ' (f (childRef t)) u) : YieldsRef σ (m >>= f) u := by
  obtain ⟨σ₁,returns,older,stored⟩ := first
  obtain ⟨σ₂,finish,newer,result⟩ := next σ₁ returns older stored
  exact ⟨σ₂,by rw [bind_of returns,finish],older.trans newer,result⟩

theorem yields_normalizeExtension (safe : NoCollision σ)
    (path : List Nibble) (nonempty : path ≠ []) (canonical : t.Canonical) (short : Short t)
    (stored : Stored σ t) : Yields σ (normalizeExtension path (treeHash t)) (compress path t) := by
  refine yields_load (load_tree safe stored (.inr canonical) short) ?_
  cases t with
  | empty => exact canonical.elim
  | leaf rest value => exact yields_leaf σ _ value
  | ext rest next => exact yields_ext _ stored.2
  | branch children value =>
    simp only [nodeOf_branch,compress,if_neg nonempty]
    exact yields_ext path stored

theorem prefixChild_eq (nibble : Nibble) (h : Hash) :
    prefixChild nibble h = normalizeExtension [nibble] h := by
  unfold prefixChild normalizeExtension
  congr 1
  funext node
  cases node <;> rfl

omit [Blake3] in
theorem mem_present (children : Nibble → Option Hash) (n : Nibble) (h : Hash) :
    (n,h) ∈ present children ↔ children n = some h := by
  simp [present]

omit [Blake3] in
theorem nodup_present (children : Nibble → Option Hash) :
    ((present children).map Prod.fst).Nodup := by
  have sub : ((present children).map Prod.fst).Sublist (List.finRange 16) := by
    unfold present
    generalize List.finRange 16 = slots
    induction slots with
    | nil => simp
    | cons n slots ih =>
      cases held : children n with
      | none => simpa [held] using ih.trans (List.sublist_cons_self n slots)
      | some h => simpa [held] using ih
  exact sub.nodup (List.nodup_finRange 16)

omit [Blake3] in
theorem refill_foldl (children : Nibble → Option Hash) (slots : List Nibble)
    (start : Nibble → Option Hash) (n : Nibble) :
    ((slots.filterMap fun i => (children i).map fun h => (i,h)).foldl
      (fun (ch : Nibble → Option Hash) slot => Function.update ch slot.1 (some slot.2)) start) n =
      if n ∈ slots then (children n).or (start n) else start n := by
  induction slots generalizing start with
  | nil => simp
  | cons m slots ih =>
    cases held : children m with
    | none =>
      by_cases same : n = m
      · subst n; simp [held,ih]
      · simp [held,ih,same]
    | some h =>
      by_cases same : n = m
      · subst n; simp [held,ih]
      · simp [held,ih,same]

omit [Blake3] in
theorem refill_present (children : Nibble → Option Hash) : refill (present children) = children := by
  funext n
  have filled := refill_foldl children (List.finRange 16) (fun _ => none) n
  simpa [refill,present] using filled

theorem yieldsRef_collapse (base : HasNode σ .empty)
    (children : Nibble → Tree Nibble Bytes) (value : Option Bytes)
    (proper : ∀ n,(children n).Proper) (short : ∀ n,Short (children n))
    (stored : ∀ n,Stored σ (children n)) (safe : NoCollision σ) :
    YieldsRef σ (collapseBranch (fun n => childRef (children n)) value)
      (Tree.collapse children value) := by
  have slot (n : Nibble) (h : Hash) := mem_present (fun n => childRef (children n)) n h
  have distinct := nodup_present (fun n => childRef (children n))
  have refilled := refill_present (fun n => childRef (children n))
  have occupied (n : Nibble) (here : children n ≠ .empty) :
      (n,treeHash (children n)) ∈ present (fun n => childRef (children n)) :=
    (slot n _).mpr (childRef_of_ne here)
  have kept (n : Nibble) (h : Hash) (member : (n,h) ∈ present (fun n => childRef (children n))) :
      children n ≠ .empty ∧ treeHash (children n) = h := by
    have here := (slot n h).mp member
    have occupied : children n ≠ .empty := by
      intro empty
      simp [empty] at here
    exact ⟨occupied,by simpa [childRef_of_ne occupied] using here⟩
  unfold collapseBranch Tree.collapse
  -- the match of the source is on the list of occupants, the tree's on their existence
  generalize present (fun n => childRef (children n)) = list at *
  match list with
  | [] =>
    have absent : ¬ ∃ n,children n ≠ .empty := by
      rintro ⟨n,here⟩
      simpa using occupied n here
    rw [dif_neg absent]
    cases value with
    | none => exact yieldsRef_empty base
    | some v => exact (yields_leaf σ [] v).ref (by simp)
  | [(n,h)] =>
    obtain ⟨here,rfl⟩ := kept n h (by simp)
    have present : ∃ n,children n ≠ .empty := ⟨n,here⟩
    have only (m : Nibble) (there : children m ≠ .empty) : m = n := by
      simpa using congrArg Prod.fst (List.mem_singleton.mp (occupied m there))
    have chosen : present.choose = n := only _ present.choose_spec
    rw [dif_pos present]
    cases value with
    | none =>
      have single : ∀ m,m ≠ present.choose → children m = .empty := by
        intro m other
        by_contra there
        exact other ((only m there).trans chosen.symm)
      rw [if_pos ⟨rfl,single⟩,chosen]
      have canonical := (proper n).resolve_left here
      simp only [prefixChild_eq]
      exact (yields_normalizeExtension safe [n] (by simp) canonical (short n) (stored n)).ref
        (Tree.canonical_compress _ _ canonical).ne_empty
    | some v =>
      rw [if_neg (by simp)]
      simp only [refilled]
      exact (yields_branch (some v) stored).ref (by simp)
  | (n,h) :: (m,k) :: rest =>
    obtain ⟨here,-⟩ := kept n h (by simp)
    obtain ⟨there,-⟩ := kept m k (by simp)
    have apart : n ≠ m := by
      intro same
      simp [same] at distinct
    have present : ∃ n,children n ≠ .empty := ⟨n,here⟩
    have several : ¬ (value = none ∧ ∀ m,m ≠ present.choose → children m = .empty) := by
      rintro ⟨-,single⟩
      by_cases first : n = present.choose
      · exact there (single m (by rw [← first]; exact apart.symm))
      · exact here (single n first)
    rw [dif_pos present,if_neg several]
    simp only [refilled]
    exact (yields_branch value stored).ref (by simp)

theorem yieldsRef_remove (base : HasNode σ .empty) (t : Tree Nibble Bytes)
    (depth : Nat) (key : List Nibble) (proper : t.Proper) (short : Short t)
    (stored : Stored σ t) (deep : key.length < depth)
    (safe : NoCollision (remove depth (treeHash t) key σ).2) :
    YieldsRef σ (remove depth (treeHash t) key) (t.remove key) := by
  induction t generalizing depth key with
  | empty =>
    obtain ⟨depth,rfl⟩ : ∃ d,depth = d + 1 := ⟨depth - 1,by omega⟩
    have loaded := load_tree (safe.of_suffix (grows_remove _ _ _ σ)) stored proper short
    rw [remove]
    exact yieldsRef_load loaded (yieldsRef_empty base)
  | leaf path value =>
    obtain ⟨depth,rfl⟩ : ∃ d,depth = d + 1 := ⟨depth - 1,by omega⟩
    have loaded := load_tree (safe.of_suffix (grows_remove _ _ _ σ)) stored proper short
    rw [remove]
    refine yieldsRef_load loaded ?_
    by_cases same : path = key
    · simpa [nodeOf,Tree.remove,same] using yieldsRef_empty base
    · simp only [nodeOf,Tree.remove,if_neg same]
      exact (yields_leaf σ path value).ref (by simp)
  | ext path next ih =>
    obtain ⟨depth,rfl⟩ : ∃ d,depth = d + 1 := ⟨depth - 1,by omega⟩
    have loaded := load_tree (safe.of_suffix (grows_remove _ _ _ σ)) stored proper short
    obtain ⟨nonempty,branching,canonical⟩ := proper.resolve_left (by simp)
    rw [remove,bind_of loaded] at safe
    rw [remove]
    refine yieldsRef_load loaded ?_
    simp only [nodeOf_ext] at safe ⊢
    by_cases under : path <+: key
    · have shorter : (key.drop path.length).length < depth := by
        have := List.length_pos_iff.mpr nonempty
        have := under.length_le
        simp only [List.length_drop]; omega
      simp only [if_pos under,Tree.remove] at safe ⊢
      have below := safe.of_bind (grows_removeExtension path)
      refine yieldsRef_bind (ih depth _ (.inr canonical) short.ext stored.2 shorter below) ?_
      intro σ' returns older result
      rw [returns] at below
      rcases Tree.proper_remove next (key.drop path.length) (.inr canonical) with gone | left
      · rw [gone,childRef_empty]
        exact yieldsRef_empty (older.subset base)
      · rw [childRef_of_ne left.ne_empty]
        exact (yields_normalizeExtension below path nonempty left (short.ext.remove _) result).ref
          (Tree.canonical_compress _ _ left).ne_empty
    · simp only [if_neg under,Tree.remove]
      exact (yields_ext path stored.2).ref (by simp)
  | branch children held ih =>
    obtain ⟨depth,rfl⟩ : ∃ d,depth = d + 1 := ⟨depth - 1,by omega⟩
    have start := safe.of_suffix (grows_remove _ _ _ σ)
    have loaded := load_tree start stored proper short
    have canonical := proper.resolve_left (by simp)
    rw [remove,bind_of loaded] at safe
    rw [remove]
    refine yieldsRef_load loaded ?_
    cases key with
    | nil =>
      cases held with
      | none =>
        simp only [Tree.remove,if_true]
        exact (yields_branch none stored.2).ref (by simp)
      | some v =>
        simp only [Tree.remove,reduceCtorEq,if_false]
        exact yieldsRef_collapse base children none canonical.1 short.child stored.2 start
    | cons n rest =>
      simp only [nodeOf_branch,Tree.remove] at safe ⊢
      by_cases empty : children n = .empty
      · have same : Function.update children n .empty = children := by
          rw [← empty,Function.update_eq_self]
        have removed : (children n).remove rest = .empty := by rw [empty]; rfl
        have whole := Tree.collapse_canonical children held canonical
        simp only [Tree.isEmpty,same,whole,empty,childRef_empty]
        exact (yields_branch held stored.2).ref (by simp)
      · simp only [childRef_of_ne empty] at safe ⊢
        have below := safe.of_bind (grows_removeBranch _ _ _)
        refine yieldsRef_bind (ih n depth rest (canonical.1 n) (short.child n) (stored.2 n)
          (by simpa using deep) below) ?_
        intro σ' returns older result
        rw [returns] at below
        have others (m : Nibble) : Stored σ' (children m) := (stored.2 m).mono older
        rcases Tree.proper_remove (children n) rest (canonical.1 n) with gone | left
        · rw [gone] at result
          simp only [gone,childRef_empty,Tree.isEmpty,if_true]
          rw [← childRef_empty,← childRef_update]
          exact yieldsRef_collapse (older.subset base) _ held
            (Tree.proper_update _ _ _ canonical.1 (.inl rfl)) (short_update n short.child)
            (stored_update n others result) below
        · have kept : ¬ ((children n).remove rest).isEmpty = true := by simpa using left.ne_empty
          rw [childRef_of_ne left.ne_empty]
          simp only [if_neg kept]
          rw [← childRef_of_ne left.ne_empty]
          exact (yields_branch_update _ n _ held others result).ref (by simp)

end L1.Mpt
