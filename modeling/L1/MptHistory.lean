import L1.MptRefinement

/-! Sequences of writes and deletes from the empty trie: reads agree with an ordinary
map, and the root names that map and nothing of the order in which it was reached. -/
namespace L1.Mpt

open PatriciaTree (Tree)
open TrieM

inductive Op where
  | put (key value : Bytes)
  | delete (key : Bytes)
  deriving DecidableEq, Repr

/-- What a sequence of operations leaves in an ordinary map. -/
def mapAfter : (Bytes → Option Bytes) → List Op → Bytes → Option Bytes
  | m, [] => m
  | m, .put key value :: ops => mapAfter (Function.update m key (some value)) ops
  | m, .delete key :: ops => mapAfter (Function.update m key none) ops

abbrev emptyMap : Bytes → Option Bytes := fun _ => none

/-- Keys whose packed path, and values, have a length below `2^32`. -/
def Op.Fits : Op → Prop
  | .put key value => key.length + 1 < 2^32 ∧ value.length < 2^32
  | .delete _ => True

section History

variable [Blake3]

def Trie.apply (t : Trie) : Op → Option Unit × Trie
  | .put key value => t.put key value
  | .delete key => t.delete key

def run : Trie → List Op → Option Unit × Trie
  | t, [] => (some (),t)
  | t, op :: ops =>
    match t.apply op with
    | (some (),t') => run t' ops
    | (none,t') => (none,t')

/-- The trie commits to the tree and the tree to the map. -/
structure Commits (t : Trie) (tree : Tree Nibble Bytes) (m : Bytes → Option Bytes) : Prop where
  root : t.root = treeHash tree
  proper : tree.Proper
  short : Short tree
  stored : Stored t.nodes tree
  base : HasNode t.nodes .empty
  agrees : ∀ key,tree.lookup (bytesToNibbles key) = m key
  bytewise : ∀ path,tree.lookup path ≠ none → ∃ key,path = bytesToNibbles key

theorem commits_new : Commits .new .empty emptyMap where
  root := rfl
  proper := .inl rfl
  short := by intro key value found; simp at found
  stored := List.mem_cons_self ..
  base := List.mem_cons_self ..
  agrees := by intro key; simp
  bytewise := by intro path found; simp at found

variable {t : Trie} {tree : Tree Nibble Bytes} {σ : NodeStore} {node : Node}

theorem Commits.get {m : Bytes → Option Bytes}
    (commits : Commits t tree m) (safe : NoCollision t.nodes) (key : Bytes) :
    t.get key = some (m key) := by
  simp only [Trie.get,commits.root]
  rw [getAt_tree safe tree _ _ commits.proper commits.short commits.stored (Nat.lt_succ_self _),
    commits.agrees]

omit [Blake3] in
theorem mutate_nodes (t : Trie) (m : TrieM Hash) : (t.mutate m).2.nodes = (m t.nodes).2 := by
  unfold Trie.mutate
  split <;> simp_all

theorem mutate_yields {m : TrieM Hash} (yields : Yields t.nodes m tree) :
    (t.mutate m).1 = some () ∧ (t.mutate m).2.root = treeHash tree ∧
      t.nodes <:+ (t.mutate m).2.nodes ∧ Stored (t.mutate m).2.nodes tree := by
  obtain ⟨σ',returns,older,stored⟩ := yields
  simp only [Trie.mutate,returns]
  exact ⟨trivial,trivial,older,stored⟩

omit [Blake3] in
theorem agrees_update {f : List Nibble → Option Bytes} {m : Bytes → Option Bytes}
    (agrees : ∀ key,f (bytesToNibbles key) = m key) (key : Bytes) (value : Option Bytes)
    (other : Bytes) : Function.update f (bytesToNibbles key) value (bytesToNibbles other) =
      Function.update m key value other := by
  by_cases same : other = key
  · simp [same]
  · have apart : bytesToNibbles other ≠ bytesToNibbles key := fun equal =>
      same (bytesToNibbles_injective equal)
    simp [same,apart,agrees]

omit [Blake3] in
theorem bytewise_update {f : List Nibble → Option Bytes}
    (bytewise : ∀ path,f path ≠ none → ∃ key,path = bytesToNibbles key) (key : Bytes)
    (value : Option Bytes) (path : List Nibble)
    (found : Function.update f (bytesToNibbles key) value path ≠ none) :
    ∃ key,path = bytesToNibbles key := by
  by_cases same : path = bytesToNibbles key
  · exact ⟨key,same⟩
  · exact bytewise path (by simpa [same] using found)

theorem Commits.put {m : Bytes → Option Bytes}
    (commits : Commits t tree m) (key value : Bytes) (fits : (Op.put key value).Fits)
    (safe : NoCollision (t.put key value).2.nodes) : (t.put key value).1 = some () ∧
      Commits (t.put key value).2 (tree.insert (bytesToNibbles key) value)
        (Function.update m key (some value)) := by
  simp only [Trie.put,mutate_nodes,commits.root] at safe
  have yields := yields_insert commits.base tree _ (bytesToNibbles key) value commits.proper
    commits.short commits.stored (Nat.lt_succ_self _) safe
  rw [← commits.root] at yields
  obtain ⟨returns,root,older,stored⟩ := mutate_yields yields
  refine ⟨returns,root,.inr (Tree.canonical_insert _ _ _ commits.proper),?_,stored,
    older.subset commits.base,?_,?_⟩
  · intro other found present
    rw [Tree.lookup_insert] at present
    by_cases same : other = bytesToNibbles key
    · obtain rfl : value = found := by simpa [same] using present
      obtain ⟨path_fits,value_fits⟩ := fits
      rw [same,length_bytesToNibbles]
      exact ⟨by omega,value_fits⟩
    · exact commits.short other found (by simpa [same] using present)
  · intro other
    rw [Tree.lookup_insert]
    exact agrees_update commits.agrees key (some value) other
  · intro path found
    rw [Tree.lookup_insert] at found
    exact bytewise_update commits.bytewise key (some value) path found

theorem yields_delete (base : HasNode σ .empty) (tree : Tree Nibble Bytes)
    (key : List Nibble) (proper : tree.Proper) (short : Short tree) (stored : Stored σ tree)
    (safe : NoCollision (remove (key.length + 1) (treeHash tree) key σ).2) : Yields σ (do
      match ← remove (key.length + 1) (treeHash tree) key with
      | some h => pure h
      | none => store .empty) (tree.remove key) := by
  obtain ⟨σ',returns,older,result⟩ :=
    yieldsRef_remove base tree _ key proper short stored (Nat.lt_succ_self _) safe
  rcases Tree.proper_remove tree key proper with gone | left
  · rw [gone,childRef_empty] at returns
    obtain ⟨σ₂,finish,newer,empty⟩ := yields_empty σ'
    exact ⟨σ₂,by rw [bind_of returns,gone]; exact finish,older.trans newer,gone ▸ empty⟩
  · rw [childRef_of_ne left.ne_empty] at returns
    exact ⟨σ',by rw [bind_of returns]; rfl,older,result⟩

theorem grows_delete (h : Hash) (depth : Nat) (key : List Nibble) :
    (do match ← remove depth h key with
      | some h => pure h
      | none => store .empty : TrieM Hash).Grows := by
  refine grows_bind (grows_remove depth h key) fun result => ?_
  cases result with
  | none => exact grows_store _
  | some h => exact grows_pure _

theorem Commits.delete {m : Bytes → Option Bytes}
    (commits : Commits t tree m) (key : Bytes) (safe : NoCollision (t.delete key).2.nodes)
    (start : NoCollision t.nodes) : (t.delete key).1 = some () ∧
      ∃ tree',Commits (t.delete key).2 tree' (Function.update m key none) := by
  have read := commits.get start key
  unfold Trie.delete at safe ⊢
  rw [read] at safe ⊢
  cases held : m key with
  | none =>
    rw [Function.update_eq_self_iff.mpr held.symm]
    exact ⟨rfl,tree,commits⟩
  | some old =>
    rw [held] at safe
    simp only [mutate_nodes,commits.root] at safe
    have removed := safe.of_bind (fun result => by
      cases result with
      | none => exact grows_store _
      | some h => exact grows_pure _)
    have yields := yields_delete commits.base tree (bytesToNibbles key) commits.proper commits.short
      commits.stored removed
    rw [← commits.root] at yields
    obtain ⟨returns,root,older,stored⟩ := mutate_yields yields
    refine ⟨returns,tree.remove (bytesToNibbles key),root,Tree.proper_remove _ _ commits.proper,
      commits.short.remove _,stored,older.subset commits.base,?_,?_⟩
    · intro other
      rw [Tree.lookup_remove]
      exact agrees_update commits.agrees key none other
    · intro path found
      rw [Tree.lookup_remove] at found
      exact bytewise_update commits.bytewise key none path found

theorem apply_grows (t : Trie) (op : Op) : t.nodes <:+ (t.apply op).2.nodes := by
  cases op with
  | put key value =>
    simp only [Trie.apply,Trie.put,mutate_nodes]
    exact grows_insert _ _ _ _ _
  | delete key =>
    simp only [Trie.apply,Trie.delete]
    split
    · exact List.suffix_refl _
    · exact List.suffix_refl _
    · rw [mutate_nodes]
      exact grows_delete _ _ _ _

theorem run_grows (t : Trie) (ops : List Op) : t.nodes <:+ (run t ops).2.nodes := by
  induction ops generalizing t with
  | nil => exact List.suffix_refl _
  | cons op ops ih =>
    have step := apply_grows t op
    unfold run
    split
    · rename_i t' next
      rw [next] at step
      exact step.trans (ih t')
    · rename_i t' stop
      rw [stop] at step
      exact step

/-- One operation keeps the trie committed to the map it acts on. -/
theorem Commits.apply {m : Bytes → Option Bytes}
    (commits : Commits t tree m) (op : Op) (fits : op.Fits)
    (safe : NoCollision (t.apply op).2.nodes) :
    (t.apply op).1 = some () ∧ ∃ tree',Commits (t.apply op).2 tree' (mapAfter m [op]) := by
  cases op with
  | put key value =>
    obtain ⟨returns,next⟩ := commits.put key value fits safe
    exact ⟨returns,_,next⟩
  | delete key => exact commits.delete key safe (safe.of_suffix (apply_grows t (.delete key)))

omit [Blake3] in
theorem mapAfter_cons (m : Bytes → Option Bytes) (op : Op) (ops : List Op) :
    mapAfter m (op :: ops) = mapAfter (mapAfter m [op]) ops := by
  cases op <;> rfl

theorem Commits.run {m : Bytes → Option Bytes}
    (commits : Commits t tree m) (ops : List Op) (fits : ∀ op ∈ ops,op.Fits)
    (safe : NoCollision (run t ops).2.nodes) :
    (Mpt.run t ops).1 = some () ∧ ∃ tree',Commits (Mpt.run t ops).2 tree' (mapAfter m ops) := by
  induction ops generalizing t tree m with
  | nil => exact ⟨rfl,tree,commits⟩
  | cons op ops ih =>
    have here : NoCollision (t.apply op).2.nodes := by
      refine safe.of_suffix ?_
      rw [Mpt.run]
      split
      · rename_i t' next
        rw [next]
        exact run_grows t' ops
      · rename_i t' stop
        rw [stop]
    obtain ⟨returns,tree',next⟩ := commits.apply op (fits op (by simp)) here
    have step : Mpt.run t (op :: ops) = Mpt.run (t.apply op).2 ops := by
      rw [Mpt.run]
      split
      · rename_i t' next
        rw [next]
      · rename_i t' stop
        rw [stop] at returns
        cases returns
    rw [step] at safe ⊢
    rw [mapAfter_cons]
    exact ih next (fun op member => fits op (by simp [member])) safe

/-- The trie refines a finite map, and no operation panics. -/
theorem run_refines_map (ops : List Op) (fits : ∀ op ∈ ops,op.Fits)
    (safe : NoCollision (run .new ops).2.nodes) :
    (run .new ops).1 = some () ∧
      ∀ key,(run .new ops).2.get key = some (mapAfter emptyMap ops key) := by
  obtain ⟨returns,tree,commits⟩ := commits_new.run ops fits safe
  exact ⟨returns,commits.get safe⟩

/-- Two stored trees with one hash are the same tree. -/
theorem treeHash_injective (safe : NoCollision σ) {t u : Tree Nibble Bytes}
    (left : Stored σ t) (right : Stored σ u) (tProper : t.Proper) (uProper : u.Proper)
    (tShort : Short t) (uShort : Short u) (same : treeHash t = treeHash u) : t = u := by
  have nodes : nodeOf t = nodeOf u :=
    serializeNode_injective (fits_nodeOf tProper tShort) (fits_nodeOf uProper uShort)
      (safe _ left.root _ right.root same)
  induction t generalizing u with
  | empty => cases u <;> simp [nodeOf] at nodes ⊢
  | leaf path value => cases u <;> simp [nodeOf] at nodes ⊢; exact nodes
  | ext path next ih =>
    cases u with
    | ext other below =>
      simp only [nodeOf_ext,Node.extension.injEq] at nodes
      obtain ⟨rfl,hashes⟩ := nodes
      have tNext := (tProper.resolve_left (by simp)).2.2
      have uNext := (uProper.resolve_left (by simp)).2.2
      have below_eq : nodeOf next = nodeOf below :=
        serializeNode_injective (fits_nodeOf (.inr tNext) tShort.ext)
          (fits_nodeOf (.inr uNext) uShort.ext) (safe _ left.2.root _ right.2.root hashes)
      rw [ih left.2 right.2 (.inr tNext) (.inr uNext) tShort.ext uShort.ext hashes below_eq]
    | _ => simp [nodeOf] at nodes
  | branch children value ih =>
    cases u with
    | branch others held =>
      simp only [nodeOf_branch,Node.branch.injEq] at nodes
      obtain ⟨refs,rfl⟩ := nodes
      have tChildren := (tProper.resolve_left (by simp)).1
      have uChildren := (uProper.resolve_left (by simp)).1
      have equal : children = others := by
        funext n
        have ref := congrFun refs n
        by_cases empty : children n = .empty
        · rw [empty,childRef_empty] at ref
          rw [empty,childRef_eq_none.mp ref.symm]
        · have occupied : others n ≠ .empty := by
            intro gone
            rw [gone,childRef_empty] at ref
            exact empty (childRef_eq_none.mp ref)
          rw [childRef_of_ne empty,childRef_of_ne occupied,Option.some.injEq] at ref
          have node_eq : nodeOf (children n) = nodeOf (others n) :=
            serializeNode_injective (fits_nodeOf (tChildren n) (tShort.child n))
              (fits_nodeOf (uChildren n) (uShort.child n))
              (safe _ (left.2 n).root _ (right.2 n).root ref)
          exact ih n (left.2 n) (right.2 n) (tChildren n) (uChildren n) (tShort.child n)
            (uShort.child n) ref node_eq
      rw [equal]
    | _ => simp [nodeOf] at nodes

theorem Commits.tree_eq {u : Trie} {left right : Tree Nibble Bytes} {m : Bytes → Option Bytes}
    (first : Commits t left m) (second : Commits u right m) : left = right := by
  apply Tree.proper_unique _ _ first.proper second.proper
  funext path
  by_cases bytewise : ∃ key,path = bytesToNibbles key
  · obtain ⟨key,rfl⟩ := bytewise
    rw [first.agrees,second.agrees]
  · have absent {t : Trie} {tree : Tree Nibble Bytes} (commits : Commits t tree m) :
        tree.lookup path = none := by
      by_contra found
      exact bytewise (commits.bytewise path found)
    rw [absent first,absent second]

/-- Two histories end in the same root exactly when they leave the same map. -/
theorem run_root_eq_iff (first second : List Op) (firstFits : ∀ op ∈ first,op.Fits)
    (secondFits : ∀ op ∈ second,op.Fits)
    (safe : NoCollision ((run .new first).2.nodes ++ (run .new second).2.nodes)) :
    (run .new first).1 = some () ∧ (run .new second).1 = some () ∧
      ((run .new first).2.root = (run .new second).2.root ↔
        mapAfter emptyMap first = mapAfter emptyMap second) := by
  have firstSafe : NoCollision (run .new first).2.nodes := fun p hp q hq =>
    safe p (List.mem_append_left _ hp) q (List.mem_append_left _ hq)
  have secondSafe : NoCollision (run .new second).2.nodes :=
    safe.of_suffix (List.suffix_append _ _)
  obtain ⟨returns₁,t,left⟩ := commits_new.run first firstFits firstSafe
  obtain ⟨returns₂,u,right⟩ := commits_new.run second secondFits secondSafe
  refine ⟨returns₁,returns₂,?_,?_⟩
  · intro same
    have storedLeft := left.stored.append (run .new second).2.nodes
    have storedRight := right.stored.mono (List.suffix_append (run .new first).2.nodes _)
    rw [left.root,right.root] at same
    obtain rfl := treeHash_injective safe storedLeft storedRight left.proper right.proper
      left.short right.short same
    funext key
    rw [← left.agrees,← right.agrees]
  · intro same
    rw [same] at left
    rw [left.root,right.root,left.tree_eq right]

def tableOf (nodes : List Node) : NodeStore := nodes.map fun node => (hashNode node,serializeNode node)

theorem hasNode_tableOf {nodes : List Node} (member : node ∈ nodes) :
    HasNode (tableOf nodes) node := List.mem_map_of_mem member

omit [Blake3] in
theorem mutate_of {m : TrieM Hash} {h : Hash}
    (returns : m t.nodes = (some h,σ)) : t.mutate m = (some (),⟨σ,h⟩) := by
  simp only [Trie.mutate,returns]

theorem put_new (key value : Bytes) : Trie.new.put key value = (some (),
      ⟨tableOf [.leaf (bytesToNibbles key) value,.empty],hashNode (.leaf (bytesToNibbles key) value)⟩) := by
  have single : NoCollision (tableOf [.empty]) := by
    intro p hp q hq _
    simp only [tableOf,List.map_cons,List.map_nil,List.mem_singleton] at hp hq
    rw [hp,hq]
  have loaded := load_of _ single .empty (hasNode_tableOf (by simp)) trivial
  apply mutate_of
  rw [insert]
  exact bind_of loaded

/-- A node whose payload does not read back ends every operation that meets it. -/
theorem load_corrupt (safe : NoCollision σ) (member : HasNode σ node)
    (corrupt : deserializeNode (serializeNode node) = none) : load (hashNode node) σ = (none,σ) := by
  unfold load
  rw [lookup_of_mem σ safe _ member]
  simp only [hashNode,if_true,corrupt]

omit [Blake3] in
theorem wrapped_length (bytes rest : Bytes) (wraps : bytes.length = 2^32) :
    BigEndian.decode ((lengthPrefixed bytes ++ rest).take 4) = 0 := by
  rw [lengthPrefixed,List.append_assoc,List.take_left' (by simp),BigEndian.decode_encode,wraps]
  decide

omit [Blake3] in
/-- A packed path of exactly `2^32` bytes is written with length zero. -/
theorem deserialize_wrapped_path (path : List Nibble) (value : Bytes)
    (wraps : path.length / 2 + 1 = 2^32) :
    deserializeNode (serializeNode (.leaf path value)) = none := by
  have zero := wrapped_length (packHexPrefix path true) (lengthPrefixed value)
    (by rw [length_packHexPrefix,wraps])
  rw [serializeNode,tagPayload,deserializeNode,if_neg (by decide),if_pos rfl]
  unfold deserializeLeaf
  simp only [zero,List.take_zero]
  simp only [unpackHexPrefix,ite_self]

omit [Blake3] in
/-- A value of exactly `2^32` bytes is written with length zero and reads back empty. -/
theorem deserialize_wrapped_value (path : List Nibble) (value : Bytes)
    (short : path.length / 2 + 1 < 2^32) (wraps : value.length = 2^32) :
    deserializeNode (serializeNode (.leaf path value)) = some (.leaf path []) := by
  have packed := length_packHexPrefix path true
  have hlen := take_lengthPrefixed (packHexPrefix path true) (lengthPrefixed value) (by omega)
  have body := drop_lengthPrefixed (packHexPrefix path true) (lengthPrefixed value)
  have after : (lengthPrefixed (packHexPrefix path true) ++ lengthPrefixed value).drop
      (4 + (packHexPrefix path true).length) = lengthPrefixed value := by
    rw [← List.drop_drop,body,List.drop_left]
  have vlen := wrapped_length value [] wraps
  rw [List.append_nil] at vlen
  have head : (packHexPrefix path true ++ lengthPrefixed value).take
      (packHexPrefix path true).length = packHexPrefix path true := List.take_left
  rw [serializeNode,tagPayload,deserializeNode,if_neg (by decide),if_pos rfl]
  simp only [deserializeLeaf,hlen,body,head,unpack_packHexPrefix,after,vlen,getRange]
  simp
  omega
theorem load_as {read : Node} (safe : NoCollision σ) (member : HasNode σ node)
    (reads : deserializeNode (serializeNode node) = some read) :
    load (hashNode node) σ = (some read,σ) := by
  unfold load
  rw [lookup_of_mem σ safe _ member]
  simp only [hashNode,if_true,reads]

def twoLeaves (a b : Node) : Node :=
  .branch (Function.update (Function.update (fun _ => none) 0 (some (hashNode a))) 1
    (some (hashNode b))) none

theorem insert_beside (V : Bytes) (wraps : V.length = 2^32)
    (safe : NoCollision (tableOf [.leaf [0,0] V,.empty])) :
    insert 3 (hashNode (.leaf [0,0] V)) [1,0] [7,7] (tableOf [.leaf [0,0] V,.empty]) =
      (some (hashNode (twoLeaves (.leaf [0] []) (.leaf [0] [7,7]))),
        tableOf [twoLeaves (.leaf [0] []) (.leaf [0] [7,7]),.leaf [0] [7,7],.leaf [0] [],
          .leaf [0,0] V,.empty]) := by
  have loaded := load_as safe (hasNode_tableOf (List.mem_cons_self ..))
    (deserialize_wrapped_value [0,0] V (by decide) wraps)
  rw [insert,bind_of loaded]
  rfl

def besideNodes (V : Bytes) : List Node :=
  [twoLeaves (.leaf [0] []) (.leaf [0] [7,7]),.leaf [0] [7,7],.leaf [0] [],.leaf [0,0] V,.empty]

theorem load_besides {V : Bytes} (safe : NoCollision (tableOf (besideNodes V))) :
    load (hashNode (twoLeaves (.leaf [0] []) (.leaf [0] [7,7]))) (tableOf (besideNodes V)) =
      (some (twoLeaves (.leaf [0] []) (.leaf [0] [7,7])),tableOf (besideNodes V)) ∧
    load (hashNode (.leaf [0] [7,7])) (tableOf (besideNodes V)) =
      (some (.leaf [0] [7,7]),tableOf (besideNodes V)) ∧
    load (hashNode (.leaf [0] [])) (tableOf (besideNodes V)) =
      (some (.leaf [0] []),tableOf (besideNodes V)) := by
  refine ⟨load_of _ safe _ (hasNode_tableOf (by simp [besideNodes])) ?_,
    load_of _ safe _ (hasNode_tableOf (by simp [besideNodes])) (by simp [Node.Fits]),
    load_of _ safe _ (hasNode_tableOf (by simp [besideNodes])) (by simp [Node.Fits])⟩
  intro v held
  cases held

theorem delete_beside (V : Bytes) (safe : NoCollision (tableOf (besideNodes V))) :
    Trie.delete ⟨tableOf (besideNodes V),hashNode (twoLeaves (.leaf [0] []) (.leaf [0] [7,7]))⟩ [0x10] =
      (some (),⟨tableOf (.leaf [0,0] [] :: besideNodes V),hashNode (.leaf [0,0] [])⟩) := by
  obtain ⟨branch,right,left⟩ := load_besides safe
  have found : Trie.get ⟨tableOf (besideNodes V),
      hashNode (twoLeaves (.leaf [0] []) (.leaf [0] [7,7]))⟩ [0x10] = some (some [7,7]) := by
    have steps : getAt 3 (hashNode (twoLeaves (.leaf [0] []) (.leaf [0] [7,7]))) [1,0]
        (tableOf (besideNodes V)) = (some (some [7,7]),tableOf (besideNodes V)) := by
      rw [getAt,bind_of branch]
      change getAt 2 (hashNode (.leaf [0] [7,7])) [0] (tableOf (besideNodes V)) = _
      rw [getAt,bind_of right]
      rfl
    exact congrArg Prod.fst steps
  unfold Trie.delete
  rw [found]
  apply mutate_of
  have removed : remove 3 (hashNode (twoLeaves (.leaf [0] []) (.leaf [0] [7,7]))) [1,0]
      (tableOf (besideNodes V)) = (some (some (hashNode (.leaf [0,0] []))),
        tableOf (.leaf [0,0] [] :: besideNodes V)) := by
    have inner : remove 2 (hashNode (.leaf [0] [7,7])) [0] (tableOf (besideNodes V)) =
        (some none,tableOf (besideNodes V)) := by
      rw [remove,bind_of right]
      rfl
    rw [remove,bind_of branch]
    change (remove 2 (hashNode (.leaf [0] [7,7])) [0] >>= _) _ = _
    rw [bind_of inner]
    change (prefixChild 0 (hashNode (.leaf [0] [])) >>= _) _ = _
    have single : prefixChild 0 (hashNode (.leaf [0] [])) (tableOf (besideNodes V)) =
        (some (hashNode (.leaf [0,0] [])),tableOf (.leaf [0,0] [] :: besideNodes V)) := by
      rw [prefixChild,bind_of left]
      rfl
    rw [bind_of single]
    rfl
  exact bind_of removed

def direct (V : Bytes) : List Op := [.put [0x00] V]

def detour (V : Bytes) : List Op := [.put [0x00] V,.put [0x10] [7,7],.delete [0x10]]

def detourNodes (V : Bytes) : List Node := .leaf [0,0] [] :: besideNodes V

omit [Blake3] in
theorem direct_detour (V : Bytes) :
    mapAfter emptyMap (direct V) = mapAfter emptyMap (detour V) := by
  simp only [direct,detour,mapAfter]
  rw [Function.update_idem,eq_comm,Function.update_eq_self_iff]
  simp

theorem run_direct (V : Bytes) : run .new (direct V) =
    (some (),⟨tableOf [.leaf [0,0] V,.empty],hashNode (.leaf [0,0] V)⟩) := by
  have start : Trie.new.put [0x00] V = (some (),
      ⟨tableOf [.leaf [0,0] V,.empty],hashNode (.leaf [0,0] V)⟩) := put_new _ _
  simp only [direct,run,Trie.apply,start]

theorem run_detour (V : Bytes) (wraps : V.length = 2^32) (safe : NoCollision (tableOf (detourNodes V))) :
    run .new (detour V) = (some (),⟨tableOf (detourNodes V),hashNode (.leaf [0,0] [])⟩) := by
  have older : NoCollision (tableOf (besideNodes V)) := safe.of_suffix (List.suffix_cons _ _)
  have oldest : NoCollision (tableOf [.leaf [0,0] V,.empty]) :=
    older.of_suffix ⟨tableOf [twoLeaves (.leaf [0] []) (.leaf [0] [7,7]),.leaf [0] [7,7],.leaf [0] []],rfl⟩
  have start : Trie.new.put [0x00] V = (some (),
      ⟨tableOf [.leaf [0,0] V,.empty],hashNode (.leaf [0,0] V)⟩) := put_new _ _
  have beside : Trie.put ⟨tableOf [.leaf [0,0] V,.empty],hashNode (.leaf [0,0] V)⟩ [0x10] [7,7] =
      (some (),⟨tableOf (besideNodes V),hashNode (twoLeaves (.leaf [0] []) (.leaf [0] [7,7]))⟩) :=
    mutate_of (insert_beside V wraps oldest)
  simp only [detour,run,Trie.apply,start,beside,delete_beside V older]
  rfl

theorem length_serialize_twoLeaves (a b : Node) : (serializeNode (twoLeaves a b)).length = 82 := by
  simp [twoLeaves,serializeNode,tagPayload,serializeChild,serializeValue,Function.update_apply]

end History

/-- A hash that separates payloads by their length only. -/
@[reducible] def lengthHash : Blake3 := ⟨fun bytes => fixed 32 (BigEndian.encode 32 bytes.length)⟩

theorem lengthHash_separates {p q : Bytes} (left : p.length < 2^64) (right : q.length < 2^64)
    (same : @hashEncoded lengthHash p = @hashEncoded lengthHash q) : p.length = q.length := by
  have bytes := congrArg Vector.toList same
  simp only [hashEncoded,hashToArray] at bytes
  rw [toList_fixed _ (by simp),toList_fixed _ (by simp)] at bytes
  have lengths := BigEndian.encode_injective (by simp [DomainTag.apply,DomainTag.label,ascii]; omega)
    (by simp [DomainTag.apply,DomainTag.label,ascii]; omega) bytes
  simpa [DomainTag.apply] using lengths

theorem noCollision_lengthHash (nodes : List Node)
    (small : ∀ a ∈ nodes,(serializeNode a).length < 2^64)
    (apart : ∀ a ∈ nodes,∀ b ∈ nodes,(serializeNode a).length = (serializeNode b).length → a = b) :
    NoCollision (@tableOf lengthHash nodes) := by
  intro p hp q hq same
  obtain ⟨a,ha,rfl⟩ := List.mem_map.mp hp
  obtain ⟨b,hb,rfl⟩ := List.mem_map.mp hq
  rw [apart a ha b hb (lengthHash_separates (small a ha) (small b hb) same)]

theorem length_serialize_leaf (path : List Nibble) (value : Bytes) :
    (serializeNode (.leaf path value)).length = path.length / 2 + value.length + 10 := by
  simp [serializeNode,tagPayload,length_packHexPrefix]; omega

/-- The longest keys below `2^32` bytes: the write succeeds, and reading the key back panics. -/
theorem get_wrapped_key (key : Bytes) (long : key.length = 2^32 - 1) : letI : Blake3 := lengthHash
    NoCollision (run .new [.put key []]).2.nodes ∧ (run .new [.put key []]).1 = some () ∧
      (run .new [.put key []]).2.get key = none := by
  let _ : Blake3 := lengthHash
  have wraps : (bytesToNibbles key).length / 2 + 1 = 2^32 := by
    rw [length_bytesToNibbles]; omega
  have written : run .new [.put key []] = (some (),
      ⟨tableOf [.leaf (bytesToNibbles key) [],.empty],hashNode (.leaf (bytesToNibbles key) [])⟩) := by
    simp only [run,Trie.apply,put_new]
  have size := length_serialize_leaf (bytesToNibbles key) []
  have safe : NoCollision (tableOf [.leaf (bytesToNibbles key) [],.empty]) := by
    have one : (serializeNode .empty).length = 1 := rfl
    apply noCollision_lengthHash
    · simp only [List.mem_cons,List.not_mem_nil,or_false]
      rintro a (rfl | rfl) <;> simp_all
    · simp only [List.mem_cons,List.not_mem_nil,or_false]
      rintro a (rfl | rfl) b (rfl | rfl) <;> simp_all
  rw [written]
  refine ⟨safe,rfl,?_⟩
  have corrupt := load_corrupt safe (hasNode_tableOf (List.mem_cons_self ..))
    (deserialize_wrapped_path (bytesToNibbles key) [] wraps)
  simp only [Trie.get]
  rw [getAt]
  simp only [bind,corrupt]

/-- A value of `2^32` bytes: writing and deleting another key changes the root. -/
theorem root_wrapped_value (V : Bytes) (long : V.length = 2^32) : letI : Blake3 := lengthHash
    NoCollision ((run .new (direct V)).2.nodes ++ (run .new (detour V)).2.nodes) ∧
      (run .new (direct V)).1 = some () ∧ (run .new (detour V)).1 = some () ∧
      mapAfter emptyMap (direct V) = mapAfter emptyMap (detour V) ∧
      (run .new (direct V)).2.root ≠ (run .new (detour V)).2.root := by
  have sizes (node : Node) (member : node ∈ @detourNodes lengthHash V) :
      node = .leaf [0,0] [] ∧ (serializeNode node).length = 11 ∨
      node = @twoLeaves lengthHash (.leaf [0] []) (.leaf [0] [7,7]) ∧ (serializeNode node).length = 82 ∨
      node = .leaf [0] [7,7] ∧ (serializeNode node).length = 12 ∨
      node = .leaf [0] [] ∧ (serializeNode node).length = 10 ∨
      node = .leaf [0,0] V ∧ (serializeNode node).length = 2^32 + 11 ∨
      node = .empty ∧ (serializeNode node).length = 1 := by
    simp only [detourNodes,besideNodes,List.mem_cons,List.not_mem_nil,or_false] at member
    rcases member with rfl | rfl | rfl | rfl | rfl | rfl
    · simp [length_serialize_leaf]
    · simp [length_serialize_twoLeaves]
    · simp [length_serialize_leaf]
    · simp [length_serialize_leaf]
    · simp [length_serialize_leaf,long]
    · simp [serializeNode,tagPayload]
  have safe : NoCollision (@tableOf lengthHash (@detourNodes lengthHash V)) := by
    apply noCollision_lengthHash
    · intro a ha
      rcases sizes a ha with h | h | h | h | h | h <;> omega
    · intro a ha b hb same
      rcases sizes a ha with ⟨rfl,h⟩ | ⟨rfl,h⟩ | ⟨rfl,h⟩ | ⟨rfl,h⟩ | ⟨rfl,h⟩ | ⟨rfl,h⟩ <;>
        rcases sizes b hb with ⟨rfl,k⟩ | ⟨rfl,k⟩ | ⟨rfl,k⟩ | ⟨rfl,k⟩ | ⟨rfl,k⟩ | ⟨rfl,k⟩ <;>
        first | rfl | omega
  have within : ∀ p ∈ @tableOf lengthHash [.leaf [0,0] V,.empty] ++ @tableOf lengthHash
      (@detourNodes lengthHash V),p ∈ @tableOf lengthHash (@detourNodes lengthHash V) := by
    intro p member
    rcases List.mem_append.mp member with older | newer
    · exact List.mem_of_mem_drop (i := 4) older
    · exact newer
  rw [@run_direct lengthHash V,@run_detour lengthHash V long safe]
  refine ⟨fun p hp q hq => safe p (within p hp) q (within q hq),rfl,rfl,direct_detour V,?_⟩
  intro same
  have equal := lengthHash_separates (by rw [length_serialize_leaf,long]; decide)
    (by rw [length_serialize_leaf]; decide) same
  rw [length_serialize_leaf,length_serialize_leaf,long] at equal
  revert equal
  decide

/-- Every history of short keys is covered, among them this one. -/
theorem run_refines_map_put :
    letI : Blake3 := lengthHash
    (run .new [.put [1] [2]]).1 = some () ∧
      ∀ key,(run .new [.put [1] [2]]).2.get key = some (mapAfter emptyMap [.put [1] [2]] key) :=
  @run_refines_map lengthHash [.put [1] [2]] (by simp [Op.Fits])
    (by unfold NoCollision; decide +kernel)

theorem run_root_eq_iff_overwrite :
    letI : Blake3 := lengthHash
    (run .new [.put [1] [2],.put [1] [2,3]]).1 = some () ∧ (run .new [.put [1] [2,3]]).1 = some () ∧
      ((run .new [.put [1] [2],.put [1] [2,3]]).2.root = (run .new [.put [1] [2,3]]).2.root ↔
        mapAfter emptyMap [.put [1] [2],.put [1] [2,3]] = mapAfter emptyMap [.put [1] [2,3]]) :=
  @run_root_eq_iff lengthHash [.put [1] [2],.put [1] [2,3]] [.put [1] [2,3]]
    (by simp [Op.Fits]) (by simp [Op.Fits]) (by unfold NoCollision; decide +kernel)

theorem longest_key_panics :
    letI : Blake3 := lengthHash
    ∃ key : Bytes,key.length < 2^32 ∧ NoCollision (run .new [.put key []]).2.nodes ∧
      (run .new [.put key []]).1 = some () ∧ (run .new [.put key []]).2.get key = none :=
  ⟨List.replicate (2^32 - 1) 0,by rw [List.length_replicate]; decide,
    get_wrapped_key _ List.length_replicate⟩

theorem wrapped_value_changes_root :
    letI : Blake3 := lengthHash
    ∃ first second : List Op,
      NoCollision ((run .new first).2.nodes ++ (run .new second).2.nodes) ∧
      (run .new first).1 = some () ∧ (run .new second).1 = some () ∧
      mapAfter emptyMap first = mapAfter emptyMap second ∧
      (run .new first).2.root ≠ (run .new second).2.root :=
  ⟨direct (List.replicate (2^32) 0),detour (List.replicate (2^32) 0),
    root_wrapped_value _ List.length_replicate⟩

end L1.Mpt
