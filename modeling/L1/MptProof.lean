import L1.Header
import L1.MptHistory

/-! Inclusion and exclusion proofs. A proof is the chain of node payloads from the root
towards the key; the verifier has the proof and the root only. -/
namespace L1.Mpt

open PatriciaTree

/-- Node payloads from the root on, and the claimed value; `none` claims absence. -/
structure MptProof where
  nodes : List Bytes
  value : Option Bytes
  chainMerkle : Merkle.Proof
  chainMerkleRoot : Hash
  deriving DecidableEq

section Proofs

variable [Blake3]

def bindChain (nodes : List Bytes) : Option (Merkle.Proof × Hash) :=
  (Merkle.prove nodes 0).map fun chain => (chain,Merkle.computeRoot nodes)

/-- The chain below a hash, and the value it ends at. Here no payload is checked against its
hash. Each level consumes a nibble, as in `getAt`. -/
def collect (σ : NodeStore) : Nat → Hash → List Nibble → Option (List Bytes × Option Bytes)
  | 0, _, _ => none
  | depth + 1, h, remaining =>
    match σ.lookup h with
    | none => none
    | some bytes => match deserializeNode bytes with
      | none => none
      | some .empty => some ([bytes],none)
      | some (.leaf path value) => some ([bytes],if path = remaining then some value else none)
      | some (.extension path next) =>
        if path <+: remaining then
          (collect σ depth next (remaining.drop path.length)).map fun c => (bytes :: c.1,c.2)
        else some ([bytes],none)
      | some (.branch children value) => match remaining with
        | [] => some ([bytes],value)
        | n :: remaining => match children n with
          | none => some ([bytes],none)
          | some next => (collect σ depth next remaining).map fun c => (bytes :: c.1,c.2)

def prove (trie : Trie) (key : Bytes) : Option MptProof :=
  let nibbles := bytesToNibbles key
  match collect trie.nodes (nibbles.length + 1) trie.root nibbles with
  | none => none
  | some (nodes,value) => (bindChain nodes).map fun bound => ⟨nodes,value,bound.1,bound.2⟩

/-- The same walk, given only when the key is absent. -/
def proveExclusion (trie : Trie) (key : Bytes) : Option MptProof :=
  match prove trie key with
  | none => none
  | some p => if p.value.isSome then none else some p

/-- Follow the key through the payloads. Every payload but the last must lead on, to the
hash of the next; the last must settle the key. -/
def walkVerify (expected : Option Bytes) : List Nibble → List Bytes → Bool
  | _, [] => false
  | key, raw :: rest => match deserializeNode raw with
    | none => false
    | some .empty => rest.isEmpty && expected.isNone
    | some (.leaf path value) =>
      if rest ≠ [] then false
      else if path = key then decide (expected = some value)
      else expected.isNone
    | some (.extension path next) =>
      if ¬ path <+: key then rest.isEmpty && expected.isNone
      else match rest with
        | [] => false
        | below :: _ =>
          if next ≠ hashEncoded below then false
          else walkVerify expected (key.drop path.length) rest
    | some (.branch children value) => match key with
      | [] => rest.isEmpty && decide (expected = value)
      | n :: key => match children n with
        | none => rest.isEmpty && expected.isNone
        | some child => match rest with
          | [] => false
          | below :: _ =>
            if child ≠ hashEncoded below then false else walkVerify expected key rest

def verify (key : Bytes) (proof : MptProof) (root : Hash) : Bool :=
  match proof.nodes with
  | [] => false
  | top :: _ =>
    if hashEncoded top ≠ root then false
    else if Merkle.computeRoot proof.nodes ≠ proof.chainMerkleRoot then false
    else if Merkle.verify top proof.chainMerkle proof.chainMerkleRoot = false then false
    else walkVerify proof.value (bytesToNibbles key) proof.nodes

/-! What each kind of node makes of the two walks. -/

section Nodes

variable {σ : NodeStore} {h : Hash} {bytes : Bytes} {depth : Nat} {path key : List Nibble}
  {value expected : Option Bytes} {children : Nibble → Option Hash} {rest : List Bytes}

omit [Blake3] in
theorem collect_empty (found : σ.lookup h = some bytes) (read : deserializeNode bytes = some .empty) :
    collect σ (depth + 1) h key = some ([bytes],none) := by
  rw [collect,found]
  simp only [read]

omit [Blake3] in
theorem collect_leaf {value : Bytes} (found : σ.lookup h = some bytes)
    (read : deserializeNode bytes = some (.leaf path value)) :
    collect σ (depth + 1) h key = some ([bytes],if path = key then some value else none) := by
  rw [collect,found]
  simp only [read]

omit [Blake3] in
theorem collect_extension {next : Hash} (found : σ.lookup h = some bytes)
    (read : deserializeNode bytes = some (.extension path next)) :
    collect σ (depth + 1) h key = if path <+: key then
      (collect σ depth next (key.drop path.length)).map fun c => (bytes :: c.1,c.2)
      else some ([bytes],none) := by
  rw [collect,found]
  simp only [read]

omit [Blake3] in
theorem collect_branch (found : σ.lookup h = some bytes)
    (read : deserializeNode bytes = some (.branch children value)) :
    collect σ (depth + 1) h key = match key with
      | [] => some ([bytes],value)
      | n :: key => match children n with
        | none => some ([bytes],none)
        | some next => (collect σ depth next key).map fun c => (bytes :: c.1,c.2) := by
  rw [collect,found]
  simp only [read]

theorem walkVerify_empty (read : deserializeNode bytes = some .empty) :
    walkVerify expected key (bytes :: rest) = (rest.isEmpty && expected.isNone) := by
  rw [walkVerify]
  simp only [read]

theorem walkVerify_leaf {value : Bytes} (read : deserializeNode bytes = some (.leaf path value)) :
    walkVerify expected key (bytes :: rest) =
      decide (rest = [] ∧ expected = if path = key then some value else none) := by
  rw [walkVerify]
  simp only [read]
  by_cases last : rest = []
  · by_cases here : path = key
    · simp [last,here]
    · cases expected <;> simp [last,here]
  · simp [last]

theorem walkVerify_extension {next : Hash}
    (read : deserializeNode bytes = some (.extension path next)) :
    walkVerify expected key (bytes :: rest) =
      if path <+: key then
        decide (rest.head?.map hashEncoded = some next) &&
          walkVerify expected (key.drop path.length) rest
      else rest.isEmpty && expected.isNone := by
  rw [walkVerify]
  simp only [read]
  by_cases under : path <+: key
  · cases rest with
    | nil => simp [under]
    | cons below rest =>
      by_cases linked : hashEncoded below = next
      · simp [under,linked]
      · simp [under,linked,Ne.symm linked]
  · simp [under]

theorem walkVerify_branch (read : deserializeNode bytes = some (.branch children value)) :
    walkVerify expected key (bytes :: rest) = match key with
      | [] => rest.isEmpty && decide (expected = value)
      | n :: key => match children n with
        | none => rest.isEmpty && expected.isNone
        | some child => decide (rest.head?.map hashEncoded = some child) &&
          walkVerify expected key rest := by
  rw [walkVerify]
  simp only [read]
  cases key with
  | nil => rfl
  | cons n key =>
    cases slot : children n with
    | none => simp only [slot]
    | some child =>
      cases rest with
      | nil => simp [slot]
      | cons below rest =>
        by_cases linked : hashEncoded below = child
        · simp [slot,linked]
        · simp [slot,linked,Ne.symm linked]

end Nodes

/-! Soundness: a payload with the hash of a stored tree is the tree's own node, so the
walk of the verifier is the lookup in the tree. -/

def proofTable (nodes : List Bytes) : NodeStore := nodes.map fun raw => (hashEncoded raw,raw)

variable {σ : NodeStore} {tree : Tree Nibble Bytes}

theorem read_eq {nodes : List Bytes} {raw : Bytes}
    (safe : NoCollision (σ ++ proofTable nodes)) (member : raw ∈ nodes) (stored : Stored σ tree)
    (proper : tree.Proper) (short : Short tree) (hashed : hashEncoded raw = treeHash tree) :
    deserializeNode raw = some (nodeOf tree) := by
  have bytes : raw = serializeNode (nodeOf tree) :=
    safe _ (List.mem_append_right _ (List.mem_map_of_mem member)) _
      (List.mem_append_left _ stored.root) hashed
  rw [bytes,deserialize_serializeNode _ (fits_nodeOf proper short)]

theorem walk_sound {nodes : List Bytes} (safe : NoCollision (σ ++ proofTable nodes))
    (expected : Option Bytes) (tree : Tree Nibble Bytes) (key : List Nibble) (raw : Bytes)
    (rest : List Bytes) (listed : ∀ b ∈ raw :: rest, b ∈ nodes) (stored : Stored σ tree)
    (proper : tree.Proper) (short : Short tree) (hashed : hashEncoded raw = treeHash tree)
    (walked : walkVerify expected key (raw :: rest) = true) : expected = tree.lookup key := by
  have read := read_eq safe (listed raw (List.mem_cons_self ..)) stored proper short hashed
  induction tree generalizing key raw rest with
  | empty =>
    rw [walkVerify_empty read] at walked
    simpa using And.right (by simpa using walked)
  | leaf path value =>
    rw [walkVerify_leaf read] at walked
    exact (of_decide_eq_true walked).2
  | ext path next ih =>
    obtain ⟨-,-,canonical⟩ := proper.resolve_left (by simp)
    rw [walkVerify_extension read] at walked
    rw [Tree.lookup]
    by_cases under : path <+: key
    · rw [if_pos under,Bool.and_eq_true,decide_eq_true_eq] at walked
      rw [if_pos under]
      cases rest with
      | nil => cases walked.1
      | cons below rest =>
        obtain ⟨linked,walked⟩ := walked
        have later := fun b member => listed b (List.mem_cons_of_mem _ member)
        have linked : hashEncoded below = treeHash next := Option.some.inj linked
        exact ih _ below rest later stored.2 (.inr canonical) short.ext linked walked
          (read_eq safe (later below (List.mem_cons_self ..)) stored.2 (.inr canonical) short.ext
            linked)
    · rw [if_neg under,Bool.and_eq_true,Option.isNone_iff_eq_none] at walked
      rw [if_neg under,walked.2]
  | branch children value ih =>
    have canonical := proper.resolve_left (by simp)
    rw [nodeOf_branch] at read
    rw [walkVerify_branch read] at walked
    cases key with
    | nil =>
      rw [Bool.and_eq_true,decide_eq_true_eq] at walked
      exact walked.2
    | cons n key =>
      rw [Tree.lookup]
      by_cases empty : children n = .empty
      · simp only [empty,childRef_empty,Bool.and_eq_true,Option.isNone_iff_eq_none] at walked
        simp [empty,walked.2]
      · simp only [childRef_of_ne empty,Bool.and_eq_true,decide_eq_true_eq] at walked
        cases rest with
        | nil => cases walked.1
        | cons below rest =>
          obtain ⟨linked,walked⟩ := walked
          have later := fun b member => listed b (List.mem_cons_of_mem _ member)
          have linked : hashEncoded below = treeHash (children n) := Option.some.inj linked
          exact ih n _ below rest later (stored.2 n) (canonical.1 n) (short.child n) linked walked
            (read_eq safe (later below (List.mem_cons_self ..)) (stored.2 n) (canonical.1 n)
              (short.child n) linked)

/-- Whoever made the proof, an accepted value is the one in the trie. -/
theorem verify_sound {t : Trie} {m : Bytes → Option Bytes}
    (commits : Commits t tree m) (key : Bytes) (p : MptProof)
    (safe : NoCollision (t.nodes ++ proofTable p.nodes)) (accepted : verify key p t.root = true) :
    p.value = m key := by
  unfold verify at accepted
  split at accepted
  · cases accepted
  rename_i top rest nodes
  split at accepted
  · cases accepted
  rename_i rooted
  split at accepted
  · cases accepted
  split at accepted
  · cases accepted
  rw [nodes] at accepted
  rw [← commits.agrees]
  exact walk_sound safe p.value tree _ top rest (fun b member => nodes ▸ member) commits.stored
    commits.proper commits.short ((not_not.mp rooted).trans commits.root) accepted

/-! Completeness: the collected chain passes the walk, and the binding of the chain passes
because a Merkle proof of a leaf always leads to the root. -/

/-- A chain that starts at a tree and settles a key. -/
structure Settles (tree : Tree Nibble Bytes) (key : List Nibble) (nodes : List Bytes) : Prop where
  top : nodes.head?.map hashEncoded = some (treeHash tree)
  walked : walkVerify (tree.lookup key) key nodes = true

/-- Collecting below the hash of a tree gives a chain that settles the key. -/
theorem collect_tree (safe : NoCollision σ) (tree : Tree Nibble Bytes) (depth : Nat)
    (key : List Nibble) (proper : tree.Proper) (short : Short tree) (stored : Stored σ tree)
    (deep : key.length < depth) :
    ∃ nodes, collect σ depth (treeHash tree) key = some (nodes,tree.lookup key) ∧
      Settles tree key nodes := by
  have payload (t : Tree Nibble Bytes) (proper : t.Proper) (short : Short t) (held : Stored σ t) :
      ∃ bytes, σ.lookup (treeHash t) = some bytes ∧ deserializeNode bytes = some (nodeOf t) ∧
        hashEncoded bytes = treeHash t :=
    ⟨_,lookup_of_mem σ safe _ held.root,deserialize_serializeNode _ (fits_nodeOf proper short),rfl⟩
  obtain ⟨bytes,found,read,hashed⟩ := payload tree proper short stored
  have top (rest : List Bytes) : (bytes :: rest).head?.map hashEncoded = some (treeHash tree) :=
    congrArg some hashed
  induction tree generalizing depth key bytes with
  | empty =>
    obtain ⟨depth,rfl⟩ : ∃ d, depth = d + 1 := ⟨depth - 1,by omega⟩
    exact ⟨_,collect_empty found read,top _,by rw [walkVerify_empty read]; rfl⟩
  | leaf path value =>
    obtain ⟨depth,rfl⟩ : ∃ d, depth = d + 1 := ⟨depth - 1,by omega⟩
    refine ⟨_,collect_leaf found read,top _,?_⟩
    rw [walkVerify_leaf read]
    exact decide_eq_true ⟨rfl,rfl⟩
  | ext path next ih =>
    obtain ⟨depth,rfl⟩ : ∃ d, depth = d + 1 := ⟨depth - 1,by omega⟩
    obtain ⟨nonempty,-,canonical⟩ := proper.resolve_left (by simp)
    rw [collect_extension found read,Tree.lookup]
    by_cases under : path <+: key
    · have shorter : (key.drop path.length).length < depth := by
        have := List.length_pos_iff.mpr nonempty
        have := under.length_le
        simp only [List.length_drop]; omega
      obtain ⟨below,found',read',hashed'⟩ := payload next (.inr canonical) short.ext stored.2
      obtain ⟨nodes,collected,settles⟩ := ih depth _ (.inr canonical) short.ext stored.2 shorter below
        found' read' hashed' fun _ => congrArg some hashed'
      have collected : collect σ depth (hashNode (nodeOf next)) _ = _ := collected
      refine ⟨bytes :: nodes,by rw [if_pos under,if_pos under,collected]; rfl,top _,?_⟩
      rw [walkVerify_extension read,if_pos under,Tree.lookup,if_pos under,Bool.and_eq_true]
      exact ⟨decide_eq_true settles.top,settles.walked⟩
    · refine ⟨_,by rw [if_neg under,if_neg under],top _,?_⟩
      rw [walkVerify_extension read,if_neg under,Tree.lookup,if_neg under]
      rfl
  | branch children value ih =>
    obtain ⟨depth,rfl⟩ : ∃ d, depth = d + 1 := ⟨depth - 1,by omega⟩
    have canonical := proper.resolve_left (by simp)
    rw [nodeOf_branch] at read
    rw [collect_branch found read]
    cases key with
    | nil =>
      refine ⟨_,rfl,top _,?_⟩
      rw [walkVerify_branch read]
      simp
    | cons n key =>
      rw [Tree.lookup]
      by_cases empty : children n = .empty
      · refine ⟨[bytes],by simp only [empty,childRef_empty,Tree.lookup_empty],top _,?_⟩
        rw [walkVerify_branch read]
        simp [empty]
      · obtain ⟨below,found',read',hashed'⟩ :=
          payload (children n) (canonical.1 n) (short.child n) (stored.2 n)
        obtain ⟨nodes,collected,settles⟩ := ih n depth key (canonical.1 n) (short.child n)
          (stored.2 n) (by simpa using deep) below found' read' hashed' fun _ => congrArg some hashed'
        refine ⟨bytes :: nodes,by simp only [childRef_of_ne empty,collected,Option.map_some],top _,?_⟩
        rw [walkVerify_branch read]
        simp only [childRef_of_ne empty,Bool.and_eq_true]
        exact ⟨decide_eq_true settles.top,settles.walked⟩

theorem bindChain_verify (top : Bytes) (rest : List Bytes) :
    ∃ chain, bindChain (top :: rest) = some (chain,Merkle.computeRoot (top :: rest)) ∧
      Merkle.verify top chain (Merkle.computeRoot (top :: rest)) = true := by
  have climbs := MerkleTree.root_eq_climb Merkle.hashBranch (top :: rest).length
    ((top :: rest).map Merkle.hashLeaf) 0 (Merkle.hashLeaf top) (by simp) (by simp)
  refine ⟨_,rfl,?_⟩
  rw [Merkle.verify,Merkle.computeRoot,climbs]
  simp

/-- The trie's own proof verifies and carries the trie's own value. -/
theorem prove_complete {t : Trie} {m : Bytes → Option Bytes}
    (commits : Commits t tree m) (safe : NoCollision t.nodes) (key : Bytes) :
    ∃ p, prove t key = some p ∧ verify key p t.root = true ∧ p.value = m key := by
  obtain ⟨nodes,collected,rooted,walked⟩ := collect_tree safe tree
    ((bytesToNibbles key).length + 1) (bytesToNibbles key) commits.proper commits.short
    commits.stored (Nat.lt_succ_self _)
  rw [← commits.root] at collected rooted
  cases nodes with
  | nil => simp at rooted
  | cons top rest =>
    obtain ⟨chain,bound,linked⟩ := bindChain_verify top rest
    refine ⟨⟨top :: rest,tree.lookup (bytesToNibbles key),chain,Merkle.computeRoot (top :: rest)⟩,
      ?_,?_,commits.agrees key⟩
    · simp only [prove,collected,bound,Option.map_some]
    · have rooted : hashEncoded top = t.root := by simpa using rooted
      simp only [verify,rooted,linked,ne_eq,not_true_eq_false,if_false,Bool.true_eq_false]
      exact walked

theorem prove_corrupt {node : Node} {nodes : NodeStore} (safe : NoCollision nodes)
    (member : HasNode nodes node) (corrupt : deserializeNode (serializeNode node) = none)
    (key : Bytes) : prove ⟨nodes,hashNode node⟩ key = none := by
  simp only [prove,collect,lookup_of_mem nodes safe _ member,corrupt]

/-- In every history of short keys and values, the proof of a key verifies and carries what
the trie has at the key; and no proof that verifies carries anything else. -/
theorem proofs_complete_and_sound (ops : List Op) (fits : ∀ op ∈ ops,op.Fits)
    (safe : NoCollision (run .new ops).2.nodes) (key : Bytes) :
    (∃ p value, prove (run .new ops).2 key = some p ∧ verify key p (run .new ops).2.root = true ∧
      (run .new ops).2.get key = some value ∧ p.value = value ∧
      proveExclusion (run .new ops).2 key = if value = none then some p else none) ∧
    ∀ p, NoCollision ((run .new ops).2.nodes ++ proofTable p.nodes) →
      verify key p (run .new ops).2.root = true → (run .new ops).2.get key = some p.value := by
  obtain ⟨-,tree,commits⟩ := commits_new.run ops fits safe
  refine ⟨?_,fun p apart accepted => ?_⟩
  · obtain ⟨p,proved,accepted,value⟩ := prove_complete commits safe key
    refine ⟨p,_,proved,accepted,commits.get safe key,value,?_⟩
    rw [← value]
    simp only [proveExclusion,proved]
    cases p.value <;> simp
  · rw [commits.get safe key,verify_sound commits key p apart accepted]

end Proofs

theorem short_history_proved :
    letI : Blake3 := lengthHash
    (∃ p value, prove (run .new [.put [1] [2]]).2 [1] = some p ∧
      verify [1] p (run .new [.put [1] [2]]).2.root = true ∧
      (run .new [.put [1] [2]]).2.get [1] = some value ∧ p.value = value ∧
      proveExclusion (run .new [.put [1] [2]]).2 [1] = if value = none then some p else none) ∧
    ∀ p, NoCollision ((run .new [.put [1] [2]]).2.nodes ++ proofTable p.nodes) →
      verify [1] p (run .new [.put [1] [2]]).2.root = true →
      (run .new [.put [1] [2]]).2.get [1] = some p.value :=
  @proofs_complete_and_sound lengthHash [.put [1] [2]] (by simp [Op.Fits])
    (by unfold NoCollision; decide +kernel) [1]

theorem no_proof_of_wrapped_key (key : Bytes) (long : key.length = 2^32 - 1) :
    letI : Blake3 := lengthHash
    prove (run .new [.put key []]).2 key = none := by
  let _ : Blake3 := lengthHash
  have safe := (get_wrapped_key key long).1
  have wraps : (bytesToNibbles key).length / 2 + 1 = 2^32 := by
    rw [length_bytesToNibbles,long]; decide
  simp only [run,Trie.apply,put_new] at safe ⊢
  exact prove_corrupt safe (hasNode_tableOf (List.mem_cons_self ..))
    (deserialize_wrapped_path _ [] wraps) _

/-- The longest keys below `2^32` bytes can be written and have no proof. -/
theorem longest_key_has_no_proof :
    letI : Blake3 := lengthHash
    ∃ key : Bytes, key.length < 2^32 ∧ NoCollision (run .new [.put key []]).2.nodes ∧
      (run .new [.put key []]).1 = some () ∧ prove (run .new [.put key []]).2 key = none :=
  have long : (List.replicate (2^32 - 1) (0 : UInt8)).length = 2^32 - 1 := List.length_replicate
  have wrapped := get_wrapped_key _ long
  ⟨List.replicate (2^32 - 1) 0,by rw [long]; decide,wrapped.1,wrapped.2.1,
    no_proof_of_wrapped_key _ long⟩

end L1.Mpt
