import L1.MptNode

/-! The trie over its hash-addressed node table. A panic (a dangling hash, a corrupt
node, a failed debug assertion) ends an operation without a value but keeps the
nodes written so far. -/
namespace L1.Mpt

/-- The node table, newest write first; reading takes the newest payload of a hash. -/
abbrev NodeStore := List (Hash × Bytes)

def TrieM (α : Type) := NodeStore → Option α × NodeStore

namespace TrieM

def panic : TrieM α := fun σ => (none,σ)

instance : Monad TrieM where
  pure a := fun σ => (some a,σ)
  bind m f := fun σ =>
    match m σ with
    | (some a,σ') => f a σ'
    | (none,σ') => (none,σ')

@[simp] theorem pure_apply (a : α) (σ : NodeStore) : (pure a : TrieM α) σ = (some a,σ) := rfl

theorem bind_of {m : TrieM α} {f : α → TrieM β} {σ σ' : NodeStore} {a : α}
    (returns : m σ = (some a,σ')) : (m >>= f) σ = f a σ' := by
  simp only [bind,returns]

def Grows (m : TrieM α) : Prop := ∀ σ,σ <:+ (m σ).2

theorem grows_pure (a : α) : (pure a : TrieM α).Grows := fun σ => List.suffix_refl σ

theorem grows_panic : (panic : TrieM α).Grows := fun σ => List.suffix_refl σ

theorem grows_bind {m : TrieM α} {f : α → TrieM β} (first : m.Grows) (next : ∀ a,(f a).Grows) :
    (m >>= f).Grows := by
  intro σ
  have start := first σ
  simp only [bind]
  match m σ,start with
  | (some a,σ'),start => exact start.trans (next a σ')
  | (none,σ'),start => exact start

end TrieM

variable [Blake3]

def load (h : Hash) : TrieM Node := fun σ =>
  match σ.lookup h with
  | none => (none,σ)
  | some bytes => if hashEncoded bytes = h then (deserializeNode bytes,σ) else (none,σ)

def store (node : Node) : TrieM Hash := fun σ =>
  (some (hashNode node),(hashNode node,serializeNode node) :: σ)

/-- Lookup below a node. Each level of a trie consumes a nibble, so the depth
allowed by `get` is never used up. -/
def getAt : Nat → Hash → List Nibble → TrieM (Option Bytes)
  | 0, _, _ => TrieM.panic
  | depth + 1, h, key => do
    match ← load h with
    | .empty => pure none
    | .leaf path value => pure (if path = key then some value else none)
    | .extension path next =>
      if path <+: key then getAt depth next (key.drop path.length) else pure none
    | .branch children value =>
      match key with
      | [] => pure value
      | n :: rest =>
        match children n with
        | none => pure none
        | some child => getAt depth child rest

/-- One entry placed in a fresh branch: at the branch itself when nothing is left of
its path, otherwise as a leaf in the slot of the first nibble. -/
def place (slots : (Nibble → Option Hash) × Option Bytes) (rest : List Nibble) (value : Bytes) :
    TrieM ((Nibble → Option Hash) × Option Bytes) :=
  match rest with
  | [] => if slots.2.isNone then pure (slots.1,some value) else TrieM.panic
  | n :: rest => do
    let h ← store (.leaf rest value)
    pure (Function.update slots.1 n (some h),slots.2)

def splitToBranch (a : List Nibble) (aVal : Bytes) (b : List Nibble) (bVal : Bytes) :
    TrieM Hash := do
  let slots ← place (fun _ => none,none) a aVal
  let slots ← place slots b bVal
  store (.branch slots.1 slots.2)

/-- The extension above a branch hash, absent on an empty path. -/
def extend (path : List Nibble) (h : Hash) : TrieM Hash :=
  if path.length = 0 then pure h else store (.extension path h)

/-- The extension case of `insert` for a key that leaves the path at some nibble. -/
def splitExtension (path : List Nibble) (next : Hash) (key : List Nibble) (value : Bytes) :
    TrieM Hash := do
  let cp := PatriciaTree.Tree.commonPrefixLen path key
  match path.drop cp with
  | [] => TrieM.panic
  | extNibble :: restPath =>
    let extChild ← extend restPath next
    let children := Function.update (fun _ => none) extNibble (some extChild)
    match key.drop cp with
    | [] =>
      let bh ← store (.branch children (some value))
      extend key bh
    | keyNibble :: keyRest =>
      let leafH ← store (.leaf keyRest value)
      let bh ← store (.branch (Function.update children keyNibble (some leafH)) none)
      extend (path.take cp) bh

def insert : Nat → Hash → List Nibble → Bytes → TrieM Hash
  | 0, _, _, _ => TrieM.panic
  | depth + 1, h, key, value => do
    match ← load h with
    | .empty => store (.leaf key value)
    | .leaf path oldVal =>
      if path = key then store (.leaf path value)
      else
        let cp := PatriciaTree.Tree.commonPrefixLen path key
        let branchH ← splitToBranch (path.drop cp) oldVal (key.drop cp) value
        extend (path.take cp) branchH
    | .extension path next =>
      if path <+: key then
        let newNext ← insert depth next (key.drop path.length) value
        store (.extension path newNext)
      else splitExtension path next key value
    | .branch children brVal =>
      match key with
      | [] => store (.branch children (some value))
      | n :: rest =>
        let child := (children n).getD (hashNode .empty)
        let newC ← insert depth child rest value
        store (.branch (Function.update children n (some newC)) brVal)

def prefixChild (nibble : Nibble) (childH : Hash) : TrieM Hash := do
  match ← load childH with
  | .leaf path value => store (.leaf (nibble :: path) value)
  | .extension path next => store (.extension (nibble :: path) next)
  | .branch _ _ => store (.extension [nibble] childH)
  | .empty => store .empty

def present (children : Nibble → Option Hash) : List (Nibble × Hash) :=
  (List.finRange 16).filterMap fun i => (children i).map fun h => (i,h)

def refill (occupied : List (Nibble × Hash)) : Nibble → Option Hash :=
  occupied.foldl (fun ch slot => Function.update ch slot.1 (some slot.2)) (fun _ => none)

def collapseBranch (children : Nibble → Option Hash) (value : Option Bytes) :
    TrieM (Option Hash) := do
  match present children,value with
  | [],none => pure none
  | [],some v => return some (← store (.leaf [] v))
  | [(nibble,childH)],none => return some (← prefixChild nibble childH)
  | occupied,value =>
    return some (← store (.branch (refill occupied) value))

def normalizeExtension (path : List Nibble) (next : Hash) : TrieM Hash := do
  match ← load next with
  | .empty => store .empty
  | .leaf lp value => store (.leaf (path ++ lp) value)
  | .extension ep nn => store (.extension (path ++ ep) nn)
  | .branch _ _ => store (.extension path next)

/-- Returns `none` if the subtree became empty. -/
def remove : Nat → Hash → List Nibble → TrieM (Option Hash)
  | 0, _, _ => TrieM.panic
  | depth + 1, h, key => do
    match ← load h with
    | .empty => pure none
    | .leaf path value =>
      if path = key then pure none else return some (← store (.leaf path value))
    | .extension path next =>
      if path <+: key then
        match ← remove depth next (key.drop path.length) with
        | none => pure none
        | some newNext => return some (← normalizeExtension path newNext)
      else return some (← store (.extension path next))
    | .branch children value =>
      match key with
      | [] =>
        if value.isNone then return some (← store (.branch children none))
        else collapseBranch children none
      | n :: rest =>
        match children n with
        | none => return some (← store (.branch children value))
        | some ch =>
          match ← remove depth ch rest with
          | none => collapseBranch (Function.update children n none) value
          | some newC => return some (← store (.branch (Function.update children n (some newC)) value))

/-- In-memory trie: the node table and the current root. -/
structure Trie where
  nodes : NodeStore
  root : Hash

namespace Trie

def new : Trie := ⟨[(hashNode .empty,serializeNode .empty)],hashNode .empty⟩

/-- Lookup; the outer option is absent when the source panics. -/
def get (t : Trie) (key : Bytes) : Option (Option Bytes) :=
  let nibbles := bytesToNibbles key
  (getAt (nibbles.length + 1) t.root nibbles t.nodes).1

/-- Run one mutation of the root; on a panic the root is the old one. -/
def mutate (t : Trie) (m : TrieM Hash) : Option Unit × Trie :=
  match m t.nodes with
  | (some h,σ) => (some (),⟨σ,h⟩)
  | (none,σ) => (none,⟨σ,t.root⟩)

def put (t : Trie) (key value : Bytes) : Option Unit × Trie :=
  let nibbles := bytesToNibbles key
  t.mutate (insert (nibbles.length + 1) t.root nibbles value)

def delete (t : Trie) (key : Bytes) : Option Unit × Trie :=
  match t.get key with
  | none => (none,t)
  | some none => (some (),t)
  | some (some _) =>
    let nibbles := bytesToNibbles key
    t.mutate do
      match ← remove (nibbles.length + 1) t.root nibbles with
      | some h => pure h
      | none => store .empty

end Trie
end L1.Mpt
