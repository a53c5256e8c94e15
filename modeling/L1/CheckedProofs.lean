import L1.CheckedDecoders
import L1.MptProof

/-! Verification of trie proofs with every index checked. Payloads and keys come from outside; the
position in the key never passes its end, and a layer that is paired up has an even length. -/
namespace L1

open Mpt

namespace Checked

/-- `None` of the source, as an outcome. -/
def outcome {α : Type} (found : Option α) : Except Unit α := found.elim (.error ()) .ok

def reject {α : Type} : Checked Unit α := throw ()

/-! Nodes. -/

def unpackHexPrefix (packed : Bytes) : Checked Unit (List Nibble × Bool) := do
  rejectIf (packed.length = 0) ()
  let flags ← index packed 0
  let rest ← tail packed 1
  let nibbles := if flags &&& 0x10 ≠ 0 then lowNibble flags :: bytesToNibbles rest else bytesToNibbles rest
  return (nibbles,decide (flags &&& 0x20 ≠ 0))

def deserializeLeaf (rest : Bytes) : Checked Unit Node := do
  rejectIf (rest.length < 4) ()
  let hlen := BigEndian.decode (← field 4 rest 0 4)
  rejectIf (rest.length < 4 + hlen + 4) ()
  let (path,isLeaf) ← unpackHexPrefix (← range rest 4 (4 + hlen))
  rejectIf (isLeaf = false) ()
  let vlen := BigEndian.decode (← field 4 rest (4 + hlen) (4 + hlen + 4))
  match getRange rest (4 + hlen + 4) (4 + hlen + 4 + vlen) with
  | none => reject
  | some value => return .leaf path value

def deserializeExtension (rest : Bytes) : Checked Unit Node := do
  rejectIf (rest.length < 4) ()
  let hlen := BigEndian.decode (← field 4 rest 0 4)
  rejectIf (rest.length < 4 + hlen + 32) ()
  let (path,isLeaf) ← unpackHexPrefix (← range rest 4 (4 + hlen))
  rejectIf (isLeaf = true) ()
  let next ← field 32 rest (4 + hlen) (4 + hlen + 32)
  return .extension path (fixed 32 next)

def readChildren : Nat → Bytes → Checked Unit (List (Option Hash) × Bytes)
  | 0, rest => return ([],rest)
  | n + 1, rest => do
    rejectIf (rest.length = 0) ()
    let flag ← index rest 0
    if flag = 0 then
      let (cs,behind) ← readChildren n (← tail rest 1)
      return (none :: cs,behind)
    else if flag = 1 ∧ 33 ≤ rest.length then
      let h ← field 32 rest 1 33
      let (cs,behind) ← readChildren n (← tail rest 33)
      return (some (fixed 32 h) :: cs,behind)
    else reject

def readValue (rest : Bytes) : Checked Unit (Option Bytes) := do
  rejectIf (rest.length = 0) ()
  let flag ← index rest 0
  if flag = 0 then return none
  else if flag = 1 ∧ 5 ≤ rest.length then
    let vlen := BigEndian.decode (← field 4 rest 1 5)
    match getRange rest 5 (5 + vlen) with
    | none => reject
    | some value => return some value
  else reject

def deserializeBranch (rest : Bytes) : Checked Unit Node := do
  let (children,behind) ← readChildren 16 rest
  let value ← readValue behind
  return .branch (fun i => children.getD i none) value

def deserializeNode (payload : Bytes) : Checked Unit Node := do
  rejectIf (payload.length = 0) ()
  let kind ← index payload 0
  if kind = 0 then return .empty
  else if kind = 1 then deserializeLeaf (← tail payload 1)
  else if kind = 2 then deserializeExtension (← tail payload 1)
  else if kind = 3 then deserializeBranch (← tail payload 1)
  else reject

theorem unpackHexPrefix_eq (packed : Bytes) :
    unpackHexPrefix packed = returned (outcome (Mpt.unpackHexPrefix packed).toOption) := by
  cases packed with
  | nil => rfl
  | cons flags rest =>
    rw [unpackHexPrefix,rejectIf,if_neg (by simp),pure_bind,index_eq (by simp),pure_bind,
      tail_eq (by simp),pure_bind]
    simp only [Mpt.unpackHexPrefix,List.getD_cons_zero,List.drop_succ_cons,List.drop_zero,
      decide_eq_true_eq]
    rfl

theorem deserializeLeaf_eq (rest : Bytes) :
    deserializeLeaf rest = returned (outcome (Mpt.deserializeLeaf rest)) := by
  unfold deserializeLeaf Mpt.deserializeLeaf
  by_cases short : rest.length < 4
  · rw [rejectIf,if_pos short,if_pos short]
    rfl
  rw [rejectIf,if_neg short,if_neg short,pure_bind,field_eq rfl (by omega),pure_bind]
  have first : slice rest 0 (0 + 4) = rest.take 4 := rfl
  rw [first]
  dsimp only
  generalize BigEndian.decode (rest.take 4) = hlen
  by_cases cut : rest.length < 4 + hlen + 4
  · rw [rejectIf,if_pos cut,if_pos cut]
    rfl
  rw [rejectIf,if_neg cut,if_neg cut,pure_bind,range_eq (by omega) (by omega),pure_bind,
    unpackHexPrefix_eq,slice_drop_take]
  cases Mpt.unpackHexPrefix ((rest.drop 4).take hlen) with
  | error e => rfl
  | ok found =>
    obtain ⟨path,isLeaf⟩ := found
    cases isLeaf with
    | false => rfl
    | true =>
      show field 4 rest (4 + hlen) (4 + hlen + 4) >>= _ = _
      rw [field_eq rfl (by omega),pure_bind,slice_drop_take]
      dsimp only
      rw [if_pos rfl]
      cases getRange rest (4 + hlen + 4)
        (4 + hlen + 4 + BigEndian.decode ((rest.drop (4 + hlen)).take 4)) <;> rfl

theorem deserializeExtension_eq (rest : Bytes) :
    deserializeExtension rest = returned (outcome (Mpt.deserializeExtension rest)) := by
  unfold deserializeExtension Mpt.deserializeExtension
  by_cases short : rest.length < 4
  · rw [rejectIf,if_pos short,if_pos short]
    rfl
  rw [rejectIf,if_neg short,if_neg short,pure_bind,field_eq rfl (by omega),pure_bind]
  have first : slice rest 0 (0 + 4) = rest.take 4 := rfl
  rw [first]
  dsimp only
  generalize BigEndian.decode (rest.take 4) = hlen
  by_cases cut : rest.length < 4 + hlen + 32
  · rw [rejectIf,if_pos cut,if_pos cut]
    rfl
  rw [rejectIf,if_neg cut,if_neg cut,pure_bind,range_eq (by omega) (by omega),pure_bind,
    unpackHexPrefix_eq,slice_drop_take]
  cases Mpt.unpackHexPrefix ((rest.drop 4).take hlen) with
  | error e => rfl
  | ok found =>
    obtain ⟨path,isLeaf⟩ := found
    cases isLeaf with
    | true => rfl
    | false =>
      show field 32 rest (4 + hlen) (4 + hlen + 32) >>= _ = _
      rw [field_eq rfl (by omega),pure_bind,slice_drop_take]
      rfl

theorem readChildren_eq (n : Nat) (rest : Bytes) :
    readChildren n rest = returned (outcome (Mpt.readChildren n rest)) := by
  induction n generalizing rest with
  | zero => rfl
  | succ n ih =>
    cases rest with
    | nil => rfl
    | cons flag rest =>
      rw [readChildren,rejectIf,if_neg (by simp),pure_bind,index_eq (by simp),pure_bind,
        List.getD_cons_zero]
      unfold Mpt.readChildren
      by_cases none : flag = 0
      · rw [if_pos none,if_pos none,tail_eq (by simp),pure_bind,ih]
        rw [List.drop_succ_cons,List.drop_zero]
        cases Mpt.readChildren n rest <;> rfl
      rw [if_neg none,if_neg none]
      by_cases held : flag = 1 ∧ 33 ≤ (flag :: rest).length
      · have long := held.2
        rw [if_pos held,if_pos held,field_eq rfl long,pure_bind,tail_eq long,pure_bind,ih]
        have one : slice (flag :: rest) 1 (1 + 32) = rest.take 32 := rfl
        rw [one,List.drop_succ_cons]
        cases Mpt.readChildren n (rest.drop 32) <;> rfl
      · rw [if_neg held,if_neg held]
        rfl

theorem readValue_eq (rest : Bytes) : readValue rest = returned (outcome (Mpt.readValue rest)) := by
  cases rest with
  | nil => rfl
  | cons flag rest =>
    rw [readValue,rejectIf,if_neg (by simp),pure_bind,index_eq (by simp),pure_bind,List.getD_cons_zero]
    unfold Mpt.readValue
    dsimp only
    by_cases none : flag = 0
    · rw [if_pos none,if_pos none]
      rfl
    rw [if_neg none,if_neg none]
    by_cases held : flag = 1 ∧ 5 ≤ (flag :: rest).length
    · rw [if_pos held,if_pos held,field_eq rfl held.2,pure_bind]
      have four : slice (flag :: rest) 1 (1 + 4) = rest.take 4 := rfl
      rw [four]
      generalize BigEndian.decode (rest.take 4) = vlen
      have same : getRange (flag :: rest) 5 (5 + vlen) = getRange rest 4 (4 + vlen) := by
        have length : 5 + vlen ≤ (flag :: rest).length ↔ 4 + vlen ≤ rest.length := by
          rw [List.length_cons]
          omega
        have span : 5 + vlen - 5 = 4 + vlen - 4 := by omega
        simp only [getRange,length,span,List.drop_succ_cons]
      rw [same]
      cases getRange rest 4 (4 + vlen) <;> rfl
    · rw [if_neg held,if_neg held]
      rfl

theorem deserializeNode_eq (payload : Bytes) :
    deserializeNode payload = returned (outcome (Mpt.deserializeNode payload)) := by
  cases payload with
  | nil => rfl
  | cons kind rest =>
    rw [deserializeNode,rejectIf,if_neg (by simp),pure_bind,index_eq (by simp),pure_bind,
      List.getD_cons_zero]
    unfold Mpt.deserializeNode
    dsimp only
    by_cases zero : kind = 0
    · rw [if_pos zero,if_pos zero]
      rfl
    rw [if_neg zero,if_neg zero,tail_eq (by simp),pure_bind,pure_bind,pure_bind,deserializeLeaf_eq,
      deserializeExtension_eq]
    have branch : deserializeBranch rest = returned (outcome (Mpt.deserializeBranch rest)) := by
      unfold deserializeBranch Mpt.deserializeBranch
      rw [readChildren_eq]
      cases Mpt.readChildren 16 rest with
      | none => rfl
      | some found =>
        obtain ⟨children,behind⟩ := found
        show readValue behind >>= _ = _
        rw [readValue_eq]
        cases value : Mpt.readValue behind <;> simp only [value] <;> rfl
    rw [List.drop_succ_cons,List.drop_zero,branch]
    split
    · rfl
    split
    · rfl
    split <;> rfl

/-! Merkle layers; `none` is a stop. -/

section Layers

variable {H : Type} (branch : H → H → H)

/-- `chunk[0]` and `chunk[1]` of every chunk of two. -/
def chunkBranches : List H → Option (List H)
  | [] => some []
  | [_] => none
  | left :: right :: rest => (chunkBranches rest).map (branch left right :: ·)

def padLayer (layer : List H) : Option (List H) :=
  if layer.length % 2 = 1 then layer.getLast?.map fun last => layer ++ [last] else some layer

def layerRoot : Nat → List H → Option H
  | _, [] => none
  | _, [top] => some top
  | 0, first :: _ => some first
  | rounds + 1, layer => do
    let layer ← padLayer layer
    let next ← chunkBranches branch layer
    layerRoot rounds next

theorem chunkBranches_eq (layer : List H) (even : layer.length % 2 = 0) :
    chunkBranches branch layer = some (MerkleTree.pairs branch layer) := by
  fun_induction chunkBranches branch layer with
  | case1 => rfl
  | case2 => simp at even
  | case3 left right rest ih =>
    rw [ih (by simp at even; omega)]
    rfl

theorem padLayer_eq (layer : List H) : padLayer layer = some (MerkleTree.pad layer) := by
  unfold padLayer MerkleTree.pad
  by_cases odd : layer.length % 2 = 1
  · rw [if_pos odd,if_pos odd]
    cases last : layer.getLast? with
    | none =>
      rw [List.getLast?_eq_none_iff.mp last] at odd
      simp at odd
    | some node => rfl
  · rw [if_neg odd,if_neg odd]

theorem layerRoot_eq (rounds : Nat) (layer : List H) :
    layerRoot branch rounds layer = MerkleTree.root branch rounds layer := by
  fun_induction MerkleTree.root branch rounds layer with
  | case1 => simp [layerRoot]
  | case2 => simp [layerRoot]
  | case3 => simp [layerRoot]
  | case4 rounds layer notEmpty notOne ih =>
    have even : (MerkleTree.pad layer).length % 2 = 0 := by
      rw [MerkleTree.length_pad]
      omega
    have step : layerRoot branch (rounds + 1) layer = (do
        let layer ← padLayer layer
        let next ← chunkBranches branch layer
        layerRoot branch rounds next) := by
      cases layer with
      | nil => exact absurd rfl notEmpty
      | cons top rest =>
        cases rest with
        | nil => exact absurd rfl (notOne top)
        | cons => rfl
    rw [step,padLayer_eq,Option.bind_eq_bind,Option.bind_some,chunkBranches_eq branch _ even,
      Option.bind_some]
    exact ih

theorem root_ne_none (rounds : Nat) {layer : List H} (nonempty : layer ≠ []) :
    MerkleTree.root branch rounds layer ≠ none := by
  fun_induction MerkleTree.root branch rounds layer with
  | case1 => exact absurd rfl nonempty
  | case2 => simp
  | case3 => simp
  | case4 rounds layer notEmpty notOne ih =>
    refine ih fun flat => ?_
    have length := congrArg List.length flat
    have some : 0 < layer.length := List.length_pos_iff.mpr nonempty
    rw [MerkleTree.nextLayer,MerkleTree.length_pairs,MerkleTree.length_pad,List.length_nil] at length
    omega

end Layers

section Proofs

variable [Blake3]

def computeRoot (leaves : List Bytes) : Option Hash :=
  if leaves = [] then some (Merkle.dhash [])
  else layerRoot Merkle.hashBranch leaves.length (leaves.map Merkle.hashLeaf)

theorem computeRoot_eq (leaves : List Bytes) : computeRoot leaves = some (Merkle.computeRoot leaves) := by
  unfold computeRoot Merkle.computeRoot
  cases leaves with
  | nil => rfl
  | cons leaf rest =>
    rw [if_neg (by simp),layerRoot_eq]
    have filled := root_ne_none Merkle.hashBranch (leaf :: rest).length
      (show (leaf :: rest).map Merkle.hashLeaf ≠ [] by simp)
    obtain ⟨top,found⟩ := Option.ne_none_iff_exists'.mp filled
    rw [found,Option.getD_some]

def stateRoot (accountRoot contractRoot : Hash) : Option Hash :=
  layerRoot Hashing.hashBranch 2 ([accountRoot.toList,contractRoot.toList].map Hashing.hashLeaf)

theorem stateRoot_eq (accountRoot contractRoot : Hash) :
    stateRoot accountRoot contractRoot = some (L1.stateRoot accountRoot contractRoot) := by
  have two (a b : Hash) : MerkleTree.root Hashing.hashBranch 2 [a,b] = some (Hashing.hashBranch a b) := by
    simp [MerkleTree.root,MerkleTree.nextLayer,MerkleTree.pad,MerkleTree.pairs]
  rw [stateRoot,layerRoot_eq,L1.stateRoot,Hashing.merkleRoot]
  simp only [List.map_cons,List.map_nil,List.length_cons,List.length_nil,two,Option.getD_some]

/-- `l[i..]` for nibbles. -/
def nibblesFrom (key : List Nibble) (pos : Nat) : Option (List Nibble) :=
  if pos ≤ key.length then some (key.drop pos) else none

/-- The loop over the payloads: those still to come, the index of the next one and the position in the
key. -/
def walkVerify (nodes : List Bytes) (key : List Nibble) (expected : Option Bytes) :
    List Bytes → Nat → Nat → Option Bool
  | [], _, _ => some false
  | raw :: rest, i, pos => do
    match ← (deserializeNode raw).run with
    | .error () => return false
    | .ok .empty => return decide (i + 1 = nodes.length) && expected.isNone
    | .ok (.leaf path value) =>
      if i + 1 ≠ nodes.length then return false
      else
        let remaining ← nibblesFrom key pos
        if path = remaining then return decide (expected = some value)
        else return expected.isNone
    | .ok (.extension path next) =>
      if key.length < pos then return decide (i + 1 = nodes.length) && expected.isNone
      else
        let remaining ← nibblesFrom key pos
        if ¬ path <+: remaining then return decide (i + 1 = nodes.length) && expected.isNone
        else if i + 1 = nodes.length then return false
        else
          let below ← nodes[i + 1]?
          if next ≠ hashEncoded below then return false
          else walkVerify nodes key expected rest (i + 1) (pos + path.length)
    | .ok (.branch children value) =>
      if pos = key.length then return decide (i + 1 = nodes.length) && decide (expected = value)
      else
        let n ← key[pos]?
        match children n with
        | none => return decide (i + 1 = nodes.length) && expected.isNone
        | some child =>
          if i + 1 = nodes.length then return false
          else
            let below ← nodes[i + 1]?
            if child ≠ hashEncoded below then return false
            else walkVerify nodes key expected rest (i + 1) (pos + 1)

def verifyProof (key : Bytes) (proof : MptProof) (root : Hash) : Option Bool := do
  if proof.nodes = [] then return false
  else
    let top ← proof.nodes[0]?
    if hashEncoded top ≠ root then return false
    else
      let chainRoot ← computeRoot proof.nodes
      if chainRoot ≠ proof.chainMerkleRoot then return false
      else if Merkle.verify top proof.chainMerkle proof.chainMerkleRoot = false then return false
      else walkVerify proof.nodes (bytesToNibbles key) proof.value proof.nodes 0 0

omit [Blake3] in
theorem nibblesFrom_eq {key : List Nibble} {pos : Nat} (within : pos ≤ key.length) :
    nibblesFrom key pos = some (key.drop pos) := if_pos within

/-- The walk with positions is the walk along the remaining key. -/
theorem walkVerify_eq {nodes : List Bytes} {key : List Nibble} {expected : Option Bytes}
    {rest : List Bytes} {i pos : Nat} (here : nodes.drop i = rest) (within : pos ≤ key.length) :
    walkVerify nodes key expected rest i pos = some (Mpt.walkVerify expected (key.drop pos) rest) := by
  induction rest generalizing i pos with
  | nil => rfl
  | cons raw rest ih =>
    have later : nodes.drop (i + 1) = rest := by
      rw [← List.drop_drop,here]
      rfl
    have length : nodes.length = i + 1 + rest.length := by
      have counted := congrArg List.length here
      rw [List.length_drop,List.length_cons] at counted
      omega
    have last : i + 1 = nodes.length ↔ rest = [] := by
      rw [length,← List.length_eq_zero_iff]
      omega
    have lastly : decide (i + 1 = nodes.length) = rest.isEmpty := by
      rw [decide_eq_decide.mpr last]
      cases rest <;> rfl
    have next : nodes[i + 1]? = rest.head? := by
      rw [← later,List.head?_drop]
    unfold walkVerify Mpt.walkVerify
    rw [deserializeNode_eq]
    cases Mpt.deserializeNode raw with
    | none => rfl
    | some node =>
      show some (Except.ok node) >>= _ = _
      rw [Option.bind_eq_bind,Option.bind_some]
      cases node with
      | empty =>
        dsimp only
        rw [lastly]
        rfl
      | leaf path value =>
        dsimp only
        by_cases more : rest = []
        · rw [if_neg (not_not.mpr (last.mpr more)),if_neg (not_not.mpr more),nibblesFrom_eq within,
            Option.bind_eq_bind,Option.bind_some]
          split <;> rfl
        · rw [if_pos (mt last.mp more),if_pos more]
          rfl
      | extension path child =>
        dsimp only
        rw [if_neg (by omega),nibblesFrom_eq within,Option.bind_eq_bind,Option.bind_some,lastly]
        by_cases leads : path <+: key.drop pos
        · rw [if_neg (not_not.mpr leads),if_neg (not_not.mpr leads)]
          cases rest with
          | nil =>
            rw [if_pos (last.mpr rfl)]
            rfl
          | cons below others =>
            rw [if_neg (mt last.mp (by simp)),next,List.head?_cons,Option.bind_eq_bind,Option.bind_some]
            dsimp only
            split
            · rfl
            · have room := leads.length_le
              rw [List.length_drop] at room
              rw [ih later (by omega),List.drop_drop]
        · rw [if_pos leads,if_pos leads]
          rfl
      | branch children value =>
        dsimp only
        rw [lastly]
        by_cases ended : pos = key.length
        · rw [if_pos ended,ended,List.drop_length]
          rfl
        have inside : pos < key.length := by omega
        rw [if_neg ended,List.getElem?_eq_getElem inside,Option.bind_eq_bind,Option.bind_some,
          List.drop_eq_getElem_cons inside]
        dsimp only
        cases children key[pos] with
        | none => rfl
        | some child =>
          dsimp only
          cases rest with
          | nil =>
            rw [if_pos (last.mpr rfl)]
            rfl
          | cons below others =>
            rw [if_neg (mt last.mp (by simp)),next,List.head?_cons,Option.bind_eq_bind,Option.bind_some]
            dsimp only
            split
            · rfl
            · exact ih later inside

theorem verifyProof_eq (key : Bytes) (proof : MptProof) (root : Hash) :
    verifyProof key proof root = some (Mpt.verify key proof root) := by
  unfold verifyProof Mpt.verify
  cases nodes : proof.nodes with
  | nil => rfl
  | cons top rest =>
    rw [if_neg (by simp),List.getElem?_cons_zero,Option.bind_eq_bind,Option.bind_some]
    dsimp only
    split
    · rfl
    rw [computeRoot_eq,Option.bind_eq_bind,Option.bind_some]
    split
    · rfl
    split
    · rfl
    · exact walkVerify_eq rfl (Nat.zero_le _)

end Proofs

def decodeAccount (buf : Bytes) : Checked TypesError Account := do
  let p ← decode buf
  rejectIf (p.length ≠ 16 + 8 + 32) (.badLength 56 p.length)
  let balance ← field 16 p 0 16
  let nonce ← field 8 p 16 24
  let codeHash ← field 32 p 24 56
  return ⟨fromBeBytes 128 balance,fromBeBytes 64 nonce,fixed 32 codeHash⟩

theorem decodeAccount_eq (buf : Bytes) : decodeAccount buf = returned (Account.decode buf) := by
  unfold decodeAccount Account.decode
  rw [decode_eq]
  cases Encoding.decode buf with
  | error e => rfl
  | ok p =>
    rw [returned_ok,pure_bind]
    refine rejectIf_bind fun whole => ?_
    rw [field_eq rfl (by omega),pure_bind,field_eq rfl (by omega),pure_bind,field_eq rfl (by omega),
      pure_bind]
    rfl

end Checked
end L1
