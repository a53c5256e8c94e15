import L1.Encoding
import L1.PatriciaTree
import Mathlib.Data.Fintype.Basic
import Mathlib.Data.List.FinRange
import Mathlib.Data.List.GetD

/-! Nibble paths and nodes of the hexary trie, with their byte encodings. Lengths
are written through a cast to `u32`, so a node reads back only while its packed
path and its value stay below that width. -/
namespace L1.Mpt

abbrev Nibble := Fin 16

def highNibble (b : UInt8) : Nibble := ⟨(b >>> 4).toNat,by
  have := b.toNat_lt
  simp [UInt8.toNat_shiftRight,Nat.shiftRight_eq_div_pow]; omega⟩

def lowNibble (b : UInt8) : Nibble := ⟨(b &&& 0x0f).toNat,by
  have low : b.toNat &&& 15 = b.toNat % 16 := Nat.and_two_pow_sub_one_eq_mod b.toNat 4
  simp [UInt8.toNat_and,low]; omega⟩

def joinNibbles (high low : Nibble) : UInt8 := (UInt8.ofNat high <<< 4) ||| UInt8.ofNat low

def bytesToNibbles (bytes : Bytes) : List Nibble := bytes.flatMap fun b => [highNibble b,lowNibble b]

def packPairs : List Nibble → Bytes
  | a :: b :: rest => joinNibbles a b :: packPairs rest
  | _ => []

/-- Hex-prefix packing: a flag byte for leaf and parity, then two nibbles a byte. -/
def packHexPrefix (nibbles : List Nibble) (isLeaf : Bool) : Bytes :=
  let flags : UInt8 := if isLeaf then 0x20 else 0x00
  if nibbles.length % 2 = 1 then
    match nibbles with
    | [] => []
    | first :: rest => ((flags ||| 0x10) ||| UInt8.ofNat first) :: packPairs rest
  else flags :: packPairs nibbles

def unpackHexPrefix : Bytes → Except TypesError (List Nibble × Bool)
  | [] => .error (.badLength 1 0)
  | flags :: rest =>
    let isLeaf := decide (flags &&& 0x20 ≠ 0)
    let odd := decide (flags &&& 0x10 ≠ 0)
    .ok (if odd then lowNibble flags :: bytesToNibbles rest else bytesToNibbles rest,isLeaf)

inductive Node where
  | empty
  | leaf (path : List Nibble) (value : Bytes)
  | extension (path : List Nibble) (next : Hash)
  | branch (children : Nibble → Option Hash) (value : Option Bytes)

def tagPayload (kind : UInt8) (rest : Bytes) : Bytes := kind :: rest

/-- `(len as u32).to_be_bytes()` followed by the bytes. -/
def lengthPrefixed (bytes : Bytes) : Bytes := BigEndian.encode 4 bytes.length ++ bytes

def serializeChild : Option Hash → Bytes
  | none => [0]
  | some h => 1 :: h.toList

def serializeValue : Option Bytes → Bytes
  | none => [0]
  | some v => 1 :: lengthPrefixed v

def serializeNode : Node → Bytes
  | .empty => tagPayload 0 []
  | .leaf path value =>
    tagPayload 1 (lengthPrefixed (packHexPrefix path true) ++ lengthPrefixed value)
  | .extension path next =>
    tagPayload 2 (lengthPrefixed (packHexPrefix path false) ++ next.toList)
  | .branch children value =>
    tagPayload 3 ((List.ofFn children).flatMap serializeChild ++ serializeValue value)

def getRange (bytes : Bytes) (start stop : Nat) : Option Bytes :=
  if stop ≤ bytes.length then some ((bytes.drop start).take (stop - start)) else none

def readChildren : Nat → Bytes → Option (List (Option Hash) × Bytes)
  | 0, rest => some ([],rest)
  | _ + 1, [] => none
  | n + 1, flag :: rest =>
    if flag = 0 then (readChildren n rest).map fun (cs,tail) => (none :: cs,tail)
    else if flag = 1 ∧ 33 ≤ (flag :: rest).length then
      (readChildren n (rest.drop 32)).map fun (cs,tail) => (some (fixed 32 (rest.take 32)) :: cs,tail)
    else none

def readValue : Bytes → Option (Option Bytes)
  | [] => none
  | flag :: rest =>
    if flag = 0 then some none
    else if flag = 1 ∧ 5 ≤ (flag :: rest).length then
      let vlen := BigEndian.decode (rest.take 4)
      (getRange rest 4 (4 + vlen)).map some
    else none

def deserializeLeaf (rest : Bytes) : Option Node :=
  if rest.length < 4 then none
  else
    let hlen := BigEndian.decode (rest.take 4)
    if rest.length < 4 + hlen + 4 then none
    else match unpackHexPrefix ((rest.drop 4).take hlen) with
      | .error _ => none
      | .ok (path,isLeaf) =>
        if isLeaf then
          let voff := 4 + hlen
          let vlen := BigEndian.decode ((rest.drop voff).take 4)
          (getRange rest (voff + 4) (voff + 4 + vlen)).map fun value => .leaf path value
        else none

def deserializeExtension (rest : Bytes) : Option Node :=
  if rest.length < 4 then none
  else
    let hlen := BigEndian.decode (rest.take 4)
    if rest.length < 4 + hlen + 32 then none
    else match unpackHexPrefix ((rest.drop 4).take hlen) with
      | .error _ => none
      | .ok (path,isLeaf) =>
        if isLeaf then none
        else some (.extension path (fixed 32 ((rest.drop (4 + hlen)).take 32)))

def deserializeBranch (rest : Bytes) : Option Node :=
  match readChildren 16 rest with
  | none => none
  | some (children,tail) =>
    (readValue tail).map fun value => .branch (fun i => children.getD i none) value

def deserializeNode : Bytes → Option Node
  | [] => none
  | kind :: rest =>
    if kind = 0 then some .empty
    else if kind = 1 then deserializeLeaf rest
    else if kind = 2 then deserializeExtension rest
    else if kind = 3 then deserializeBranch rest
    else none

def hashEncoded [Blake3] (payload : Bytes) : Hash :=
  hashToArray (DomainTag.mptNode.apply (Encoding.encode payload))

def hashNode [Blake3] (node : Node) : Hash := hashEncoded (serializeNode node)

def emptyRoot [Blake3] : Hash := hashNode .empty

theorem highNibble_join : ∀ a b, highNibble (joinNibbles a b) = a := by decide

theorem lowNibble_join : ∀ a b, lowNibble (joinNibbles a b) = b := by decide

theorem join_nibbles (b : UInt8) : joinNibbles (highNibble b) (lowNibble b) = b := by
  have all : ∀ n : Fin 256, joinNibbles (highNibble (UInt8.ofNat n)) (lowNibble (UInt8.ofNat n)) =
      UInt8.ofNat n := by decide +kernel
  simpa using all ⟨b.toNat,b.toNat_lt⟩

@[simp] theorem length_bytesToNibbles (bytes : Bytes) :
    (bytesToNibbles bytes).length = 2 * bytes.length := by
  induction bytes with
  | nil => rfl
  | cons b rest ih => simp [bytesToNibbles,List.flatMap_cons] at ih ⊢; omega

theorem packPairs_bytesToNibbles (bytes : Bytes) : packPairs (bytesToNibbles bytes) = bytes := by
  induction bytes with
  | nil => rfl
  | cons b rest ih =>
    simp only [bytesToNibbles,List.flatMap_cons,List.cons_append,List.nil_append] at ih ⊢
    rw [packPairs,ih,join_nibbles]

theorem bytesToNibbles_injective {a b : Bytes} (same : bytesToNibbles a = bytesToNibbles b) : a = b := by
  rw [← packPairs_bytesToNibbles a,same,packPairs_bytesToNibbles]

theorem bytesToNibbles_packPairs (nibbles : List Nibble) (even : nibbles.length % 2 = 0) :
    bytesToNibbles (packPairs nibbles) = nibbles := by
  fun_induction packPairs nibbles with
  | case1 a b rest ih =>
    have shorter : rest.length % 2 = 0 := by simp at even; omega
    simp only [bytesToNibbles,List.flatMap_cons] at ih ⊢
    rw [ih shorter,highNibble_join,lowNibble_join]; rfl
  | case2 nibbles short =>
    match nibbles,even,short with
    | [],_,_ => rfl
    | [_],even,_ => simp at even
    | a :: b :: rest,_,short => exact absurd rfl (short a b rest)

theorem length_packPairs (nibbles : List Nibble) : (packPairs nibbles).length = nibbles.length / 2 := by
  fun_induction packPairs nibbles with
  | case1 a b rest ih => simp [ih]; omega
  | case2 nibbles short =>
    match nibbles,short with
    | [],_ => rfl
    | [_],_ => simp
    | a :: b :: rest,short => exact absurd rfl (short a b rest)

theorem length_packHexPrefix (nibbles : List Nibble) (isLeaf : Bool) :
    (packHexPrefix nibbles isLeaf).length = nibbles.length / 2 + 1 := by
  unfold packHexPrefix
  dsimp only
  split
  · cases nibbles with
    | nil => simp at *
    | cons first rest => simp [length_packPairs] at *; omega
  · simp [length_packPairs]

theorem unpack_packHexPrefix (nibbles : List Nibble) (isLeaf : Bool) :
    unpackHexPrefix (packHexPrefix nibbles isLeaf) = .ok (nibbles,isLeaf) := by
  unfold packHexPrefix
  dsimp only
  split
  · rename_i odd
    cases nibbles with
    | nil => simp at odd
    | cons first rest =>
      have even : rest.length % 2 = 0 := by simp at odd; omega
      have flag : ∀ n : Nibble,∀ leaf : Bool,
          let byte := ((if leaf then 0x20 else 0x00 : UInt8) ||| 0x10) ||| UInt8.ofNat n
          decide (byte &&& 0x20 ≠ 0) = leaf ∧ decide (byte &&& 0x10 ≠ 0) = true ∧
            lowNibble byte = n := by decide
      obtain ⟨leaf,parity,low⟩ := flag first isLeaf
      simp only [unpackHexPrefix,leaf,parity,low,if_true,bytesToNibbles_packPairs rest even]
  · rename_i notOdd
    have even : nibbles.length % 2 = 0 := by omega
    have flag : ∀ leaf : Bool,
        let byte : UInt8 := if leaf then 0x20 else 0x00
        decide (byte &&& 0x20 ≠ 0) = leaf ∧ decide (byte &&& 0x10 ≠ 0) = false := by decide
    obtain ⟨leaf,parity⟩ := flag isLeaf
    simp only [unpackHexPrefix,leaf,parity,bytesToNibbles_packPairs nibbles even]
    rfl

/-- The lengths of a node survive their cast to `u32`. -/
def Node.Fits : Node → Prop
  | .empty => True
  | .leaf path value => path.length / 2 + 1 < 2^32 ∧ value.length < 2^32
  | .extension path _ => path.length / 2 + 1 < 2^32
  | .branch _ value => ∀ v ∈ value,v.length < 2^32

theorem take_lengthPrefixed (bytes rest : Bytes) (fits : bytes.length < 2^32) :
    BigEndian.decode ((lengthPrefixed bytes ++ rest).take 4) = bytes.length := by
  rw [lengthPrefixed,List.append_assoc,List.take_left' (by simp),
    BigEndian.decode_encode_of_lt 4 _ (by omega)]

theorem drop_lengthPrefixed (bytes rest : Bytes) :
    (lengthPrefixed bytes ++ rest).drop 4 = bytes ++ rest := by
  rw [lengthPrefixed,List.append_assoc,List.drop_left' (by simp)]

@[simp] theorem length_lengthPrefixed (bytes : Bytes) :
    (lengthPrefixed bytes).length = bytes.length + 4 := by
  simp [lengthPrefixed]; omega

theorem readChildren_serialize (children : List (Option Hash)) (rest : Bytes) :
    readChildren children.length (children.flatMap serializeChild ++ rest) = some (children,rest) := by
  induction children with
  | nil => rfl
  | cons child children ih =>
    cases child with
    | none => simp [serializeChild,readChildren,ih]
    | some h => simp [serializeChild,readChildren,ih]

theorem readValue_serialize (value : Option Bytes) (fits : ∀ v ∈ value,v.length < 2^32) :
    readValue (serializeValue value) = some value := by
  cases value with
  | none => rfl
  | some v =>
    have len := take_lengthPrefixed v [] (fits v rfl)
    have body := drop_lengthPrefixed v []
    rw [List.append_nil] at len body
    simp [serializeValue,readValue,getRange,len,body]
    omega

theorem deserializeLeaf_serialize (path : List Nibble) (value : Bytes)
    (fits : (Node.leaf path value).Fits) :
    deserializeLeaf (lengthPrefixed (packHexPrefix path true) ++ lengthPrefixed value) =
      some (.leaf path value) := by
  obtain ⟨short,small⟩ := fits
  have packed := length_packHexPrefix path true
  have hlen := take_lengthPrefixed (packHexPrefix path true) (lengthPrefixed value) (by omega)
  have body := drop_lengthPrefixed (packHexPrefix path true) (lengthPrefixed value)
  have after : (lengthPrefixed (packHexPrefix path true) ++ lengthPrefixed value).drop
      (4 + (packHexPrefix path true).length) = lengthPrefixed value := by
    rw [← List.drop_drop,body,List.drop_left]
  have vlen := take_lengthPrefixed value [] small
  have tail := drop_lengthPrefixed value []
  rw [List.append_nil] at vlen tail
  have range : (lengthPrefixed (packHexPrefix path true) ++ lengthPrefixed value).drop
      (4 + (packHexPrefix path true).length + 4) = value := by
    rw [← List.drop_drop,after,tail,List.append_nil]
  have head : (packHexPrefix path true ++ lengthPrefixed value).take
      (packHexPrefix path true).length = packHexPrefix path true := List.take_left
  simp only [deserializeLeaf,hlen,body,head,unpack_packHexPrefix,after,vlen,getRange,range]
  simp
  omega

theorem deserializeExtension_serialize (path : List Nibble) (next : Hash)
    (fits : (Node.extension path next).Fits) :
    deserializeExtension (lengthPrefixed (packHexPrefix path false) ++ next.toList) =
      some (.extension path next) := by
  have packed := length_packHexPrefix path false
  simp only [Node.Fits] at fits
  have hlen := take_lengthPrefixed (packHexPrefix path false) next.toList (by omega)
  have body := drop_lengthPrefixed (packHexPrefix path false) next.toList
  have after : (lengthPrefixed (packHexPrefix path false) ++ next.toList).drop
      (4 + (packHexPrefix path false).length) = next.toList := by
    rw [← List.drop_drop,body,List.drop_left]
  have head : (packHexPrefix path false ++ next.toList).take
      (packHexPrefix path false).length = packHexPrefix path false := List.take_left
  have whole : next.toList.take 32 = next.toList := List.take_of_length_le (by simp)
  simp only [deserializeExtension,hlen,body,head,unpack_packHexPrefix,after,whole,fixed_toList]
  simp
  omega

theorem deserializeBranch_serialize (children : Nibble → Option Hash) (value : Option Bytes)
    (fits : (Node.branch children value).Fits) :
    deserializeBranch ((List.ofFn children).flatMap serializeChild ++ serializeValue value) =
      some (.branch children value) := by
  have slots := readChildren_serialize (List.ofFn children) (serializeValue value)
  rw [List.length_ofFn] at slots
  have same : (fun i : Nibble => (List.ofFn children).getD i none) = children := by
    funext i
    rw [List.getD_eq_getElem _ _ (by rw [List.length_ofFn]; exact i.isLt),List.getElem_ofFn]
  simp only [deserializeBranch,slots,readValue_serialize value fits,same]
  rfl

/-- A node whose lengths fit reads back as itself. -/
theorem deserialize_serializeNode (node : Node) (fits : node.Fits) :
    deserializeNode (serializeNode node) = some node := by
  cases node with
  | empty => rfl
  | leaf path value =>
    rw [serializeNode,tagPayload,deserializeNode,if_neg (by decide),if_pos rfl]
    exact deserializeLeaf_serialize path value fits
  | extension path next =>
    rw [serializeNode,tagPayload,deserializeNode,if_neg (by decide),if_neg (by decide),if_pos rfl]
    exact deserializeExtension_serialize path next fits
  | branch children value =>
    rw [serializeNode,tagPayload,deserializeNode,if_neg (by decide),if_neg (by decide),
      if_neg (by decide),if_pos rfl]
    exact deserializeBranch_serialize children value fits

theorem serializeNode_injective {a b : Node} (left : a.Fits) (right : b.Fits)
    (same : serializeNode a = serializeNode b) : a = b := by
  have read := deserialize_serializeNode a left
  rw [same,deserialize_serializeNode b right] at read
  exact (Option.some.inj read).symm

/-- Nodes and hex-prefix paths read back as they were written, so that no two nodes share a payload. -/
theorem node_encoding :
    (∀ node : Node, node.Fits → deserializeNode (serializeNode node) = some node) ∧
    (∀ a b : Node, a.Fits → b.Fits → serializeNode a = serializeNode b → a = b) ∧
    ∀ (nibbles : List Nibble) (isLeaf : Bool),
      unpackHexPrefix (packHexPrefix nibbles isLeaf) = .ok (nibbles,isLeaf) :=
  ⟨deserialize_serializeNode,fun _ _ => serializeNode_injective,unpack_packHexPrefix⟩

/-- A leaf at the end of a path of odd length. -/
theorem odd_leaf_reads_back :
    (Node.leaf [1,2,15] [7]).Fits ∧
    deserializeNode (serializeNode (.leaf [1,2,15] [7])) = some (.leaf [1,2,15] [7]) :=
  have fits : (Node.leaf [1,2,15] [7]).Fits := ⟨by decide,by decide⟩
  ⟨fits,node_encoding.1 _ fits⟩

end L1.Mpt
