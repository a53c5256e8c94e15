import L1.MptHistory
import L1.Types

/-! The account and storage tries, as the sorted maps they stand for. Reading a trie
returns the entry of the map and its root is the root of a trie rebuilt from the
entries, whatever the order of writes was; execution above this module works on the maps. -/
namespace L1

structure Account where
  balance : Amount
  nonce : Nonce
  codeHash : Hash
  deriving DecidableEq, Repr

namespace Account

def empty : Account := ⟨0,0,zeroHash⟩

def payload (a : Account) : Bytes :=
  toBeBytes 16 a.balance ++ (toBeBytes 8 a.nonce ++ a.codeHash.toList)

def encode (a : Account) : Bytes := Encoding.encode a.payload

def decode (buf : Bytes) : Except TypesError Account :=
  match Encoding.decode buf with
  | .error e => .error e
  | .ok p =>
    if p.length ≠ 16 + 8 + 32 then .error (.badLength 56 p.length)
    else .ok ⟨fromBeBytes 128 (slice p 0 16),fromBeBytes 64 (slice p 16 24),fixed 32 (slice p 24 56)⟩

def fromGenesis (g : GenesisAccount) : Account := ⟨g.balance,g.nonce,g.codeHash⟩

theorem length_payload (a : Account) : a.payload.length = 56 := by simp [payload]

theorem decode_encode (a : Account) : decode a.encode = .ok a := by
  have len := length_payload a
  rw [decode,encode,Encoding.decode_encode _ (by omega)]
  have balance : slice a.payload 0 16 = toBeBytes 16 a.balance := by
    rw [payload,slice,List.drop_zero,List.take_left' (by simp)]
  have nonce : slice a.payload 16 24 = toBeBytes 8 a.nonce := by
    rw [payload,slice,List.drop_left' (by simp),List.take_left' (by simp)]
  have code : slice a.payload 24 56 = a.codeHash.toList := by
    rw [payload,slice,← List.append_assoc,List.drop_left' (by simp),List.take_of_length_le (by simp)]
  simp only [len,balance,nonce,code,fixed_toList,fromBeBytes_toBeBytes 16 a.balance (by decide),
    fromBeBytes_toBeBytes 8 a.nonce (by decide)]
  rfl

end Account

namespace TrieMap

inductive Write (K V : Type) where
  | put (key : K) (value : V)
  | delete (key : K)

variable {K V : Type} (keyBytes : K → Bytes) (valueBytes : V → Bytes)

def Write.op : Write K V → Mpt.Op
  | .put key value => .put (keyBytes key) (valueBytes value)
  | .delete key => .delete (keyBytes key)

variable [Ord K]

def Write.apply [Std.TransOrd K] (m : Map K V) : Write K V → Map K V
  | .put key value => m.insert key value
  | .delete key => m.erase key

def puts (entries : List (K × V)) : List (Write K V) := entries.map fun e => .put e.1 e.2

/-- The root of a trie that holds exactly the entries of the map. -/
def root [Std.TransOrd K] [Blake3] (m : Map K V) : Hash :=
  (Mpt.run .new ((puts m.toList).map (Write.op keyBytes valueBytes))).2.root

open Classical in
/-- The map on byte strings that a map on keys encodes to. -/
noncomputable def image [Std.TransOrd K] (m : Map K V) : Bytes → Option Bytes :=
  fun bytes => if named : ∃ key,keyBytes key = bytes then (m[named.choose]?).map valueBytes else none

section Refinement

variable [Std.TransOrd K] [Std.LawfulEqOrd K] [DecidableEq K]

omit [Std.LawfulEqOrd K] [DecidableEq K] in
theorem image_key (injective : Function.Injective keyBytes) (m : Map K V) (key : K) :
    image keyBytes valueBytes m (keyBytes key) = (m[key]?).map valueBytes := by
  have named : ∃ other,keyBytes other = keyBytes key := ⟨key,rfl⟩
  simp only [image,dif_pos named,injective named.choose_spec]

omit [Std.LawfulEqOrd K] [DecidableEq K] in
theorem image_other (m : Map K V) (bytes : Bytes) (unnamed : ¬ ∃ key,keyBytes key = bytes) :
    image keyBytes valueBytes m bytes = none := by
  simp only [image,dif_neg unnamed]

omit [Std.LawfulEqOrd K] [DecidableEq K] in
theorem image_empty : image keyBytes valueBytes (∅ : Map K V) = Mpt.emptyMap := by
  funext bytes
  unfold image
  split <;> simp

theorem image_apply (injective : Function.Injective keyBytes) (m : Map K V) (write : Write K V) :
    image keyBytes valueBytes (write.apply m) =
      Mpt.mapAfter (image keyBytes valueBytes m) [write.op keyBytes valueBytes] := by
  funext bytes
  by_cases named : ∃ key,keyBytes key = bytes
  · obtain ⟨key,rfl⟩ := named
    cases write with
    | put k v =>
      simp only [Write.apply,Write.op,Mpt.mapAfter,image_key _ _ injective,Map.get?_insert,
        Function.update_apply,injective.eq_iff]
      split <;> rfl
    | delete k =>
      simp only [Write.apply,Write.op,Mpt.mapAfter,image_key _ _ injective,Map.get?_erase,
        Function.update_apply,injective.eq_iff]
      split <;> rfl
  · rw [image_other _ _ _ _ named]
    have apart (k : K) : bytes ≠ keyBytes k := fun same => named ⟨k,same.symm⟩
    cases write with
    | put k v => simp [Write.op,Mpt.mapAfter,apart,image_other _ _ _ _ named]
    | delete k => simp [Write.op,Mpt.mapAfter,apart,image_other _ _ _ _ named]

theorem image_writes (injective : Function.Injective keyBytes) (m : Map K V)
    (writes : List (Write K V)) :
    Mpt.mapAfter (image keyBytes valueBytes m) (writes.map (Write.op keyBytes valueBytes)) =
      image keyBytes valueBytes (writes.foldl Write.apply m) := by
  induction writes generalizing m with
  | nil => rfl
  | cons write writes ih =>
    rw [List.map_cons,Mpt.mapAfter_cons,← image_apply _ _ injective,ih,List.foldl_cons]

omit [Std.LawfulEqOrd K] [DecidableEq K] in
theorem foldl_puts (m : Map K V) (entries : List (K × V)) :
    (puts entries).foldl Write.apply m = entries.foldl (fun acc e => acc.insert e.1 e.2) m := by
  induction entries generalizing m with
  | nil => rfl
  | cons e entries ih => exact ih _

theorem foldl_insert_absent (m : Map K V) (entries : List (K × V)) (key : K)
    (absent : m[key]? = none) (unlisted : ∀ e ∈ entries,e.1 ≠ key) :
    (entries.foldl (fun acc e => acc.insert e.1 e.2) m)[key]? = none := by
  induction entries generalizing m with
  | nil => exact absent
  | cons e entries ih =>
    refine ih _ ?_ fun other member => unlisted other (by simp [member])
    rw [Map.get?_insert,if_neg (Ne.symm (unlisted e (by simp))),absent]

theorem rebuild (m : Map K V) : (puts m.toList).foldl Write.apply ∅ = m := by
  rw [foldl_puts]
  apply Std.ExtTreeMap.ext_getElem?
  intro key
  cases held : m[key]? with
  | some value =>
    rw [← Std.ExtTreeMap.ofList_eq_foldl]
    exact Std.ExtTreeMap.getElem?_ofList_of_mem Std.ReflCmp.compare_self m.distinct_keys_toList
      (Std.ExtTreeMap.mem_toList_iff_getElem?_eq_some.mpr held)
  | none =>
    refine foldl_insert_absent ∅ _ key (by simp) ?_
    rintro ⟨other,value⟩ member rfl
    rw [Std.ExtTreeMap.mem_toList_iff_getElem?_eq_some,held] at member
    cases member

theorem written (m : Map K V) (writes : List (Write K V)) (key : K) (value : V)
    (held : (writes.foldl Write.apply m)[key]? = some value) :
    m[key]? = some value ∨ .put key value ∈ writes := by
  induction writes generalizing m with
  | nil => exact .inl held
  | cons write writes ih =>
    rcases ih (write.apply m) held with here | later
    · cases write with
      | put k v =>
        rw [Write.apply,Map.get?_insert] at here
        split at here
        · rename_i same
          cases here
          exact .inr (by simp [same])
        · exact .inl here
      | delete k =>
        rw [Write.apply,Map.get?_erase] at here
        split at here
        · cases here
        · exact .inl here
    · exact .inr (List.mem_cons_of_mem _ later)

/-- A trie with any history of writes reads and commits as the map it was written to. -/
theorem trie_refines_map [Blake3] (injective : Function.Injective keyBytes)
    (writes : List (Write K V)) (fits : ∀ write ∈ writes,(write.op keyBytes valueBytes).Fits)
    (safe : Mpt.NoCollision
      ((Mpt.run .new (writes.map (Write.op keyBytes valueBytes))).2.nodes ++
        (Mpt.run .new ((puts (writes.foldl Write.apply ∅).toList).map
          (Write.op keyBytes valueBytes))).2.nodes)) :
    let trie := Mpt.run .new (writes.map (Write.op keyBytes valueBytes))
    let m := writes.foldl Write.apply ∅
    trie.1 = some () ∧ (∀ key,trie.2.get (keyBytes key) = some ((m[key]?).map valueBytes)) ∧
      trie.2.root = root keyBytes valueBytes m := by
  intro trie m
  have ops : ∀ op ∈ writes.map (Write.op keyBytes valueBytes),op.Fits := by
    intro op member
    obtain ⟨write,here,rfl⟩ := List.mem_map.mp member
    exact fits write here
  have rebuilt : ∀ op ∈ (puts m.toList).map (Write.op keyBytes valueBytes),op.Fits := by
    intro op member
    simp only [puts,List.map_map,List.mem_map] at member
    obtain ⟨⟨key,value⟩,entry,rfl⟩ := member
    rw [Std.ExtTreeMap.mem_toList_iff_getElem?_eq_some] at entry
    rcases written ∅ writes key value entry with absent | put
    · simp at absent
    · exact fits _ put
  have older : Mpt.NoCollision trie.2.nodes := fun p hp q hq =>
    safe p (List.mem_append_left _ hp) q (List.mem_append_left _ hq)
  obtain ⟨ran,t,left⟩ := Mpt.commits_new.run _ ops older
  obtain ⟨-,u,right⟩ := Mpt.commits_new.run _ rebuilt (safe.of_suffix (List.suffix_append _ _))
  rw [← image_empty keyBytes valueBytes,image_writes _ _ injective] at left right
  rw [rebuild] at right
  refine ⟨ran,?_,?_⟩
  · intro key
    rw [left.get older,image_key _ _ injective]
  · rw [left.root,left.tree_eq right,root,right.root]

end Refinement
end TrieMap

abbrev AccountTrie := Map Address Account

def AccountTrie.root [Blake3] (accounts : AccountTrie) : Hash :=
  TrieMap.root Vector.toList Account.encode accounts

abbrev ContractStorageTrie := Map Bytes Bytes

def ContractStorageTrie.root [Blake3] (storage : ContractStorageTrie) : Hash :=
  TrieMap.root id id storage

end L1
