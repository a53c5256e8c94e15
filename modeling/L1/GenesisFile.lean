import L1.Codec
import L1.Readers

/-! The genesis file. Its lists are read into sorted maps, the parameters on top of the defaults, so a
file stands for a genesis whatever the order of its entries. It is the encoding of that genesis exactly
if its lists are sorted and name every default parameter. -/
namespace L1

/-! Maps filled from a list of entries. -/
namespace Map

variable {K V : Type} [Ord K] [Std.TransOrd K] [Std.LawfulEqOrd K] [DecidableEq K]

def fill (m : Map K V) (entries : List (K × V)) : Map K V :=
  entries.foldl (fun m e => m.insert e.1 e.2) m

def Increasing (entries : List (K × V)) : Prop := entries.Pairwise fun a b => compare a.1 b.1 = .lt

omit [Std.LawfulEqOrd K] [DecidableEq K] in
theorem increasing_toList (m : Map K V) : Increasing m.toList := m.ordered_keys_toList

omit [Std.TransOrd K] [Std.LawfulEqOrd K] [DecidableEq K] in
theorem Increasing.distinct {entries : List (K × V)} (sorted : Increasing entries) :
    entries.Pairwise fun a b => ¬ compare a.1 b.1 = .eq :=
  sorted.imp fun less same => by rw [less] at same; cases same

theorem get?_fill_of_mem {m : Map K V} {entries : List (K × V)} {k : K} {v : V}
    (sorted : Increasing entries) (listed : (k,v) ∈ entries) : (fill m entries)[k]? = some v := by
  rw [fill,← Std.ExtTreeMap.insertMany_list_eq_foldl]
  exact Std.ExtTreeMap.getElem?_insertMany_list_of_mem Std.ReflCmp.compare_self sorted.distinct listed

theorem get?_fill_of_absent {m : Map K V} {entries : List (K × V)} {k : K}
    (unlisted : k ∉ entries.map Prod.fst) : (fill m entries)[k]? = m[k]? := by
  rw [fill,← Std.ExtTreeMap.insertMany_list_eq_foldl]
  exact Std.ExtTreeMap.getElem?_insertMany_list_of_contains_eq_false (by simpa using unlisted)

/-- Entries over keys that include those of `m` replace it. -/
theorem toList_fill {m : Map K V} {entries : List (K × V)} (sorted : Increasing entries)
    (covered : ∀ k : K, m[k]? ≠ none → k ∈ entries.map Prod.fst) : (fill m entries).toList = entries := by
  have irrefl (k : K) : ¬ compare k k = .lt := by
    have same : compare k k = .eq := Std.ReflCmp.compare_self
    rw [same]
    decide
  have nodup : entries.Nodup := by
    refine List.Pairwise.imp ?_ sorted
    rintro a b less rfl
    exact irrefl a.1 less
  have ordered : Increasing (fill m entries).toList := increasing_toList _
  unfold Increasing at ordered sorted
  refine List.Perm.eq_of_pairwise ?_ ordered sorted ?_
  · intro a b _ _ forth back
    exact absurd (Std.TransCmp.lt_trans forth back) (irrefl a.1)
  · refine (List.perm_ext_iff_of_nodup (nodup_toList _) nodup).mpr ?_
    rintro ⟨k,v⟩
    rw [Std.ExtTreeMap.mem_toList_iff_getElem?_eq_some]
    constructor
    · intro held
      by_cases named : k ∈ entries.map Prod.fst
      · obtain ⟨⟨k',w⟩,listed,rfl⟩ := List.mem_map.mp named
        rw [get?_fill_of_mem sorted listed] at held
        cases held
        exact listed
      · rw [get?_fill_of_absent named] at held
        exact absurd (covered k (by rw [held]; simp)) named
    · exact get?_fill_of_mem sorted

/-- Filled with the entries of another map over more keys, a map becomes that one. -/
theorem fill_toList {m n : Map K V} (covered : ∀ k : K, m[k]? ≠ none → n[k]? ≠ none) :
    fill m n.toList = n := by
  apply Std.ExtTreeMap.ext_getElem?
  intro k
  cases held : n[k]? with
  | some v =>
    exact get?_fill_of_mem (increasing_toList n)
      (Std.ExtTreeMap.mem_toList_iff_getElem?_eq_some.mpr held)
  | none =>
    have unlisted : k ∉ n.toList.map Prod.fst := by
      rintro named
      obtain ⟨⟨k',w⟩,listed,rfl⟩ := List.mem_map.mp named
      rw [Std.ExtTreeMap.mem_toList_iff_getElem?_eq_some,held] at listed
      cases listed
    rw [get?_fill_of_absent unlisted]
    by_contra kept
    exact covered k kept held

theorem get?_fill_ne_none {m : Map K V} {entries : List (K × V)} {k : K} (held : m[k]? ≠ none) :
    (fill m entries)[k]? ≠ none := by
  induction entries generalizing m with
  | nil => exact held
  | cons e rest ih =>
    refine ih ?_
    rw [get?_insert]
    split
    · simp
    · exact held

end Map

namespace Config

inductive ConfigError where
  | codec
  | io (text : String)
  | identity
  deriving DecidableEq, Repr

def paramFromByte : UInt8 → Option ParamId
  | 0 => some .maxBlockBytes
  | 1 => some .maxTxBytes
  | 2 => some .maxGas
  | 3 => some .epochLength
  | 4 => some .unbondingPeriod
  | 5 => some .timeoutProposeMs
  | 6 => some .timeoutPrevoteMs
  | 7 => some .timeoutPrecommitMs
  | 8 => some .timeoutDeltaMs
  | 9 => some .maxTimestampDriftMs
  | 10 => some .minSelfBond
  | 11 => some .delegationCap
  | 12 => some .slashPercent
  | _ => none

def paramByte : ParamId → UInt8
  | .maxBlockBytes => 0
  | .maxTxBytes => 1
  | .maxGas => 2
  | .epochLength => 3
  | .unbondingPeriod => 4
  | .timeoutProposeMs => 5
  | .timeoutPrevoteMs => 6
  | .timeoutPrecommitMs => 7
  | .timeoutDeltaMs => 8
  | .maxTimestampDriftMs => 9
  | .minSelfBond => 10
  | .delegationCap => 11
  | .slashPercent => 12

/-! Writing. -/

def accountBytes (e : Address × GenesisAccount) : Bytes :=
  e.1.toList ++ (toBeBytes 16 e.2.balance ++ (toBeBytes 8 e.2.nonce ++ e.2.codeHash.toList))

def validatorBytes (e : ValidatorId × VotingPower) : Bytes := e.1.toList ++ toBeBytes 8 e.2

def paramBytes (e : ParamId × U64) : Bytes := paramByte e.1 :: toBeBytes 8 e.2

def timeoutBytes (t : GenesisTimeouts) : Bytes :=
  toBeBytes 8 t.proposeMs ++ (toBeBytes 8 t.prevoteMs ++ (toBeBytes 8 t.precommitMs ++
    toBeBytes 8 t.deltaMs))

/-- What stands in a file, in its order. -/
structure GenesisFile where
  chainId : ChainId
  alloc : List (Address × GenesisAccount)
  validators : List (ValidatorId × VotingPower)
  params : List (ParamId × U64)
  timeouts : GenesisTimeouts

/-- Entries behind their number, which wraps at 2^32. -/
def listBytes {α : Type} (write : α → Bytes) (l : List α) : Bytes :=
  BigEndian.encode 4 l.length ++ l.flatMap write

def filePayload (file : GenesisFile) : Bytes :=
  toBeBytes 8 file.chainId ++ (listBytes accountBytes file.alloc ++
    (listBytes validatorBytes file.validators ++ (listBytes paramBytes file.params ++
      timeoutBytes file.timeouts)))

def listing (g : Genesis) : GenesisFile where
  chainId := g.chainId
  alloc := g.alloc.toList
  validators := g.validators.toList
  params := g.params.registry.toList
  timeouts := g.params.timeouts

def encodeGenesis (g : Genesis) : Bytes := Encoding.encode (filePayload (listing g))

/-! Reading. -/

def takeAccount (bytes : Bytes) : Option ((Address × GenesisAccount) × Bytes) := do
  let (addr,bytes) ← takeArray 32 bytes
  let (balance,bytes) ← takeWord 16 128 bytes
  let (nonce,bytes) ← takeWord 8 64 bytes
  let (codeHash,bytes) ← takeArray 32 bytes
  return ((addr,{ balance, nonce, codeHash }),bytes)

def takeValidator (bytes : Bytes) : Option ((ValidatorId × VotingPower) × Bytes) := do
  let (id,bytes) ← takeArray 48 bytes
  let (power,bytes) ← takeWord 8 64 bytes
  return ((id,power),bytes)

def takeParam (bytes : Bytes) : Option ((ParamId × U64) × Bytes) := do
  let (b,bytes) ← takeArray 1 bytes
  let id ← paramFromByte b[0]
  let (v,bytes) ← takeWord 8 64 bytes
  return ((id,v),bytes)

def takeTimeouts (bytes : Bytes) : Option (GenesisTimeouts × Bytes) := do
  let (proposeMs,bytes) ← takeWord 8 64 bytes
  let (prevoteMs,bytes) ← takeWord 8 64 bytes
  let (precommitMs,bytes) ← takeWord 8 64 bytes
  let (deltaMs,bytes) ← takeWord 8 64 bytes
  return ({ proposeMs, prevoteMs, precommitMs, deltaMs },bytes)

def takeFile (bytes : Bytes) : Option (GenesisFile × Bytes) := do
  let (chainId,bytes) ← takeWord 8 64 bytes
  let (alloc,bytes) ← takeCounted takeAccount bytes
  let (validators,bytes) ← takeCounted takeValidator bytes
  let (params,bytes) ← takeCounted takeParam bytes
  let (timeouts,bytes) ← takeTimeouts bytes
  return ({ chainId, alloc, validators, params, timeouts },bytes)

def readFile (buf : Bytes) : Except ConfigError GenesisFile :=
  match Encoding.decode buf with
  | .error _ => .error .codec
  | .ok p =>
    if p.length < 8 + 4 then .error .codec
    else match takeFile p with
      | none => .error .codec
      | some (file,rest) => if rest ≠ [] then .error .codec else .ok file

/-- The genesis a file is read into, one insertion after the other. -/
def GenesisFile.genesis (file : GenesisFile) : Genesis where
  chainId := file.chainId
  alloc := Map.fill ∅ file.alloc
  validators := Map.fill ∅ file.validators
  params := { registry := Map.fill ParamsRegistry.new file.params, timeouts := file.timeouts }

def decodeGenesis (buf : Bytes) : Except ConfigError Genesis := (readFile buf).map GenesisFile.genesis

/-! Files are exact. -/

theorem paramFromByte_iff (b : UInt8) (id : ParamId) : paramFromByte b = some id ↔ b = paramByte id := by
  constructor
  · intro known
    unfold paramFromByte at known
    split at known <;> cases known <;> rfl
  · rintro rfl
    cases id <;> rfl

theorem reads_account : ReaderFor accountBytes (fun _ => True) takeAccount := by
  intro bytes e rest
  obtain ⟨addr,balance,nonce,codeHash⟩ := e
  simp only [takeAccount,Option.bind_eq_bind,Option.bind_eq_some_iff,Prod.exists,
    reads_array _ _ _ _,reads_word (n := 16) (w := 128) rfl _ _ _,
    reads_word (n := 8) (w := 64) rfl _ _ _,Option.pure_def,Option.some.injEq,Prod.mk.injEq,
    GenesisAccount.mk.injEq,accountBytes,true_and,List.append_assoc]
  constructor
  · rintro ⟨_,_,rfl,_,_,rfl,_,_,rfl,_,_,rfl,⟨rfl,rfl,rfl,rfl⟩,rfl⟩
    rfl
  · rintro rfl
    exact ⟨_,_,rfl,_,_,rfl,_,_,rfl,_,_,rfl,⟨rfl,rfl,rfl,rfl⟩,rfl⟩

theorem reads_validator : ReaderFor validatorBytes (fun _ => True) takeValidator := by
  intro bytes e rest
  obtain ⟨id,power⟩ := e
  simp only [takeValidator,Option.bind_eq_bind,Option.bind_eq_some_iff,Prod.exists,
    reads_array _ _ _ _,reads_word (n := 8) (w := 64) rfl _ _ _,Option.pure_def,
    Option.some.injEq,Prod.mk.injEq,validatorBytes,true_and,List.append_assoc]
  constructor
  · rintro ⟨_,_,rfl,_,_,rfl,⟨rfl,rfl⟩,rfl⟩
    rfl
  · rintro rfl
    exact ⟨_,_,rfl,_,_,rfl,⟨rfl,rfl⟩,rfl⟩

theorem toList_one (v : Vector UInt8 1) : v.toList = [v[0]] := by
  apply List.ext_getElem
  · simp
  · intro i bound _
    have zero : i = 0 := by
      rw [v.length_toList] at bound
      omega
    subst zero
    simp

theorem reads_param : ReaderFor paramBytes (fun _ => True) takeParam := by
  intro bytes e rest
  obtain ⟨id,v⟩ := e
  simp only [takeParam,Option.bind_eq_bind,Option.bind_eq_some_iff,Prod.exists,
    reads_array _ _ _ _,reads_word (n := 8) (w := 64) rfl _ _ _,paramFromByte_iff,Option.pure_def,
    Option.some.injEq,Prod.mk.injEq,paramBytes,true_and,toList_one]
  constructor
  · rintro ⟨b,_,rfl,_,same,_,_,rfl,⟨rfl,rfl⟩,rfl⟩
    rw [same]
    rfl
  · rintro rfl
    exact ⟨#v[paramByte id],_,rfl,_,rfl,_,_,rfl,⟨rfl,rfl⟩,rfl⟩

theorem reads_timeouts : ReaderFor timeoutBytes (fun _ => True) takeTimeouts := by
  intro bytes t rest
  obtain ⟨propose,prevote,precommit,delta⟩ := t
  simp only [takeTimeouts,Option.bind_eq_bind,Option.bind_eq_some_iff,Prod.exists,
    reads_word (n := 8) (w := 64) rfl _ _ _,Option.pure_def,Option.some.injEq,Prod.mk.injEq,
    GenesisTimeouts.mk.injEq,timeoutBytes,true_and,List.append_assoc]
  constructor
  · rintro ⟨_,_,rfl,_,_,rfl,_,_,rfl,_,_,rfl,⟨rfl,rfl,rfl,rfl⟩,rfl⟩
    rfl
  · rintro rfl
    exact ⟨_,_,rfl,_,_,rfl,_,_,rfl,_,_,rfl,⟨rfl,rfl,rfl,rfl⟩,rfl⟩

structure GenesisFile.Fits (file : GenesisFile) : Prop where
  alloc : file.alloc.length < 2^32
  validators : file.validators.length < 2^32
  params : file.params.length < 2^32

theorem reads_file : ReaderFor filePayload GenesisFile.Fits takeFile := by
  intro bytes file rest
  obtain ⟨chainId,alloc,validators,params,timeouts⟩ := file
  simp only [takeFile,Option.bind_eq_bind,Option.bind_eq_some_iff,Prod.exists,
    reads_word (n := 8) (w := 64) rfl _ _ _,reads_account.counted _ _ _,
    reads_validator.counted _ _ _,reads_param.counted _ _ _,reads_timeouts _ _ _,Option.pure_def,
    Option.some.injEq,Prod.mk.injEq,GenesisFile.mk.injEq,filePayload,listBytes,true_and,
    implies_true,and_true,List.append_assoc]
  constructor
  · rintro ⟨_,_,rfl,_,_,⟨one,rfl⟩,_,_,⟨two,rfl⟩,_,_,⟨three,rfl⟩,_,_,rfl,⟨rfl,rfl,rfl,rfl,rfl⟩,rfl⟩
    exact ⟨⟨one,two,three⟩,rfl⟩
  · rintro ⟨⟨one,two,three⟩,rfl⟩
    exact ⟨_,_,rfl,_,_,⟨one,rfl⟩,_,_,⟨two,rfl⟩,_,_,⟨three,rfl⟩,_,_,rfl,⟨rfl,rfl,rfl,rfl,rfl⟩,rfl⟩

/-- A file whose payload fits is read back, and what is accepted is such a file. -/
theorem exact_file : Exact (fun file => Encoding.encode (filePayload file)) readFile
    fun file => (filePayload file).length < 2^32 where
  complete file fits := by
    have size : (filePayload file).length = 8 + (4 + (file.alloc.flatMap accountBytes).length +
        (4 + (file.validators.flatMap validatorBytes).length +
        (4 + (file.params.flatMap paramBytes).length + 32))) := by
      simp only [filePayload,listBytes,timeoutBytes,List.length_append,length_toBeBytes,
        BigEndian.length_encode]
    have alloc := Codec.count_le_flatMap accountBytes (fun e => by simp [accountBytes]) file.alloc
    have validators := Codec.count_le_flatMap validatorBytes (fun e => by simp [validatorBytes]) file.validators
    have params := Codec.count_le_flatMap paramBytes (fun e => by simp [paramBytes]) file.params
    have taken := (reads_file (filePayload file) file []).mpr
      ⟨⟨by omega,by omega,by omega⟩,(List.append_nil _).symm⟩
    have read {buf p : Bytes} (opened : Encoding.decode buf = .ok p) (long : ¬ p.length < 8 + 4)
        (taken : takeFile p = some (file,[])) : readFile buf = .ok file := by
      simp only [readFile,opened,if_neg long,taken,ne_eq,not_true_eq_false,if_false]
    exact read (Encoding.decode_encode _ fits) (by omega) taken
  sound bytes file read := by
    unfold readFile at read
    split at read
    · cases read
    rename_i p opened
    obtain ⟨fits,rfl⟩ := (Encoding.decode_ok_iff _ _).mp opened
    split at read
    · cases read
    split at read
    · cases read
    rename_i found rest taken
    split at read
    · cases read
    rename_i empty
    obtain rfl := not_not.mp empty
    cases read
    obtain ⟨-,written⟩ := (reads_file _ _ _).mp taken
    rw [List.append_nil] at written
    exact ⟨written ▸ fits,congrArg Encoding.encode written⟩

theorem filePayload_listing (g : Genesis) : filePayload (listing g) = g.hashPreimage := by
  simp only [filePayload,listing,listBytes,timeoutBytes,Genesis.hashPreimage,
    Std.ExtTreeMap.length_toList,List.append_assoc]
  rfl

/-- The registries that `new` and `set` make; no other can be built. -/
def Made (registry : ParamsRegistry) : Prop := ∃ sets, registry = Map.fill ParamsRegistry.new sets

/-- The lists of a canonical file are sorted and name every default parameter. -/
structure GenesisFile.Canonical (file : GenesisFile) : Prop where
  alloc : Map.Increasing file.alloc
  validators : Map.Increasing file.validators
  params : Map.Increasing file.params
  defaults : ∀ id, ParamsRegistry.new.get id ≠ none → id ∈ file.params.map Prod.fst

variable {g : Genesis} {file : GenesisFile} {buf : Bytes}

theorem genesis_listing (made : Made g.params.registry) : (listing g).genesis = g := by
  obtain ⟨sets,built⟩ := made
  have alloc : Map.fill ∅ g.alloc.toList = g.alloc := Map.fill_toList (by simp)
  have validators : Map.fill ∅ g.validators.toList = g.validators := Map.fill_toList (by simp)
  have registry : Map.fill ParamsRegistry.new g.params.registry.toList = g.params.registry :=
    Map.fill_toList fun id held => built ▸ Map.get?_fill_ne_none held
  obtain ⟨chainId,accounts,powers,params⟩ := g
  simp only [GenesisFile.genesis,listing,alloc,validators,registry]

theorem GenesisFile.Canonical.listing_genesis (canonical : file.Canonical) :
    listing file.genesis = file := by
  have alloc : (Map.fill ∅ file.alloc).toList = file.alloc := Map.toList_fill canonical.alloc (by simp)
  have validators : (Map.fill ∅ file.validators).toList = file.validators :=
    Map.toList_fill canonical.validators (by simp)
  have registry : (Map.fill ParamsRegistry.new file.params).toList = file.params :=
    Map.toList_fill canonical.params canonical.defaults
  simp only [listing,GenesisFile.genesis,alloc,validators,registry]

theorem canonical_listing (made : Made g.params.registry) : (listing g).Canonical where
  alloc := Map.increasing_toList _
  validators := Map.increasing_toList _
  params := Map.increasing_toList _
  defaults id held := by
    obtain ⟨sets,built⟩ := made
    have kept : (Map.fill ParamsRegistry.new sets)[id]? ≠ none := Map.get?_fill_ne_none held
    rw [← built] at kept
    obtain ⟨v,found⟩ := Option.ne_none_iff_exists'.mp kept
    exact List.mem_map.mpr ⟨(id,v),Std.ExtTreeMap.mem_toList_iff_getElem?_eq_some.mpr found,rfl⟩

theorem decodeGenesis_ok (read : decodeGenesis buf = .ok g) :
    ∃ file, readFile buf = .ok file ∧ g = file.genesis := by
  unfold decodeGenesis at read
  cases found : readFile buf with
  | error e =>
    rw [found] at read
    cases read
  | ok file =>
    rw [found] at read
    cases read
    exact ⟨file,rfl,rfl⟩

theorem decodeGenesis_of_readFile (read : readFile buf = .ok file) :
    decodeGenesis buf = .ok file.genesis := by
  rw [decodeGenesis,read]
  rfl

/-- The entries of a file, if it is accepted, are sorted and complete. -/
def Canonical (buf : Bytes) : Prop := ∃ file, readFile buf = .ok file ∧ file.Canonical

/-- Every genesis is read back from its file as long as the payload fits its length field, the payload
is the preimage of the genesis hash, and an accepted file is the encoding of what it is read into
exactly if it is canonical. -/
theorem genesis_file_iff (g : Genesis) (buf : Bytes) :
    (Made g.params.registry →
      (decodeGenesis (encodeGenesis g) = .ok g ↔ g.hashPreimage.length < 2^32)) ∧
    encodeGenesis g = Encoding.encode g.hashPreimage ∧
    (decodeGenesis buf = .ok g → (buf = encodeGenesis g ↔ Canonical buf)) := by
  refine ⟨fun made => ⟨fun read => ?_,fun fits => ?_⟩,?_,fun read => ?_⟩
  · obtain ⟨file,found,-⟩ := decodeGenesis_ok read
    obtain ⟨fits,written⟩ := exact_file.sound _ _ found
    rw [← filePayload_listing,Encoding.encode_injective written]
    exact fits
  · rw [← filePayload_listing] at fits
    rw [encodeGenesis,decodeGenesis_of_readFile (exact_file.complete (listing g) fits),
      genesis_listing made]
  · rw [encodeGenesis,filePayload_listing]
  · obtain ⟨file,found,rfl⟩ := decodeGenesis_ok read
    obtain ⟨fits,written⟩ := exact_file.sound _ _ found
    constructor
    · intro same
      have payload := Encoding.encode_injective (same.symm.trans written)
      have listed := exact_file.complete (listing file.genesis) (payload ▸ fits)
      rw [same]
      exact ⟨listing file.genesis,listed,canonical_listing ⟨file.params,rfl⟩⟩
    · rintro ⟨other,again,canonical⟩
      cases found.symm.trans again
      rw [encodeGenesis,canonical.listing_genesis]
      exact written

def empty : Genesis where
  chainId := 1

theorem empty_read_back : decodeGenesis (encodeGenesis empty) = .ok empty ∧ Canonical (encodeGenesis empty) := by
  have both := genesis_file_iff empty (encodeGenesis empty)
  have read := (both.1 ⟨[],rfl⟩).mpr (by decide +kernel)
  exact ⟨read,(both.2.2 read).mp rfl⟩

/-- A file that leaves all parameters out is another file for the same genesis. -/
def bare : GenesisFile := ⟨1,[],[],[],{}⟩

theorem bare_accepted : decodeGenesis (Encoding.encode (filePayload bare)) = .ok empty ∧
    Encoding.encode (filePayload bare) ≠ encodeGenesis empty := by
  constructor
  · exact decodeGenesis_of_readFile (exact_file.complete bare (by decide +kernel))
  · decide +kernel

end Config
end L1
