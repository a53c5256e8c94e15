import L1.Types

/-! Versioned slots: a key holds its latest version, and every version keeps its value.
`none` is the error on a version header that is not eight bytes long. -/
namespace L1

abbrev VersionedSlots := Map Bytes Bytes

namespace VersionedSlots

/-- `{key}||0x00||version`. -/
def versionKey (key : Bytes) (version : U64) : Bytes := key ++ 0 :: toBeBytes 8 version

def latest (slots : VersionedSlots) (key : Bytes) : Option U64 :=
  match slots[key]? with
  | none => some 0
  | some header => if header.length = 8 then some (fromBeBytes 64 header) else none

/-- Read a specific version; version zero is empty. -/
def read (slots : VersionedSlots) (key : Bytes) (version : U64) : U64 × Option Bytes :=
  if version = 0 then (0,none) else (version,slots[versionKey key version]?)

/-- Write the next version; the last one is its own successor. -/
def write (slots : VersionedSlots) (key value : Bytes) : Option (VersionedSlots × U64) :=
  match slots.latest key with
  | none => none
  | some version =>
    let next := saturatingAdd version 1
    some ((slots.insert key (toBeBytes 8 next)).insert (versionKey key next) value,next)

/-- Whether an observed version is still the latest. -/
def validate (slots : VersionedSlots) (key : Bytes) (observed : U64) : Option Bool :=
  (slots.latest key).map fun version => decide (version = observed)

/-- Count up from a version until it validates. -/
def scan (slots : VersionedSlots) (key : Bytes) : Nat → U64 → Option U64
  | 0, _ => none
  | tries + 1, version =>
    match slots.validate key version with
    | none => none
    | some true => some version
    | some false => scan slots key tries (saturatingAdd version 1)

/-- The version that host storage finds for a key. -/
def current (slots : VersionedSlots) (key : Bytes) : Option U64 :=
  match slots.validate key 0 with
  | none => none
  | some true => some 0
  | some false => scan slots key (2^64) 1

variable {key other : Bytes} {slots : VersionedSlots} {version : U64}

theorem scan_latest (known : slots.latest key = some version) (tries : Nat) (from_ : U64)
    (below : from_.toNat ≤ version.toNat) (enough : version.toNat < from_.toNat + tries) :
    slots.scan key tries from_ = some version := by
  induction tries generalizing from_ with
  | zero => omega
  | succ tries ih =>
    simp only [scan,validate,known,Option.map_some]
    by_cases here : version = from_
    · simp [here]
    · have apart : version.toNat ≠ from_.toNat := fun same => here (BitVec.eq_of_toNat_eq same)
      have top := version.isLt
      have next : (saturatingAdd from_ 1).toNat = from_.toNat + 1 := by
        have one : (1 : U64).toNat = 1 := rfl
        rw [toNat_saturatingAdd,one]
        omega
      simp only [here,decide_false]
      exact ih _ (by omega) (by omega)

/-- The loop ends at the latest version, so it fails only on a corrupt header. -/
theorem current_eq (slots : VersionedSlots) (key : Bytes) : slots.current key = slots.latest key := by
  unfold current validate
  cases known : slots.latest key with
  | none => rfl
  | some version =>
    by_cases zero : version = 0
    · simp [zero]
    · have positive : 0 < version.toNat :=
        Nat.pos_of_ne_zero fun same => zero (BitVec.eq_of_toNat_eq same)
      have one : (1 : U64).toNat = 1 := rfl
      have top := version.isLt
      have low : (1 : U64).toNat ≤ version.toNat := by rw [one]; exact positive
      have high : version.toNat < (1 : U64).toNat + 2^64 := Nat.lt_add_left _ top
      have found := scan_latest known (2^64) 1 low high
      simp only [Option.map_some,zero,decide_false,found]

/-- The sizes of the keys in use: the staking slot, an account and a storage slot. The key of
a version is nine bytes longer, so it is never one of these. -/
def SlotKey (key : Bytes) : Prop := key.length = 11 ∨ key.length = 32 ∨ key.length = 64

theorem SlotKey.ne_versionKey (slot : SlotKey key) (slot' : SlotKey other)
    (version : U64) : other ≠ versionKey key version := by
  rintro rfl
  simp only [SlotKey,versionKey,List.length_append,List.length_cons,length_toBeBytes] at slot slot'
  omega

/-- Every header in use is well formed. -/
def Healthy (slots : VersionedSlots) : Prop :=
  ∀ key, SlotKey key → ∃ version, slots.latest key = some version

theorem healthy_empty : Healthy ∅ := fun _ _ => ⟨0,by simp [latest]⟩

theorem latest_write {slots' : VersionedSlots} {value : Bytes}
    (slot : SlotKey key) (slot' : SlotKey other)
    (written : slots.write key value = some (slots',version)) :
    slots'.latest other = if other = key then some version else slots.latest other := by
  unfold write at written
  split at written
  · cases written
  rename_i before _
  simp only [Option.some.injEq,Prod.mk.injEq] at written
  obtain ⟨rfl,rfl⟩ := written
  have header := fromBeBytes_toBeBytes 8 (saturatingAdd before 1) (by decide)
  simp only [latest,Map.get?_insert,if_neg (slot.ne_versionKey slot' _)]
  by_cases own : other = key
  · simp only [if_pos own,length_toBeBytes,header,if_true]
  · simp only [if_neg own]

theorem Healthy.write (healthy : Healthy slots) (slot : SlotKey key) (value : Bytes) :
    ∃ slots' version, slots.latest key = some version ∧
      slots.write key value = some (slots',saturatingAdd version 1) ∧ Healthy slots' := by
  obtain ⟨version,known⟩ := healthy key slot
  obtain ⟨slots',written⟩ : ∃ slots', slots.write key value =
      some (slots',saturatingAdd version 1) := by
    simp only [VersionedSlots.write,known]
    exact ⟨_,rfl⟩
  refine ⟨slots',version,known,written,fun other slot' => ?_⟩
  rw [latest_write slot slot' written]
  split
  · exact ⟨_,rfl⟩
  · exact healthy other slot'

end VersionedSlots
end L1
