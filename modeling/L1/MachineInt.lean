import L1.BigEndian
import Mathlib.Data.Nat.Basic
import Mathlib.Tactic.Common

/-! Fixed-width unsigned arithmetic with the checked and saturating operations of
machine integers. Proofs work on `toNat`. -/
namespace L1

abbrev U32 := BitVec 32
abbrev U64 := BitVec 64
abbrev U128 := BitVec 128

variable {w : Nat}

def checkedAdd (a b : BitVec w) : Option (BitVec w) :=
  if a.toNat + b.toNat < 2^w then some (a + b) else none

def checkedSub (a b : BitVec w) : Option (BitVec w) :=
  if b.toNat ≤ a.toNat then some (a - b) else none

def saturatingAdd (a b : BitVec w) : BitVec w := BitVec.ofNat w (min (a.toNat + b.toNat) (2^w - 1))

def saturatingSub (a b : BitVec w) : BitVec w := BitVec.ofNat w (a.toNat - b.toNat)

def saturatingMul (a b : BitVec w) : BitVec w := BitVec.ofNat w (min (a.toNat * b.toNat) (2^w - 1))

def toBeBytes (n : Nat) (a : BitVec w) : List UInt8 := BigEndian.encode n a.toNat

def fromBeBytes (w : Nat) (bytes : List UInt8) : BitVec w := BitVec.ofNat w (BigEndian.decode bytes)

theorem checkedAdd_eq_some {a b c : BitVec w} :
    checkedAdd a b = some c ↔ c.toNat = a.toNat + b.toNat := by
  unfold checkedAdd
  constructor
  · intro sum
    split at sum
    · rename_i fits
      cases sum
      rw [BitVec.toNat_add,Nat.mod_eq_of_lt fits]
    · cases sum
  · intro sum
    have fits : a.toNat + b.toNat < 2^w := sum ▸ c.isLt
    rw [if_pos fits,Option.some.injEq]
    apply BitVec.eq_of_toNat_eq
    rw [BitVec.toNat_add,Nat.mod_eq_of_lt fits,sum]

theorem checkedAdd_eq_none {a b : BitVec w} : checkedAdd a b = none ↔ 2^w ≤ a.toNat + b.toNat := by
  unfold checkedAdd
  split <;> simp <;> omega

theorem checkedSub_eq_some {a b c : BitVec w} :
    checkedSub a b = some c ↔ a.toNat = b.toNat + c.toNat := by
  unfold checkedSub
  constructor
  · intro difference
    split at difference
    · rename_i least
      cases difference
      rw [BitVec.toNat_sub_of_le least]
      omega
    · cases difference
  · intro sum
    have least : b.toNat ≤ a.toNat := by omega
    rw [if_pos least,Option.some.injEq]
    apply BitVec.eq_of_toNat_eq
    rw [BitVec.toNat_sub_of_le least]
    omega

theorem checkedSub_eq_none {a b : BitVec w} : checkedSub a b = none ↔ a.toNat < b.toNat := by
  unfold checkedSub
  split <;> simp <;> omega

@[simp] theorem toNat_saturatingAdd (a b : BitVec w) :
    (saturatingAdd a b).toNat = min (a.toNat + b.toNat) (2^w - 1) := by
  have := Nat.two_pow_pos w
  rw [saturatingAdd,BitVec.toNat_ofNat,Nat.mod_eq_of_lt (by omega)]

@[simp] theorem toNat_saturatingMul (a b : BitVec w) :
    (saturatingMul a b).toNat = min (a.toNat * b.toNat) (2^w - 1) := by
  have := Nat.two_pow_pos w
  rw [saturatingMul,BitVec.toNat_ofNat,Nat.mod_eq_of_lt (by omega)]

/-- A saturating sum is exact until it reaches the largest value. -/
theorem toNat_foldl_saturatingAdd (l : List (BitVec w)) (a : BitVec w) :
    (l.foldl saturatingAdd a).toNat = min (a.toNat + (l.map BitVec.toNat).sum) (2^w - 1) := by
  induction l generalizing a with
  | nil => have := a.isLt; simp; omega
  | cons b rest ih =>
    simp only [List.foldl_cons,ih,toNat_saturatingAdd,List.map_cons,List.sum_cons]
    omega

@[simp] theorem length_toBeBytes (n : Nat) (a : BitVec w) : (toBeBytes n a).length = n := by
  simp [toBeBytes]

theorem fromBeBytes_toBeBytes (n : Nat) (a : BitVec w) (wide : 2^w ≤ 256^n) :
    fromBeBytes w (toBeBytes n a) = a := by
  rw [fromBeBytes,toBeBytes,BigEndian.decode_encode_of_lt n _ (Nat.lt_of_lt_of_le a.isLt wide)]
  simp

theorem toBeBytes_fromBeBytes (bytes : List UInt8) (narrow : 256^bytes.length ≤ 2^w) :
    toBeBytes bytes.length (fromBeBytes w bytes) = bytes := by
  have bound := BigEndian.decode_lt bytes
  rw [toBeBytes,fromBeBytes,BitVec.toNat_ofNat,Nat.mod_eq_of_lt (by omega),BigEndian.encode_decode]

theorem toBeBytes_injective (n : Nat) {a b : BitVec w} (wide : 2^w ≤ 256^n)
    (same : toBeBytes n a = toBeBytes n b) : a = b := by
  rw [← fromBeBytes_toBeBytes n a wide,same,fromBeBytes_toBeBytes n b wide]

end L1
