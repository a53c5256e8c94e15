import L1.MachineInt

/-! The optional update of the base fee. It follows the use of a block against half of its gas cap,
rounded down. An odd cap leaves one unit more above its half than below. -/
namespace L1.Fees

def larger {w : Nat} (a b : BitVec w) : BitVec w := if a < b then b else a

def smaller {w : Nat} (a b : BitVec w) : BitVec w := if b < a then b else a

theorem toNat_larger {w : Nat} (a b : BitVec w) : (larger a b).toNat = max a.toNat b.toNat := by
  unfold larger
  split
  · rename_i below
    rw [BitVec.lt_def] at below
    omega
  · rename_i least
    rw [BitVec.lt_def] at least
    omega

theorem toNat_smaller {w : Nat} (a b : BitVec w) : (smaller a b).toNat = min a.toNat b.toNat := by
  unfold smaller
  split
  · rename_i below
    rw [BitVec.lt_def] at below
    omega
  · rename_i least
    rw [BitVec.lt_def] at least
    omega

def delta (fee : U128) (gap target : U64) : U128 :=
  saturatingMul fee (gap.setWidth 128) / (larger target 1).setWidth 128 / 8

def nextBaseFee (currentBase : U128) (gasUsed maxGas : U64) (enabled : Bool) (minFloor : U128) : U128 :=
  if !enabled then minFloor
  else
    let cap := larger maxGas 1
    let used := smaller gasUsed cap
    let target := cap / 2
    let next := larger currentBase minFloor
    if target < used then saturatingAdd next (larger (delta next (used - target) target) 1)
    else if used < target then
      larger (saturatingSub next (delta next (target - used) target)) minFloor
    else next

/-- The same on naturals; the product stops at the largest word. -/
def change (fee gap target : Nat) : Nat := min (fee * gap) (2^128 - 1) / max target 1 / 8

def next (fee floor used target : Nat) : Nat :=
  if target < used then min (fee + max (change fee (used - target) target) 1) (2^128 - 1)
  else max (fee - change fee (target - used) target) floor

theorem toNat_delta (fee : U128) (gap target : U64) :
    (delta fee gap target).toNat = change fee.toNat gap.toNat target.toNat := by
  have one : (1 : U64).toNat = 1 := rfl
  have eight : (8 : U128).toNat = 8 := rfl
  rw [delta,BitVec.toNat_udiv,BitVec.toNat_udiv,toNat_saturatingMul,
    BitVec.toNat_setWidth_of_le (by decide),BitVec.toNat_setWidth_of_le (by decide),toNat_larger,one,eight,
    change]

theorem change_zero (fee target : Nat) : change fee 0 target = 0 := by simp [change]

theorem toNat_nextBaseFee (base : U128) (gasUsed maxGas : U64) (floor : U128) :
    (nextBaseFee base gasUsed maxGas true floor).toNat =
      next (max base.toNat floor.toNat) floor.toNat (min gasUsed.toNat (max maxGas.toNat 1))
        (max maxGas.toNat 1 / 2) := by
  have one : (1 : U64).toNat = 1 := rfl
  have two : (2 : U64).toNat = 2 := rfl
  have unit : (1 : U128).toNat = 1 := rfl
  have target : (larger maxGas 1 / 2).toNat = max maxGas.toNat 1 / 2 := by
    rw [BitVec.toNat_udiv,toNat_larger,one,two]
  have used : (smaller gasUsed (larger maxGas 1)).toNat = min gasUsed.toNat (max maxGas.toNat 1) := by
    rw [toNat_smaller,toNat_larger,one]
  have fee := toNat_larger base floor
  unfold nextBaseFee next
  simp only [Bool.not_true,Bool.false_eq_true,if_false,BitVec.lt_def,target,used]
  split
  · rename_i above
    rw [toNat_saturatingAdd,fee,toNat_larger,toNat_delta,
      BitVec.toNat_sub_of_le (by rw [BitVec.le_def]; omega),fee,unit,target,used]
  · rename_i above
    split
    · rw [toNat_larger,saturatingSub,BitVec.toNat_ofNat,toNat_delta,
        BitVec.toNat_sub_of_le (by rw [BitVec.le_def]; omega),fee,target,used,Nat.mod_eq_of_lt]
      have bound := (larger base floor).isLt
      omega
    · rename_i below
      rw [fee,show max maxGas.toNat 1 / 2 - min gasUsed.toNat (max maxGas.toNat 1) = 0 by omega,
        change_zero]
      omega

theorem change_mono (fee target : Nat) {gap gap' : Nat} (further : gap ≤ gap') :
    change fee gap target ≤ change fee gap' target := by
  unfold change
  have product : fee * gap ≤ fee * gap' := Nat.mul_le_mul_left fee further
  exact Nat.div_le_div_right (Nat.div_le_div_right (by omega))

theorem change_le (fee gap target : Nat) : change fee gap target ≤ fee * gap / max target 1 / 8 :=
  Nat.div_le_div_right (Nat.div_le_div_right (Nat.min_le_left _ _))

variable {fee target floor used : Nat}

theorem floor_le_next (least : floor ≤ fee) (word : fee < 2^128) :
    floor ≤ next fee floor used target := by
  unfold next
  split <;> omega

theorem next_mono {used' : Nat} (least : floor ≤ fee) (word : fee < 2^128)
    (more : used ≤ used') : next fee floor used target ≤ next fee floor used' target := by
  unfold next
  by_cases above : target < used
  · rw [if_pos above,if_pos (by omega)]
    have grows := change_mono fee target (show used - target ≤ used' - target by omega)
    omega
  · rw [if_neg above]
    by_cases above' : target < used'
    · rw [if_pos above']
      omega
    · rw [if_neg above']
      have shrinks := change_mono fee target (show target - used' ≤ target - used by omega)
      omega

theorem next_target (least : floor ≤ fee) : next fee floor target target = fee := by
  rw [next,if_neg (by omega),Nat.sub_self,change_zero]
  omega

/-- Both ways the fee moves by no more than it does for a full block, or by one. -/
theorem next_near {cap : Nat} (least : floor ≤ fee) (word : fee < 2^128)
    (full : used ≤ cap) (half : target ≤ cap - target) :
    next fee floor used target ≤ fee + max 1 (fee * (cap - target) / max target 1 / 8) ∧
      fee ≤ next fee floor used target + max 1 (fee * (cap - target) / max target 1 / 8) := by
  have reach (gap : Nat) (near : gap ≤ cap - target) :
      change fee gap target ≤ fee * (cap - target) / max target 1 / 8 :=
    (change_mono fee target near).trans (change_le fee (cap - target) target)
  unfold next
  split
  · have step := reach (used - target) (by omega)
    omega
  · have step := reach (target - used) (by omega)
    omega

/-- A full block under an odd cap is one unit further from the target than the target is large. -/
theorem change_full_odd (positive : 0 < target) (word : target < 2^63)
    (small : fee < 2^64) (least : target ≤ fee) (last : fee % 8 = 7) :
    fee / 8 < change fee (target + 1) target := by
  have product : fee * (target + 1) < 2^64 * 2^64 :=
    Nat.mul_lt_mul_of_lt_of_le small (by omega) (by decide)
  have beyond : fee + 1 ≤ fee * (target + 1) / target := by
    rw [Nat.le_div_iff_mul_le positive,Nat.add_mul,Nat.mul_add,Nat.one_mul,Nat.mul_one]
    exact Nat.add_le_add_left least _
  rw [change,Nat.min_eq_left (by omega),Nat.max_eq_left positive]
  omega

/-- No update moves a fee by more than `most` of it. -/
def Within (maxGas : U64) (most : Nat → Nat) : Prop :=
  ∀ (base floor : U128) (used : U64), let fee := max base.toNat floor.toNat
    (nextBaseFee base used maxGas true floor).toNat ≤ fee + most fee ∧
      fee ≤ (nextBaseFee base used maxGas true floor).toNat + most fee

def fullMove (maxGas fee : Nat) : Nat :=
  let cap := max maxGas 1
  max 1 (fee * (cap - cap / 2) / max (cap / 2) 1 / 8)

def eighth (fee : Nat) : Nat := max 1 (fee / 8)

theorem within_fullMove (maxGas : U64) : Within maxGas (fullMove maxGas.toNat) := by
  intro base floor used
  rw [toNat_nextBaseFee]
  exact next_near (by omega) (by omega) (by omega) (by omega)

theorem fullMove_of_even {maxGas : Nat} (cap : maxGas % 2 = 0 ∨ maxGas = 1) :
    fullMove maxGas = eighth := by
  have full : max maxGas 1 - max maxGas 1 / 2 = max (max maxGas 1 / 2) 1 := by omega
  funext fee
  rw [fullMove,full,Nat.mul_div_cancel _ (by omega),eighth]

theorem within_eighth_iff (maxGas : U64) :
    Within maxGas eighth ↔ maxGas.toNat % 2 = 0 ∨ maxGas.toNat = 1 := by
  constructor
  · intro within
    by_contra odd
    have size := maxGas.isLt
    have target : max maxGas.toNat 1 / 2 = maxGas.toNat / 2 := by omega
    have gap : min maxGas.toNat (max maxGas.toNat 1) - maxGas.toNat / 2 = maxGas.toNat / 2 + 1 := by omega
    -- the least fee over the target and over one that ends in seven
    let fee := 8 * (maxGas.toNat / 2 / 8) + 15
    have moved : fee / 8 < change fee (maxGas.toNat / 2 + 1) (maxGas.toNat / 2) :=
      change_full_odd (by omega) (by omega) (by omega) (by omega) (by omega)
    have most := (within (BitVec.ofNat 128 fee) 0 maxGas).1
    have word : (BitVec.ofNat 128 fee).toNat = fee := by
      rw [BitVec.toNat_ofNat,Nat.mod_eq_of_lt (by omega)]
    have zero : (0 : U128).toNat = 0 := rfl
    rw [toNat_nextBaseFee,word,zero,Nat.max_zero,target,next,if_pos (by omega),gap,eighth] at most
    omega
  · intro even
    rw [← fullMove_of_even even]
    exact within_fullMove maxGas

/-- The next fee is never under the floor, grows with the use, stays at half of the cap and moves by no
more than a full block moves it. That is an eighth at most for every fee exactly if the cap is even or
one. -/
theorem nextBaseFee_moves (maxGas : U64) :
    (∀ (base floor : U128) (used : U64), floor ≤ nextBaseFee base used maxGas true floor) ∧
    (∀ (base floor : U128) (used more : U64), used ≤ more →
      nextBaseFee base used maxGas true floor ≤ nextBaseFee base more maxGas true floor) ∧
    (∀ base floor : U128,
      (nextBaseFee base (maxGas / 2) maxGas true floor).toNat = max base.toNat floor.toNat) ∧
    Within maxGas (fullMove maxGas.toNat) ∧
    (Within maxGas eighth ↔ maxGas.toNat % 2 = 0 ∨ maxGas.toNat = 1) := by
  refine ⟨fun base floor used => ?_,fun base floor used more grows => ?_,fun base floor => ?_,
    within_fullMove maxGas,within_eighth_iff maxGas⟩
  · rw [BitVec.le_def,toNat_nextBaseFee]
    exact floor_le_next (by omega) (by omega)
  · rw [BitVec.le_def] at grows ⊢
    rw [toNat_nextBaseFee,toNat_nextBaseFee]
    exact next_mono (by omega) (by omega) (by omega)
  · have two : (2 : U64).toNat = 2 := rfl
    rw [toNat_nextBaseFee,BitVec.toNat_udiv,two,
      show min (maxGas.toNat / 2) (max maxGas.toNat 1) = max maxGas.toNat 1 / 2 by omega]
    exact next_target (by omega)

theorem cap_of_four : nextBaseFee 16 1 4 true 1 ≤ nextBaseFee 16 3 4 true 1 ∧ Within 4 eighth :=
  ⟨(nextBaseFee_moves 4).2.1 16 1 1 3 (by decide),(nextBaseFee_moves 4).2.2.2.2.mpr (by decide)⟩

/-- A full block under a cap of three raises a fee of sixteen by four. -/
theorem odd_cap_exceeds : ¬ (nextBaseFee 16 3 3 true 1).toNat ≤ 16 + eighth 16 := by decide

end L1.Fees
