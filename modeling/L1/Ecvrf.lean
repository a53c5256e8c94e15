import L1.Attempts
import L1.LittleEndian
import L1.Steps
import Mathlib.Data.ZMod.Basic

/-! ECVRF-EDWARDS25519-SHA512-TAI. The curve is a group whose order is a prime times the cofactor, and
SHA-512 is any function. -/
namespace L1.Ecvrf

/-- The prime order of the basepoint. -/
@[irreducible] def groupOrder : Nat := 2^252 + 27742317777372353535851937790883648493

theorem groupOrder_eq : groupOrder = 2^252 + 27742317777372353535851937790883648493 := by
  unfold groupOrder
  rfl

theorem groupOrder_pos : 0 < groupOrder := by simp [groupOrder_eq]

theorem lt_groupOrder : 256^16 < groupOrder := by
  rw [groupOrder_eq]
  norm_num

theorem groupOrder_lt : groupOrder < 256^32 := by
  rw [groupOrder_eq]
  norm_num

abbrev Scalar := Fin groupOrder

namespace Scalar

def ofNat (n : Nat) : Scalar := ⟨n % groupOrder,Nat.mod_lt n groupOrder_pos⟩

def fromBytesModOrder (bytes : Vector UInt8 32) : Scalar := ofNat (LittleEndian.decode bytes.toList)

def fromBytesModOrderWide (bytes : Vector UInt8 64) : Scalar := ofNat (LittleEndian.decode bytes.toList)

/-- Only the reduced encoding is read. -/
def fromCanonicalBytes (bytes : Vector UInt8 32) : Option Scalar :=
  if reduced : LittleEndian.decode bytes.toList < groupOrder then some ⟨_,reduced⟩ else none

def toBytes (s : Scalar) : Vector UInt8 32 := fixed 32 (LittleEndian.encode 32 s.val)

theorem toList_toBytes (s : Scalar) : s.toBytes.toList = LittleEndian.encode 32 s.val :=
  toList_fixed _ (LittleEndian.length_encode _ _)

theorem fromCanonicalBytes_toBytes (s : Scalar) : fromCanonicalBytes s.toBytes = some s := by
  have value : LittleEndian.decode s.toBytes.toList = s.val := by
    rw [toList_toBytes,LittleEndian.decode_encode 32 s.val (s.isLt.trans groupOrder_lt)]
  simp [fromCanonicalBytes,value]

theorem toList_padded {bytes : Bytes} (length : bytes.length = 16) :
    (fixed 32 bytes).toList = bytes ++ List.replicate 16 0 := by
  apply List.ext_getElem
  · simp [length]
  · intro i inside _
    by_cases low : i < 16
    · simp [fixed,length,low]
    · have short : bytes.length ≤ i := by omega
      rw [List.getElem_append_right short,List.getElem_replicate]
      simp [fixed,short]

/-- Sixteen bytes are below the order, so they come back from the scalar. -/
theorem take_toBytes_padded (bytes : Bytes) (length : bytes.length = 16) :
    (fromBytesModOrder (fixed 32 bytes)).toBytes.toList.take 16 = bytes := by
  have small : LittleEndian.decode bytes < groupOrder := by
    have bound := LittleEndian.decode_lt bytes
    rw [length] at bound
    exact bound.trans lt_groupOrder
  have value : (fromBytesModOrder (fixed 32 bytes)).val = LittleEndian.decode bytes := by
    rw [fromBytesModOrder,toList_padded length,LittleEndian.decode_zeros]
    exact Nat.mod_eq_of_lt small
  rw [toList_toBytes,value,LittleEndian.take_encode 16 16,← length,LittleEndian.encode_decode]

end Scalar

class Sha512 where
  digest : Bytes → Vector UInt8 64

/-- The Edwards group of the curve library: the order of every point divides the prime times the
cofactor, that of the basepoint the prime, and points read back from their compressed form. -/
structure Edwards (Point : Type) [AddCommGroup Point] where
  basepoint : Point
  compress : Point → Vector UInt8 32
  decompress : Vector UInt8 32 → Option Point
  order : ∀ p : Point, (8 * groupOrder) • p = 0
  basepoint_order : groupOrder • basepoint = 0
  reads : ∀ p, decompress (compress p) = some p

section Group

variable {Point : Type} [AddCommGroup Point]

def scale (s : Scalar) (p : Point) : Point := s.val • p

def mulByCofactor (p : Point) : Point := 8 • p

theorem mod_nsmul {p : Point} (order : groupOrder • p = 0) (n : Nat) : (n % groupOrder) • p = n • p := by
  have whole : (groupOrder * (n / groupOrder)) • p = 0 := by rw [mul_nsmul,order,nsmul_zero]
  calc (n % groupOrder) • p = (n % groupOrder) • p + (groupOrder * (n / groupOrder)) • p := by
        rw [whole,add_zero]
    _ = n • p := by rw [← add_nsmul,Nat.mod_add_div]

theorem scale_add_mul {p : Point} (order : groupOrder • p = 0) (k c x : Scalar) :
    scale (k + c * x) p = scale k p + scale c (scale x p) := by
  simp only [scale,Fin.val_add,Fin.val_mul]
  rw [mod_nsmul order,add_nsmul,mod_nsmul order,Nat.mul_comm,mul_nsmul]

end Group

section Scheme

variable [Sha512] {Point : Type} [AddCommGroup Point] [DecidableEq Point] (curve : Edwards Point)

def suite : UInt8 := 0x03

/-- The clamped secret scalar of a seed, and the bytes its nonces are drawn from. -/
def expandSk (seed : Vector UInt8 32) : Scalar × Vector UInt8 32 :=
  let digest := (Sha512.digest seed.toList).toList
  let low := digest.set 0 (digest.getD 0 0 &&& 248)
  let clamped := low.set 31 (low.getD 31 0 &&& 63 ||| 64)
  (Scalar.fromBytesModOrder (fixed 32 (slice clamped 0 32)),fixed 32 (slice digest 32 64))

def candidate (pk : Vector UInt8 32) (alpha : Bytes) (ctr : Nat) : Option Point :=
  let digest := Sha512.digest ([suite,0x01] ++ pk.toList ++ alpha ++ [UInt8.ofNat ctr])
  match curve.decompress (fixed 32 (slice digest.toList 0 32)) with
  | none => none
  | some p => if mulByCofactor p = 0 then none else some (mulByCofactor p)

def hashToCurve (pk : Vector UInt8 32) (alpha : Bytes) : Option Point :=
  (List.range 256).findSome? (candidate curve pk alpha)

def hashPoints (points : List Point) : Scalar :=
  let digest := Sha512.digest ([suite,0x02] ++ points.flatMap fun p => (curve.compress p).toList)
  Scalar.fromBytesModOrder (fixed 32 (slice digest.toList 0 16))

def proofToHash (gamma : Point) : VrfOutput :=
  Sha512.digest ([suite,0x03] ++ (curve.compress (mulByCofactor gamma)).toList)

def publicKeyFromSeed (seed : Vector UInt8 32) : Vector UInt8 32 :=
  curve.compress (scale (expandSk seed).1 curve.basepoint)

def proofAt (seed : Vector UInt8 32) (h : Point) : VrfOutput × VrfProof :=
  let x := (expandSk seed).1
  let gamma := scale x h
  let k := Scalar.fromBytesModOrderWide
    (Sha512.digest ((expandSk seed).2.toList ++ (curve.compress h).toList))
  let c := hashPoints curve [h,gamma,scale k curve.basepoint,scale k h]
  let s := k + c * x
  (proofToHash curve gamma,
    fixed 80 ((curve.compress gamma).toList ++ slice c.toBytes.toList 0 16 ++ s.toBytes.toList))

def prove (seed : Vector UInt8 32) (alpha : Bytes) : Except VrfError (VrfOutput × VrfProof) := do
  let pk := curve.compress (scale (expandSk seed).1 curve.basepoint)
  let h ← okOr .proof (hashToCurve curve pk alpha)
  return proofAt curve seed h

/-- The last step of `verify`: the challenge is computed again from the response. -/
def checkChallenge (y gamma h : Point) (c s : Scalar) : Except VrfError VrfOutput :=
  let u := scale s curve.basepoint - scale c y
  let v := scale s h - scale c gamma
  if c ≠ hashPoints curve [h,gamma,u,v] then .error .verify else .ok (proofToHash curve gamma)

def verify (pk : Vector UInt8 32) (alpha : Bytes) (proof : VrfProof) : Except VrfError VrfOutput := do
  let y ← okOr .proof (curve.decompress pk)
  if y = 0 then .error .proof
  else do
    let gamma ← okOr .proof (curve.decompress (fixed 32 (slice proof.toList 0 32)))
    let c := Scalar.fromBytesModOrder (fixed 32 (slice proof.toList 32 48))
    let s ← okOr .proof (Scalar.fromCanonicalBytes (fixed 32 (slice proof.toList 48 80)))
    let h ← okOr .proof (hashToCurve curve pk alpha)
    checkChallenge curve y gamma h c s

@[reducible] def vrf : Vrf := ⟨prove curve,verify curve⟩

variable {curve}

variable {h : Point} {alpha : Bytes} {pk : Vector UInt8 32} {proof : VrfProof}

theorem order_hashToCurve (found : hashToCurve curve pk alpha = some h) : groupOrder • h = 0 := by
  obtain ⟨ctr,-,candidate⟩ := List.exists_of_findSome?_eq_some found
  unfold Ecvrf.candidate at candidate
  dsimp only at candidate
  split at candidate
  · cases candidate
  rename_i p _
  split at candidate
  · cases candidate
  obtain rfl : mulByCofactor p = h := by simpa using candidate
  rw [mulByCofactor,← mul_nsmul]
  exact curve.order p

omit [DecidableEq Point] in
/-- The challenge of a proof reads back from the sixteen bytes kept of it. -/
theorem hashPoints_reads (points : List Point) :
    Scalar.fromBytesModOrder (fixed 32 (slice (hashPoints curve points).toBytes.toList 0 16)) =
      hashPoints curve points := by
  simp only [hashPoints,slice,List.drop_zero,Nat.sub_zero]
  rw [Scalar.take_toBytes_padded _ (by simp)]

omit [Sha512] in
theorem parts_proof (gamma s : Vector UInt8 32) {c : Bytes} (length : c.length = 16)
    (layout : proof = fixed 80 (gamma.toList ++ c ++ s.toList)) :
    fixed 32 (slice proof.toList 0 32) = gamma ∧ slice proof.toList 32 48 = c ∧
      fixed 32 (slice proof.toList 48 80) = s := by
  have whole : proof.toList = gamma.toList ++ (c ++ s.toList) := by
    rw [layout,toList_fixed _ (by simp [length]),List.append_assoc]
  have first : gamma.toList.length = 32 := gamma.size_toArray
  have last : s.toList.length = 32 := s.size_toArray
  have tail : proof.toList.drop 32 = c ++ s.toList := by rw [whole,List.drop_left' first]
  refine ⟨?_,?_,?_⟩
  · rw [slice,whole,List.drop_zero,List.take_left' first,fixed_toList]
  · rw [slice,tail,List.take_left' length]
  · rw [slice,show 48 = 32 + 16 from rfl,← List.drop_drop,tail,List.drop_left' length,
      List.take_of_length_le (by rw [last]),fixed_toList]

/-- A proof that reads as `gamma`, `c` and `s` is judged by its challenge alone. -/
theorem verify_parts {y gamma : Point}
    {c s : Scalar} (key : curve.decompress pk = some y) (nonzero : y ≠ 0)
    (gammaPart : fixed 32 (slice proof.toList 0 32) = curve.compress gamma)
    (cPart : Scalar.fromBytesModOrder (fixed 32 (slice proof.toList 32 48)) = c)
    (sPart : fixed 32 (slice proof.toList 48 80) = s.toBytes)
    (found : hashToCurve curve pk alpha = some h) :
    verify curve pk alpha proof = checkChallenge curve y gamma h c s := by
  rw [verify,key,okOr_some_bind,if_neg nonzero,gammaPart,curve.reads,okOr_some_bind,sPart,
    Scalar.fromCanonicalBytes_toBytes,cPart,okOr_some_bind,found,okOr_some_bind]

/-- A response to its own challenge is accepted, whatever the nonce. -/
theorem verify_response {c k x : Scalar} (key : curve.decompress pk = some (scale x curve.basepoint))
    (nonzero : scale x curve.basepoint ≠ 0) (found : hashToCurve curve pk alpha = some h)
    (challenge : c = hashPoints curve [h,scale x h,scale k curve.basepoint,scale k h])
    (layout : proof = fixed 80 ((curve.compress (scale x h)).toList ++ slice c.toBytes.toList 0 16 ++
      (k + c * x).toBytes.toList)) :
    verify curve pk alpha proof = .ok (proofToHash curve (scale x h)) := by
  have base : scale (k + c * x) curve.basepoint - scale c (scale x curve.basepoint) =
      scale k curve.basepoint := by
    rw [scale_add_mul curve.basepoint_order,add_sub_cancel_right]
  have point : scale (k + c * x) h - scale c (scale x h) = scale k h := by
    rw [scale_add_mul (order_hashToCurve found),add_sub_cancel_right]
  have sixteen : (slice c.toBytes.toList 0 16).length = 16 := by simp [slice]
  obtain ⟨gammaPart,cPart,sPart⟩ := parts_proof _ _ sixteen layout
  have kept : Scalar.fromBytesModOrder (fixed 32 (slice proof.toList 32 48)) = c := by
    rw [cPart,challenge]
    exact hashPoints_reads _
  rw [verify_parts key nonzero gammaPart kept sPart found,checkChallenge,base,point,
    if_neg (not_not_intro challenge)]

theorem prove_found {seed : Vector UInt8 32}
    (found : hashToCurve curve (publicKeyFromSeed curve seed) alpha = some h) :
    prove curve seed alpha = .ok (proofAt curve seed h) := by
  rw [publicKeyFromSeed] at found
  rw [prove,found,okOr_some_bind]
  rfl

theorem verify_proofAt {seed : Vector UInt8 32}
    (nonzero : scale (expandSk seed).1 curve.basepoint ≠ 0)
    (found : hashToCurve curve (publicKeyFromSeed curve seed) alpha = some h) :
    verify curve (publicKeyFromSeed curve seed) alpha (proofAt curve seed h).2 =
      .ok (proofAt curve seed h).1 :=
  verify_response (curve.reads _) nonzero found rfl rfl

/-- The proof for a seed is accepted under its public key, with the same output. -/
theorem proofs_verify (seed : Vector UInt8 32) (alpha : Bytes)
    (key : curve.decompress (publicKeyFromSeed curve seed) ≠ some 0)
    (found : (hashToCurve curve (publicKeyFromSeed curve seed) alpha).isSome) :
    ∃ output proof, prove curve seed alpha = .ok (output,proof) ∧
      verify curve (publicKeyFromSeed curve seed) alpha proof = .ok output := by
  obtain ⟨h,found⟩ := Option.isSome_iff_exists.mp found
  have nonzero : scale (expandSk seed).1 curve.basepoint ≠ 0 := by
    intro zero
    rw [publicKeyFromSeed,zero,curve.reads] at key
    exact key rfl
  exact ⟨_,_,prove_found found,verify_proofAt nonzero found⟩

/-- The ticket a source draws is accepted in the lottery. -/
theorem leaderVerify_leaderProve {sk : Vector UInt8 32} {seed : VrfSeed} {id : ValidatorId}
    (nonzero : scale (expandSk sk).1 curve.basepoint ≠ 0)
    (found : hashToCurve curve (publicKeyFromSeed curve sk) (leaderAlpha seed id) = some h) :
    let _ := vrf curve
    ∃ output proof, leaderProve sk seed id = .ok (output,proof) ∧
      leaderVerify (publicKeyFromSeed curve sk) seed id proof = .ok output :=
  ⟨_,_,prove_found found,verify_proofAt nonzero found⟩

end Scheme

namespace Sample

instance notZero : NeZero (8 * groupOrder) := ⟨by have := groupOrder_pos; omega⟩

@[reducible] def sha512 : Sha512 := ⟨fun _ => Vector.replicate 64 1⟩

attribute [local instance] sha512

abbrev Point := ZMod (8 * groupOrder)

theorem eight_mul_eq_zero {n : Nat} : (8 : Point) * n = 0 ↔ n % groupOrder = 0 := by
  have cast : (8 : Point) * n = ((8 * n : Nat) : Point) := by push_cast; rfl
  rw [cast,ZMod.natCast_eq_zero_iff,Nat.mul_dvd_mul_iff_left (by decide),Nat.dvd_iff_mod_eq_zero]

/-- The cyclic group of the order of the curve. -/
def curve : Edwards Point where
  basepoint := 8
  compress p := fixed 32 (LittleEndian.encode 32 p.val)
  decompress bytes := some ((LittleEndian.decode bytes.toList : Nat) : Point)
  order p := by rw [nsmul_eq_mul,ZMod.natCast_self,zero_mul]
  basepoint_order := by
    rw [nsmul_eq_mul,mul_comm (groupOrder : Point)]
    exact eight_mul_eq_zero.mpr (Nat.mod_self groupOrder)
  reads p := by
    have fits : p.val < 256^32 := by
      refine (ZMod.val_lt p).trans ?_
      rw [groupOrder_eq]
      norm_num
    rw [toList_fixed _ (LittleEndian.length_encode _ _),LittleEndian.decode_encode 32 _ fits,
      ZMod.natCast_zmod_val]

theorem decompress_digest (bytes : Bytes) :
    curve.decompress (fixed 32 (slice (Sha512.digest bytes).toList 0 32)) =
      some ((LittleEndian.decode (List.replicate 32 1) : Nat) : Point) := by
  have read : (fixed 32 (slice (Vector.replicate 64 (1 : UInt8)).toList 0 32)).toList =
      List.replicate 32 1 := by decide
  have value : curve.decompress (fixed 32 (slice (Sha512.digest bytes).toList 0 32)) = some ((
      LittleEndian.decode (fixed 32 (slice (Vector.replicate 64 1).toList 0 32)).toList : Nat) : Point) := rfl
  rw [value,read]

def seed : Vector UInt8 32 := Vector.replicate 32 7

theorem secret_ne_zero : (expandSk seed).1.val % groupOrder ≠ 0 := by decide +kernel

theorem digest_ne_zero : LittleEndian.decode (List.replicate 32 1) % groupOrder ≠ 0 := by decide +kernel

theorem seed_verifies : curve.decompress (publicKeyFromSeed curve seed) ≠ some 0 ∧
    (hashToCurve curve (publicKeyFromSeed curve seed) []).isSome ∧
    ∃ output proof, prove curve seed [] = .ok (output,proof) ∧
      verify curve (publicKeyFromSeed curve seed) [] proof = .ok output := by
  have key : curve.decompress (publicKeyFromSeed curve seed) ≠ some 0 := by
    rw [publicKeyFromSeed,curve.reads]
    intro zero
    have product := Option.some.inj zero
    rw [scale,nsmul_eq_mul,mul_comm ((expandSk seed).1.val : Point)] at product
    exact secret_ne_zero (eight_mul_eq_zero.mp product)
  have found : (hashToCurve curve (publicKeyFromSeed curve seed) []).isSome := by
    have point : mulByCofactor ((LittleEndian.decode (List.replicate 32 1) : Nat) : Point) ≠ 0 := by
      rw [mulByCofactor,nsmul_eq_mul]
      exact fun zero => digest_ne_zero (eight_mul_eq_zero.mp zero)
    rw [hashToCurve,List.findSome?_isSome_iff]
    refine ⟨0,by decide,?_⟩
    simp only [candidate,decompress_digest,if_neg point,Option.isSome_some]
  exact ⟨key,found,proofs_verify seed [] key found⟩

end Sample

end L1.Ecvrf
