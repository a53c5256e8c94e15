import L1.Encoding
import Mathlib.Algebra.Algebra.Bilinear
import Mathlib.Algebra.BigOperators.Ring.Finset
import Mathlib.Algebra.Field.ZMod
import Mathlib.Algebra.Module.Torsion.Field
import Mathlib.Tactic.LinearCombination

/-! KZG commitments to polynomials. The curve of the library is a parameter: two groups with scalars in
a field, and a pairing of them. -/
namespace L1.Kzg

section Polynomials

variable {Fr : Type} [Field Fr]

/-- Horner from the highest coefficient. -/
def evalPoly (coeffs : List Fr) (z : Fr) : Fr := coeffs.reverse.foldl (fun acc c => acc * z + c) 0

/-- The loop from the highest coefficient down: each entry is a coefficient and `z` times the entry
above it. -/
def quotientFrom (z : Fr) : List Fr → List Fr
  | [] => []
  | c :: rest => match quotientFrom z rest with
    | [] => [c]
    | q :: above => (c + z * q) :: q :: above

def quotient (p : List Fr) (z : Fr) : List Fr := quotientFrom z p.tail

@[simp] theorem evalPoly_nil (z : Fr) : evalPoly [] z = 0 := rfl

@[simp] theorem evalPoly_cons (c : Fr) (rest : List Fr) (z : Fr) :
    evalPoly (c :: rest) z = evalPoly rest z * z + c := by
  simp [evalPoly]

theorem evalPoly_eq_sum (coeffs : List Fr) (z : Fr) :
    evalPoly coeffs z = ∑ i ∈ Finset.range coeffs.length, coeffs.getD i 0 * z^i := by
  induction coeffs with
  | nil => rfl
  | cons c rest ih =>
    rw [evalPoly_cons,ih,List.length_cons,Finset.sum_range_succ',Finset.sum_mul]
    congr 1
    · exact Finset.sum_congr rfl fun i _ => by rw [List.getD_cons_succ,pow_succ,mul_assoc]
    · rw [List.getD_cons_zero,pow_zero,mul_one]

theorem head_quotientFrom (z : Fr) (coeffs : List Fr) :
    (quotientFrom z coeffs).headD 0 = evalPoly coeffs z := by
  induction coeffs with
  | nil => rfl
  | cons c rest ih =>
    rw [quotientFrom,evalPoly_cons,← ih]
    split
    · rename_i none
      simp [none]
    · rename_i q above some
      rw [some,List.headD_cons,List.headD_cons]
      ring

theorem quotientFrom_cons (z c : Fr) (rest : List Fr) :
    quotientFrom z (c :: rest) = (c + z * evalPoly rest z) :: quotientFrom z rest := by
  rw [quotientFrom,← head_quotientFrom z rest]
  split
  · rename_i none
    simp [none]
  · rename_i q above some
    rw [some,List.headD_cons]

@[simp] theorem length_quotientFrom (z : Fr) (coeffs : List Fr) :
    (quotientFrom z coeffs).length = coeffs.length := by
  induction coeffs with
  | nil => rfl
  | cons c rest ih => rw [quotientFrom_cons,List.length_cons,List.length_cons,ih]

theorem evalPoly_quotientFrom (z x c : Fr) (rest : List Fr) :
    evalPoly (c :: rest) x - evalPoly (c :: rest) z = (x - z) * evalPoly (quotientFrom z rest) x := by
  induction rest generalizing c with
  | nil => simp [quotientFrom]
  | cons d rest ih =>
    have inner := ih d
    rw [quotientFrom_cons]
    simp only [evalPoly_cons] at inner ⊢
    linear_combination x * inner

/-- Division by `x - z` leaves the value at `z`. -/
theorem evalPoly_quotient (p : List Fr) (z x : Fr) :
    evalPoly p x - evalPoly p z = (x - z) * evalPoly (quotient p z) x := by
  cases p with
  | nil => simp [quotient,quotientFrom]
  | cons c rest => exact evalPoly_quotientFrom z x c rest

end Polynomials

/-- The curve library: the groups with their generators, the pairing and the encodings of points. The
pairing does not vanish on the generators, and points read back from their bytes. -/
structure PairingCurve (Fr G1 G2 GT : Type) [Field Fr] [AddCommGroup G1] [Module Fr G1]
    [AddCommGroup G2] [Module Fr G2] [AddCommGroup GT] [Module Fr GT] where
  g1 : G1
  g2 : G2
  pairing : G1 →ₗ[Fr] G2 →ₗ[Fr] GT
  serializeG1 : G1 → Bytes
  deserializeG1 : Bytes → Option G1
  serializeG2 : G2 → Bytes
  deserializeG2 : Bytes → Option G2
  fromLeBytesModOrder : Bytes → Fr
  nondegenerate : pairing g1 g2 ≠ 0
  g1_reads : ∀ p, deserializeG1 (serializeG1 p) = some p
  g2_reads : ∀ p, deserializeG2 (serializeG2 p) = some p

inductive KzgError where
  | degree | tooLong | point
  deriving DecidableEq, Repr

structure KzgSetup where
  degree : Nat
  g1Powers : List Bytes
  g2Tau : Bytes

structure KzgCommitment where
  bytes : Bytes

structure KzgOpening (Fr : Type) where
  z : Fr
  y : Fr
  proof : Bytes

section Scheme

variable {Fr G1 G2 GT : Type} [Field Fr] [DecidableEq Fr] [AddCommGroup G1] [Module Fr G1]
  [AddCommGroup G2] [Module Fr G2] [AddCommGroup GT] [Module Fr GT] [DecidableEq GT]
  (curve : PairingCurve Fr G1 G2 GT)

/-- The loop of `setup` from an accumulator on. -/
def powersFrom (tau : Fr) : Nat → Fr → List Bytes
  | 0, _ => []
  | n + 1, acc => curve.serializeG1 (acc • curve.g1) :: powersFrom tau n (acc * tau)

def setupFrom (degree : Nat) (tau : Fr) : Except KzgError KzgSetup :=
  if degree < 1 then .error .degree
  else .ok ⟨degree,powersFrom curve tau (degree + 1) 1,curve.serializeG2 (tau • curve.g2)⟩

/-- Toy parameters: the secret is a hash of the seed. -/
def setup [Blake3] (degree : Nat) (seed : Bytes) : Except KzgError KzgSetup :=
  setupFrom curve degree (curve.fromLeBytesModOrder (hashToArray seed).toList)

def g1FromBytes (bytes : Bytes) : Except KzgError G1 :=
  match curve.deserializeG1 bytes with
  | none => .error .point
  | some p => .ok p

def g2FromBytes (bytes : Bytes) : Except KzgError G2 :=
  match curve.deserializeG2 bytes with
  | none => .error .point
  | some p => .ok p

/-- The loop of `msm`: the point beside a zero coefficient is not read. -/
def msmLoop (acc : G1) : List (Fr × Bytes) → Except KzgError G1
  | [] => .ok acc
  | (c,bytes) :: rest =>
    if c = 0 then msmLoop acc rest
    else match g1FromBytes curve bytes with
      | .error e => .error e
      | .ok g => msmLoop (acc + c • g) rest

def msm (setup : KzgSetup) (coeffs : List Fr) : Except KzgError G1 :=
  if setup.g1Powers.length < coeffs.length then .error .tooLong
  else msmLoop curve 0 (coeffs.zip setup.g1Powers)

def commit (setup : KzgSetup) (coeffs : List Fr) : Except KzgError KzgCommitment :=
  match msm curve setup coeffs with
  | .error e => .error e
  | .ok c => .ok ⟨curve.serializeG1 c⟩

def openAt (setup : KzgSetup) (coeffs : List Fr) (z : Fr) : Except KzgError (KzgOpening Fr) :=
  match commit curve setup (quotient coeffs z) with
  | .error e => .error e
  | .ok proof => .ok ⟨z,evalPoly coeffs z,proof.bytes⟩

def verify (setup : KzgSetup) (commitment : KzgCommitment) (opening : KzgOpening Fr) :
    Except KzgError Bool := do
  let c ← g1FromBytes curve commitment.bytes
  let pi ← g1FromBytes curve opening.proof
  let tauG2 ← g2FromBytes curve setup.g2Tau
  let left := curve.pairing (c - opening.y • curve.g1) curve.g2
  let right := curve.pairing pi (tauG2 - opening.z • curve.g2)
  return left = right

omit [DecidableEq Fr] [DecidableEq GT]

@[simp] theorem length_powersFrom (tau : Fr) (n : Nat) (acc : Fr) :
    (powersFrom curve tau n acc).length = n := by
  induction n generalizing acc with
  | zero => rfl
  | succ n ih => rw [powersFrom,List.length_cons,ih]

@[simp] theorem g1FromBytes_serialize (p : G1) : g1FromBytes curve (curve.serializeG1 p) = .ok p := by
  rw [g1FromBytes,curve.g1_reads]

@[simp] theorem g2FromBytes_serialize (p : G2) : g2FromBytes curve (curve.serializeG2 p) = .ok p := by
  rw [g2FromBytes,curve.g2_reads]

variable {curve}

variable {tau : Fr} {srs : KzgSetup} {degree : Nat} {coeffs : List Fr}

theorem setupFrom_ok (made : setupFrom curve degree tau = .ok srs) :
    srs = ⟨degree,powersFrom curve tau (degree + 1) 1,curve.serializeG2 (tau • curve.g2)⟩ := by
  unfold setupFrom at made
  split at made
  · cases made
  · cases made
    rfl

variable [DecidableEq Fr]

/-- The loop adds the value of its coefficients at the secret, from the power it has reached. -/
theorem msmLoop_powers (tau : Fr) {n : Nat} (fits : coeffs.length ≤ n) (acc : G1)
    (power : Fr) : msmLoop curve acc (coeffs.zip (powersFrom curve tau n power)) =
      .ok (acc + (power * evalPoly coeffs tau) • curve.g1) := by
  induction coeffs generalizing n acc power with
  | nil => simp [msmLoop]
  | cons c rest ih =>
    cases n with
    | zero => simp at fits
    | succ n =>
      have shorter : rest.length ≤ n := by simpa using fits
      rw [powersFrom,List.zip_cons_cons,msmLoop,evalPoly_cons]
      split
      · rename_i zero
        rw [ih shorter,zero,add_zero,mul_assoc,mul_comm tau]
      · rw [g1FromBytes_serialize]
        dsimp only
        rw [ih shorter,add_assoc,smul_smul,← add_smul]
        congr 3
        ring

theorem commit_setup (made : setupFrom curve degree tau = .ok srs)
    (fits : coeffs.length ≤ degree + 1) :
    commit curve srs coeffs = .ok ⟨curve.serializeG1 (evalPoly coeffs tau • curve.g1)⟩ := by
  have short : ¬(powersFrom curve tau (degree + 1) 1).length < coeffs.length := by
    rw [length_powersFrom]
    omega
  rw [setupFrom_ok made,commit,msm,if_neg short,msmLoop_powers tau fits,zero_add,one_mul]

theorem openAt_setup (made : setupFrom curve degree tau = .ok srs)
    (fits : coeffs.length ≤ degree + 1) (z : Fr) : openAt curve srs coeffs z =
      .ok ⟨z,evalPoly coeffs z,curve.serializeG1 (evalPoly (quotient coeffs z) tau • curve.g1)⟩ := by
  have shorter : (quotient coeffs z).length ≤ degree + 1 := by
    rw [quotient,length_quotientFrom,List.length_tail]
    omega
  rw [openAt,commit_setup made shorter]

omit [DecidableEq Fr] in
/-- For multiples of the generator the two pairings agree exactly if the scalars satisfy the division. -/
theorem pairing_multiples (a q z y tau : Fr) :
    curve.pairing (a • curve.g1 - y • curve.g1) curve.g2 =
        curve.pairing (q • curve.g1) (tau • curve.g2 - z • curve.g2) ↔
      a - y = (tau - z) * q := by
  rw [← sub_smul,← sub_smul,map_smul,map_smul,map_smul,LinearMap.smul_apply,LinearMap.smul_apply,
    smul_smul]
  exact smul_left_inj curve.nondegenerate

theorem verify_multiples [DecidableEq GT]
    (secret : srs.g2Tau = curve.serializeG2 (tau • curve.g2)) (a q z y : Fr) :
    verify curve srs ⟨curve.serializeG1 (a • curve.g1)⟩ ⟨z,y,curve.serializeG1 (q • curve.g1)⟩ =
      .ok (decide (a - y = (tau - z) * q)) := by
  simp only [verify,secret,g1FromBytes_serialize,g2FromBytes_serialize,bind,Except.bind,pure,Except.pure,
    pairing_multiples]

/-- What is opened is the value of the polynomial, the proof of it is accepted because the division
leaves that value, and with the same proof no other value is accepted. -/
theorem openings_verify [DecidableEq GT] (degree : Nat) (tau : Fr) (srs : KzgSetup)
    (made : setupFrom curve degree tau = .ok srs) (coeffs : List Fr)
    (fits : coeffs.length ≤ srs.g1Powers.length) (z : Fr) :
    (∀ x, evalPoly coeffs x - evalPoly coeffs z = (x - z) * evalPoly (quotient coeffs z) x) ∧
    ∃ commitment opening, commit curve srs coeffs = .ok commitment ∧
      openAt curve srs coeffs z = .ok opening ∧ opening.z = z ∧
      opening.y = ∑ i ∈ Finset.range coeffs.length, coeffs.getD i 0 * z^i ∧
      verify curve srs commitment opening = .ok true ∧
      ∀ other, other ≠ opening.y →
        verify curve srs commitment { opening with y := other } = .ok false := by
  have secret : srs.g2Tau = curve.serializeG2 (tau • curve.g2) := by rw [setupFrom_ok made]
  have fits : coeffs.length ≤ degree + 1 := by simpa [setupFrom_ok made] using fits
  have identity := evalPoly_quotient coeffs z
  have equation := verify_multiples secret (evalPoly coeffs tau) (evalPoly (quotient coeffs z) tau) z
  refine ⟨identity,_,_,commit_setup made fits,openAt_setup made fits z,rfl,evalPoly_eq_sum coeffs z,?_,?_⟩
  · rw [equation,decide_eq_true (identity tau)]
  · intro other different
    rw [equation,decide_eq_false]
    intro accepted
    -- both values complete the same division
    exact different (sub_right_injective (accepted.trans (identity tau).symm))

end Scheme

namespace Sample

instance fivePrime : Fact (Nat.Prime 5) := ⟨by decide⟩

def curve : PairingCurve (ZMod 5) (ZMod 5) (ZMod 5) (ZMod 5) where
  g1 := 1
  g2 := 2
  pairing := LinearMap.mul (ZMod 5) (ZMod 5)
  serializeG1 p := [UInt8.ofNat p.val]
  deserializeG1 bytes := bytes.head?.map fun b => (b.toNat : ZMod 5)
  serializeG2 p := [UInt8.ofNat p.val]
  deserializeG2 bytes := bytes.head?.map fun b => (b.toNat : ZMod 5)
  fromLeBytesModOrder bytes := (bytes.headD 0).toNat
  nondegenerate := by decide
  g1_reads := by decide
  g2_reads := by decide

def srs : KzgSetup := ⟨2,powersFrom curve 3 3 1,curve.serializeG2 (3 • curve.g2)⟩

theorem quadratic_opens : setupFrom curve 2 3 = .ok srs ∧ [1,4,2].length ≤ srs.g1Powers.length ∧
    ∃ commitment opening, commit curve srs [1,4,2] = .ok commitment ∧
      openAt curve srs [1,4,2] 3 = .ok opening ∧ verify curve srs commitment opening = .ok true := by
  have made : setupFrom curve 2 3 = .ok srs := rfl
  obtain ⟨-,commitment,opening,committed,opened,-,-,accepted,-⟩ :=
    openings_verify 2 3 srs made [1,4,2] (by decide) 3
  exact ⟨made,by decide,commitment,opening,committed,opened,accepted⟩

end Sample

end L1.Kzg
