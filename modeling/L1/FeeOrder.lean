import Mathlib.Algebra.Order.Field.Basic
import Mathlib.Algebra.Order.Field.Rat
import L1.Limits
import L1.Readiness

/-! The order of fees. Priorities are scaled and truncated without loss, and saturate: a fee above
`2^64` counts as `2^64`. -/
namespace L1.Mempool

/-! Truncated quotients of scaled numbers. -/

/-- A scale above the product of the divisors keeps the order of the fractions. -/
theorem scaled_lt_iff {a b g h scale : Nat} (gpos : 0 < g) (hpos : 0 < h) (wide : g * h ≤ scale) :
    a * scale / g < b * scale / h ↔ a * h < b * g := by
  constructor
  · intro below
    by_contra above
    have whole := Nat.div_mul_le_self (b * scale) h
    have bound : b * scale / h ≤ a * scale / g := by
      rw [Nat.le_div_iff_mul_le gpos]
      apply Nat.le_of_mul_le_mul_right _ hpos
      calc b * scale / h * g * h = b * scale / h * h * g := by ring
        _ ≤ b * scale * g := Nat.mul_le_mul_right g whole
        _ = b * g * scale := by ring
        _ ≤ a * h * scale := Nat.mul_le_mul_right scale (Nat.le_of_not_lt above)
        _ = a * scale * h := by ring
    omega
  · intro below
    have whole := Nat.div_mul_le_self (a * scale) g
    have bound : a * scale / g + 1 ≤ b * scale / h := by
      rw [Nat.le_div_iff_mul_le hpos]
      apply Nat.le_of_mul_le_mul_right _ gpos
      calc (a * scale / g + 1) * h * g = a * scale / g * g * h + g * h := by ring
        _ ≤ a * scale * h + scale := Nat.add_le_add (Nat.mul_le_mul_right h whole) wide
        _ = (a * h + 1) * scale := by ring
        _ ≤ b * g * scale := Nat.mul_le_mul_right scale below
        _ = b * scale * g := by ring
    omega

variable {t u : SignedTx} {p : U128}

theorem gasOf_cases {signed : SignedTx} (priced : feePriority signed.tx = .ok p) :
    gasOf signed = 21000 ∨ gasOf signed = 50000 := by
  unfold feePriority at priced
  unfold gasOf
  cases met : gasMeter signed.tx with
  | error e => simp [met] at priced
  | ok gas =>
    obtain ⟨rfl,-,-⟩ := (gasMeter_ok_iff signed.tx gas).mp met
    cases signed.tx.payload with
    | transfer t => exact .inl rfl
    | stake s => exact .inl rfl
    | deploy d => exact .inr rfl
    | call c => exact .inl rfl

def exactFee (signed : SignedTx) : Nat := signed.tx.maxFee.toNat

def cappedFee (signed : SignedTx) : Nat := min signed.tx.maxFee.toNat (2^64)

/-- Neither gas divides `2^128`, so that the largest value and `2^128` have the same quotient. -/
theorem toNat_feePriority {signed : SignedTx} (priced : feePriority signed.tx = .ok p) :
    p.toNat = cappedFee signed * 2^64 / gasOf signed := by
  have cases := gasOf_cases priced
  unfold feePriority at priced
  unfold gasOf at cases ⊢
  cases met : gasMeter signed.tx with
  | error e => simp [met] at priced
  | ok gas =>
    simp only [met] at priced cases ⊢
    cases priced
    have scale : (BitVec.ofNat 128 (2^64)).toNat = 2^64 := rfl
    have divisor : (BitVec.ofNat 128 (max gas.toNat 1)).toNat = gas.toNat := by
      rw [BitVec.toNat_ofNat,Nat.mod_eq_of_lt (by omega)]
      omega
    rw [BitVec.toNat_udiv,toNat_saturatingMul,scale,divisor,cappedFee]
    by_cases small : signed.tx.maxFee.toNat < 2^64
    · rw [Nat.min_eq_left (a := signed.tx.maxFee.toNat) (by omega),Nat.min_eq_left (by omega)]
    · rw [Nat.min_eq_right (b := 2^64) (by omega),Nat.min_eq_right (by omega)]
      rcases cases with gas | gas
      · rw [gas]
        decide
      · rw [gas]
        decide

def rate (fee : SignedTx → Nat) (signed : SignedTx) : ℚ := fee signed / gasOf signed

theorem rate_lt_iff (fee : SignedTx → Nat) (tpos : 0 < gasOf t)
    (upos : 0 < gasOf u) : rate fee u < rate fee t ↔ fee u * gasOf t < fee t * gasOf u := by
  rw [rate,rate,div_lt_div_iff₀ (by exact_mod_cast upos) (by exact_mod_cast tpos)]
  exact_mod_cast Iff.rfl

/-- Priorities order transactions like the fractions of the fees that count. -/
theorem priority_lt_iff {q : U128} (tPriced : feePriority t.tx = .ok p)
    (uPriced : feePriority u.tx = .ok q) : q < p ↔ rate cappedFee u < rate cappedFee t := by
  have tGas := gasOf_cases tPriced
  have uGas := gasOf_cases uPriced
  rw [rate_lt_iff cappedFee (by omega) (by omega),BitVec.lt_def,toNat_feePriority tPriced,
    toNat_feePriority uPriced]
  apply scaled_lt_iff (by omega) (by omega)
  rcases tGas with tGas | tGas <;> rcases uGas with uGas | uGas <;> rw [tGas,uGas] <;> decide

def Ahead (fee : SignedTx → Nat) (addr : Address) (t : SignedTx) (other : Address) (u : SignedTx) :
    Prop :=
  rate fee u < rate fee t ∨ (rate fee u = rate fee t ∧ compare addr other = .lt)

theorem Ahead.asymm {fee : SignedTx → Nat} {addr other : Address}
    (first : Ahead fee addr t other u) : ¬ Ahead fee other u addr t := by
  rintro (below | ⟨same,before⟩)
  · rcases first with above | ⟨same,-⟩
    · exact lt_asymm above below
    · exact absurd below (by rw [same]; exact lt_irrefl _)
  · rcases first with above | ⟨-,before'⟩
    · exact absurd above (by rw [same]; exact lt_irrefl _)
    · rw [Std.OrientedOrd.eq_swap,before'] at before
      cases before

theorem Ahead.trans {fee : SignedTx → Nat} {a b c : Address} {v : SignedTx}
    (first : Ahead fee a t b u) (second : Ahead fee b u c v) : Ahead fee a t c v := by
  rcases first with below | ⟨same,before⟩
  · left
    rcases second with below' | ⟨same',-⟩
    · exact lt_trans below' below
    · exact same' ▸ below
  · rcases second with below' | ⟨same',before'⟩
    · exact .inl (same ▸ below')
    · exact .inr ⟨same'.trans same,Std.TransCmp.lt_trans before before'⟩

theorem Ahead.total {fee : SignedTx → Nat} {addr other : Address}
    (apart : other ≠ addr) (behind : ¬ Ahead fee other u addr t) : Ahead fee addr t other u := by
  rcases lt_trichotomy (rate fee u) (rate fee t) with below | same | above
  · exact .inl below
  · refine .inr ⟨same,?_⟩
    cases order : compare addr other with
    | lt => rfl
    | eq => exact absurd (Std.LawfulEqCmp.eq_of_compare order).symm apart
    | gt =>
      refine absurd (.inr ⟨same.symm,?_⟩) behind
      rw [Std.OrientedOrd.eq_swap,order]
      rfl
  · exact absurd (.inl above) behind

section Search

variable {pool : Mempool} {localNonce : Map Address Nonce} {skip : OrdSet (Address × Nonce)}

variable (pool localNonce skip) in
def Leads (fee : SignedTx → Nat) (addr : Address) (signed : SignedTx) : Prop :=
  ∀ other u, Candidate pool localNonce skip other u → other ≠ addr → Ahead fee addr signed other u

variable {addr : Address} {signed : SignedTx}

theorem leads_of_peek (found : pool.peekBestReady localNonce skip = some (addr,signed)) :
    Leads pool localNonce skip cappedFee addr signed := by
  obtain ⟨b,best,same⟩ := Option.map_eq_some_iff.mp found
  obtain ⟨p,found⟩ := b
  cases same
  obtain ⟨-,priced⟩ := peek_best.offered _ best
  intro other u candidate apart
  obtain ⟨q,uPriced⟩ := candidate.priced
  have unbeaten := peek_best.unbeaten _ best (q,other,u) ⟨candidate,uPriced⟩
  simp only [outbids,Bool.or_eq_false_iff,Bool.and_eq_false_iff,decide_eq_false_iff_not] at unbeaten
  obtain ⟨notAbove,tie⟩ := unbeaten
  rw [priority_lt_iff uPriced priced] at notAbove
  rcases (not_lt.mp notAbove).lt_or_eq with below | same
  · exact .inl below
  · refine .inr ⟨same,?_⟩
    -- the priorities are equal too, and then the address decides
    have equal : q = p := by
      have above : ¬ q < p := by
        rw [priority_lt_iff priced uPriced,same]
        exact lt_irrefl _
      have below : ¬ p < q := by
        rw [priority_lt_iff uPriced priced,same]
        exact lt_irrefl _
      exact BitVec.le_antisymm (BitVec.not_lt.mp below) (BitVec.not_lt.mp above)
    have notBefore := tie.resolve_left (not_not.mpr equal)
    cases order : compare addr other with
    | lt => rfl
    | eq => exact absurd (Std.LawfulEqCmp.eq_of_compare order).symm apart
    | gt =>
      rw [Std.OrientedOrd.eq_swap,order] at notBefore
      cases notBefore

open Classical in
/-- With a candidate there is one that leads: the same pass finds it, by the other measure. -/
theorem exists_leader (fee : SignedTx → Nat)
    (candidate : Candidate pool localNonce skip addr signed) :
    ∃ leader t, Candidate pool localNonce skip leader t ∧ Leads pool localNonce skip fee leader t := by
  let beats (x y : U128 × Address × SignedTx) : Bool := decide (Ahead fee x.2.1 x.2.2 y.2.1 y.2.2)
  have irrefl (x : U128 × Address × SignedTx) : beats x x = false :=
    decide_eq_false fun ahead => ahead.asymm ahead
  have trans (x y z : U128 × Address × SignedTx) (first : beats x y = true)
      (second : beats y z = true) : beats x z = true :=
    decide_eq_true ((of_decide_eq_true first).trans (of_decide_eq_true second))
  have best := (@Search.best_foldl _ _ beats (offer localNonce skip) irrefl trans
    pool.queued.toList).congr fun x => offered_iff
  obtain ⟨p,priced⟩ := candidate.priced
  cases found : pool.queued.toList.foldl (Search.scan beats (offer localNonce skip)) none with
  | none => exact absurd ⟨candidate,priced⟩ (best.found found (p,addr,signed))
  | some b =>
    refine ⟨b.2.1,b.2.2,(best.offered b found).1,fun other u ready apart => ?_⟩
    obtain ⟨q,uPriced⟩ := ready.priced
    have unbeaten := best.unbeaten b found (q,other,u) ⟨ready,uPriced⟩
    exact Ahead.total apart (of_decide_eq_false unbeaten)

theorem leader_unique {fee : SignedTx → Nat} {other : Address}
    (tReady : Candidate pool localNonce skip addr t) (uReady : Candidate pool localNonce skip other u)
    (tLeads : Leads pool localNonce skip fee addr t) (uLeads : Leads pool localNonce skip fee other u) :
    addr = other ∧ t = u := by
  have same : addr = other := by
    by_contra apart
    exact (tLeads other u uReady (Ne.symm apart)).asymm (uLeads addr t tReady apart)
  subst same
  exact ⟨rfl,Option.some.inj (tReady.ready.symm.trans uReady.ready)⟩

/-- Within the cap the fee that counts is the fee, and no other one counts for more. -/
theorem leads_capped (small : exactFee signed ≤ 2^64)
    (leads : Leads pool localNonce skip exactFee addr signed) :
    Leads pool localNonce skip cappedFee addr signed := by
  intro other u ready apart
  have same : rate cappedFee signed = rate exactFee signed := by
    have counts : cappedFee signed = exactFee signed := Nat.min_eq_left small
    rw [rate,rate,counts]
  have less : rate cappedFee u ≤ rate exactFee u := by
    unfold rate cappedFee exactFee
    apply div_le_div_of_nonneg_right _ (by positivity)
    exact_mod_cast Nat.min_le_left _ _
  rcases leads other u ready apart with below | ⟨equal,before⟩
  · left
    rw [same]
    exact lt_of_le_of_lt less below
  · rcases less.lt_or_eq with below | equal'
    · left
      rw [same,← equal]
      exact below
    · exact .inr ⟨by rw [same,← equal,equal'],before⟩

end Search

/-- The search returns exactly the candidate with the highest fee for its gas, unless that one pays
more than `2^64` and does not lead when fees count up to `2^64` only. -/
theorem fee_order_iff (pool : Mempool) (localNonce : Map Address Nonce)
    (skip : OrdSet (Address × Nonce)) :
    (∀ addr signed, pool.peekBestReady localNonce skip = some (addr,signed) ↔
      Candidate pool localNonce skip addr signed ∧ Leads pool localNonce skip exactFee addr signed) ↔
    ∀ addr signed, Candidate pool localNonce skip addr signed → 2^64 < exactFee signed →
      Leads pool localNonce skip exactFee addr signed →
      Leads pool localNonce skip cappedFee addr signed := by
  constructor
  · intro ordered addr signed candidate _ leads
    exact leads_of_peek ((ordered addr signed).mpr ⟨candidate,leads⟩)
  · intro met
    have capped (addr : Address) (signed : SignedTx)
        (candidate : Candidate pool localNonce skip addr signed)
        (leads : Leads pool localNonce skip exactFee addr signed) :
        Leads pool localNonce skip cappedFee addr signed := by
      by_cases large : 2^64 < exactFee signed
      · exact met addr signed candidate large leads
      · exact leads_capped (Nat.le_of_not_lt large) leads
    intro addr signed
    constructor
    · intro found
      have candidate := candidate_of_peek found
      obtain ⟨leader,t,ready,leads⟩ := exists_leader exactFee candidate
      obtain ⟨rfl,rfl⟩ := leader_unique candidate ready (leads_of_peek found)
        (capped leader t ready leads)
      exact ⟨candidate,leads⟩
    · rintro ⟨candidate,leads⟩
      obtain ⟨⟨other,u⟩,found⟩ := peek_of_candidate candidate
      obtain ⟨rfl,rfl⟩ := leader_unique candidate (candidate_of_peek found)
        (capped addr signed candidate leads) (leads_of_peek found)
      exact found

namespace Sample

attribute [local instance] LoneSigner.blake3 Holdings.Sample.ed25519

def rich : Account := ⟨BitVec.ofNat 128 (2^70),0,zeroHash⟩

def bid (tag : UInt8) (maxFee : Nat) : SignedTx :=
  ⟨⟨1,0,Spec.gasTransfer,BitVec.ofNat 128 maxFee,.transfer ⟨zeroHash,10⟩⟩,Vector.replicate 64 0,
    Vector.replicate 32 tag⟩

def auction : Mempool :=
  Runs.run next (withLimits 1 10 10000) [.wire (bid 0 (2^64)) rich,.wire (bid 1 (2^65)) rich]

/-- The lower bid goes first, for its address. -/
theorem lower_bid_first :
    auction.peekBestReady ∅ ∅ = some (fromEd25519 (bid 0 (2^64)).publicKey,bid 0 (2^64)) ∧
      Candidate auction ∅ ∅ (fromEd25519 (bid 1 (2^65)).publicKey) (bid 1 (2^65)) ∧
      rate exactFee (bid 0 (2^64)) < rate exactFee (bid 1 (2^65)) := by
  refine ⟨by decide +kernel,⟨by decide +kernel,by simp,_,rfl⟩,?_⟩
  rw [rate_lt_iff exactFee (by decide +kernel) (by decide +kernel)]
  decide +kernel

end Sample
end L1.Mempool
