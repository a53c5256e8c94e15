import L1.FeeOrder

/-! Replacement by fee. One way into the pool asks for a tenth more; the other two write over
whatever has the sender and nonce. -/
namespace L1.Mempool

/-- The new priority is at least eleven tenths of the old one, or positive if the old one is zero. -/
def Bumped (old new : SignedTx) : Prop :=
  ∃ p q, feePriority old.tx = .ok p ∧ feePriority new.tx = .ok q ∧
    if p = 0 then 0 < q else 11 * p.toNat ≤ 10 * q.toNat

/-- A priority is far below the largest value, as the gas divides it. -/
theorem priority_small {signed : SignedTx} {p : U128} (priced : feePriority signed.tx = .ok p) :
    11 * p.toNat < 2^128 := by
  have gas := gasOf_cases priced
  have capped : cappedFee signed ≤ 2^64 := Nat.min_le_right _ _
  have bound : cappedFee signed * 2^64 / gasOf signed ≤ 2^64 * 2^64 / gasOf signed :=
    Nat.div_le_div_right (Nat.mul_le_mul_right _ capped)
  rw [toNat_feePriority priced]
  rcases gas with gas | gas
  · rw [gas] at bound ⊢
    omega
  · rw [gas] at bound ⊢
    omega

theorem priorityOf_ok_iff {tx : Tx} {p : U128} : priorityOf tx = .ok p ↔ feePriority tx = .ok p := by
  unfold priorityOf
  cases feePriority tx <;> simp

theorem rbfAllowed_ok_iff {old new : SignedTx} : rbfAllowed old new = .ok () ↔ Bumped old new := by
  unfold rbfAllowed Bumped
  cases oldPriced : priorityOf old.tx with
  | error e =>
    simp only [reduceCtorEq,false_iff,not_exists]
    rintro p q ⟨priced,-⟩
    rw [priorityOf_ok_iff.mpr priced] at oldPriced
    cases oldPriced
  | ok p => cases newPriced : priorityOf new.tx with
    | error e =>
      simp only [reduceCtorEq,false_iff,not_exists]
      rintro p q ⟨-,priced,-⟩
      rw [priorityOf_ok_iff.mpr priced] at newPriced
      cases newPriced
    | ok q =>
      have oldP := priorityOf_ok_iff.mp oldPriced
      have newP := priorityOf_ok_iff.mp newPriced
      have oldSmall := priority_small oldP
      have newSmall := priority_small newP
      have eleven : (11 : U128).toNat = 11 := rfl
      have ten : (10 : U128).toNat = 10 := rfl
      have products : saturatingMul p 11 ≤ saturatingMul q 10 ↔ 11 * p.toNat ≤ 10 * q.toNat := by
        rw [BitVec.le_def,toNat_saturatingMul,toNat_saturatingMul,eleven,ten]
        omega
      simp only [oldP,newP,Except.ok.injEq,existsAndEq,true_and]
      by_cases zero : p = 0
      · simp only [zero,if_true]
        by_cases positive : 0 < q
        · simp only [positive,if_true]
        · simp only [positive,if_false,reduceCtorEq]
      · simp only [zero,if_false,products]
        by_cases enough : 11 * p.toNat ≤ 10 * q.toNat
        · simp only [enough,if_true]
        · simp only [enough,if_false,reduceCtorEq]

section Calls

variable [Ed25519] [Blake3]

/-- A call writes over a queued transaction only by one that pays enough more. -/
def Replaces (pool : Mempool) (call : Call) : Prop :=
  ∀ (addr : Address) (nonce : Nonce) (old new : SignedTx), (pool.queue addr)[nonce]? = some old →
    ((pool.next call).queue addr)[nonce]? = some new → new ≠ old → Bumped old new

/-- The two ways without the check are given nothing that the check would stop. -/
def Heeds (pool : Mempool) : Call → Prop
  | .insert _ _ => True
  | .queueInsert signed account | .wire signed account => Admissible signed account →
    ∀ old, (pool.queue (fromEd25519 signed.publicKey))[signed.tx.nonce]? = some old → signed ≠ old →
      rbfAllowed old signed = .ok ()
  | .observe _ _ => True
  | .take _ _ => True

def Below (pool' pool : Mempool) : Prop :=
  ∀ (addr : Address) (nonce : Nonce) (signed : SignedTx), (pool'.queue addr)[nonce]? = some signed →
    (pool.queue addr)[nonce]? = some signed

omit [Ed25519] [Blake3] in
theorem below_observeAccount (pool : Mempool) (addr : Address) (nonce : Nonce) :
    Below (pool.observeAccount addr nonce) pool := by
  intro other n signed held
  rw [get?_observeAccount] at held
  split at held
  · cases held
  · exact held

omit [Ed25519] [Blake3] in
theorem below_takeLoop (maxGas : U64) (maxBytes : U32) (fuel : Nat) (pool : Mempool)
    (localNonce : Map Address Nonce) (skip : OrdSet (Address × Nonce)) (gas : U64) (bytes : U32) :
    Below (takeLoop maxGas maxBytes fuel pool localNonce skip gas bytes).2 pool := by
  refine takeLoop_rule (P := fun pool _ _ _ _ result => Below result.2 pool) ?_ ?_ ?_
    fuel pool localNonce skip gas bytes
  · exact fun _ _ _ _ _ _ _ _ held => held
  · exact fun _ _ _ _ _ _ _ rest => rest
  · intro pool _ _ _ _ addr first _ result _ _ _ rest other n signed held
    have before := rest other n signed held
    rw [get?_remove] at before
    split at before
    · cases before
    · exact before

theorem replaces_of_below {pool : Mempool} {call : Call} (below : Below (pool.next call) pool) :
    pool.Replaces call := by
  intro addr nonce old new held after apart
  have before := below addr nonce new after
  rw [held] at before
  exact absurd (Option.some.inj before).symm apart

/-- Where one transaction is put into a smaller pool, only its own place can be written over. -/
theorem replaces_admit_iff {pool room : Mempool} {call : Call} {signed : SignedTx} {addr : Address}
    (result : pool.next call = room.admitPreverified signed addr) (below : Below room pool) :
    pool.Replaces call ↔ ∀ old, (pool.queue addr)[signed.tx.nonce]? = some old → signed ≠ old →
      Bumped old signed := by
  constructor
  · intro replaces old held apart
    refine replaces addr signed.tx.nonce old signed held ?_ apart
    rw [result,get?_admitPreverified,if_pos ⟨rfl,rfl⟩]
  · intro bumped other n old new held after apart
    rw [result,get?_admitPreverified] at after
    split at after
    · rename_i here
      obtain ⟨rfl,rfl⟩ := here
      obtain rfl := Option.some.inj after
      exact bumped old held apart
    · have before := below other n new after
      rw [held] at before
      exact absurd (Option.some.inj before).symm apart

/-- The account does not pass the transaction it admits, so that one with its nonce stays. -/
theorem get?_seen {pool : Mempool} {signed : SignedTx} {account : Account}
    (passed : Admissible signed account) :
    ((pool.seen signed account).queue (fromEd25519 signed.publicKey))[signed.tx.nonce]? =
      (pool.queue (fromEd25519 signed.publicKey))[signed.tx.nonce]? := by
  have current := passed.current
  rw [seen,get?_observeAccount,if_neg]
  rintro ⟨-,stale⟩
  rw [BitVec.lt_def] at stale
  omega

theorem replaces_insert (pool : Mempool) (signed : SignedTx) (account : Account) :
    pool.Replaces (.insert signed account) := by
  have stays := below_observeAccount pool (fromEd25519 signed.publicKey) account.nonce
  have done := insertion pool signed account
  generalize outcome : pool.insert signed account = result at done
  have next : pool.next (.insert signed account) = result.2 := by rw [← outcome]; rfl
  cases done with
  | barred e fails =>
    apply replaces_of_below
    rw [next]
    exact fun _ _ _ held => held
  | underbid e old passes held refused =>
    apply replaces_of_below
    rw [next]
    exact stays
  | outbid old passes held allowed =>
    rw [replaces_admit_iff next stays]
    intro old' held' apart
    rw [get?_seen passes.admissible,held'] at held
    obtain rfl := Option.some.inj held
    exact rbfAllowed_ok_iff.mp allowed
  | full e room passes absent made =>
    apply replaces_of_below
    rw [next]
    intro addr nonce tx held
    have fewer := @get?_of_ensureRoom (pool.seen signed account) addr tx nonce signed
      (by rw [made]; exact held)
    exact stays addr nonce tx fewer
  | added room passes absent made =>
    have below : Below room pool := by
      intro addr nonce tx held
      have fewer := @get?_of_ensureRoom (pool.seen signed account) addr tx nonce signed
        (by rw [made]; exact held)
      exact stays addr nonce tx fewer
    rw [replaces_admit_iff next below]
    intro old held
    rw [get?_seen passes.admissible,held] at absent
    cases absent

theorem replaces_iff (pool : Mempool) (call : Call) : pool.Replaces call ↔ pool.Heeds call := by
  cases call with
  | insert signed account => exact iff_of_true (replaces_insert pool signed account) trivial
  | observe addr nonce =>
    exact iff_of_true (replaces_of_below (below_observeAccount pool addr nonce)) trivial
  | take maxGas maxBytes => exact iff_of_true (replaces_of_below (below_takeLoop _ _ _ _ _ _ _ _)) trivial
  | wire signed account =>
    rcases wireMempool_cases pool signed account with ⟨barred,e,result⟩ | ⟨passed,result⟩
    · refine iff_of_true (replaces_of_below ?_) fun passed => absurd passed barred
      simp only [next,result]
      exact fun _ _ _ held => held
    · have next : pool.next (.wire signed account) =
          pool.admitPreverified signed (fromEd25519 signed.publicKey) := by
        simp only [Mempool.next,result]
      rw [replaces_admit_iff next fun _ _ _ held => held]
      simp only [Heeds,passed,true_imp_iff,rbfAllowed_ok_iff]
  | queueInsert signed account =>
    rcases queueInsert_cases pool signed account with ⟨barred,e,result⟩ | ⟨passed,result⟩
    · refine iff_of_true (replaces_of_below ?_) fun passed => absurd passed barred
      simp only [next,result]
      exact fun _ _ _ held => held
    · have next : pool.next (.queueInsert signed account) =
          (pool.observeAccount (fromEd25519 signed.publicKey) account.nonce).admitPreverified signed
            (fromEd25519 signed.publicKey) := by
        simp only [Mempool.next,result]
      rw [replaces_admit_iff next (below_observeAccount _ _ _)]
      simp only [Heeds,passed,true_imp_iff,rbfAllowed_ok_iff]

/-- In every run, no transaction is written over by one that pays too little exactly if the ways
without the check are given none. -/
theorem replacement_iff (pool : Mempool) (calls : List Call) :
    (∀ done call, done ++ [call] <+: calls → ∀ (addr : Address) (nonce : Nonce) (old new : SignedTx),
      ((Runs.run next pool done).queue addr)[nonce]? = some old →
      ((Runs.run next pool (done ++ [call])).queue addr)[nonce]? = some new → new ≠ old →
      Bumped old new) ↔
    ∀ done call, done ++ [call] <+: calls → (Runs.run next pool done).Heeds call := by
  constructor
  · intro kept done call within
    rw [← replaces_iff]
    intro addr nonce old new held after
    refine kept done call within addr nonce old new held ?_
    rw [Runs.run_append_singleton]
    exact after
  · intro heeds done call within addr nonce old new held after
    rw [Runs.run_append_singleton] at after
    exact (replaces_iff _ call).mpr (heeds done call within) addr nonce old new held after

end Calls

namespace Sample

attribute [local instance] LoneSigner.blake3 Holdings.Sample.ed25519

def paid : Mempool := Runs.run next (withLimits 1 10 10000) [.wire (payment 0 10) payer]

/-- A payment without a fee takes the place of one with a fee, from gossip. -/
theorem gossip_underbids :
    (paid.queue (fromEd25519 zeroHash))[(0 : Nonce)]? = some (payment 0 10) ∧
      ((paid.next (.wire (payment 0 0) payer)).queue (fromEd25519 zeroHash))[(0 : Nonce)]? =
        some (payment 0 0) ∧
      feePriority (payment 0 0).tx = .ok 0 ∧ ¬ Bumped (payment 0 10) (payment 0 0) := by
  refine ⟨by decide +kernel,by decide +kernel,by decide +kernel,?_⟩
  rw [← rbfAllowed_ok_iff]
  decide +kernel

end Sample
end L1.Mempool
