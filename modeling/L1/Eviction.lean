import L1.Replacement

/-! What a rejected transaction costs others. Room is made by evicting the lowest priorities one at
a time, and what was evicted before the search gives up stays evicted. -/
namespace L1.Mempool

def cheap (incP : U128) (signed : SignedTx) : Bool :=
  match feePriority signed.tx with
  | .error _ => false
  | .ok p => decide (p < incP)

/-- A measure of the transactions that may not be evicted. -/
def spared (incP : U128) (w : SignedTx → Nat) (signed : SignedTx) : Nat :=
  if cheap incP signed then 0 else w signed

variable {incP : U128} {pool : Mempool} {incBytes : Nat}

theorem cheap_of_lt {p : U128} {signed : SignedTx} (priced : feePriority signed.tx = .ok p)
    (below : p < incP) : cheap incP signed = true := by
  simp only [cheap,priced]
  exact decide_eq_true below

/-- A pool from which only cheap transactions are gone. -/
structure Evicted (incP : U128) (pool after : Mempool) : Prop where
  maxTxs : after.maxTxs = pool.maxTxs
  maxBytes : after.maxBytes = pool.maxBytes
  accountNonce : after.accountNonce = pool.accountNonce
  stays (addr : Address) (n : Nonce) (signed : SignedTx) : (pool.queue addr)[n]? = some signed →
    cheap incP signed = false → (after.queue addr)[n]? = some signed
  weight (w : SignedTx → Nat) : after.weight (spared incP w) = pool.weight (spared incP w)

theorem Evicted.refl (incP : U128) (pool : Mempool) : Evicted incP pool pool :=
  ⟨rfl,rfl,rfl,fun _ _ _ held _ => held,fun _ => rfl⟩

theorem Evicted.trans {a b c : Mempool} (first : Evicted incP a b)
    (second : Evicted incP b c) : Evicted incP a c where
  maxTxs := second.maxTxs.trans first.maxTxs
  maxBytes := second.maxBytes.trans first.maxBytes
  accountNonce := second.accountNonce.trans first.accountNonce
  stays addr n signed held dear := second.stays addr n signed (first.stays addr n signed held dear) dear
  weight w := (second.weight w).trans (first.weight w)

theorem evicted_remove {addr : Address} {nonce : Nonce}
    {signed : SignedTx} (held : (pool.queue addr)[nonce]? = some signed)
    (low : cheap incP signed = true) : Evicted incP pool (pool.remove addr nonce) where
  maxTxs := rfl
  maxBytes := rfl
  accountNonce := rfl
  stays other n tx found dear := by
    rw [get?_remove,if_neg]
    · exact found
    · rintro ⟨rfl,rfl⟩
      rw [held] at found
      obtain rfl := Option.some.inj found
      rw [low] at dear
      cases dear
  weight w := by
    have removed := weight_remove (spared incP w) pool addr nonce
    rw [weightAt,held,Option.elim_some,spared,if_pos low] at removed
    exact removed

def HasRoom (pool : Mempool) (incBytes : Nat) : Prop :=
  pool.txCount < pool.maxTxs ∧ pool.byteSize + incBytes ≤ pool.maxBytes

theorem evicted_makeRoom (incBytes : Nat) (incP : U128) (turns : Nat) (pool : Mempool) :
    Evicted incP pool (makeRoom incBytes incP turns pool).2 := by
  induction turns generalizing pool with
  | zero => exact .refl incP pool
  | succ turns ih =>
    rw [makeRoom]
    split
    · exact .refl incP pool
    split
    · exact .refl incP pool
    rename_i addr nonce lowP found
    split
    · exact .refl incP pool
    · rename_i above
      obtain ⟨⟨signed,held,priced⟩,-⟩ := lowestPriority_some found
      exact (evicted_remove held (cheap_of_lt priced (BitVec.not_le.mp above))).trans (ih _)

/-- The search gives up only when all cheap transactions are gone. -/
theorem makeRoom_error {turns : Nat} {e : VerifyError}
    (enough : pool.txCount < turns) (gaveUp : (makeRoom incBytes incP turns pool).1 = .error e) :
    (∀ signed, (makeRoom incBytes incP turns pool).2.Holds signed → cheap incP signed = false) ∧
      ¬ (makeRoom incBytes incP turns pool).2.HasRoom incBytes := by
  induction turns generalizing pool with
  | zero => omega
  | succ turns ih =>
    rw [makeRoom] at gaveUp ⊢
    split at gaveUp
    · cases gaveUp
    rename_i crowded
    rw [if_neg crowded]
    cases found : pool.lowestPriority with
    | none =>
      refine ⟨?_,crowded⟩
      rintro signed ⟨addr,n,held⟩
      unfold cheap
      split
      · rfl
      · rename_i p priced
        exact absurd priced (lowestPriority_none found held)
    | some low =>
      obtain ⟨addr,nonce,lowP⟩ := low
      simp only [found] at gaveUp ⊢
      obtain ⟨⟨lowest,place,-⟩,least⟩ := lowestPriority_some found
      split at gaveUp
      · rename_i low
        rw [if_pos low]
        refine ⟨?_,crowded⟩
        rintro signed ⟨other,n,held⟩
        unfold cheap
        split
        · rfl
        · rename_i p priced
          exact decide_eq_false (BitVec.not_lt.mpr (BitVec.le_trans low (least other n signed p held priced)))
      · rename_i above
        rw [if_neg above]
        have fewer := txCount_remove place
        exact ih (by omega) gaveUp

def DearFit (incP : U128) (pool : Mempool) (incBytes : Nat) : Prop :=
  pool.weight (spared incP fun _ => 1) < pool.maxTxs ∧
    pool.weight (spared incP fun s => s.tx.encode.length) + incBytes ≤ pool.maxBytes

theorem spared_le (incP : U128) (w : SignedTx → Nat) (signed : SignedTx) :
    spared incP w signed ≤ w signed := by
  unfold spared
  split
  · exact Nat.zero_le _
  · exact le_rfl

theorem DearFit.of_room (room : pool.HasRoom incBytes) : DearFit incP pool incBytes := by
  obtain ⟨count,bytes⟩ := room
  have fewer := weight_mono pool (spared_le incP fun _ => 1)
  have smaller := weight_mono pool (spared_le incP fun s => s.tx.encode.length)
  rw [← txCount_eq] at fewer
  rw [← byteSize_eq] at smaller
  exact ⟨by omega,by omega⟩

theorem room_of_dearFit (dear : ∀ signed, pool.Holds signed → cheap incP signed = false)
    (fit : DearFit incP pool incBytes) : pool.HasRoom incBytes := by
  have all (w : SignedTx → Nat) : pool.weight (spared incP w) = pool.weight w :=
    weight_congr fun signed held => by rw [spared,dear signed held,if_neg (by decide)]
  unfold DearFit at fit
  rw [all,all,← txCount_eq,← byteSize_eq] at fit
  exact fit

theorem Evicted.dearFit_iff {after : Mempool} (evicted : Evicted incP pool after)
    (incBytes : Nat) : DearFit incP after incBytes ↔ DearFit incP pool incBytes := by
  unfold DearFit
  rw [evicted.weight,evicted.weight,evicted.maxTxs,evicted.maxBytes]

/-- Room is found exactly if there is room beside the transactions that are not cheap. -/
theorem makeRoom_ok_iff {turns : Nat} (enough : pool.txCount < turns) :
    (makeRoom incBytes incP turns pool).1 = .ok () ↔ DearFit incP pool incBytes := by
  have evicted := evicted_makeRoom incBytes incP turns pool
  rw [← evicted.dearFit_iff]
  cases result : (makeRoom incBytes incP turns pool).1 with
  | ok _ => exact iff_of_true rfl (.of_room (makeRoom_ok (Prod.ext result rfl)))
  | error e =>
    obtain ⟨dear,crowded⟩ := makeRoom_error enough result
    refine iff_of_false (by simp) fun fit => crowded (room_of_dearFit dear fit)

section Insert

variable [Ed25519] [Blake3]

/-- If room has to be made, either nothing is cheap, or evicting all that is cheap makes room. -/
def Spares (pool : Mempool) (signed : SignedTx) (account : Account) : Prop :=
  pool.Passes signed account →
    ((pool.seen signed account).queue (fromEd25519 signed.publicKey))[signed.tx.nonce]? = none →
    ∀ incP, feePriority signed.tx = .ok incP →
      (∃ old, (pool.seen signed account).Holds old ∧ cheap incP old = true) →
      DearFit incP (pool.seen signed account) signed.tx.encode.length

omit [Ed25519] in
theorem recorded_seen (pool : Mempool) (signed : SignedTx) (account : Account) :
    ((pool.seen signed account).accountNonce[fromEd25519 signed.publicKey]?).getD 0 =
      account.nonce := by
  rw [seen,observeAccount,Map.get?_insert,if_pos rfl,Option.getD_some]

omit [Ed25519] in
theorem get?_seen_or (pool : Mempool) (signed : SignedTx) (account : Account) (addr : Address)
    (n : Nonce) : ((pool.seen signed account).queue addr)[n]? = (pool.queue addr)[n]? ∨
      (addr = fromEd25519 signed.publicKey ∧ n < account.nonce) := by
  rw [seen,get?_observeAccount]
  by_cases stale : addr = fromEd25519 signed.publicKey ∧ n < account.nonce
  · exact .inr stale
  · exact .inl (if_neg stale)

theorem insert_of_full {room : Mempool} {signed : SignedTx} {account : Account} {e : VerifyError}
    (passes : pool.Passes signed account)
    (absent : ((pool.seen signed account).queue (fromEd25519 signed.publicKey))[signed.tx.nonce]? = none)
    (made : (pool.seen signed account).ensureRoom signed = (.error e,room)) :
    pool.insert signed account = (.error e,room) := by
  have done := insertion pool signed account
  generalize pool.insert signed account = result at done ⊢
  cases done with
  | barred e' fails => exact absurd passes fails
  | underbid e' old _ held refused =>
    rw [absent] at held
    cases held
  | outbid old _ held allowed =>
    rw [absent] at held
    cases held
  | full e' room' _ _ made' => exact made'.symm.trans made
  | added room' _ _ made' =>
    rw [made] at made'
    cases made'

omit [Ed25519] [Blake3] in
theorem ensureRoom_eq {signed : SignedTx} (priced : feePriority signed.tx = .ok incP) :
    pool.ensureRoom signed = makeRoom signed.tx.encode.length incP (pool.txCount + 1) pool := by
  simp only [ensureRoom,priorityOf_ok_iff.mpr priced]

/-- A rejection costs nobody a place exactly if room, where it has to be made, is made for good. -/
theorem rejected_insert_iff (pool : Mempool) (signed : SignedTx) (account : Account) :
    (∀ e after, pool.insert signed account = (.error e,after) →
      ∀ (addr : Address) (n : Nonce) (old : SignedTx), (pool.queue addr)[n]? = some old →
        (after.queue addr)[n]? = some old ∨
          (addr = fromEd25519 signed.publicKey ∧ n < (after.accountNonce[addr]?).getD 0)) ↔
      pool.Spares signed account := by
  have recorded := recorded_seen pool signed account
  constructor
  · rintro harmless passes absent incP priced ⟨old,⟨addr,n,held⟩,low⟩
    by_contra unfit
    have enough : (pool.seen signed account).txCount < (pool.seen signed account).txCount + 1 := by omega
    have evicted := evicted_makeRoom signed.tx.encode.length incP
      ((pool.seen signed account).txCount + 1) (pool.seen signed account)
    cases result : (makeRoom signed.tx.encode.length incP ((pool.seen signed account).txCount + 1)
        (pool.seen signed account)).1 with
    | ok _ => exact unfit ((makeRoom_ok_iff enough).mp result)
    | error e =>
      obtain ⟨dear,-⟩ := makeRoom_error enough result
      have rejected := insert_of_full passes absent ((ensureRoom_eq priced).trans (Prod.ext result rfl))
      have before := below_observeAccount pool _ _ addr n old held
      rcases harmless e _ rejected addr n old before with kept | ⟨rfl,stale⟩
      · rw [dear old ⟨addr,n,kept⟩] at low
        cases low
      · -- a stale one would have gone before
        rw [evicted.accountNonce,recorded] at stale
        rw [seen,get?_observeAccount,if_pos ⟨rfl,stale⟩] at held
        cases held
  · intro spares e after inserted addr n old held
    have done := insertion pool signed account
    rw [inserted] at done
    have split := get?_seen_or pool signed account addr n
    cases done with
    | barred _ fails => exact .inl held
    | underbid _ old' passes place refused =>
      rcases split with kept | ⟨rfl,stale⟩
      · exact .inl (kept.trans held)
      · exact .inr ⟨rfl,recorded.symm ▸ stale⟩
    | full _ _ passes absent made =>
      obtain ⟨gas,metered⟩ := passes.admissible.metered
      obtain ⟨incP,priced⟩ := feePriority_ok metered
      rw [ensureRoom_eq priced] at made
      have evicted := evicted_makeRoom signed.tx.encode.length incP
        ((pool.seen signed account).txCount + 1) (pool.seen signed account)
      rw [made] at evicted
      rcases split with kept | ⟨rfl,stale⟩
      · rw [held] at kept
        cases low : cheap incP old with
        | false => exact .inl (evicted.stays addr n old kept low)
        | true =>
          have fit := spares passes absent incP priced ⟨old,⟨addr,n,kept⟩,low⟩
          rw [← makeRoom_ok_iff (Nat.lt_succ_self _),made] at fit
          cases fit
      · refine .inr ⟨rfl,?_⟩
        rw [evicted.accountNonce,recorded]
        exact stale

end Insert

namespace Sample

attribute [local instance] LoneSigner.blake3 Holdings.Sample.ed25519

def tight : Mempool :=
  Runs.run next (withLimits 1 10 200) [.insert (payment 0 1) payer,.insert (payment 1 50) payer]

def deployment : SignedTx :=
  ⟨⟨1,2,Spec.gasDeploy,10,.deploy ⟨List.replicate 100 0⟩⟩,Vector.replicate 64 0,zeroHash⟩

/-- The deployment is rejected, and the first payment is gone. -/
theorem rejected_insert_evicts :
    (tight.queue (fromEd25519 zeroHash))[(0 : Nonce)]? = some (payment 0 1) ∧
      (tight.insert deployment payer).1 = .error .mempoolFull ∧
      ((tight.insert deployment payer).2.queue (fromEd25519 zeroHash))[(0 : Nonce)]? = none ∧
      ((tight.insert deployment payer).2.accountNonce[fromEd25519 zeroHash]?).getD 0 = 0 := by
  decide +kernel

end Sample
end L1.Mempool
