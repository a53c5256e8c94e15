import L1.Builder
import L1.Conservation
import L1.NestedMap
import L1.Runs
import L1.Search

/-! The ways into and out of the pool, and its caps. Only one of the three ways in makes room, and
a replacement on that way does not count bytes. -/
namespace L1.Mempool

def byteSize (pool : Mempool) : Nat :=
  (pool.queued.toList.map fun e => (e.2.toList.map fun d => d.2.tx.encode.length).sum).sum

/-- Note the committed nonce of an account and drop what it has passed. -/
def observeAccount (pool : Mempool) (addr : Address) (nonce : Nonce) : Mempool where
  queued := match pool.queued[addr]? with
    | none => pool.queued
    | some queue => NestedMap.setInner pool.queued addr (queue.filter fun n _ => nonce ≤ n)
  accountNonce := pool.accountNonce.insert addr nonce
  minFee := pool.minFee
  maxTxs := pool.maxTxs
  maxBytes := pool.maxBytes
  keyed := by
    intro other found n signed listed held
    split at listed
    · exact pool.keyed other found n signed listed held
    · rename_i queue before
      have below : NestedMap.inner (NestedMap.setInner pool.queued addr
          (queue.filter fun n _ => decide (nonce ≤ n))) other = found := by
        rw [NestedMap.inner,listed]
        rfl
      rw [NestedMap.inner_setInner] at below
      split at below
      · subst below
        have kept := Std.ExtTreeMap.mem_toList_iff_getElem?_eq_some.mpr held
        rw [Std.ExtTreeMap.toList_filter] at kept
        exact pool.keyed addr queue n signed before
          (Std.ExtTreeMap.mem_toList_iff_getElem?_eq_some.mp (List.mem_filter.mp kept).1)
      · cases behind : pool.queued[other]? with
        | none =>
          rw [NestedMap.inner,behind] at below
          subst below
          simp at held
        | some q =>
          rw [NestedMap.inner,behind] at below
          subst below
          exact pool.keyed other q n signed behind held

/-- Reject an envelope above the size of the specification. -/
def checkTxBytes (signed : SignedTx) : Except VerifyError Unit :=
  if Spec.maxTxBytes.toNat < signed.tx.encode.length then .error .txTooLarge else .ok ()

def checkMinFee (tx : Tx) (minFee : U128) : Except VerifyError Unit :=
  if tx.maxFee < minFee then .error .minFee else .ok ()

def priorityOf (tx : Tx) : Except VerifyError U128 :=
  match feePriority tx with
  | .error e => .error (.ofReason e.reason)
  | .ok p => .ok p

/-- A replacement pays at least a tenth more for its gas. -/
def rbfAllowed (old new : SignedTx) : Except VerifyError Unit :=
  match priorityOf old.tx with
  | .error e => .error e
  | .ok oldP => match priorityOf new.tx with
    | .error e => .error e
    | .ok newP =>
      if oldP = 0 then if 0 < newP then .ok () else .error .rbfTooLow
      else if saturatingMul oldP 11 ≤ saturatingMul newP 10 then .ok () else .error .rbfTooLow

/-- Whether an entry ranks below the lowest one so far. -/
def underbids (low : Option (U128 × Address × Nonce)) (p : U128) (addr : Address) (n : Nonce) : Bool :=
  match low with
  | none => true
  | some (lp,la,ln) => decide (p < lp) || (decide (p = lp) && (compare (addr,n) (la,ln)).isLT)

def considerLow (low : Option (U128 × Address × Nonce)) (entry : Address × Nonce × SignedTx) :
    Option (U128 × Address × Nonce) :=
  match feePriority entry.2.2.tx with
  | .error _ => low
  | .ok p => if underbids low p entry.1 entry.2.1 then some (p,entry.1,entry.2.1) else low

def lowestPriority (pool : Mempool) : Option (Address × Nonce × U128) :=
  ((NestedMap.entries pool.queued).foldl considerLow none).map fun low => (low.2.1,low.2.2,low.1)

/-- Evict until the incoming transaction fits. Each turn evicts one, so one turn more than there are
transactions is enough; what was evicted before an error stays evicted. -/
def makeRoom (incBytes : Nat) (incP : U128) : Nat → Mempool → Except VerifyError Unit × Mempool
  | 0, pool => (.error .mempoolFull,pool)
  | turns + 1, pool =>
    if pool.txCount < pool.maxTxs ∧ pool.byteSize + incBytes ≤ pool.maxBytes then (.ok (),pool)
    else match pool.lowestPriority with
      | none => (.error .mempoolFull,pool)
      | some (addr,nonce,lowP) =>
        if incP ≤ lowP then (.error .mempoolFull,pool)
        else makeRoom incBytes incP turns (pool.remove addr nonce)

def ensureRoom (pool : Mempool) (incoming : SignedTx) : Except VerifyError Unit × Mempool :=
  match priorityOf incoming.tx with
  | .error e => (.error e,pool)
  | .ok incP => makeRoom incoming.tx.encode.length incP (pool.txCount + 1) pool

section Ways

variable [Ed25519] [Blake3]

def insert (pool : Mempool) (signed : SignedTx) (account : Account) :
    Except VerifyError Unit × Mempool :=
  match checkTxBytes signed with
  | .error e => (.error e,pool)
  | .ok () => match checkMinFee signed.tx pool.minFee with
    | .error e => (.error e,pool)
    | .ok () => match verify signed account with
      | .error e => (.error e,pool)
      | .ok () => match senderAddress signed with
        | .error e => (.error e,pool)
        | .ok addr =>
          let pool := pool.observeAccount addr account.nonce
          match (pool.queue addr)[signed.tx.nonce]? with
          | some old => match rbfAllowed old signed with
            | .error e => (.error e,pool)
            | .ok () => (.ok (),pool.admitPreverified signed addr)
          | none => match pool.ensureRoom signed with
            | (.error e,pool) => (.error e,pool)
            | (.ok (),pool) => (.ok (),pool.admitPreverified signed addr)

/-- Insert after verification alone. -/
def queueInsert (pool : Mempool) (signed : SignedTx) (account : Account) :
    Except VerifyError (Address × Mempool) :=
  match verify signed account with
  | .error e => .error e
  | .ok () => match senderAddress signed with
    | .error e => .error e
    | .ok addr => .ok (addr,(pool.observeAccount addr account.nonce).admitPreverified signed addr)

end Ways

/-! How much the pool holds. -/

def weight (w : SignedTx → Nat) (pool : Mempool) : Nat := NestedMap.total w pool.queued

theorem txCount_eq (pool : Mempool) : pool.txCount = pool.weight fun _ => 1 := by
  have size (q : Map Nonce SignedTx) : q.size = Map.total (fun _ _ => 1) q := by
    rw [← Std.ExtTreeMap.length_toList,Map.total,List.map_const',List.sum_replicate,smul_eq_mul,mul_one]
  simp only [txCount,weight,NestedMap.total,size]
  rfl

theorem byteSize_eq (pool : Mempool) : pool.byteSize = pool.weight fun s => s.tx.encode.length := rfl

theorem queued_remove (pool : Mempool) (addr : Address) (nonce : Nonce) :
    (pool.remove addr nonce).queued =
      NestedMap.setInner pool.queued addr ((pool.queue addr).erase nonce) := by
  unfold remove queue
  dsimp only
  cases below : pool.queued[addr]? with
  | none =>
    rw [Option.getD_none,Map.erase_absent (∅ : Map Nonce SignedTx) nonce (by simp),NestedMap.setInner,
      if_pos (by simp),Map.erase_absent _ _ below]
  | some q => rfl

theorem queued_observeAccount (pool : Mempool) (addr : Address) (nonce : Nonce) :
    (pool.observeAccount addr nonce).queued =
      NestedMap.setInner pool.queued addr ((pool.queue addr).filter fun n _ => nonce ≤ n) := by
  unfold observeAccount queue
  dsimp only
  cases below : pool.queued[addr]? with
  | none =>
    have none : (∅ : Map Nonce SignedTx).filter (fun n _ => decide (nonce ≤ n)) = ∅ := by
      rw [← Std.ExtTreeMap.toList_eq_nil_iff,Std.ExtTreeMap.toList_filter,
        Std.ExtTreeMap.toList_eq_nil_iff.mpr rfl]
      rfl
    rw [Option.getD_none,none,NestedMap.setInner,if_pos (by simp),Map.erase_absent _ _ below]
  | some q => rfl

theorem queue_remove (pool : Mempool) (addr other : Address) (nonce : Nonce) :
    (pool.remove addr nonce).queue other =
      if other = addr then (pool.queue addr).erase nonce else pool.queue other := by
  change NestedMap.inner (pool.remove addr nonce).queued other = _
  rw [queued_remove,NestedMap.inner_setInner]
  rfl

theorem queue_observeAccount (pool : Mempool) (addr other : Address) (nonce : Nonce) :
    (pool.observeAccount addr nonce).queue other =
      if other = addr then (pool.queue addr).filter fun n _ => nonce ≤ n else pool.queue other := by
  change NestedMap.inner (pool.observeAccount addr nonce).queued other = _
  rw [queued_observeAccount,NestedMap.inner_setInner]
  rfl

/-! The same, place by place. -/

theorem get?_remove (pool : Mempool) (addr other : Address) (nonce n : Nonce) :
    ((pool.remove addr nonce).queue other)[n]? =
      if other = addr ∧ n = nonce then none else (pool.queue other)[n]? := by
  rw [queue_remove]
  by_cases here : other = addr
  · rw [if_pos here,Map.get?_erase,here]
    simp only [true_and]
  · simp only [here,if_false,false_and]

theorem get?_observeAccount (pool : Mempool) (addr other : Address) (nonce n : Nonce) :
    ((pool.observeAccount addr nonce).queue other)[n]? =
      if other = addr ∧ n < nonce then none else (pool.queue other)[n]? := by
  rw [queue_observeAccount]
  by_cases here : other = addr
  · rw [if_pos here,Std.ExtTreeMap.getElem?_filter',here]
    by_cases stale : n < nonce
    · rw [if_pos ⟨rfl,stale⟩]
      have kept : ¬ nonce ≤ n := BitVec.not_le.mpr stale
      cases (pool.queue addr)[n]? <;> simp [kept]
    · rw [if_neg fun both => stale both.2]
      have kept : nonce ≤ n := BitVec.not_lt.mp stale
      cases (pool.queue addr)[n]? <;> simp [kept]
  · simp only [here,if_false,false_and]

theorem get?_admitPreverified (pool : Mempool) (signed : SignedTx) (addr other : Address) (n : Nonce) :
    ((pool.admitPreverified signed addr).queue other)[n]? =
      if other = addr ∧ n = signed.tx.nonce then some signed else (pool.queue other)[n]? := by
  rw [queue_admitPreverified]
  by_cases here : other = addr
  · rw [if_pos here,Map.get?_insert,here]
    simp only [true_and]
  · simp only [here,if_false,false_and]

def weightAt (w : SignedTx → Nat) (pool : Mempool) (addr : Address) (nonce : Nonce) : Nat :=
  ((pool.queue addr)[nonce]?).elim 0 w

theorem weight_remove (w : SignedTx → Nat) (pool : Mempool) (addr : Address) (nonce : Nonce) :
    (pool.remove addr nonce).weight w + pool.weightAt w addr nonce = pool.weight w := by
  have whole := NestedMap.total_setInner w pool.queued addr ((pool.queue addr).erase nonce)
  have below := Map.total_erase (fun _ => w) (pool.queue addr) nonce
  rw [← queued_remove] at whole
  change (pool.remove addr nonce).weight w + Map.total (fun _ => w) (pool.queue addr) =
    pool.weight w + _ at whole
  change _ + pool.weightAt w addr nonce = _ at below
  omega

theorem weight_admitPreverified (w : SignedTx → Nat) (pool : Mempool) (signed : SignedTx)
    (addr : Address) :
    (pool.admitPreverified signed addr).weight w + pool.weightAt w addr signed.tx.nonce =
      pool.weight w + w signed := by
  have whole := NestedMap.total_insert w pool.queued addr
    ((pool.queue addr).insert signed.tx.nonce signed)
  have below := Map.total_insert (fun _ => w) (pool.queue addr) signed.tx.nonce signed
  change (pool.admitPreverified signed addr).weight w + Map.total (fun _ => w) (pool.queue addr) =
    pool.weight w + _ at whole
  change _ + pool.weightAt w addr signed.tx.nonce = _ at below
  omega

variable {pool pool' : Mempool} {addr : Address} {signed : SignedTx} {nonce : Nonce}

theorem weight_congr {w w' : SignedTx → Nat}
    (same : ∀ signed, pool.Holds signed → w signed = w' signed) : pool.weight w = pool.weight w' := by
  unfold weight NestedMap.total Map.total
  refine congrArg List.sum (List.map_congr_left fun entry listed => ?_)
  have below := Std.ExtTreeMap.mem_toList_iff_getElem?_eq_some.mp listed
  refine congrArg List.sum (List.map_congr_left fun (inner : Nonce × SignedTx) within =>
    same inner.2 ⟨entry.1,inner.1,?_⟩)
  rw [queue,below]
  exact Std.ExtTreeMap.mem_toList_iff_getElem?_eq_some.mp within

theorem weight_mono {w w' : SignedTx → Nat} (pool : Mempool) (less : ∀ signed, w signed ≤ w' signed) :
    pool.weight w ≤ pool.weight w' := by
  unfold weight NestedMap.total Map.total
  refine List.sum_le_sum fun entry _ => List.sum_le_sum fun inner _ => less inner.2

structure Shrinks (pool pool' : Mempool) : Prop where
  minFee : pool'.minFee = pool.minFee
  maxTxs : pool'.maxTxs = pool.maxTxs
  maxBytes : pool'.maxBytes = pool.maxBytes
  weight (w : SignedTx → Nat) : pool'.weight w ≤ pool.weight w
  holds (signed : SignedTx) : pool'.Holds signed → pool.Holds signed

theorem Shrinks.refl (pool : Mempool) : Shrinks pool pool :=
  ⟨rfl,rfl,rfl,fun _ => le_rfl,fun _ held => held⟩

theorem Shrinks.trans {pool'' : Mempool} (first : Shrinks pool pool')
    (second : Shrinks pool' pool'') : Shrinks pool pool'' where
  minFee := second.minFee.trans first.minFee
  maxTxs := second.maxTxs.trans first.maxTxs
  maxBytes := second.maxBytes.trans first.maxBytes
  weight w := (second.weight w).trans (first.weight w)
  holds signed held := first.holds signed (second.holds signed held)

theorem shrinks_remove (pool : Mempool) (addr : Address) (nonce : Nonce) :
    Shrinks pool (pool.remove addr nonce) where
  minFee := rfl
  maxTxs := rfl
  maxBytes := rfl
  weight w := by
    have := weight_remove w pool addr nonce
    omega
  holds signed := by
    rintro ⟨other,n,held⟩
    rw [queue_remove] at held
    split at held
    · rw [Map.get?_erase] at held
      split at held
      · cases held
      · exact ⟨addr,n,held⟩
    · exact ⟨other,n,held⟩

theorem shrinks_observeAccount (pool : Mempool) (addr : Address) (nonce : Nonce) :
    Shrinks pool (pool.observeAccount addr nonce) where
  minFee := rfl
  maxTxs := rfl
  maxBytes := rfl
  weight w := by
    have whole := NestedMap.total_setInner w pool.queued addr
      ((pool.queue addr).filter fun n _ => nonce ≤ n)
    have below := NestedMap.total_filter_le w (pool.queue addr) fun n _ => decide (nonce ≤ n)
    rw [← queued_observeAccount] at whole
    change (pool.observeAccount addr nonce).weight w + Map.total (fun _ => w) (pool.queue addr) =
      pool.weight w + _ at whole
    omega
  holds signed := by
    rintro ⟨other,n,held⟩
    rw [queue_observeAccount] at held
    split at held
    · have kept := Std.ExtTreeMap.mem_toList_iff_getElem?_eq_some.mpr held
      rw [Std.ExtTreeMap.toList_filter] at kept
      exact ⟨addr,n,Std.ExtTreeMap.mem_toList_iff_getElem?_eq_some.mp (List.mem_filter.mp kept).1⟩
    · exact ⟨other,n,held⟩

/-- What holds of a run that takes nothing, and is passed on by a turn that skips and by a turn that
takes, holds of every run of the loop. -/
theorem takeLoop_rule {maxGas : U64} {maxBytes : U32}
    {P : Mempool → Map Address Nonce → OrdSet (Address × Nonce) → U64 → U32 →
      List SignedTx × Mempool → Prop}
    (stop : ∀ pool localNonce skip gas bytes, P pool localNonce skip gas bytes ([],pool))
    (skips : ∀ pool localNonce skip gas bytes entry result,
      P pool localNonce (skip.insert entry) gas bytes result → P pool localNonce skip gas bytes result)
    (takes : ∀ pool localNonce skip gas bytes addr signed g result,
      pool.peekBestReady localNonce skip = some (addr,signed) → gasMeter signed.tx = .ok g →
      ¬ (maxGas < saturatingAdd gas g ∨ maxBytes < saturatingAdd bytes (sizeU32 signed.tx)) →
      P (pool.remove addr signed.tx.nonce) (localNonce.insert addr (Seq.nextNonce signed.tx.nonce)) skip
        (saturatingAdd gas g) (saturatingAdd bytes (sizeU32 signed.tx)) result →
      P pool localNonce skip gas bytes (signed :: result.1,result.2))
    (fuel : Nat) (pool : Mempool) (localNonce : Map Address Nonce) (skip : OrdSet (Address × Nonce))
    (gas : U64) (bytes : U32) :
    P pool localNonce skip gas bytes (takeLoop maxGas maxBytes fuel pool localNonce skip gas bytes) := by
  induction fuel generalizing pool localNonce skip gas bytes with
  | zero => exact stop ..
  | succ fuel ih =>
    rw [takeLoop]
    split
    · exact stop ..
    rename_i addr signed found
    split
    · exact skips _ _ _ _ _ _ _ (ih ..)
    rename_i g metered
    dsimp only
    split
    · exact skips _ _ _ _ _ _ _ (ih ..)
    · rename_i fits
      exact takes _ _ _ _ _ _ _ _ _ found metered fits (ih ..)

theorem shrinks_takeLoop (maxGas : U64) (maxBytes : U32) (fuel : Nat) (pool : Mempool)
    (localNonce : Map Address Nonce) (skip : OrdSet (Address × Nonce)) (gas : U64) (bytes : U32) :
    Shrinks pool (takeLoop maxGas maxBytes fuel pool localNonce skip gas bytes).2 := by
  refine takeLoop_rule (P := fun pool _ _ _ _ result => Shrinks pool result.2) ?_ ?_ ?_
    fuel pool localNonce skip gas bytes
  · exact fun pool _ _ _ _ => .refl pool
  · exact fun _ _ _ _ _ _ _ rest => rest
  · intro pool _ _ _ _ addr signed _ _ _ _ _ rest
    exact (shrinks_remove pool addr signed.tx.nonce).trans rest

theorem shrinks_makeRoom (incBytes : Nat) (incP : U128) (turns : Nat) (pool : Mempool) :
    Shrinks pool (makeRoom incBytes incP turns pool).2 := by
  induction turns generalizing pool with
  | zero => exact .refl pool
  | succ turns ih =>
    rw [makeRoom]
    split
    · exact .refl pool
    split
    · exact .refl pool
    rename_i addr nonce lowP found
    split
    · exact .refl pool
    · exact (shrinks_remove pool addr nonce).trans (ih _)

variable {incBytes turns : Nat} {incP p : U128} {n : Nonce}

theorem get?_of_makeRoom (held : ((makeRoom incBytes incP turns pool).2.queue addr)[n]? = some signed) :
    (pool.queue addr)[n]? = some signed := by
  induction turns generalizing pool with
  | zero => exact held
  | succ turns ih =>
    rw [makeRoom] at held
    split at held
    · exact held
    split at held
    · exact held
    split at held
    · exact held
    have before := ih held
    rw [get?_remove] at before
    split at before
    · cases before
    · exact before

theorem get?_of_ensureRoom {incoming : SignedTx}
    (held : ((pool.ensureRoom incoming).2.queue addr)[n]? = some signed) :
    (pool.queue addr)[n]? = some signed := by
  unfold ensureRoom at held
  split at held
  · exact held
  · exact get?_of_makeRoom held

theorem makeRoom_ok (made : makeRoom incBytes incP turns pool = (.ok (),pool')) :
    pool'.txCount < pool'.maxTxs ∧ pool'.byteSize + incBytes ≤ pool'.maxBytes := by
  induction turns generalizing pool with
  | zero => cases made
  | succ turns ih =>
    rw [makeRoom] at made
    split at made
    · rename_i room
      cases made
      exact room
    split at made
    · cases made
    split at made
    · cases made
    · exact ih made

def lowOffer (entry : Address × Nonce × SignedTx) : Option (U128 × Address × Nonce) :=
  match feePriority entry.2.2.tx with
  | .error _ => none
  | .ok p => some (p,entry.1,entry.2.1)

def lower (x y : U128 × Address × Nonce) : Bool :=
  decide (x.1 < y.1) || (decide (x.1 = y.1) && (compare x.2 y.2).isLT)

theorem considerLow_eq : considerLow = Search.scan lower lowOffer := by
  funext low entry
  unfold considerLow Search.scan lowOffer
  cases feePriority entry.2.2.tx with
  | error e => rfl
  | ok p => cases low <;> rfl

theorem lower_irrefl (x : U128 × Address × Nonce) : lower x x = false := by
  simp [lower,Std.ReflOrd.compare_self]

theorem lower_trans (x y z : U128 × Address × Nonce) (first : lower x y = true)
    (second : lower y z = true) : lower x z = true := by
  simp only [lower,Bool.or_eq_true,Bool.and_eq_true,decide_eq_true_eq,Ordering.isLT_iff_eq_lt] at *
  rcases first with below | ⟨same,before⟩
  · left
    rcases second with below' | ⟨same',-⟩
    · exact BitVec.lt_trans below below'
    · exact same' ▸ below
  · rcases second with below' | ⟨same',before'⟩
    · left
      exact same ▸ below'
    · exact .inr ⟨same.trans same',Std.TransCmp.lt_trans before before'⟩

theorem lowestPriority_best (pool : Mempool) :
    Search.Best lower ((NestedMap.entries pool.queued).foldl considerLow none)
      (fun x => ∃ signed, (pool.queue x.2.1)[x.2.2]? = some signed ∧ feePriority signed.tx = .ok x.1) := by
  rw [considerLow_eq]
  refine (Search.best_foldl lower_irrefl lower_trans _).congr fun x => ?_
  constructor
  · rintro ⟨⟨addr,n,signed⟩,listed,made⟩
    unfold lowOffer at made
    split at made
    · cases made
    · rename_i p priced
      cases made
      exact ⟨signed,(NestedMap.mem_entries pool.queued addr n signed).mp listed,priced⟩
  · rintro ⟨signed,held,priced⟩
    refine ⟨(x.2.1,x.2.2,signed),(NestedMap.mem_entries pool.queued _ _ signed).mpr held,?_⟩
    simp only [lowOffer,priced]

/-- What is found lowest is in the pool, and nothing in the pool is priced below it. -/
theorem lowestPriority_some (found : pool.lowestPriority = some (addr,nonce,p)) :
    (∃ signed, (pool.queue addr)[nonce]? = some signed ∧ feePriority signed.tx = .ok p) ∧
      ∀ (other : Address) (n : Nonce) (signed : SignedTx) (q : U128),
        (pool.queue other)[n]? = some signed → feePriority signed.tx = .ok q → p ≤ q := by
  obtain ⟨⟨p',addr',nonce'⟩,low,same⟩ := Option.map_eq_some_iff.mp found
  cases same
  have best := lowestPriority_best pool
  refine ⟨best.offered _ low,fun other n signed q held priced => ?_⟩
  have beaten := best.unbeaten _ low (q,other,n) ⟨signed,held,priced⟩
  simp only [lower,Bool.or_eq_false_iff,decide_eq_false_iff_not] at beaten
  exact BitVec.not_lt.mp beaten.1

theorem lowestPriority_none (missing : pool.lowestPriority = none)
    (held : (pool.queue addr)[nonce]? = some signed) : feePriority signed.tx ≠ .ok p := by
  intro priced
  exact (lowestPriority_best pool).found (Option.map_eq_none_iff.mp missing) (p,addr,nonce)
    ⟨signed,held,priced⟩

theorem txCount_remove (held : (pool.queue addr)[nonce]? = some signed) :
    (pool.remove addr nonce).txCount + 1 = pool.txCount := by
  have removed := weight_remove (fun _ => 1) pool addr nonce
  rwa [weightAt,held,Option.elim_some,← txCount_eq,← txCount_eq] at removed

/-- More turns than transactions make no difference. -/
theorem makeRoom_turns (incBytes : Nat) (incP : U128) (turns : Nat) (pool : Mempool)
    (enough : pool.txCount < turns) :
    makeRoom incBytes incP turns pool = makeRoom incBytes incP (pool.txCount + 1) pool := by
  induction turns generalizing pool with
  | zero => omega
  | succ turns ih =>
    rw [makeRoom,makeRoom]
    split
    · rfl
    cases found : pool.lowestPriority with
    | none => rfl
    | some low =>
      obtain ⟨addr,nonce,lowP⟩ := low
      dsimp only
      split
      · rfl
      · obtain ⟨⟨signed,held,-⟩,-⟩ := lowestPriority_some found
        have fewer := txCount_remove held
        rw [ih _ (by omega),fewer]

theorem ensureRoom_spec (pool : Mempool) (incoming : SignedTx) :
    Shrinks pool (pool.ensureRoom incoming).2 ∧ ((pool.ensureRoom incoming).1 = .ok () →
      (pool.ensureRoom incoming).2.txCount < (pool.ensureRoom incoming).2.maxTxs ∧
        (pool.ensureRoom incoming).2.byteSize + incoming.tx.encode.length ≤
          (pool.ensureRoom incoming).2.maxBytes) := by
  unfold ensureRoom
  cases priorityOf incoming.tx with
  | error e => exact ⟨.refl pool,fun made => by cases made⟩
  | ok incP =>
    refine ⟨shrinks_makeRoom ..,fun made => ?_⟩
    exact makeRoom_ok (Prod.ext made rfl)

/-- The caps hold, and every transaction pays the floor and has a permitted size. -/
structure Within (pool : Mempool) : Prop where
  count : pool.txCount ≤ pool.maxTxs
  bytes : pool.byteSize ≤ pool.maxBytes
  fee (signed : SignedTx) : pool.Holds signed → pool.minFee ≤ signed.tx.maxFee
  size (signed : SignedTx) : pool.Holds signed → signed.tx.encode.length ≤ Spec.maxTxBytes.toNat

theorem Within.shrinks (within : pool.Within) (shrinks : Shrinks pool pool') : pool'.Within where
  count := by
    have less := shrinks.weight fun _ => 1
    rw [← txCount_eq,← txCount_eq] at less
    rw [shrinks.maxTxs]
    exact less.trans within.count
  bytes := by
    rw [shrinks.maxBytes]
    exact (shrinks.weight fun s => s.tx.encode.length).trans within.bytes
  fee signed held := by
    rw [shrinks.minFee]
    exact within.fee signed (shrinks.holds signed held)
  size signed held := within.size signed (shrinks.holds signed held)

/-- A transaction may be put into the pool: it pays enough, is small enough, and with it in the
place of what has its sender and nonce, the caps hold. -/
structure Room (pool : Mempool) (addr : Address) (signed : SignedTx) : Prop where
  count : (pool.queue addr)[signed.tx.nonce]? = none → pool.txCount < pool.maxTxs
  bytes : pool.byteSize + signed.tx.encode.length ≤
    pool.maxBytes + pool.weightAt (fun s => s.tx.encode.length) addr signed.tx.nonce
  fee : pool.minFee ≤ signed.tx.maxFee
  size : signed.tx.encode.length ≤ Spec.maxTxBytes.toNat

theorem within_admit_iff (within : pool.Within) (signed : SignedTx) (addr : Address) :
    (pool.admitPreverified signed addr).Within ↔ pool.Room addr signed := by
  have counts := weight_admitPreverified (fun _ => 1) pool signed addr
  have sizes := weight_admitPreverified (fun s => s.tx.encode.length) pool signed addr
  rw [← txCount_eq,← txCount_eq] at counts
  rw [← byteSize_eq,← byteSize_eq] at sizes
  have cap := within.count
  constructor
  · intro after
    have count := after.count
    have bytes := after.bytes
    change _ ≤ pool.maxTxs at count
    change _ ≤ pool.maxBytes at bytes
    refine ⟨fun absent => ?_,by omega,after.fee signed (holds_admitted pool signed addr),
      after.size signed (holds_admitted pool signed addr)⟩
    rw [weightAt,absent,Option.elim_none] at counts
    omega
  · intro room
    have bytes := room.bytes
    refine ⟨?_,?_,fun other held => ?_,fun other held => ?_⟩
    · change _ ≤ pool.maxTxs
      cases old : (pool.queue addr)[signed.tx.nonce]? with
      | none =>
        have free := room.count old
        omega
      | some tx =>
        rw [weightAt,old,Option.elim_some] at counts
        omega
    · change _ ≤ pool.maxBytes
      omega
    · rcases holds_of_admitPreverified held with rfl | before
      · exact room.fee
      · exact within.fee other before
    · rcases holds_of_admitPreverified held with rfl | before
      · exact room.size
      · exact within.size other before

section Calls

variable [Ed25519] [Blake3]

inductive Call where
  | insert (signed : SignedTx) (account : Account)
  | queueInsert (signed : SignedTx) (account : Account)
  | wire (signed : SignedTx) (account : Account)
  | observe (addr : Address) (nonce : Nonce)
  | take (maxGas : U64) (maxBytes : U32)

def next (pool : Mempool) : Call → Mempool
  | .insert signed account => (pool.insert signed account).2
  | .queueInsert signed account => match pool.queueInsert signed account with
    | .error _ => pool
    | .ok (_,pool) => pool
  | .wire signed account => match wireMempool signed account pool with
    | .error _ => pool
    | .ok pool => pool
  | .observe addr nonce => pool.observeAccount addr nonce
  | .take maxGas maxBytes => (ReadyTxs.takeReady pool maxGas maxBytes).2

/-- There is room for what a call puts into the pool. With `insert` this is in question only for
the bytes of a replacement. -/
def Fits (pool : Mempool) : Call → Prop
  | .insert signed account =>
    let addr := fromEd25519 signed.publicKey
    let pool' := pool.observeAccount addr account.nonce
    ∀ old, (pool'.queue addr)[signed.tx.nonce]? = some old → (pool.insert signed account).1 = .ok () →
      pool'.byteSize + signed.tx.encode.length ≤ pool'.maxBytes + old.tx.encode.length
  | .queueInsert signed account => Admissible signed account →
    let addr := fromEd25519 signed.publicKey
    (pool.observeAccount addr account.nonce).Room addr signed
  | .wire signed account => Admissible signed account → pool.Room (fromEd25519 signed.publicKey) signed
  | .observe _ _ => True
  | .take _ _ => True

theorem senderAddress_eq {account : Account} (passed : Admissible signed account) :
    senderAddress signed = .ok (fromEd25519 signed.publicKey) :=
  if_pos (Bool.and_eq_true_iff.mp passed.verified).1

/-- The queue takes what passes the gate, whatever its size and fee. -/
theorem queueInsert_cases (pool : Mempool) (signed : SignedTx) (account : Account) :
    let addr := fromEd25519 signed.publicKey
    (¬ Admissible signed account ∧ ∃ e, pool.queueInsert signed account = .error e) ∨
      (Admissible signed account ∧ pool.queueInsert signed account =
        .ok (addr,(pool.observeAccount addr account.nonce).admitPreverified signed addr)) := by
  unfold queueInsert
  cases checked : verify signed account with
  | error e =>
    refine .inl ⟨fun passed => ?_,e,rfl⟩
    rw [verify_ok_iff.mpr passed] at checked
    cases checked
  | ok _ =>
    have passed := verify_ok_iff.mp checked
    refine .inr ⟨passed,?_⟩
    simp only [senderAddress_eq passed]

theorem wireMempool_cases (pool : Mempool) (signed : SignedTx) (account : Account) :
    (¬ Admissible signed account ∧ ∃ e, wireMempool signed account pool = .error e) ∨
      (Admissible signed account ∧ wireMempool signed account pool =
        .ok (pool.admitPreverified signed (fromEd25519 signed.publicKey))) := by
  by_cases passed : Admissible signed account
  · exact .inr ⟨passed,wireMempool_ok_iff.mpr ⟨passed,rfl⟩⟩
  · refine .inl ⟨passed,?_⟩
    cases result : wireMempool signed account pool with
    | error e => exact ⟨e,rfl⟩
    | ok after => exact absurd (wireMempool_ok_iff.mp result).1 passed

structure Passes (pool : Mempool) (signed : SignedTx) (account : Account) : Prop where
  size : signed.tx.encode.length ≤ Spec.maxTxBytes.toNat
  fee : pool.minFee ≤ signed.tx.maxFee
  admissible : Admissible signed account

def seen (pool : Mempool) (signed : SignedTx) (account : Account) : Mempool :=
  pool.observeAccount (fromEd25519 signed.publicKey) account.nonce

inductive Insertion (pool : Mempool) (signed : SignedTx) (account : Account) :
    Except VerifyError Unit × Mempool → Prop where
  | barred (e : VerifyError) (fails : ¬ pool.Passes signed account) :
      Insertion pool signed account (.error e,pool)
  | underbid (e : VerifyError) (old : SignedTx) (passes : pool.Passes signed account)
      (held : ((pool.seen signed account).queue (fromEd25519 signed.publicKey))[signed.tx.nonce]? =
        some old) (refused : rbfAllowed old signed = .error e) :
      Insertion pool signed account (.error e,pool.seen signed account)
  | outbid (old : SignedTx) (passes : pool.Passes signed account)
      (held : ((pool.seen signed account).queue (fromEd25519 signed.publicKey))[signed.tx.nonce]? =
        some old) (allowed : rbfAllowed old signed = .ok ()) :
      Insertion pool signed account
        (.ok (),(pool.seen signed account).admitPreverified signed (fromEd25519 signed.publicKey))
  | full (e : VerifyError) (room : Mempool) (passes : pool.Passes signed account)
      (absent : ((pool.seen signed account).queue (fromEd25519 signed.publicKey))[signed.tx.nonce]? =
        none) (made : (pool.seen signed account).ensureRoom signed = (.error e,room)) :
      Insertion pool signed account (.error e,room)
  | added (room : Mempool) (passes : pool.Passes signed account)
      (absent : ((pool.seen signed account).queue (fromEd25519 signed.publicKey))[signed.tx.nonce]? =
        none) (made : (pool.seen signed account).ensureRoom signed = (.ok (),room)) :
      Insertion pool signed account (.ok (),room.admitPreverified signed (fromEd25519 signed.publicKey))

omit [Ed25519] [Blake3] in
theorem checkTxBytes_ok_iff :
    checkTxBytes signed = .ok () ↔ signed.tx.encode.length ≤ Spec.maxTxBytes.toNat := by
  unfold checkTxBytes
  split
  · simp only [reduceCtorEq,false_iff]
    omega
  · simp only [true_iff]
    omega

omit [Ed25519] [Blake3] in
theorem checkMinFee_ok_iff {tx : Tx} {minFee : U128} : checkMinFee tx minFee = .ok () ↔ minFee ≤ tx.maxFee := by
  unfold checkMinFee
  split
  · rename_i low
    simpa using low
  · rename_i enough
    simpa using BitVec.not_lt.mp enough

theorem insertion (pool : Mempool) (signed : SignedTx) (account : Account) :
    Insertion pool signed account (pool.insert signed account) := by
  unfold insert
  cases sized : checkTxBytes signed with
  | error e =>
    refine .barred e fun passes => ?_
    rw [checkTxBytes_ok_iff.mpr passes.size] at sized
    cases sized
  | ok _ => cases priced : checkMinFee signed.tx pool.minFee with
    | error e =>
      refine .barred e fun passes => ?_
      rw [checkMinFee_ok_iff.mpr passes.fee] at priced
      cases priced
    | ok _ => cases checked : verify signed account with
      | error e =>
        refine .barred e fun passes => ?_
        rw [verify_ok_iff.mpr passes.admissible] at checked
        cases checked
      | ok _ =>
        have passes : pool.Passes signed account :=
          ⟨checkTxBytes_ok_iff.mp sized,checkMinFee_ok_iff.mp priced,verify_ok_iff.mp checked⟩
        simp only [senderAddress_eq passes.admissible]
        cases held : ((pool.observeAccount (fromEd25519 signed.publicKey) account.nonce).queue
            (fromEd25519 signed.publicKey))[signed.tx.nonce]? with
        | some old => cases allowed : rbfAllowed old signed with
          | error e =>
            simp only [allowed]
            exact .underbid e old passes held allowed
          | ok _ =>
            simp only [allowed]
            exact .outbid old passes held allowed
        | none => cases made : (pool.observeAccount (fromEd25519 signed.publicKey)
              account.nonce).ensureRoom signed with
          | mk result room => cases result with
            | error e =>
              dsimp only
              exact .full e room passes held made
            | ok _ =>
              dsimp only
              exact .added room passes held made

/-- A call keeps the caps exactly if there is room for what it puts in. -/
theorem within_next_iff (pool : Mempool) (call : Call) (within : pool.Within) :
    (pool.next call).Within ↔ pool.Fits call := by
  cases call with
  | observe addr nonce =>
    exact iff_of_true (within.shrinks (shrinks_observeAccount pool addr nonce)) trivial
  | take maxGas maxBytes => exact iff_of_true (within.shrinks (shrinks_takeLoop ..)) trivial
  | wire signed account =>
    rcases wireMempool_cases pool signed account with ⟨barred,e,result⟩ | ⟨passed,result⟩
    · simp only [next,result,Fits,barred,false_imp_iff,iff_true]
      exact within
    · simp only [next,result,Fits,passed,true_imp_iff]
      exact within_admit_iff within signed _
  | queueInsert signed account =>
    rcases queueInsert_cases pool signed account with ⟨barred,e,result⟩ | ⟨passed,result⟩
    · simp only [next,result,Fits,barred,false_imp_iff,iff_true]
      exact within
    · simp only [next,result,Fits,passed,true_imp_iff]
      exact within_admit_iff (within.shrinks (shrinks_observeAccount ..)) signed _
  | insert signed account =>
    simp only [next,Fits]
    have done := insertion pool signed account
    generalize pool.insert signed account = result at done ⊢
    have shrinks := shrinks_observeAccount pool (fromEd25519 signed.publicKey) account.nonce
    have seen := within.shrinks shrinks
    have fewer := ensureRoom_spec (pool.seen signed account) signed
    cases done with
    | barred e fails => exact iff_of_true within fun old held done => by cases done
    | underbid e old passes held refused => exact iff_of_true seen fun old held done => by cases done
    | outbid old passes held allowed =>
      rw [Mempool.seen] at held ⊢
      rw [within_admit_iff seen]
      constructor
      · intro room old' held' _
        obtain rfl := Option.some.inj (held.symm.trans held')
        have bytes := room.bytes
        rwa [weightAt,held,Option.elim_some] at bytes
      · intro bytes
        refine ⟨fun absent => ?_,?_,passes.fee,passes.size⟩
        · cases held.symm.trans absent
        · rw [weightAt,held,Option.elim_some]
          exact bytes old held rfl
    | full e room passes absent made =>
      rw [made] at fewer
      exact iff_of_true (seen.shrinks fewer.1) fun old held done => by cases done
    | added room passes absent made =>
      rw [made] at fewer
      obtain ⟨count,bytes⟩ := fewer.2 rfl
      refine iff_of_true ((within_admit_iff (seen.shrinks fewer.1) signed _).mpr ?_) fun old held _ => ?_
      · exact ⟨fun _ => count,bytes.trans (Nat.le_add_right ..),
          (shrinks.trans fewer.1).minFee ▸ passes.fee,passes.size⟩
      · cases absent.symm.trans held

/-- The caps hold after every call of a run exactly if every call that puts a transaction in finds
room for it. -/
theorem capacity_iff (pool : Mempool) (within : pool.Within) (calls : List Call) :
    (∀ done, done <+: calls → (Runs.run next pool done).Within) ↔
      ∀ done call, done ++ [call] <+: calls → (Runs.run next pool done).Fits call :=
  Runs.always_iff within within_next_iff calls

end Calls

namespace Sample

attribute [local instance] LoneSigner.blake3 Holdings.Sample.ed25519

def payer : Account := ⟨100,0,zeroHash⟩

def payment (nonce : Nonce) (maxFee : Amount) : SignedTx :=
  ⟨⟨1,nonce,Spec.gasTransfer,maxFee,.transfer ⟨zeroHash,10⟩⟩,Vector.replicate 64 0,zeroHash⟩

def small : Mempool := withLimits 1 1 400

theorem small_within : small.Within where
  count := by decide
  bytes := by decide
  fee signed held := absurd held (not_holds_withLimits 1 1 400 signed)
  size signed held := absurd held (not_holds_withLimits 1 1 400 signed)

/-- The way in that makes room keeps the caps. -/
theorem insert_keeps_caps :
    small.Within ∧ (Runs.run next small [Call.insert (payment 0 1) payer]).Within := by
  refine ⟨small_within,(capacity_iff small small_within _).mpr (Runs.met_singleton ?_) _
    List.prefix_rfl⟩
  intro old held
  have absent : (((small.observeAccount (fromEd25519 (payment 0 1).publicKey) payer.nonce).queue
      (fromEd25519 (payment 0 1).publicKey))[(payment 0 1).tx.nonce]?).isNone = true := by
    decide +kernel
  rw [held] at absent
  cases absent

def overfull : Mempool := Runs.run next small [.wire (payment 0 0) payer,.wire (payment 1 0) payer]

/-- Two transactions from gossip, without a fee, in a pool for one with a fee. -/
theorem gossip_overfills :
    small.Within ∧ overfull.maxTxs < overfull.txCount ∧ ¬ overfull.Within ∧
      overfull.Holds (payment 0 0) ∧ (payment 0 0).tx.maxFee < overfull.minFee := by
  have many : overfull.maxTxs < overfull.txCount := by decide +kernel
  refine ⟨small_within,many,fun within => ?_,⟨fromEd25519 zeroHash,0,by decide +kernel⟩,by decide +kernel⟩
  have count := within.count
  omega

end Sample
end L1.Mempool
