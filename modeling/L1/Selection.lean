import L1.Replacement

/-! Which transactions a block takes from the pool. The loop ends; it takes the nonces of each sender
in order, stays within limits that its counters can express, takes out what it hands out and nothing
else, and leaves nothing behind that would still fit. -/
namespace L1.Mempool

open L1.Seq

/-- The loop, run until its search finds nothing: a derivation is a run that ends. -/
inductive Takes (maxGas : U64) (maxBytes : U32) : Mempool → Map Address Nonce →
    OrdSet (Address × Nonce) → U64 → U32 → List SignedTx → Mempool → Prop where
  | stop {pool : Mempool} {localNonce : Map Address Nonce} {skip : OrdSet (Address × Nonce)} {gas : U64}
      {bytes : U32} (found : pool.peekBestReady localNonce skip = none) :
      Takes maxGas maxBytes pool localNonce skip gas bytes [] pool
  | unmetered {pool after : Mempool} {localNonce : Map Address Nonce} {skip : OrdSet (Address × Nonce)}
      {gas : U64} {bytes : U32} {out : List SignedTx} {addr : Address} {signed : SignedTx} {e : GasError}
      (found : pool.peekBestReady localNonce skip = some (addr,signed))
      (fails : gasMeter signed.tx = .error e)
      (rest : Takes maxGas maxBytes pool localNonce (skip.insert (addr,signed.tx.nonce)) gas bytes out
        after) :
      Takes maxGas maxBytes pool localNonce skip gas bytes out after
  | passed {pool after : Mempool} {localNonce : Map Address Nonce} {skip : OrdSet (Address × Nonce)}
      {gas g : U64} {bytes : U32} {out : List SignedTx} {addr : Address} {signed : SignedTx}
      (found : pool.peekBestReady localNonce skip = some (addr,signed))
      (metered : gasMeter signed.tx = .ok g)
      (large : maxGas < saturatingAdd gas g ∨ maxBytes < saturatingAdd bytes (sizeU32 signed.tx))
      (rest : Takes maxGas maxBytes pool localNonce (skip.insert (addr,signed.tx.nonce)) gas bytes out
        after) :
      Takes maxGas maxBytes pool localNonce skip gas bytes out after
  | took {pool after : Mempool} {localNonce : Map Address Nonce} {skip : OrdSet (Address × Nonce)}
      {gas g : U64} {bytes : U32} {out : List SignedTx} {addr : Address} {signed : SignedTx}
      (found : pool.peekBestReady localNonce skip = some (addr,signed))
      (metered : gasMeter signed.tx = .ok g)
      (fits : ¬ (maxGas < saturatingAdd gas g ∨ maxBytes < saturatingAdd bytes (sizeU32 signed.tx)))
      (rest : Takes maxGas maxBytes (pool.remove addr signed.tx.nonce)
        (localNonce.insert addr (nextNonce signed.tx.nonce)) skip (saturatingAdd gas g)
        (saturatingAdd bytes (sizeU32 signed.tx)) out after) :
      Takes maxGas maxBytes pool localNonce skip gas bytes (signed :: out) after

section Loop

variable [Blake3] {pool after : Mempool} {localNonce : Map Address Nonce}
  {skip : OrdSet (Address × Nonce)} {maxGas gas : U64} {maxBytes bytes : U32} {out : List SignedTx}

/-- What the search finds is queued under its sender, at the nonce of the table, and not skipped. -/
structure Turn (pool : Mempool) (localNonce : Map Address Nonce) (skip : OrdSet (Address × Nonce))
    (addr : Address) (signed : SignedTx) : Prop where
  held : (pool.queue addr)[signed.tx.nonce]? = some signed
  sender : addr = fromEd25519 signed.publicKey
  nonce : signed.tx.nonce = (localNonce[addr]?).getD 0
  kept : (addr,signed.tx.nonce) ∉ skip

variable {addr : Address} {signed : SignedTx}

theorem turn_of_peek (sound : pool.Sound)
    (found : pool.peekBestReady localNonce skip = some (addr,signed)) :
    Turn pool localNonce skip addr signed := by
  have candidate := candidate_of_peek found
  have nonce := candidate.nonce
  have held := candidate.ready
  have kept := candidate.kept
  rw [readyAt,← nonce] at held
  rw [← nonce] at kept
  exact ⟨held,(sound addr _ signed held).2,nonce,kept⟩

def openings (pool : Mempool) (skip : OrdSet (Address × Nonce)) : Nat :=
  pool.weight fun s => if (fromEd25519 s.publicKey,s.tx.nonce) ∈ skip then 0 else 1

theorem Turn.openings_remove (turn : Turn pool localNonce skip addr signed) :
    (pool.remove addr signed.tx.nonce).openings skip + 1 = pool.openings skip := by
  have kept := turn.kept
  rw [turn.sender] at kept
  have removed := weight_remove
    (fun s => if (fromEd25519 s.publicKey,s.tx.nonce) ∈ skip then 0 else 1) pool addr signed.tx.nonce
  rwa [weightAt,turn.held,Option.elim_some,if_neg kept] at removed

theorem Turn.openings_skip (turn : Turn pool localNonce skip addr signed) :
    pool.openings (skip.insert (addr,signed.tx.nonce)) < pool.openings skip := by
  have more := turn.openings_remove
  have removed := weight_remove (fun s => if (fromEd25519 s.publicKey,s.tx.nonce) ∈
    skip.insert (addr,signed.tx.nonce) then 0 else 1) pool addr signed.tx.nonce
  have here : (fromEd25519 signed.publicKey,signed.tx.nonce) ∈ skip.insert (addr,signed.tx.nonce) := by
    simp [turn.sender]
  rw [weightAt,turn.held,Option.elim_some,if_pos here,Nat.add_zero] at removed
  have fewer : (pool.remove addr signed.tx.nonce).openings (skip.insert (addr,signed.tx.nonce)) ≤
      (pool.remove addr signed.tx.nonce).openings skip := by
    refine weight_mono _ fun s => ?_
    by_cases before : (fromEd25519 s.publicKey,s.tx.nonce) ∈ skip
    · have still : (fromEd25519 s.publicKey,s.tx.nonce) ∈ skip.insert (addr,signed.tx.nonce) := by
        simp [before]
      rw [if_pos before,if_pos still]
    · rw [if_neg before]
      split
      · exact Nat.zero_le _
      · exact le_rfl
  unfold openings at *
  omega

/-- Each turn skips or removes one, so that the loop ends. -/
theorem takes_takeLoop (maxGas : U64) (maxBytes : U32) (fuel : Nat) (pool : Mempool)
    (localNonce : Map Address Nonce) (skip : OrdSet (Address × Nonce)) (gas : U64) (bytes : U32)
    (sound : pool.Sound) (enough : pool.openings skip ≤ fuel) :
    Takes maxGas maxBytes pool localNonce skip gas bytes
      (takeLoop maxGas maxBytes fuel pool localNonce skip gas bytes).1
      (takeLoop maxGas maxBytes fuel pool localNonce skip gas bytes).2 := by
  induction fuel generalizing pool localNonce skip gas bytes with
  | zero =>
    refine .stop ?_
    cases found : pool.peekBestReady localNonce skip with
    | none => rfl
    | some best =>
      have fewer := (turn_of_peek sound (found : _ = some (best.1,best.2))).openings_remove
      omega
  | succ fuel ih =>
    rw [takeLoop]
    cases found : pool.peekBestReady localNonce skip with
    | none => exact .stop found
    | some best =>
      obtain ⟨addr,signed⟩ := best
      have turn := turn_of_peek sound found
      have skipped := turn.openings_skip
      have removed := turn.openings_remove
      cases metered : gasMeter signed.tx with
      | error e =>
        simp only [metered]
        exact .unmetered found metered (ih _ _ _ _ _ sound (by omega))
      | ok g =>
        simp only [metered]
        split
        · rename_i large
          exact .passed found metered large (ih _ _ _ _ _ sound (by omega))
        · rename_i fits
          exact .took found metered fits (ih _ _ _ _ _ (sound.remove _ _) (by omega))

theorem Takes.queued (sound : pool.Sound)
    (taken : Takes maxGas maxBytes pool localNonce skip gas bytes out after) :
    ∀ s ∈ out, (pool.queue (fromEd25519 s.publicKey))[s.tx.nonce]? = some s ∧
      ∃ g, gasMeter s.tx = .ok g := by
  induction taken with
  | stop found => simp
  | unmetered found fails rest ih => exact ih sound
  | passed found metered large rest ih => exact ih sound
  | took found metered fits rest ih =>
    have turn := turn_of_peek sound found
    have held := turn.held
    rw [turn.sender] at held
    refine List.forall_mem_cons.mpr ⟨⟨held,_,metered⟩,fun s listed => ?_⟩
    obtain ⟨later,cost⟩ := ih (sound.remove _ _) s listed
    rw [get?_remove] at later
    split at later
    · cases later
    · exact ⟨later,cost⟩

theorem Takes.apart {nonce : Nonce} (sound : pool.Sound)
    (taken : Takes maxGas maxBytes (pool.remove addr nonce) localNonce skip gas bytes out after) :
    ∀ s ∈ out, ¬ (fromEd25519 s.publicKey = addr ∧ s.tx.nonce = nonce) := by
  intro s listed here
  have held := (taken.queued (sound.remove _ _) s listed).1
  rw [get?_remove,if_pos here] at held
  cases held

theorem Takes.nodup (sound : pool.Sound)
    (taken : Takes maxGas maxBytes pool localNonce skip gas bytes out after) : out.Nodup := by
  induction taken with
  | stop found => exact List.nodup_nil
  | unmetered found fails rest ih => exact ih sound
  | passed found metered large rest ih => exact ih sound
  | took found metered fits rest ih =>
    have turn := turn_of_peek sound found
    exact List.nodup_cons.mpr ⟨fun again => rest.apart sound _ again ⟨turn.sender.symm,rfl⟩,
      ih (sound.remove _ _)⟩

omit [Blake3] in
theorem Takes.shrunk (taken : Takes maxGas maxBytes pool localNonce skip gas bytes out after) :
    Below after pool := by
  induction taken with
  | stop found => exact fun _ _ _ held => held
  | unmetered found fails rest ih => exact ih
  | passed found metered large rest ih => exact ih
  | took found metered fits rest ih =>
    intro addr n s held
    have before := ih addr n s held
    rw [get?_remove] at before
    split at before
    · cases before
    · exact before

theorem Takes.gone (sound : pool.Sound)
    (taken : Takes maxGas maxBytes pool localNonce skip gas bytes out after) :
    ∀ s ∈ out, (after.queue (fromEd25519 s.publicKey))[s.tx.nonce]? = none := by
  induction taken with
  | stop found => simp
  | unmetered found fails rest ih => exact ih sound
  | passed found metered large rest ih => exact ih sound
  | @took pool after localNonce skip gas g bytes out addr signed found metered fits rest ih =>
    refine List.forall_mem_cons.mpr ⟨?_,ih (sound.remove _ _)⟩
    rw [← (turn_of_peek sound found).sender]
    cases held : (after.queue addr)[signed.tx.nonce]? with
    | none => rfl
    | some s =>
      have before := rest.shrunk addr signed.tx.nonce s held
      rw [get?_remove,if_pos ⟨rfl,rfl⟩] at before
      cases before

theorem Takes.others (sound : pool.Sound)
    (taken : Takes maxGas maxBytes pool localNonce skip gas bytes out after) (addr : Address)
    (nonce : Nonce) (apart : ∀ s ∈ out, ¬ (fromEd25519 s.publicKey = addr ∧ s.tx.nonce = nonce)) :
    (after.queue addr)[nonce]? = (pool.queue addr)[nonce]? := by
  induction taken with
  | stop found => rfl
  | unmetered found fails rest ih => exact ih sound apart
  | passed found metered large rest ih => exact ih sound apart
  | took found metered fits rest ih =>
    have turn := turn_of_peek sound found
    obtain ⟨first,later⟩ := List.forall_mem_cons.mp apart
    rw [ih (sound.remove _ _) later,get?_remove,if_neg]
    rintro ⟨rfl,rfl⟩
    exact first ⟨turn.sender.symm,rfl⟩

structure SameSettings (pool after : Mempool) : Prop where
  accountNonce : after.accountNonce = pool.accountNonce
  minFee : after.minFee = pool.minFee
  maxTxs : after.maxTxs = pool.maxTxs
  maxBytes : after.maxBytes = pool.maxBytes

omit [Blake3] in
theorem Takes.settings (taken : Takes maxGas maxBytes pool localNonce skip gas bytes out after) :
    SameSettings pool after := by
  induction taken with
  | stop found => exact ⟨rfl,rfl,rfl,rfl⟩
  | unmetered found fails rest ih => exact ih
  | passed found metered large rest ih => exact ih
  | took found metered fits rest ih => exact ⟨ih.accountNonce,ih.minFee,ih.maxTxs,ih.maxBytes⟩

def ofSender (addr : Address) (out : List SignedTx) : List SignedTx :=
  out.filter fun s => fromEd25519 s.publicKey = addr

theorem ofSender_cons_same (out : List SignedTx) (sender : addr = fromEd25519 signed.publicKey) :
    ofSender addr (signed :: out) = signed :: ofSender addr out :=
  List.filter_cons_of_pos (decide_eq_true sender.symm)

theorem ofSender_cons_other (out : List SignedTx) (other : addr ≠ fromEd25519 signed.publicKey) :
    ofSender addr (signed :: out) = ofSender addr out :=
  List.filter_cons_of_neg (by simpa using Ne.symm other)

/-- The nonces of a sender count up from the one in the table. The last nonce is its own successor,
and can be taken once. -/
theorem Takes.consecutive (sound : pool.Sound)
    (taken : Takes maxGas maxBytes pool localNonce skip gas bytes out after) (addr : Address) (i : Nat)
    (s : SignedTx) (listed : (ofSender addr out)[i]? = some s) :
    s.tx.nonce.toNat = ((localNonce[addr]?).getD 0).toNat + i := by
  induction taken generalizing i with
  | stop found => simp [ofSender] at listed
  | unmetered found fails rest ih => exact ih sound i listed
  | passed found metered large rest ih => exact ih sound i listed
  | @took pool after localNonce skip gas g bytes out addr' signed found metered fits rest ih =>
    have turn := turn_of_peek sound found
    have later := ih (sound.remove addr' signed.tx.nonce)
    by_cases same : addr = addr'
    · subst same
      rw [ofSender_cons_same out turn.sender] at listed
      cases i with
      | zero =>
        rw [List.getElem?_cons_zero] at listed
        rw [← Option.some.inj listed,turn.nonce,Nat.add_zero]
      | succ i =>
        rw [List.getElem?_cons_succ] at listed
        have count := later i listed
        rw [Map.get?_insert,if_pos rfl,Option.getD_some,toNat_nextNonce] at count
        have member := List.mem_of_getElem? listed
        obtain ⟨inOut,sent⟩ := List.mem_filter.mp member
        have apart : s.tx.nonce.toNat ≠ signed.tx.nonce.toNat := fun equal =>
          rest.apart sound s inOut ⟨of_decide_eq_true sent,BitVec.eq_of_toNat_eq equal⟩
        have bound := s.tx.nonce.isLt
        rw [← turn.nonce]
        omega
    · rw [ofSender_cons_other out fun sender => same (sender.trans turn.sender.symm)] at listed
      have count := later i listed
      rwa [Map.get?_insert,if_neg same] at count

/-! The limits. A counter that saturates at its largest value never exceeds it; below that value, or
if the whole pool does not reach it, the counters are exact. -/

/-- The counters cannot saturate unnoticed. -/
structure Countable (maxGas : U64) (maxBytes : U32) (pool : Mempool) (gas : U64) (bytes : U32) :
    Prop where
  gas : maxGas.toNat < 2^64 - 1 ∨ gas.toNat + pool.weight gasOf ≤ 2^64 - 1
  bytes : maxBytes.toNat < 2^32 - 1 ∨ bytes.toNat + pool.byteSize ≤ 2^32 - 1

structure Counted (maxGas : U64) (maxBytes : U32) (gas : U64) (bytes : U32) (gas' : U64) (bytes' : U32)
    (signed : SignedTx) : Prop where
  gas : gas'.toNat = gas.toNat + gasOf signed
  gasFits : gas'.toNat ≤ maxGas.toNat
  bytes : bytes'.toNat = bytes.toNat + signed.tx.encode.length
  bytesFit : bytes'.toNat ≤ maxBytes.toNat

omit [Blake3] in
theorem toNat_sizeU32 (tx : Tx) : (sizeU32 tx).toNat = min tx.encode.length (2^32 - 1) := by
  rw [sizeU32,BitVec.toNat_ofNat,Nat.mod_eq_of_lt (by omega)]

omit [Blake3] in
/-- A capped sum within a limit is exact, if the limit is below the cap or the whole is. -/
theorem exact_of_fits {limit top used cost rest : Nat} (within : limit ≤ top)
    (bound : limit < top ∨ used + (rest + cost) ≤ top) (fits : min (used + min cost top) top ≤ limit) :
    min (used + min cost top) top = used + cost ∧ used + cost ≤ limit ∧
      (limit < top ∨ used + cost + rest ≤ top) := by
  omega

omit [Blake3] in
theorem Countable.step {g : U64} (countable : Countable maxGas maxBytes pool gas bytes)
    (held : (pool.queue addr)[signed.tx.nonce]? = some signed) (metered : gasMeter signed.tx = .ok g)
    (fits : ¬ (maxGas < saturatingAdd gas g ∨ maxBytes < saturatingAdd bytes (sizeU32 signed.tx))) :
    Counted maxGas maxBytes gas bytes (saturatingAdd gas g) (saturatingAdd bytes (sizeU32 signed.tx))
        signed ∧
      Countable maxGas maxBytes (pool.remove addr signed.tx.nonce) (saturatingAdd gas g)
        (saturatingAdd bytes (sizeU32 signed.tx)) := by
  obtain ⟨gasBound,bytesBound⟩ := countable
  have gasLeft := weight_remove gasOf pool addr signed.tx.nonce
  have bytesLeft := weight_remove (fun s => s.tx.encode.length) pool addr signed.tx.nonce
  rw [weightAt,held,Option.elim_some] at gasLeft bytesLeft
  rw [← byteSize_eq,← byteSize_eq] at bytesLeft
  rw [← gasLeft] at gasBound
  rw [← bytesLeft] at bytesBound
  have cost : gasOf signed = g.toNat := by simp only [gasOf,metered]
  have gasTop (x : U64) : x.toNat ≤ 2^64 - 1 := by
    have bound := x.isLt
    omega
  have bytesTop : maxBytes.toNat ≤ 2^32 - 1 := by
    have bound := maxBytes.isLt
    omega
  have gasSum : (saturatingAdd gas g).toNat =
      min (gas.toNat + min (gasOf signed) (2^64 - 1)) (2^64 - 1) := by
    rw [toNat_saturatingAdd,cost,Nat.min_eq_left (gasTop g)]
  have bytesSum : (saturatingAdd bytes (sizeU32 signed.tx)).toNat =
      min (bytes.toNat + min signed.tx.encode.length (2^32 - 1)) (2^32 - 1) := by
    rw [toNat_saturatingAdd,toNat_sizeU32]
  rw [not_or,BitVec.not_lt,BitVec.not_lt,BitVec.le_def,BitVec.le_def,gasSum,bytesSum] at fits
  have gasExact := exact_of_fits (gasTop maxGas) gasBound fits.1
  have bytesExact := exact_of_fits bytesTop bytesBound fits.2
  rw [← gasSum] at gasExact
  rw [← bytesSum] at bytesExact
  refine ⟨⟨gasExact.1,?_,bytesExact.1,?_⟩,?_,?_⟩
  · exact gasExact.1 ▸ gasExact.2.1
  · exact bytesExact.1 ▸ bytesExact.2.1
  · exact gasExact.1 ▸ gasExact.2.2
  · exact bytesExact.1 ▸ bytesExact.2.2

theorem Takes.within (sound : pool.Sound)
    (taken : Takes maxGas maxBytes pool localNonce skip gas bytes out after)
    (countable : Countable maxGas maxBytes pool gas bytes) (gasFits : gas.toNat ≤ maxGas.toNat)
    (bytesFit : bytes.toNat ≤ maxBytes.toNat) : gas.toNat + (out.map gasOf).sum ≤ maxGas.toNat ∧
      bytes.toNat + (out.map fun s => s.tx.encode.length).sum ≤ maxBytes.toNat := by
  induction taken with
  | stop found => exact ⟨gasFits,bytesFit⟩
  | unmetered found fails rest ih => exact ih sound countable gasFits bytesFit
  | passed found metered large rest ih => exact ih sound countable gasFits bytesFit
  | took found metered fits rest ih =>
    have turn := turn_of_peek sound found
    obtain ⟨counted,next⟩ := countable.step turn.held metered fits
    have sums := ih (sound.remove _ _) next counted.gasFits counted.bytesFit
    rw [counted.gas,counted.bytes] at sums
    simp only [List.map_cons,List.sum_cons]
    omega

/-- A transaction that does not fit beside what has been counted. -/
def Excess (maxGas : U64) (maxBytes : U32) (gas bytes : Nat) (s : SignedTx) : Prop :=
  ∀ g, gasMeter s.tx = .ok g →
    maxGas.toNat < gas + g.toNat ∨ maxBytes.toNat < bytes + s.tx.encode.length

omit [Blake3] in
theorem Excess.mono {gas gas' bytes bytes' : Nat} {s : SignedTx} (excess : Excess maxGas maxBytes gas bytes s)
    (more : gas ≤ gas') (more' : bytes ≤ bytes') : Excess maxGas maxBytes gas' bytes' s := by
  intro g metered
  rcases excess g metered with large | large
  · exact .inl (by omega)
  · exact .inr (by omega)

omit [Blake3] in
theorem mem_skip_insert {other : Address} {n m : Nonce} :
    (other,m) ∈ skip.insert (addr,n) ↔ (other = addr ∧ m = n) ∨ (other,m) ∈ skip := by
  rw [Std.ExtTreeSet.mem_insert,Std.LawfulEqCmp.compare_eq_iff_eq,Prod.mk.injEq]
  simp only [eq_comm]

/-- Nothing is left that is next for its sender and would fit. -/
theorem Takes.maximal (sound : pool.Sound)
    (taken : Takes maxGas maxBytes pool localNonce skip gas bytes out after)
    (countable : Countable maxGas maxBytes pool gas bytes)
    (skipped : ∀ (addr : Address) (n : Nonce) (s : SignedTx), (addr,n) ∈ skip →
      (pool.queue addr)[n]? = some s → Excess maxGas maxBytes gas.toNat bytes.toNat s)
    (addr : Address) (n : Nonce) (s : SignedTx)
    (next : n.toNat = ((localNonce[addr]?).getD 0).toNat + (ofSender addr out).length)
    (held : (after.queue addr)[n]? = some s) :
    Excess maxGas maxBytes (gas.toNat + (out.map gasOf).sum)
      (bytes.toNat + (out.map fun s => s.tx.encode.length).sum) s := by
  induction taken with
  | @stop pool localNonce skip gas bytes found =>
    obtain rfl : n = (localNonce[addr]?).getD 0 := BitVec.eq_of_toNat_eq next
    by_cases inSkip : (addr,(localNonce[addr]?).getD 0) ∈ skip
    · exact skipped addr _ s inSkip held
    · intro g metered
      -- it would be a candidate, and the search has found none
      obtain ⟨best,found'⟩ := peek_of_candidate ⟨held,inSkip,feePriority_ok metered⟩
      rw [found] at found'
      cases found'
  | @unmetered pool after localNonce skip gas bytes out addr' signed e found fails rest ih =>
    have turn := turn_of_peek sound found
    refine ih sound countable (fun other m tx listed place => ?_) next held
    rcases mem_skip_insert.mp listed with ⟨rfl,rfl⟩ | before
    · rw [turn.held] at place
      obtain rfl := Option.some.inj place
      intro g metered
      rw [fails] at metered
      cases metered
    · exact skipped other m tx before place
  | @passed pool after localNonce skip gas g bytes out addr' signed found metered large rest ih =>
    have turn := turn_of_peek sound found
    refine ih sound countable (fun other m tx listed place => ?_) next held
    rcases mem_skip_insert.mp listed with ⟨rfl,rfl⟩ | before
    · rw [turn.held] at place
      obtain rfl := Option.some.inj place
      intro g' metered'
      obtain rfl : g = g' := Except.ok.inj (metered.symm.trans metered')
      rw [BitVec.lt_def,BitVec.lt_def,toNat_saturatingAdd,toNat_saturatingAdd,toNat_sizeU32] at large
      rcases large with gasOver | bytesOver
      · exact .inl (gasOver.trans_le (Nat.min_le_left _ _))
      · refine .inr (bytesOver.trans_le ((Nat.min_le_left _ _).trans ?_))
        exact Nat.add_le_add_left (Nat.min_le_left _ _) _
    · exact skipped other m tx before place
  | @took pool after localNonce skip gas g bytes out addr' signed found metered fits rest ih =>
    have turn := turn_of_peek sound found
    obtain ⟨counted,nextCountable⟩ := countable.step turn.held metered fits
    have gasSum := counted.gas
    have bytesSum := counted.bytes
    have left := ih (sound.remove _ _) nextCountable (fun other m tx listed place => ?_) ?_ held
    · simp only [List.map_cons,List.sum_cons]
      exact left.mono (by omega) (by omega)
    · have before := get?_remove pool addr' other signed.tx.nonce m
      rw [place] at before
      split at before
      · cases before
      · exact (skipped other m tx listed before.symm).mono (by omega) (by omega)
    · by_cases same : addr = addr'
      · subst same
        rw [ofSender_cons_same out turn.sender,List.length_cons,← turn.nonce] at next
        rw [Map.get?_insert,if_pos rfl,Option.getD_some,toNat_nextNonce]
        have bound := n.isLt
        omega
      · rw [ofSender_cons_other out fun sender => same (sender.trans turn.sender.symm)] at next
        rw [Map.get?_insert,if_neg same]
        exact next

end Loop

section Reached

variable [Ed25519] [Blake3]

variable {pool : Mempool}

omit [Ed25519] in
theorem Sound.of_below {after : Mempool} (sound : pool.Sound) (below : Below after pool) :
    after.Sound := fun addr n s held => sound addr n s (below addr n s held)

omit [Ed25519] in
theorem Sound.observe (sound : pool.Sound) (addr : Address) (nonce : Nonce) :
    (pool.observeAccount addr nonce).Sound := sound.of_below (below_observeAccount pool addr nonce)

theorem Sound.insert (sound : pool.Sound) (signed : SignedTx) (account : Account) :
    (pool.insert signed account).2.Sound := by
  have seen : (pool.seen signed account).Sound := sound.observe _ _
  have room {e : Except VerifyError Unit} {after : Mempool}
      (made : (pool.seen signed account).ensureRoom signed = (e,after)) : after.Sound := by
    refine seen.of_below fun addr n s held => ?_
    exact @get?_of_ensureRoom (pool.seen signed account) addr s n signed (by rw [made]; exact held)
  have done := insertion pool signed account
  generalize pool.insert signed account = result at done ⊢
  cases done with
  | barred e fails => exact sound
  | underbid e old passes held refused => exact seen
  | outbid old passes held allowed => exact seen.admitted passes.admissible
  | full e after passes absent made => exact room made
  | added after passes absent made => exact (room made).admitted passes.admissible

theorem Sound.next (sound : pool.Sound) (call : Call) : (pool.next call).Sound := by
  cases call with
  | insert signed account => exact sound.insert signed account
  | observe addr nonce => exact sound.observe addr nonce
  | take maxGas maxBytes => exact sound.of_below (below_takeLoop _ _ _ _ _ _ _ _)
  | wire signed account =>
    rcases wireMempool_cases pool signed account with ⟨-,e,result⟩ | ⟨passed,result⟩
    · simp only [Mempool.next,result]
      exact sound
    · simp only [Mempool.next,result]
      exact sound.admitted passed
  | queueInsert signed account =>
    rcases queueInsert_cases pool signed account with ⟨-,e,result⟩ | ⟨passed,result⟩
    · simp only [Mempool.next,result]
      exact sound
    · simp only [Mempool.next,result]
      exact (sound.observe _ _).admitted passed

def Reached (pool : Mempool) : Prop :=
  ∃ minFee maxTxs maxBytes calls, pool = Runs.run next (withLimits minFee maxTxs maxBytes) calls

theorem Reached.sound (reached : Reached pool) : pool.Sound := by
  obtain ⟨minFee,maxTxs,maxBytes,calls,rfl⟩ := reached
  have keeps (pool : Mempool) (call : Call) (sound : pool.Sound) (_ : True) : (pool.next call).Sound :=
    sound.next call
  refine Runs.keep (fun addr n s held => ?_) keeps fun _ _ _ => trivial
  exact absurd ⟨addr,n,held⟩ (not_holds_withLimits minFee maxTxs maxBytes s)

/-- What a block takes from a pool, under limits on gas and bytes. -/
structure Selected (maxGas : U64) (maxBytes : U32) (pool : Mempool) (out : List SignedTx)
    (after : Mempool) : Prop where
  consecutive : ∀ (addr : Address) (i : Nat) (s : SignedTx), (ofSender addr out)[i]? = some s →
    s.tx.nonce.toNat = ((pool.accountNonce[addr]?).getD 0).toNat + i
  metered : ∀ s ∈ out, ∃ g, gasMeter s.tx = .ok g
  gas : (out.map gasOf).sum ≤ maxGas.toNat
  bytes : (out.map fun s => s.tx.encode.length).sum ≤ maxBytes.toNat
  nodup : out.Nodup
  queued : ∀ s ∈ out, (pool.queue (fromEd25519 s.publicKey))[s.tx.nonce]? = some s
  gone : ∀ s ∈ out, (after.queue (fromEd25519 s.publicKey))[s.tx.nonce]? = none
  others : ∀ (addr : Address) (n : Nonce),
    (∀ s ∈ out, ¬ (fromEd25519 s.publicKey = addr ∧ s.tx.nonce = n)) →
    (after.queue addr)[n]? = (pool.queue addr)[n]?
  settings : SameSettings pool after
  maximal : ∀ (addr : Address) (n : Nonce) (s : SignedTx),
    n.toNat = ((pool.accountNonce[addr]?).getD 0).toNat + (ofSender addr out).length →
    (after.queue addr)[n]? = some s →
    Excess maxGas maxBytes (out.map gasOf).sum (out.map fun s => s.tx.encode.length).sum s

omit [Ed25519] in
theorem openings_empty (pool : Mempool) : pool.openings ∅ = pool.txCount := by
  rw [txCount_eq]
  exact weight_congr fun s _ => if_neg (by simp)

/-- The loop ends, with a selection, for every pool that calls lead to and all limits below the
largest values of their types; for a limit at the largest value, the whole pool must stay within it. -/
theorem take_ready_selects (pool : Mempool) (reached : Reached pool) (maxGas : U64) (maxBytes : U32)
    (countable : Countable maxGas maxBytes pool 0 0) :
    Takes maxGas maxBytes pool pool.accountNonce ∅ 0 0 (ReadyTxs.takeReady pool maxGas maxBytes).1
        (ReadyTxs.takeReady pool maxGas maxBytes).2 ∧
      Selected maxGas maxBytes pool (ReadyTxs.takeReady pool maxGas maxBytes).1
        (ReadyTxs.takeReady pool maxGas maxBytes).2 := by
  have sound := reached.sound
  have taken : Takes maxGas maxBytes pool pool.accountNonce ∅ 0 0
      (ReadyTxs.takeReady pool maxGas maxBytes).1 (ReadyTxs.takeReady pool maxGas maxBytes).2 :=
    takes_takeLoop maxGas maxBytes pool.txCount pool pool.accountNonce ∅ 0 0 sound
      (Nat.le_of_eq (openings_empty pool))
  generalize ReadyTxs.takeReady pool maxGas maxBytes = result at taken ⊢
  have zeroGas : (0 : U64).toNat = 0 := rfl
  have zeroBytes : (0 : U32).toNat = 0 := rfl
  have within := taken.within sound countable (Nat.zero_le _) (Nat.zero_le _)
  rw [zeroGas,zeroBytes,Nat.zero_add,Nat.zero_add] at within
  refine ⟨taken,taken.consecutive sound,fun s listed => (taken.queued sound s listed).2,within.1,within.2,
    taken.nodup sound,fun s listed => (taken.queued sound s listed).1,taken.gone sound,
    taken.others sound,taken.settings,fun addr n s next held => ?_⟩
  have left := taken.maximal sound countable (fun _ _ _ listed => absurd listed (by simp)) addr n s next held
  rwa [zeroGas,zeroBytes,Nat.zero_add,Nat.zero_add] at left

end Reached

namespace Sample

attribute [local instance] LoneSigner.blake3 Holdings.Sample.ed25519

theorem reached_paid : Reached paid := ⟨1,10,10000,[.wire (payment 0 10) payer],rfl⟩

/-- A payment is selected under limits that hold it. -/
theorem payment_selected :
    (ReadyTxs.takeReady paid 1000000 10000).1 = [payment 0 10] ∧
      Takes 1000000 10000 paid paid.accountNonce ∅ 0 0 (ReadyTxs.takeReady paid 1000000 10000).1
        (ReadyTxs.takeReady paid 1000000 10000).2 ∧
      Selected 1000000 10000 paid (ReadyTxs.takeReady paid 1000000 10000).1
        (ReadyTxs.takeReady paid 1000000 10000).2 :=
  ⟨by decide +kernel,
    take_ready_selects paid reached_paid 1000000 10000 ⟨.inl (by decide),.inl (by decide)⟩⟩

def bulky (code : Bytes) : SignedTx :=
  ⟨⟨1,0,Spec.gasDeploy,1,.deploy ⟨code⟩⟩,Vector.replicate 64 0,zeroHash⟩

def stuffed (code : Bytes) : Mempool := Runs.run next (withLimits 1 10 10000) [.wire (bulky code) payer]

theorem admissible_bulky (code : Bytes) : Admissible (bulky code) payer where
  verified := rfl
  metered := ⟨Spec.gasDeploy,rfl⟩
  funded := (by decide : 0 + 1 ≤ 100)
  current := Nat.le_refl 0

theorem stuffed_eq (code : Bytes) :
    stuffed code = (withLimits 1 10 10000).admitPreverified (bulky code) (fromEd25519 zeroHash) := by
  have admitted := wireMempool_ok_iff.mpr
    ⟨admissible_bulky code,(rfl : _ = (withLimits 1 10 10000).admitPreverified (bulky code) _)⟩
  simp only [stuffed,Runs.run_singleton,next,admitted]
  rfl

theorem weight_stuffed (w : SignedTx → Nat) (code : Bytes) : (stuffed code).weight w = w (bulky code) := by
  have added := weight_admitPreverified w (withLimits 1 10 10000) (bulky code) (fromEd25519 zeroHash)
  have empty : (withLimits 1 10 10000).weight w = 0 := by
    rw [weight,withLimits,NestedMap.total,Map.total_empty]
  have absent : (withLimits 1 10 10000).weightAt w (fromEd25519 zeroHash) (bulky code).tx.nonce = 0 := by
    simp [weightAt,queue,withLimits]
  rwa [empty,absent,Nat.add_zero,Nat.zero_add,← stuffed_eq] at added

/-- Without limits, that is with the largest ones, everything is taken. -/
theorem bulky_taken (code : Bytes) :
    bulky code ∈ (ReadyTxs.takeReady (stuffed code) (BitVec.allOnes 64) (BitVec.allOnes 32)).1 := by
  have reached : Reached (stuffed code) := ⟨1,10,10000,[.wire (bulky code) payer],rfl⟩
  have held : ((stuffed code).queue (fromEd25519 zeroHash))[(bulky code).tx.nonce]? =
      some (bulky code) := by
    rw [stuffed_eq,get?_admitPreverified,if_pos ⟨rfl,rfl⟩]
  have fresh : (((stuffed code).accountNonce[fromEd25519 zeroHash]?).getD 0) = 0 := by
    rw [stuffed_eq]
    rfl
  refine taken_of_chained _ _ _ _ _ _ _ reached.sound le_rfl ⟨?_,?_⟩ (fromEd25519 zeroHash) _ held ?_ ?_
  · rw [weight_stuffed]
    exact (by decide : 0 + 50000 ≤ 2^64 - 1)
  · rw [weight_stuffed,sizeOf,toNat_sizeU32]
    exact (Nat.zero_add _).trans_le (Nat.min_le_right _ _)
  · rw [fresh]
    exact Nat.le_refl _
  · intro k _ below
    obtain rfl : k = (bulky code).tx.nonce := BitVec.eq_of_toNat_eq (Nat.le_zero.mp below)
    rw [held]
    rfl

theorem length_bulky (code : Bytes) : code.length ≤ (bulky code).tx.encode.length := by
  simp only [bulky,Tx.encode,Encoding.length_encode,Tx.payloadBytes,Tx.variantBytes]
  simp
  omega

/-- A deployment of `2^32` bytes is taken under a limit of one byte less. -/
theorem huge_deployment_taken :
    ∃ pool, Reached pool ∧ (BitVec.allOnes 32).toNat <
      ((ReadyTxs.takeReady pool (BitVec.allOnes 64) (BitVec.allOnes 32)).1.map
        fun s => s.tx.encode.length).sum := by
  refine ⟨stuffed (List.replicate (2^32) 0),⟨1,10,10000,[.wire (bulky _) payer],rfl⟩,?_⟩
  have listed := List.mem_map_of_mem (f := fun s : SignedTx => s.tx.encode.length)
    (bulky_taken (List.replicate (2^32) 0))
  have size := length_bulky (List.replicate (2^32) 0)
  rw [List.length_replicate] at size
  exact lt_of_lt_of_le (lt_of_lt_of_le (by decide) size)
    (List.single_le_sum (fun _ _ => Nat.zero_le _) _ listed)

end Sample
end L1.Mempool
