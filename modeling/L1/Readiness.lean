import L1.Capacity
import L1.Nonces

/-! Which transactions a pool hands out. Gossip does not tell the pool the nonces of accounts, so
it counts every sender from nonce zero, whatever the chain has committed. -/
namespace L1.Mempool

open L1.Seq

def readyAt (pool : Mempool) (localNonce : Map Address Nonce) (addr : Address) : Option SignedTx :=
  (pool.queue addr)[(localNonce[addr]?).getD 0]?

/-- A ready transaction that is not skipped and has a priority. -/
structure Candidate (pool : Mempool) (localNonce : Map Address Nonce)
    (skip : OrdSet (Address × Nonce)) (addr : Address) (signed : SignedTx) : Prop where
  ready : pool.readyAt localNonce addr = some signed
  kept : (addr,(localNonce[addr]?).getD 0) ∉ skip
  priced : ∃ p, feePriority signed.tx = .ok p

section Search

variable {pool : Mempool} {localNonce : Map Address Nonce} {skip : OrdSet (Address × Nonce)}

variable {addr : Address} {signed : SignedTx}

theorem readyAt_of_entry {q : Map Nonce SignedTx} (below : pool.queued[addr]? = some q) :
    pool.readyAt localNonce addr = q[(localNonce[addr]?).getD 0]? := by
  rw [readyAt,queue,below]
  rfl

variable (localNonce skip) in
def offer (entry : Address × Map Nonce SignedTx) : Option (U128 × Address × SignedTx) :=
  match entry.2[(localNonce[entry.1]?).getD 0]? with
  | none => none
  | some signed =>
    if (entry.1,(localNonce[entry.1]?).getD 0) ∈ skip then none
    else match feePriority signed.tx with
      | .error _ => none
      | .ok p => some (p,entry.1,signed)

def outbids (x y : U128 × Address × SignedTx) : Bool :=
  decide (y.1 < x.1) || (decide (x.1 = y.1) && (compare x.2.1 y.2.1).isLT)

theorem consider_eq : consider localNonce skip = Search.scan outbids (offer localNonce skip) := by
  funext best entry
  unfold consider Search.scan offer
  dsimp only
  cases entry.2[(localNonce[entry.1]?).getD 0]? with
  | none => rfl
  | some signed =>
    by_cases passed : (entry.1,(localNonce[entry.1]?).getD 0) ∈ skip
    · simp only [passed,if_true]
    · simp only [passed,if_false]
      cases feePriority signed.tx with
      | error e => rfl
      | ok p => cases best <;> rfl

theorem outbids_irrefl (x : U128 × Address × SignedTx) : outbids x x = false := by
  simp [outbids,Std.ReflOrd.compare_self]

theorem outbids_trans (x y z : U128 × Address × SignedTx) (first : outbids x y = true)
    (second : outbids y z = true) : outbids x z = true := by
  simp only [outbids,Bool.or_eq_true,Bool.and_eq_true,decide_eq_true_eq,
    Ordering.isLT_iff_eq_lt] at *
  rcases first with above | ⟨same,before⟩
  · left
    rcases second with above' | ⟨same',-⟩
    · exact BitVec.lt_trans above' above
    · exact same' ▸ above
  · rcases second with above' | ⟨same',before'⟩
    · left
      exact same ▸ above'
    · exact .inr ⟨same.trans same',Std.TransCmp.lt_trans before before'⟩

/-- The offers are the candidates, with their priorities. -/
theorem offered_iff {x : U128 × Address × SignedTx} :
    (∃ entry ∈ pool.queued.toList, offer localNonce skip entry = some x) ↔
      Candidate pool localNonce skip x.2.1 x.2.2 ∧ feePriority x.2.2.tx = .ok x.1 := by
  constructor
  · rintro ⟨⟨addr,q⟩,listed,made⟩
    have below := Std.ExtTreeMap.mem_toList_iff_getElem?_eq_some.mp listed
    unfold offer at made
    split at made
    · cases made
    rename_i signed found
    split at made
    · cases made
    rename_i kept
    split at made
    · cases made
    rename_i p priced
    cases made
    exact ⟨⟨(readyAt_of_entry below).trans found,kept,p,priced⟩,priced⟩
  · rintro ⟨candidate,priced⟩
    have ready := candidate.ready
    cases below : pool.queued[x.2.1]? with
    | none =>
      rw [readyAt,queue,below] at ready
      simp at ready
    | some q =>
      rw [readyAt_of_entry below] at ready
      refine ⟨(x.2.1,q),Std.ExtTreeMap.mem_toList_iff_getElem?_eq_some.mpr below,?_⟩
      simp only [offer,ready,candidate.kept,if_false,priced]

theorem peek_best : Search.Best outbids (pool.queued.toList.foldl (consider localNonce skip) none)
      (fun x => Candidate pool localNonce skip x.2.1 x.2.2 ∧ feePriority x.2.2.tx = .ok x.1) := by
  rw [consider_eq]
  exact (Search.best_foldl outbids_irrefl outbids_trans _).congr fun x => offered_iff

theorem candidate_of_peek (found : pool.peekBestReady localNonce skip = some (addr,signed)) :
    Candidate pool localNonce skip addr signed := by
  obtain ⟨b,best,same⟩ := Option.map_eq_some_iff.mp found
  have candidate := (peek_best.offered b best).1
  rw [same] at candidate
  exact candidate

theorem peek_of_candidate (candidate : Candidate pool localNonce skip addr signed) :
    ∃ found, pool.peekBestReady localNonce skip = some found := by
  obtain ⟨p,priced⟩ := candidate.priced
  cases best : pool.queued.toList.foldl (consider localNonce skip) none with
  | none => exact absurd ⟨candidate,priced⟩ (peek_best.found best (p,addr,signed))
  | some b => exact ⟨b.2,by rw [peekBestReady,best]; rfl⟩

theorem Candidate.nonce (candidate : Candidate pool localNonce skip addr signed) :
    signed.tx.nonce = (localNonce[addr]?).getD 0 := by
  have ready := candidate.ready
  unfold readyAt queue at ready
  cases below : pool.queued[addr]? with
  | none => simp [below] at ready
  | some q =>
    rw [below] at ready
    exact pool.keyed addr q _ signed below ready

end Search

/-- All nonces of a sender from a first to a last are queued. -/
def Chained (pool : Mempool) (addr : Address) (first last : Nonce) : Prop :=
  ∀ k : Nonce, first.toNat ≤ k.toNat → k.toNat ≤ last.toNat → ((pool.queue addr)[k]?).isSome = true

/-- What is handed out stood at the end of such a chain. -/
theorem chained_of_taken (maxGas : U64) (maxBytes : U32) (fuel : Nat) (pool : Mempool)
    (localNonce : Map Address Nonce) (skip : OrdSet (Address × Nonce)) (gas : U64) (bytes : U32)
    (signed : SignedTx)
    (taken : signed ∈ (takeLoop maxGas maxBytes fuel pool localNonce skip gas bytes).1) :
    ∃ addr, (pool.queue addr)[signed.tx.nonce]? = some signed ∧
      Chained pool addr ((localNonce[addr]?).getD 0) signed.tx.nonce := by
  revert taken
  refine takeLoop_rule (P := fun pool localNonce _ _ _ result => signed ∈ result.1 →
    ∃ addr, (pool.queue addr)[signed.tx.nonce]? = some signed ∧
      Chained pool addr ((localNonce[addr]?).getD 0) signed.tx.nonce) ?_ ?_ ?_
    fuel pool localNonce skip gas bytes
  · intro _ _ _ _ _ taken
    cases taken
  · exact fun _ _ _ _ _ _ _ rest => rest
  intro pool localNonce skip gas bytes addr first g result found _ _ ih taken
  have candidate := candidate_of_peek found
  have nonce := candidate.nonce
  have ready := candidate.ready
  rw [readyAt,← nonce] at ready
  rcases List.mem_cons.mp taken with rfl | later
  · refine ⟨addr,ready,fun k above below => ?_⟩
    rw [← nonce] at above
    obtain rfl : k = signed.tx.nonce := BitVec.eq_of_toNat_eq (by omega)
    rw [ready]
    rfl
  · -- A later one of the same sender continues the chain of the first.
    obtain ⟨other,held,chain⟩ := ih later
    rw [get?_remove] at held
    split at held
    · cases held
    refine ⟨other,held,fun k above below => ?_⟩
    by_cases here : other = addr ∧ k = first.tx.nonce
    · rw [here.1,here.2,ready]
      rfl
    · have kept := chain k ?_ below
      · rwa [get?_remove,if_neg here] at kept
      · rw [Map.get?_insert]
        by_cases same : other = addr
        · have next := toNat_nextNonce first.tx.nonce
          have bound := k.isLt
          have apart : k.toNat ≠ first.tx.nonce.toNat := fun equal =>
            here ⟨same,BitVec.eq_of_toNat_eq equal⟩
          rw [same,← nonce] at above
          rw [if_pos same,Option.getD_some]
          omega
        · rwa [if_neg same]

def gasOf (signed : SignedTx) : Nat :=
  match gasMeter signed.tx with
  | .ok gas => gas.toNat
  | .error _ => 0

def sizeOf (signed : SignedTx) : Nat := (sizeU32 signed.tx).toNat

/-- Limits for all that is in the pool, on top of what has been used. -/
structure Ample (maxGas : U64) (maxBytes : U32) (pool : Mempool) (gas : U64) (bytes : U32) : Prop where
  gas : gas.toNat + pool.weight gasOf ≤ maxGas.toNat
  bytes : bytes.toNat + pool.weight sizeOf ≤ maxBytes.toNat

def Sound [Blake3] (pool : Mempool) : Prop :=
  ∀ (addr : Address) (nonce : Nonce) (signed : SignedTx), (pool.queue addr)[nonce]? = some signed →
    (∃ gas, gasMeter signed.tx = .ok gas) ∧ addr = fromEd25519 signed.publicKey

theorem Sound.remove [Blake3] {pool : Mempool} (sound : pool.Sound) (addr : Address) (nonce : Nonce) :
    (pool.remove addr nonce).Sound := by
  intro other n signed held
  rw [get?_remove] at held
  split at held
  · cases held
  · exact sound other n signed held

theorem Sound.admitted [Ed25519] [Blake3] {pool : Mempool} (sound : pool.Sound) {signed : SignedTx}
    {account : Account} (passed : Admissible signed account) :
    (pool.admitPreverified signed (fromEd25519 signed.publicKey)).Sound := by
  intro addr nonce other held
  rw [get?_admitPreverified] at held
  split at held
  · rename_i here
    cases held
    exact ⟨passed.metered,here.1⟩
  · exact sound addr nonce other held

theorem feePriority_ok {tx : Tx} {gas : U64} (metered : gasMeter tx = .ok gas) :
    ∃ p, feePriority tx = .ok p := by
  simp only [feePriority,metered]
  exact ⟨_,rfl⟩

theorem toNat_saturatingAdd_of_le {w : Nat} {a b c : BitVec w} (fits : a.toNat + b.toNat ≤ c.toNat) :
    (saturatingAdd a b).toNat = a.toNat + b.toNat := by
  have bound := c.isLt
  rw [toNat_saturatingAdd]
  omega

theorem toNat_nextNonce_of_lt {n m : Nonce} (below : n.toNat < m.toNat) :
    (nextNonce n).toNat = n.toNat + 1 := by
  have bound := m.isLt
  rw [toNat_nextNonce]
  omega

/-- With ample limits the transaction at the end of a chain is handed out. -/
theorem taken_of_chained [Blake3] (maxGas : U64) (maxBytes : U32) (fuel : Nat) (pool : Mempool)
    (localNonce : Map Address Nonce) (gas : U64) (bytes : U32) (sound : pool.Sound)
    (enough : pool.txCount ≤ fuel) (ample : Ample maxGas maxBytes pool gas bytes) (addr : Address)
    (signed : SignedTx) (held : (pool.queue addr)[signed.tx.nonce]? = some signed)
    (due : ((localNonce[addr]?).getD 0).toNat ≤ signed.tx.nonce.toNat)
    (chain : Chained pool addr ((localNonce[addr]?).getD 0) signed.tx.nonce) :
    signed ∈ (takeLoop maxGas maxBytes fuel pool localNonce ∅ gas bytes).1 := by
  induction fuel generalizing pool localNonce gas bytes with
  | zero =>
    have removed := txCount_remove held
    omega
  | succ fuel ih =>
    -- The sender itself has a candidate, so the search finds one.
    obtain ⟨ready,atTurn⟩ := Option.isSome_iff_exists.mp (chain _ le_rfl due)
    obtain ⟨⟨gas',metered⟩,-⟩ := sound addr _ ready atTurn
    have turn : Candidate pool localNonce ∅ addr ready := ⟨atTurn,by simp,feePriority_ok metered⟩
    obtain ⟨⟨other,first⟩,found⟩ := peek_of_candidate turn
    have candidate := candidate_of_peek found
    have nonce := candidate.nonce
    have here := candidate.ready
    rw [readyAt,← nonce] at here
    obtain ⟨⟨g,costs⟩,-⟩ := sound other _ first here
    have gasLeft := weight_remove gasOf pool other first.tx.nonce
    have bytesLeft := weight_remove sizeOf pool other first.tx.nonce
    have count := txCount_remove here
    simp only [weightAt,here,Option.elim_some] at gasLeft bytesLeft
    have cost : gasOf first = g.toNat := by simp only [gasOf,costs]
    have gasFits := ample.gas
    have bytesFit := ample.bytes
    have gasSum : (saturatingAdd gas g).toNat = gas.toNat + g.toNat :=
      toNat_saturatingAdd_of_le (c := maxGas) (by omega)
    have bytesSum : (saturatingAdd bytes (sizeU32 first.tx)).toNat = bytes.toNat + sizeOf first :=
      toNat_saturatingAdd_of_le (c := maxBytes) (by unfold sizeOf at *; omega)
    have within : ¬ (maxGas < saturatingAdd gas g ∨ maxBytes < saturatingAdd bytes (sizeU32 first.tx)) := by
      rw [BitVec.lt_def,BitVec.lt_def]
      omega
    rw [takeLoop]
    simp only [found,costs,if_neg within]
    have ample' : Ample maxGas maxBytes (pool.remove other first.tx.nonce) (saturatingAdd gas g)
        (saturatingAdd bytes (sizeU32 first.tx)) := ⟨by omega,by omega⟩
    by_cases same : other = addr
    · subst same
      by_cases last : first.tx.nonce = signed.tx.nonce
      · rw [last,held] at here
        cases here
        exact List.mem_cons_self
      · rw [← nonce] at due chain
        have below : first.tx.nonce.toNat < signed.tx.nonce.toNat :=
          lt_of_le_of_ne due fun same => last (BitVec.eq_of_toNat_eq same)
        have next := toNat_nextNonce_of_lt below
        refine List.mem_cons_of_mem _ (ih _ _ _ _ (sound.remove other first.tx.nonce) (by omega) ample'
          ?_ ?_ ?_)
        · rw [queue_remove,if_pos rfl,Map.get?_erase,if_neg (Ne.symm last)]
          exact held
        · rw [Map.get?_insert,if_pos rfl,Option.getD_some]
          omega
        · intro k above below
          rw [Map.get?_insert,if_pos rfl,Option.getD_some] at above
          have past : first.tx.nonce.toNat < k.toNat := by omega
          have apart : k ≠ first.tx.nonce := fun same => absurd (congrArg BitVec.toNat same) past.ne'
          rw [queue_remove,if_pos rfl,Map.get?_erase,if_neg apart]
          exact chain k past.le below
    · refine List.mem_cons_of_mem _ (ih _ _ _ _ (sound.remove other first.tx.nonce) (by omega) ample' ?_ ?_ ?_)
      · rw [queue_remove,if_neg (Ne.symm same)]
        exact held
      · rw [Map.get?_insert,if_neg (Ne.symm same)]
        exact due
      · intro k above below
        rw [Map.get?_insert,if_neg (Ne.symm same)] at above
        rw [queue_remove,if_neg (Ne.symm same)]
        exact chain k above below

/-! A node whose pool is fed by gossip alone. -/

section Node

variable [Ed25519] [Blake3] [Wasm]

structure Gossiped where
  pool : Mempool
  world : World

inductive Gossiped.Event where
  | gossip (signed : SignedTx)
  | take (maxGas : U64) (maxBytes : U32)
  | commit (txs : List SignedTx)

/-- A transaction is checked against the account of its sender; any block may be committed. -/
def Gossiped.next (s : Gossiped) : Gossiped.Event → Gossiped
  | .gossip signed =>
    let account := match senderAddress signed with
      | .ok addr => s.world.account addr
      | .error _ => .empty
    match wireMempool signed account s.pool with
    | .ok pool => { s with pool }
    | .error _ => s
  | .take maxGas maxBytes => { s with pool := (ReadyTxs.takeReady s.pool maxGas maxBytes).2 }
  | .commit txs => match applyTxs s.world txs with
    | none => s
    | some (world,_) => { s with world }

/-- No account has been observed, and the pool is sound. -/
structure Unobserved (pool : Mempool) : Prop where
  nonces : pool.accountNonce = ∅
  sound : pool.Sound

omit [Ed25519] [Wasm] in
theorem Unobserved.remove {pool : Mempool} (unobserved : pool.Unobserved) (addr : Address)
    (nonce : Nonce) : (pool.remove addr nonce).Unobserved :=
  ⟨unobserved.nonces,unobserved.sound.remove addr nonce⟩

omit [Ed25519] [Wasm] in
theorem Unobserved.takeLoop {pool : Mempool} (unobserved : pool.Unobserved) (maxGas : U64)
    (maxBytes : U32) (fuel : Nat) (localNonce : Map Address Nonce) (skip : OrdSet (Address × Nonce))
    (gas : U64) (bytes : U32) :
    (takeLoop maxGas maxBytes fuel pool localNonce skip gas bytes).2.Unobserved := by
  revert unobserved
  refine takeLoop_rule (P := fun pool _ _ _ _ result => pool.Unobserved → result.2.Unobserved) ?_ ?_ ?_
    fuel pool localNonce skip gas bytes
  · exact fun _ _ _ _ _ unobserved => unobserved
  · exact fun _ _ _ _ _ _ _ rest => rest
  · exact fun _ _ _ _ _ _ _ _ _ _ _ _ rest unobserved => rest (unobserved.remove _ _)

omit [Wasm] in
theorem Unobserved.wire {pool : Mempool} (unobserved : pool.Unobserved) {signed : SignedTx}
    {account : Account} (passed : Admissible signed account) :
    (pool.admitPreverified signed (fromEd25519 signed.publicKey)).Unobserved where
  nonces := unobserved.nonces
  sound := unobserved.sound.admitted passed

theorem Unobserved.next {s : Gossiped} (unobserved : s.pool.Unobserved) (e : Gossiped.Event) :
    (s.next e).pool.Unobserved := by
  cases e with
  | gossip signed =>
    unfold Gossiped.next
    dsimp only
    generalize (match senderAddress signed with
      | .ok addr => s.world.account addr
      | .error _ => Account.empty) = account
    rcases wireMempool_cases s.pool signed account with ⟨-,e,result⟩ | ⟨passed,result⟩
    · rw [result]
      exact unobserved
    · rw [result]
      exact unobserved.wire passed
  | take maxGas maxBytes => exact unobserved.takeLoop ..
  | commit txs =>
    unfold Gossiped.next
    dsimp only
    split
    · exact unobserved
    · exact unobserved

theorem unobserved_run (minFee : U128) (maxTxs maxBytes : Nat) (world : World)
    (events : List Gossiped.Event) :
    (Runs.run Gossiped.next ⟨withLimits minFee maxTxs maxBytes,world⟩ events).pool.Unobserved := by
  have keeps (s : Gossiped) (e : Gossiped.Event) (unobserved : s.pool.Unobserved) (_ : True) :
      (s.next e).pool.Unobserved := unobserved.next e
  refine Runs.keep ⟨rfl,?_⟩ keeps fun _ _ _ => trivial
  intro addr nonce signed held
  exact absurd ⟨addr,nonce,held⟩ (not_holds_withLimits minFee maxTxs maxBytes signed)

/-- In every state of such a node, a queued transaction is handed out under ample limits exactly if
all lower nonces of its sender, from zero on, are queued too. What the chain has committed does not
count. -/
theorem includable_iff (minFee : U128) (maxTxs maxBytes : Nat) (world : World)
    (events : List Gossiped.Event) (signed : SignedTx) (gasLimit : U64) (byteLimit : U32) :
    let s := Runs.run Gossiped.next ⟨withLimits minFee maxTxs maxBytes,world⟩ events
    let sender := fromEd25519 signed.publicKey
    (s.pool.queue sender)[signed.tx.nonce]? = some signed →
    Ample gasLimit byteLimit s.pool 0 0 →
    (signed ∈ (ReadyTxs.takeReady s.pool gasLimit byteLimit).1 ↔
      ∀ k : Nonce, k.toNat < signed.tx.nonce.toNat → ((s.pool.queue sender)[k]?).isSome = true) := by
  intro s sender held ample
  obtain ⟨nonces,sound⟩ := unobserved_run minFee maxTxs maxBytes world events
  have first (addr : Address) : ((s.pool.accountNonce[addr]?).getD 0).toNat = 0 := by
    rw [nonces]
    simp
  constructor
  · intro taken k below
    obtain ⟨addr,place,chain⟩ := chained_of_taken _ _ _ _ _ _ _ _ _ taken
    obtain rfl : addr = sender := (sound addr _ signed place).2
    exact chain k (by rw [first]; omega) below.le
  · intro chain
    refine taken_of_chained _ _ _ _ _ _ _ sound le_rfl ample sender signed held (by rw [first]; omega) ?_
    intro k _ below
    rcases below.lt_or_eq with lower | same
    · exact chain k lower
    · rw [BitVec.eq_of_toNat_eq same,held]
      rfl

end Node

namespace Sample

attribute [local instance] Holdings.Sample.wasm LoneSigner.blake3 Holdings.Sample.ed25519

def richWorld : World := .fromGenesis {
  chainId := 1
  alloc := Std.ExtTreeMap.ofList [(fromEd25519 zeroHash,⟨100,0,zeroHash⟩)] compare }

def fed (events : List Gossiped.Event) : Gossiped :=
  Runs.run Gossiped.next ⟨withLimits 1 10 10000,richWorld⟩ events

/-- The first transaction of a sender is handed out. -/
theorem first_nonce_taken :
    payment 0 1 ∈ (ReadyTxs.takeReady (fed [.gossip (payment 0 1)]).pool 1000000 10000).1 := by
  refine (includable_iff 1 10 10000 richWorld [.gossip (payment 0 1)] (payment 0 1) 1000000 10000 ?_
    ⟨?_,?_⟩).mpr fun k below => absurd below (Nat.not_lt_zero _)
  · decide +kernel
  · decide +kernel
  · decide +kernel

/-- The first transaction is taken and committed. The second then has the nonce of the account, and
is in the pool for good. -/
def committed : List Gossiped.Event :=
  [.gossip (payment 0 1),.take 1000000 10000,.commit [payment 0 1],.gossip (payment 1 1)]

theorem second_nonce_stuck :
    ((fed committed).pool.queue (fromEd25519 zeroHash))[(payment 1 1).tx.nonce]? = some (payment 1 1) ∧
      ((fed committed).world.account (fromEd25519 zeroHash)).nonce = (payment 1 1).tx.nonce ∧
      Ample 1000000 10000 (fed committed).pool 0 0 ∧
      (ReadyTxs.takeReady (fed committed).pool 1000000 10000).1 = [] := by
  refine ⟨by decide +kernel,by decide +kernel,⟨?_,?_⟩,by decide +kernel⟩
  · decide +kernel
  · decide +kernel

end Sample
end L1.Mempool
