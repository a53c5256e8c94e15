import L1.FailedSync
import L1.Totality

/-! What a catch-up does with the offers it gets: exactly when it succeeds, fails or stops. -/
namespace L1

open Codec Blocks Replay

namespace BodyOffer

variable [Blake3]

def Passes (offer : BodyOffer) : Prop := ingestBlock offer.header offer.block offer.receipts = .ok ()

def Counted (offer : BodyOffer) : Prop := offer.block.txs.length = offer.receipts.length

instance : DecidablePred Passes := fun offer =>
  inferInstanceAs (Decidable (ingestBlock offer.header offer.block offer.receipts = .ok ()))

instance : DecidablePred Counted := fun offer =>
  inferInstanceAs (Decidable (offer.block.txs.length = offer.receipts.length))

end BodyOffer

/-! Replay stops where an execution does, or behind the last height of all. -/
namespace Replay

variable {W R : Type} {apply : W → Block → Option (W × List R × Hash)} {ok : W → Prop}

/-- Every block can be applied to every world of a kind, and leads to one of that kind. -/
def Total (apply : W → Block → Option (W × List R × Hash)) (ok : W → Prop) : Prop :=
  ∀ world block, ok world → ∃ next receipts app, apply world block = some (next,receipts,app) ∧ ok next

theorem replayOne_total (total : Total apply ok) (store : Store) (h : Nat) {world : W} (good : ok world) :
    replayOne apply store h world ≠ none ∧
      ∀ r, replayOne apply store h world = some (.ok r) → ok r.1 := by
  constructor
  · unfold replayOne
    dsimp only
    split
    · simp
    · simp
    rename_i block _
    obtain ⟨next,receipts,app,applied,-⟩ := total world block good
    split
    · simp
    · simp
    · rw [applied]
      dsimp only
      split <;> simp
  · intro r done
    obtain ⟨block,-,-,receipts,applied⟩ := replayOne_ok_iff.mp done
    obtain ⟨next,receipts',app,again,after⟩ := total world block good
    rw [applied] at again
    cases again
    exact after

theorem execute_ok (total : Total apply ok) {world : W} {app : Hash} {steps : List (Block × Hash)}
    {r : W × Hash} (good : ok world) (ran : execute apply world app steps = some r) : ok r.1 := by
  induction steps generalizing world app with
  | nil =>
    cases ran
    exact good
  | cons step rest ih =>
    obtain ⟨next,receipts,got,applied,after⟩ := total world step.1 good
    rw [execute,applied] at ran
    dsimp only at ran
    split at ran
    · exact ih after ran
    · cases ran

/-- The next blocks of the store can be read, and execute to their hashes. -/
def Replayable (apply : W → Block → Option (W × List R × Hash)) (store : Store) (n h : Nat) (world : W)
    (app : Hash) : Prop :=
  ∃ steps r, steps.length = n ∧ Reads store h steps ∧ execute apply world app steps = some r

theorem replayable_succ {store : Store} {n h : Nat} {world : W} {app : Hash} :
    Replayable apply store (n + 1) h world app ↔ ∃ world' app',
      replayOne apply store h world = some (.ok (world',app')) ∧
        Replayable apply store n (h + 1) world' app' := by
  constructor
  · rintro ⟨steps,r,length,reads,ran⟩
    cases steps with
    | nil => cases length
    | cons first rest =>
      obtain ⟨block,expected⟩ := first
      obtain ⟨⟨body,stored⟩,later⟩ := reads_cons.mp reads
      rw [execute] at ran
      split at ran
      · cases ran
      rename_i next receipts got applied
      split at ran
      · rename_i same
        subst expected
        exact ⟨next,got,replayOne_ok_iff.mpr ⟨block,body,stored,receipts,applied⟩,rest,r,
          by simpa using length,later,ran⟩
      · cases ran
  · rintro ⟨next,got,one,rest,r,length,later,ran⟩
    obtain ⟨block,body,stored,receipts,applied⟩ := replayOne_ok_iff.mp one
    refine ⟨(block,got) :: rest,r,by simp [length],reads_cons.mpr ⟨⟨body,stored⟩,later⟩,?_⟩
    simp only [execute,applied,if_true,ran]

theorem replayBlocks_none_iff (total : Total apply ok) {store : Store} {n h : Nat} {world : W} {app : Hash}
    (good : ok world) (bound : h + n ≤ 2^64) : replayBlocks apply store n h world app = none ↔
      0 < n ∧ h + n = 2^64 ∧ Replayable apply store n h world app := by
  induction n generalizing h world app with
  | zero => simp [replayBlocks]
  | succ n ih =>
    obtain ⟨never,after⟩ := replayOne_total total store h good
    rw [replayBlocks,replayable_succ]
    cases one : replayOne apply store h world with
    | none => exact absurd one never
    | some result =>
      cases result with
      | error e => simp
      | ok r =>
        obtain ⟨next,got⟩ := r
        by_cases inside : h + 1 < 2^64
        · have later : replayBlocks apply store n (h + 1) next got = none ↔ _ := ih (after _ one) (by omega)
          simp only [if_pos inside,later]
          constructor
          · rintro ⟨-,last,rest⟩
            exact ⟨by omega,by omega,next,got,rfl,rest⟩
          · rintro ⟨-,last,next',got',same,rest⟩
            cases same
            exact ⟨by omega,by omega,rest⟩
        · -- the counter has no next height
          obtain rfl : n = 0 := by omega
          simp only [if_neg inside,true_iff]
          exact ⟨by omega,by omega,next,got,rfl,[],(next,got),rfl,reads_nil,rfl⟩

end Replay

/-- Replay of a stored chain stops only if the chain fills all heights. -/
theorem Keeps.replay_none_iff [Blake3] {g : Genesis} {store : Store} {chain : List BodyOffer} {W R : Type}
    {apply : W → Block → Option (W × List R × Hash)} {ok : W → Prop} (total : Total apply ok)
    (kept : Keeps g store chain) {world : W} (good : ok world) :
    replayFromGenesis apply store g world = none ↔
      chain.length = 2^64 ∧ (∀ offer ∈ chain, offer.BodyFits) ∧
        ∃ r, execute apply world g.hash (chain.map BodyOffer.step) = some r := by
  have hash := getGenesisHash_stored kept.genesis
  have height := kept.tip_eq
  have bound := kept.length_le
  simp only [replayFromGenesis,hash,height,ne_eq,not_true_eq_false,if_false]
  cases count : chain.length with
  | zero => simp
  | succ n =>
    rw [count] at bound
    have last : (BitVec.ofNat 64 n).toNat = n := by
      rw [BitVec.toNat_ofNat,Nat.mod_eq_of_lt (by omega)]
    dsimp only
    rw [last,replayBlocks_none_iff total good (by omega)]
    constructor
    · rintro ⟨-,full,steps,r,length,reads,ran⟩
      obtain ⟨fits,rfl⟩ := kept.eq_of_reads (length.trans count.symm) reads
      exact ⟨by omega,fits,r,ran⟩
    · rintro ⟨full,fits,r,ran⟩
      exact ⟨by omega,by omega,_,r,by rw [List.length_map,count],kept.reads fits,ran⟩

namespace Sync

section Gate

variable [Blake3]

def Contiguous (bodies : List BodyOffer) : Prop :=
  ∀ (i : Nat) (offer : BodyOffer), bodies[i]? = some offer → offer.header.fields.height.toNat = i

/-- The gate lets an offer through that has not one receipt for each transaction, and none before it
is turned down. -/
def Miscounted (bodies : List BodyOffer) : Prop :=
  ∃ before offer after, bodies = before ++ offer :: after ∧ (∀ o ∈ before, o.Passes) ∧
    offer.Passes ∧ ¬ offer.Counted

def Storable (bodies : List BodyOffer) : Prop := ∀ offer ∈ bodies, offer.Passes ∧ offer.Counted

theorem miscounted_cons {offer : BodyOffer} {rest : List BodyOffer} :
    Miscounted (offer :: rest) ↔ offer.Passes ∧ (¬ offer.Counted ∨ Miscounted rest) := by
  constructor
  · rintro ⟨before,bad,after,split,passed,here,uncounted⟩
    cases before with
    | nil =>
      cases split
      exact ⟨here,.inl uncounted⟩
    | cons first before =>
      cases split
      obtain ⟨first,others⟩ := List.forall_mem_cons.mp passed
      exact ⟨first,.inr ⟨before,bad,after,rfl,others,here,uncounted⟩⟩
  · rintro ⟨passed,uncounted | ⟨before,bad,after,rfl,others,here,uncounted⟩⟩
    · exact ⟨[],offer,rest,rfl,by simp,passed,uncounted⟩
    · exact ⟨offer :: before,bad,after,rfl,List.forall_mem_cons.mpr ⟨passed,others⟩,here,uncounted⟩

variable {store : Store} {bodies : List BodyOffer}

theorem Storable.not_miscounted (storable : Storable bodies) : ¬ Miscounted bodies := by
  rintro ⟨before,offer,after,rfl,-,-,uncounted⟩
  exact uncounted (storable offer (by simp)).2

theorem acceptBodies_none_iff : acceptBodies store bodies = none ↔ Miscounted bodies := by
  induction bodies generalizing store with
  | nil =>
    refine ⟨fun stopped => (by cases stopped),?_⟩
    rintro ⟨before,offer,after,split,-⟩
    simp at split
  | cons offer rest ih =>
    rw [miscounted_cons,acceptBodies,BodyOffer.Passes]
    cases gate : ingestBlock offer.header offer.block offer.receipts with
    | error e => simp
    | ok _ =>
      by_cases counted : offer.block.txs.length = offer.receipts.length
      · simp [putBlock,counted,ih,BodyOffer.Counted]
      · simp [putBlock,counted,BodyOffer.Counted]

def stored (store : Store) (bodies : List BodyOffer) : Store :=
  bodies.foldl (fun store offer => applyBatch store (offerOps offer)) store

theorem acceptBodies_ok_iff {store' : Store} : acceptBodies store bodies = some (.ok (),store') ↔
      Storable bodies ∧ store' = stored store bodies := by
  induction bodies generalizing store with
  | nil => simp [acceptBodies,Storable,stored,eq_comm]
  | cons offer rest ih =>
    rw [Storable,List.forall_mem_cons,acceptBodies,BodyOffer.Passes]
    cases gate : ingestBlock offer.header offer.block offer.receipts with
    | error e => simp
    | ok _ =>
      by_cases counted : offer.block.txs.length = offer.receipts.length
      · simp [putBlock,counted,ih,BodyOffer.Counted,Storable,stored,offerOps]
      · simp [putBlock,counted,BodyOffer.Counted]

theorem persistAll_storable (storable : Storable bodies) :
    persistAll store bodies = some (.ok (),bodies.foldl persisted store) := by
  induction bodies generalizing store with
  | nil => rfl
  | cons offer rest ih =>
    obtain ⟨⟨passed,counted⟩,others⟩ := List.forall_mem_cons.mp storable
    rw [BodyOffer.Passes] at passed
    rw [BodyOffer.Counted] at counted
    simp only [persistAll,persistThenBroadcast,passed,putBlock,counted,ne_eq,not_true_eq_false,if_false]
    exact ih others

structure Readable (store : Store) : Prop where
  headers : ∀ h, ∃ found, getHeader store h = .ok found
  tip : ∃ found, tip store = .ok found

omit [Blake3] in
theorem readable_empty : Readable ∅ := ⟨fun _ => ⟨none,rfl⟩,none,rfl⟩

theorem get?_putHeader (store : Store) (header : Header) (key : StoreKey) (primary : ¬ Secondary key) :
    (putHeader store header)[key.bytes]? =
      if key = .header header.fields.height then some header.hashPreimage else store[key.bytes]? := by
  have apart : StoreKey.headerHash header.hash ≠ key := fun same => primary (same ▸ trivial)
  have last := last_cons_put (.header header.fields.height) key header.hashPreimage
    [.put (StoreKey.headerHash header.hash).bytes (toBeBytes 8 header.fields.height)]
  rw [last_cons_put (.headerHash header.hash) key,if_neg apart] at last
  refine (Batch.get?_run store (putHeaderOps header) key.bytes).trans ?_
  rw [show Batch.last key.bytes (putHeaderOps header) = _ from last]
  by_cases same : StoreKey.header header.fields.height = key
  · simp [← same,Batch.last]
  · simp [same,Ne.symm same,Batch.last]

theorem getHeader_putHeader (store : Store) (header : Header) (h : Height) :
    getHeader (putHeader store header) h =
      if h = header.fields.height then .ok (some header) else getHeader store h := by
  have found : (putHeader store header)[headerHeightKey h]? = _ := get?_putHeader store header (.header h) id
  by_cases same : h = header.fields.height
  · rw [if_pos (by rw [same])] at found
    rw [if_pos same]
    simp only [getHeader,found,headerFromPreimage_hashPreimage]
  · rw [if_neg (by simpa using same)] at found
    rw [if_neg same,getHeader,getHeader,found]
    rfl

theorem tip_putHeader (store : Store) (header : Header) : tip (putHeader store header) = tip store := by
  have found : (putHeader store header)[keyTip]? = _ := get?_putHeader store header .tip id
  rw [if_neg (by simp)] at found
  rw [tip,tip,found]
  rfl

theorem Readable.putHeader (readable : Readable store) (header : Header) :
    Readable (putHeader store header) where
  headers h := by
    rw [getHeader_putHeader]
    split
    · exact ⟨_,rfl⟩
    · exact readable.headers h
  tip := by
    rw [tip_putHeader]
    exact readable.tip

theorem acceptHeaders_readable (readable : Readable store) (headers : List Header) :
    ∃ store', acceptHeaders store headers = (.ok (),store') ∧ Readable store' := by
  induction headers generalizing store with
  | nil => exact ⟨store,rfl,readable⟩
  | cons header rest ih =>
    obtain ⟨found,read⟩ := readable.headers header.fields.height
    rw [acceptHeaders,read]
    cases found with
    | none => exact ih (readable.putHeader header)
    | some known => exact ih readable

theorem tip_stored_bodies (readable : Readable store) (bodies : List BodyOffer) :
    ∃ found, tip (stored store bodies) = .ok found := by
  rcases List.eq_nil_or_concat bodies with rfl | ⟨before,offer,rfl⟩
  · exact readable.tip
  · rw [List.concat_eq_append,stored,List.foldl_append,List.foldl_cons,List.foldl_nil]
    exact ⟨_,Blocks.tip_stored (get?_tip _ offer)⟩

/-- On an empty store the headers are all taken, and the bodies decide. -/
theorem headersThenBodies_empty (headers : List Header) (bodies : List BodyOffer) :
    (headersThenBodies ∅ headers bodies = none ↔ Miscounted bodies) ∧
    ((∃ top scratch, headersThenBodies ∅ headers bodies = some (.ok top,scratch)) ↔
      Storable bodies) := by
  obtain ⟨scratch,taken,readable⟩ := acceptHeaders_readable readable_empty headers
  have located : locator ∅ = .ok [] := rfl
  have stops : acceptBodies scratch bodies = none ↔ Miscounted bodies := acceptBodies_none_iff
  rw [← stops]
  simp only [headersThenBodies,located,taken]
  cases accepted : acceptBodies scratch bodies with
  | none =>
    refine ⟨by simp,?_⟩
    simp only [reduceCtorEq,exists_const,false_iff]
    exact fun storable => storable.not_miscounted (stops.mp accepted)
  | some result =>
    obtain ⟨verdict,after⟩ := result
    cases verdict with
    | error e =>
      refine ⟨by simp,?_⟩
      simp only [Option.some.injEq,Prod.mk.injEq,reduceCtorEq,false_and,exists_const,false_iff]
      intro storable
      have good : acceptBodies scratch bodies = _ := acceptBodies_ok_iff.mpr ⟨storable,rfl⟩
      rw [accepted] at good
      cases good
    | ok _ =>
      obtain ⟨storable,rfl⟩ := acceptBodies_ok_iff.mp accepted
      obtain ⟨found,top⟩ := tip_stored_bodies readable bodies
      simp only [top]
      exact ⟨by simp,fun _ => storable,fun _ => ⟨_,_,rfl⟩⟩

theorem wireSync_none_iff {headers : List Header} :
    wireSync store headers bodies = none ↔ Miscounted bodies := by
  obtain ⟨stops,succeeds⟩ := headersThenBodies_empty headers bodies
  rw [← stops,wireSync]
  cases tried : headersThenBodies ∅ headers bodies with
  | none => simp
  | some result =>
    obtain ⟨verdict,scratch⟩ := result
    cases verdict with
    | error e => simp
    | ok top =>
      have storable := succeeds.mp ⟨top,scratch,tried⟩
      simp only [persistAll_storable storable,reduceCtorEq,iff_false]
      split <;> simp

theorem wireSync_ok_iff {headers : List Header}
    (some_ : bodies ≠ []) : (∃ top store', wireSync store headers bodies = some (.ok top,store')) ↔
      Storable bodies := by
  obtain ⟨-,succeeds⟩ := headersThenBodies_empty headers bodies
  rw [← succeeds,wireSync]
  cases tried : headersThenBodies ∅ headers bodies with
  | none => simp
  | some result =>
    obtain ⟨verdict,scratch⟩ := result
    cases verdict with
    | error e => simp
    | ok top =>
      have storable := succeeds.mp ⟨top,scratch,tried⟩
      simp only [persistAll_storable storable]
      cases read : tip (bodies.foldl persisted store) with
      | error e => exact absurd (tip_synced_error read) some_
      | ok top => simp

end Gate

/-! The store after a whole chain of offers. -/

section Chains

variable [Blake3] {store : Store} {bodies : List BodyOffer} {g : Genesis}

omit [Blake3] in
theorem lastAt_contiguous (contiguous : Contiguous bodies) {offer : BodyOffer} (listed : offer ∈ bodies) :
    lastAt offer.header.fields.height bodies = some offer := by
  have there : ∀ bodies : List BodyOffer, offer ∈ bodies →
      ∃ last, lastAt offer.header.fields.height bodies = some last := by
    intro bodies listed
    induction bodies with
    | nil => cases listed
    | cons first rest ih =>
      rw [lastAt]
      rcases List.mem_cons.mp listed with rfl | later
      · simp
      · obtain ⟨last,found⟩ := ih later
        exact ⟨last,by rw [found,Option.some_or]⟩
  obtain ⟨last,found⟩ := there bodies listed
  obtain ⟨other,same⟩ := lastAt_some found
  obtain ⟨i,here⟩ := List.mem_iff_getElem?.mp listed
  obtain ⟨j,elsewhere⟩ := List.mem_iff_getElem?.mp other
  -- the height of an offer is its place
  have place : j = i := by rw [← contiguous j last elsewhere,same,contiguous i offer here]
  subst place
  rw [found,← elsewhere,here]

omit [Blake3] in
theorem contiguous_singleton {offer : BodyOffer} (first : offer.header.fields.height = 0) :
    Contiguous [offer] := by
  intro i other here
  cases i with
  | zero =>
    cases here
    rw [first]
    rfl
  | succ i => cases here

theorem get?_genesis_synced (store : Store) (bodies : List BodyOffer) :
    (bodies.foldl persisted store)[keyGenesis]? = store[keyGenesis]? := by
  induction bodies generalizing store with
  | nil => rfl
  | cons offer rest ih =>
    rw [List.foldl_cons,ih]
    exact (get?_persisted store offer (by simp : StoreKey.genesis ≠ .wal)).trans (get?_genesis store offer)

theorem keeps_synced (contiguous : Contiguous bodies) (some_ : bodies ≠ [])
    (genesis : store[keyGenesis]? = some g.hash.toList) : Keeps g (bodies.foldl persisted store) bodies where
  genesis := (get?_genesis_synced store bodies).trans genesis
  tip := by
    obtain ⟨before,offer,rfl⟩ := (List.eq_nil_or_concat bodies).resolve_left some_
    rw [List.concat_eq_append] at contiguous ⊢
    have height := contiguous before.length offer (by simp)
    rw [List.foldl_append,List.foldl_cons,List.foldl_nil,List.length_append,List.length_singleton,tipOf]
    refine ((get?_persisted _ offer (by simp : StoreKey.tip ≠ .wal)).trans (get?_tip _ offer)).trans ?_
    rw [← height,BitVec.ofNat_toNat,BitVec.setWidth_eq]
  heights := contiguous
  header offer listed := by
    refine (get?_synced store bodies offer.header.fields.height (by simp : StoreKey.header _ ≠ .wal) _
      fun s o => get?_header s o _).trans ?_
    rw [lastAt_contiguous contiguous listed]
    rfl
  body offer listed := by
    refine (get?_synced store bodies offer.header.fields.height (by simp : StoreKey.body _ ≠ .wal) _
      fun s o => get?_body s o _).trans ?_
    rw [lastAt_contiguous contiguous listed]
    rfl
  app offer listed := by
    refine (get?_synced store bodies offer.header.fields.height (by simp : StoreKey.app _ ≠ .wal) _
      fun s o => get?_app s o _).trans ?_
    rw [lastAt_contiguous contiguous listed]
    rfl

variable [Wasm] [Ed25519]

theorem total_applyBlock : Total Seq.applyBlock World.Sound := fun _ block sound =>
  Seq.applyBlock_total sound block

/-- Offers that can be stored, read back and executed to their hashes. -/
structure Valid (g : Genesis) (bodies : List BodyOffer) : Prop where
  storable : Storable bodies
  fits : ∀ offer ∈ bodies, offer.BodyFits
  runs : ∃ r, execute Seq.applyBlock (.fromGenesis g) g.hash (bodies.map BodyOffer.step) = some r

theorem valid_singleton {offer : BodyOffer} (passes : offer.Passes) (counted : offer.Counted)
    (fits : offer.BodyFits)
    (runs : ((Seq.applyBlock (.fromGenesis g) offer.block).map fun r => r.2.2) = some offer.appHash) :
    Valid g [offer] where
  storable := List.forall_mem_singleton.mpr ⟨passes,counted⟩
  fits := List.forall_mem_singleton.mpr fits
  runs := by
    obtain ⟨⟨world,receipts,app⟩,applied,same⟩ := Option.map_eq_some_iff.mp runs
    refine ⟨(world,app),?_⟩
    rw [List.map_cons,BodyOffer.step,execute,applied]
    exact if_pos same

theorem catchup_none_iff (contiguous : Contiguous bodies) (some_ : bodies ≠ [])
    (genesis : store[keyGenesis]? = some g.hash.toList) (headers : List Header) :
    catchup g store headers bodies = none ↔
      Miscounted bodies ∨ Valid g bodies ∧ bodies.length = 2^64 := by
  have kept := keeps_synced contiguous some_ genesis
  have sound : (World.fromGenesis g).Sound := Execution.sound_start g
  have stops := kept.replay_none_iff total_applyBlock sound
  rw [catchup]
  cases synced : wireSync store headers bodies with
  | none => simp [wireSync_none_iff.mp synced]
  | some result =>
    have counted : ¬ Miscounted bodies := by
      have stops : wireSync store headers bodies = none ↔ Miscounted bodies := wireSync_none_iff
      rw [← stops,synced]
      simp
    obtain ⟨verdict,after⟩ := result
    cases verdict with
    | error e =>
      simp only [reduceCtorEq,counted,false_or,false_iff]
      rintro ⟨valid,-⟩
      obtain ⟨top,store',done⟩ := (wireSync_ok_iff some_).mpr valid.storable
      rw [synced] at done
      cases done
    | ok top =>
      obtain rfl := (wireSync_ok synced).2
      have storable := (wireSync_ok_iff some_).mp ⟨_,_,synced⟩
      dsimp only
      cases replayed : replayFromGenesis Seq.applyBlock (bodies.foldl persisted store) g
          (.fromGenesis g) with
      | none =>
        obtain ⟨full,fits,ran⟩ := stops.mp replayed
        exact iff_of_true rfl (.inr ⟨⟨storable,fits,ran⟩,full⟩)
      | some outcome =>
        have short : ¬ (Valid g bodies ∧ bodies.length = 2^64) := by
          rintro ⟨valid,full⟩
          rw [stops.mpr ⟨full,valid.fits,valid.runs⟩] at replayed
          cases replayed
        have neither : ¬ (Miscounted bodies ∨ Valid g bodies ∧ bodies.length = 2^64) :=
          not_or.mpr ⟨counted,short⟩
        cases outcome with
        | error e => exact iff_of_false (by simp) neither
        | ok r => exact iff_of_false (by simp) neither

theorem catchup_ok_iff (contiguous : Contiguous bodies) (some_ : bodies ≠ [])
    (genesis : store[keyGenesis]? = some g.hash.toList) (headers : List Header) :
    (∃ app store', catchup g store headers bodies = some (.ok app,store')) ↔
      Valid g bodies ∧ bodies.length < 2^64 := by
  have kept := keeps_synced contiguous some_ genesis
  constructor
  · rintro ⟨app,store',done⟩
    obtain ⟨-,rfl,world,ran⟩ := catchup_ok done
    obtain ⟨fits,short,ran⟩ := kept.replay_ok_iff.mp ran
    have synced : ∃ top store', wireSync store headers bodies = some (.ok top,store') := by
      unfold catchup at done
      split at done
      · cases done
      · cases done
      · rename_i synced
        exact ⟨_,_,synced⟩
    exact ⟨⟨(wireSync_ok_iff some_).mp synced,fits,_,ran⟩,short⟩
  · rintro ⟨valid,short⟩
    obtain ⟨top,store',synced⟩ : ∃ top store', wireSync store headers bodies = some (.ok top,store') :=
      (wireSync_ok_iff some_).mpr valid.storable
    obtain rfl := (wireSync_ok synced).2
    obtain ⟨r,ran⟩ := valid.runs
    have replayed := kept.replay_ok_iff.mpr ⟨valid.fits,short,ran⟩
    exact ⟨r.2,bodies.foldl persisted store,by simp only [catchup,synced,replayed]⟩

end Chains
end Sync
end L1
