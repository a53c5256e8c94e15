import L1.TxIndex

/-! Pruning of cold bodies. Exactly the bodies under the window are removed, and along a chain a pruning
node keeps what an archive node keeps but for them. -/
namespace L1.Prune

open Codec Blocks Index

/-- Pruning policy: off, the node is an archive. -/
structure PruneConfig where
  pruneCold : Bool := false
  hotWindow : U64 := 256
  deriving DecidableEq, Repr

/-- One height of the loop: a body that is there is removed and counted. -/
def dropBody (acc : Store × U64) (h : Nat) : Store × U64 :=
  let key := blockKey (BitVec.ofNat 64 h)
  if (acc.1[key]?).isSome then (acc.1.erase key,acc.2 + 1) else acc

def dropBodies (store : Store) (n : Nat) : Store × U64 := (List.range n).foldl dropBody (store,0)

def pruneColdBodies (store : Store) (cfg : PruneConfig) : Except TypesError U64 × Store :=
  if !cfg.pruneCold then (.ok 0,store)
  else match tip store with
    | .error e => (.error e,store)
    | .ok none => (.ok 0,store)
    | .ok (some t) =>
      if cfg.hotWindow = 0 ∨ t < cfg.hotWindow then (.ok 0,store)
      else
        let firstHot := t - cfg.hotWindow + 1
        let (store,dropped) := dropBodies store firstHot.toNat
        (.ok dropped,store)

/-- Store a block, then prune. `none` is the assertion of the first. -/
def putThenMaybePrune [Blake3] (store : Store) (offer : BodyOffer) (cfg : PruneConfig) :
    Option (Except TypesError U64 × Store) :=
  (putBlock store offer.header offer.block offer.receipts offer.appHash).map
    fun store => pruneColdBodies store cfg

/-! The loop. -/

theorem blockKey_inj {a b : Height} : blockKey a = blockKey b ↔ a = b :=
  ⟨fun same => StoreKey.body.inj (StoreKey.bytes_injective (a := .body a) (b := .body b) same),
    fun same => same ▸ rfl⟩

def present (store : Store) (h : Nat) : Bool := (store[blockKey (BitVec.ofNat 64 h)]?).isSome

def Below (n : Nat) (key : Bytes) : Prop := ∃ h < n, key = blockKey (BitVec.ofNat 64 h)

theorem below_succ {n : Nat} {key : Bytes} :
    Below (n + 1) key ↔ Below n key ∨ key = blockKey (BitVec.ofNat 64 n) := by
  constructor
  · rintro ⟨h,bound,rfl⟩
    rcases Nat.lt_succ_iff_lt_or_eq.mp bound with lower | rfl
    · exact .inl ⟨h,lower,rfl⟩
    · exact .inr rfl
  · rintro (⟨h,bound,rfl⟩ | rfl)
    · exact ⟨h,by omega,rfl⟩
    · exact ⟨n,by omega,rfl⟩

theorem below_blockKey {n : Nat} (size : n ≤ 2^64) {h : Height} : Below n (blockKey h) ↔ h.toNat < n := by
  constructor
  · rintro ⟨i,bound,same⟩
    rw [blockKey_inj.mp same,BitVec.toNat_ofNat,Nat.mod_eq_of_lt (by omega)]
    exact bound
  · intro bound
    exact ⟨h.toNat,bound,by rw [BitVec.ofNat_toNat,BitVec.setWidth_eq]⟩

theorem get?_dropBody (acc : Store × U64) (h : Nat) (key : Bytes) :
    (dropBody acc h).1[key]? = if key = blockKey (BitVec.ofNat 64 h) then none else acc.1[key]? := by
  simp only [dropBody]
  by_cases there : (acc.1[blockKey (BitVec.ofNat 64 h)]?).isSome
  · rw [if_pos there,Map.get?_erase]
  · rw [if_neg there]
    split
    · rename_i same
      rw [same]
      exact Option.not_isSome_iff_eq_none.mp there
    · rfl

theorem dropBodies_succ (store : Store) (n : Nat) :
    dropBodies store (n + 1) = dropBody (dropBodies store n) n := by
  rw [dropBodies,List.range_succ,List.foldl_append]
  rfl

theorem get?_dropBodies (store : Store) (n : Nat) (key : Bytes) :
    (Below n key → (dropBodies store n).1[key]? = none) ∧
      (¬ Below n key → (dropBodies store n).1[key]? = store[key]?) := by
  induction n with
  | zero => exact ⟨fun ⟨_,bound,_⟩ => absurd bound (Nat.not_lt_zero _),fun _ => rfl⟩
  | succ n ih =>
    rw [dropBodies_succ,get?_dropBody,below_succ]
    split
    · rename_i same
      exact ⟨fun _ => rfl,fun above => absurd (.inr same) above⟩
    · rename_i other
      exact ⟨fun below => ih.1 (below.resolve_right other),fun above => ih.2 fun below => above (.inl below)⟩

theorem count_dropBodies (store : Store) {n : Nat} (size : n < 2^64) :
    (dropBodies store n).2.toNat = (List.range n).countP (present store) := by
  induction n with
  | zero => rfl
  | succ n ih =>
    have lower := ih (by omega)
    have most : (List.range n).countP (present store) ≤ n :=
      List.countP_le_length.trans (List.length_range (n := n)).le
    -- the heights before this one are other keys
    have own : ((dropBodies store n).1[blockKey (BitVec.ofNat 64 n)]?) =
        store[blockKey (BitVec.ofNat 64 n)]? := by
      refine (get?_dropBodies store n _).2 fun below => ?_
      rw [below_blockKey (by omega),BitVec.toNat_ofNat,Nat.mod_eq_of_lt (by omega)] at below
      omega
    rw [dropBodies_succ,dropBody,List.range_succ,List.countP_append,List.countP_singleton,← lower]
    simp only [own]
    unfold present
    split
    · have one : (1 : U64).toNat = 1 := rfl
      rw [BitVec.toNat_add,one,Nat.mod_eq_of_lt (by omega)]
    · rfl

theorem dropBodies_absent {store : Store} {n : Nat}
    (absent : ∀ h < n, store[blockKey (BitVec.ofNat 64 h)]? = none) : dropBodies store n = (store,0) := by
  induction n with
  | zero => rfl
  | succ n ih =>
    rw [dropBodies_succ,ih fun h bound => absent h (by omega),dropBody,absent n (by omega)]
    rfl

/-! One call. -/

def firstHot (t : Height) (w : U64) : Nat := t.toNat + 1 - w.toNat

theorem pruneColdBodies_eq {store : Store} {t : Height} {w : U64} (last : tip store = .ok (some t))
    (positive : 0 < w.toNat) : pruneColdBodies store ⟨true,w⟩ =
      (.ok (dropBodies store (firstHot t w)).2,(dropBodies store (firstHot t w)).1) := by
  have nonzero : w ≠ 0 := by
    rintro rfl
    exact absurd positive (by decide)
  have size := t.isLt
  have one : (1 : U64).toNat = 1 := rfl
  unfold pruneColdBodies
  simp only [Bool.not_true,Bool.false_eq_true,if_false,last,nonzero,false_or,BitVec.lt_def]
  split
  · rename_i short
    rw [show firstHot t w = 0 by unfold firstHot; omega]
    rfl
  · rename_i long
    have first : (t - w + 1).toNat = firstHot t w := by
      rw [BitVec.toNat_add,BitVec.toNat_sub_of_le (by rw [BitVec.le_def]; omega),one,
        Nat.mod_eq_of_lt (by omega),firstHot]
      omega
    rw [first]

/-- What pruning leaves of a store with a tip. -/
structure Pruned (store : Store) (t : Height) (w : U64) (store' : Store) : Prop where
  cold : ∀ h : Height, h.toNat + w.toNat ≤ t.toNat → store'[blockKey h]? = none
  kept : ∀ key, (∀ h : Height, h.toNat + w.toNat ≤ t.toNat → key ≠ blockKey h) → store'[key]? = store[key]?

theorem pruned_dropBodies (store : Store) (t : Height) (w : U64) (positive : 0 < w.toNat) :
    Pruned store t w (dropBodies store (firstHot t w)).1 where
  cold h old := by
    have size := t.isLt
    refine (get?_dropBodies store _ _).1 ((below_blockKey ?_).mpr ?_) <;> unfold firstHot <;> omega
  kept key apart := by
    have size := t.isLt
    refine (get?_dropBodies store _ _).2 ?_
    rintro ⟨h,bound,same⟩
    unfold firstHot at bound
    refine apart _ ?_ same
    rw [BitVec.toNat_ofNat,Nat.mod_eq_of_lt (by omega)]
    omega

namespace Pruned

variable {store store' : Store} {t : Height} {w : U64} (pruned : Pruned store t w store')

include pruned

theorem other (key : StoreKey) (apart : ∀ h, key ≠ .body h) : store'[key.bytes]? = store[key.bytes]? :=
  pruned.kept _ fun h _ same => apart h (StoreKey.bytes_injective (b := .body h) same)

theorem tip_eq : tip store' = tip store := by
  have same : store'[keyTip]? = store[keyTip]? := pruned.other .tip fun h => StoreKey.noConfusion
  rw [tip,tip,same]

theorem getBlock_hot {h : Height} (hot : t.toNat < h.toNat + w.toNat) :
    getBlock store' h = getBlock store h := by
  have same : store'[blockKey h]? = store[blockKey h]? := by
    refine pruned.kept _ fun other old same => ?_
    rw [← blockKey_inj.mp same] at old
    omega
  rw [getBlock,getBlock,same]

end Pruned

/-- Pruning removes the bodies up to the window and nothing else, counts them, and is done after one call. -/
theorem prune_frame (store : Store) (t : Height) (w : U64) (last : tip store = .ok (some t))
    (positive : 0 < w.toNat) : ∃ dropped store',
      pruneColdBodies store ⟨true,w⟩ = (.ok dropped,store') ∧
      (∀ h : Height, h.toNat + w.toNat ≤ t.toNat → store'[blockKey h]? = none) ∧
      (∀ key, (∀ h : Height, h.toNat + w.toNat ≤ t.toNat → key ≠ blockKey h) →
        store'[key]? = store[key]?) ∧
      (∀ key : StoreKey, (∀ h, key ≠ .body h) → store'[key.bytes]? = store[key.bytes]?) ∧
      (∀ h : Height, t.toNat < h.toNat + w.toNat → getBlock store' h = getBlock store h) ∧
      dropped.toNat = (List.range (t.toNat + 1 - w.toNat)).countP (present store) ∧
      ((∀ h ≤ t, ∃ block, getBlock store h = .ok (some block)) → dropped.toNat = t.toNat + 1 - w.toNat) ∧
      pruneColdBodies store' ⟨true,w⟩ = (.ok 0,store') := by
  have size := t.isLt
  have pruned := pruned_dropBodies store t w positive
  have counted := count_dropBodies store (n := firstHot t w) (by unfold firstHot; omega)
  refine ⟨_,_,pruneColdBodies_eq last positive,pruned.cold,pruned.kept,pruned.other,
    fun h hot => pruned.getBlock_hot hot,counted,fun chain => ?_,?_⟩
  · -- of a whole chain every body is there
    rw [counted,List.countP_eq_length.mpr,List.length_range,firstHot]
    intro h listed
    have bound := List.mem_range.mp listed
    unfold firstHot at bound
    obtain ⟨block,found⟩ := chain (BitVec.ofNat 64 h) (by
      rw [BitVec.le_def,BitVec.toNat_ofNat,Nat.mod_eq_of_lt (by omega)]
      omega)
    unfold getBlock at found
    unfold present
    split at found
    · cases found
    · rename_i bytes stored
      rw [stored]
      rfl
  · have nothing : dropBodies (dropBodies store (firstHot t w)).1 (firstHot t w) =
        ((dropBodies store (firstHot t w)).1,0) := by
      refine dropBodies_absent fun h bound => ?_
      unfold firstHot at bound
      refine pruned.cold _ ?_
      rw [BitVec.toNat_ofNat,Nat.mod_eq_of_lt (by omega)]
      omega
    rw [pruneColdBodies_eq (pruned.tip_eq.trans last) positive,nothing]

namespace Sample

@[reducible] def blake3 : Blake3 := ⟨fun bytes => fixed 32 bytes⟩

attribute [local instance] blake3

def zero : Hash := Vector.replicate 32 0

def offer (height : Height) : BodyOffer :=
  ⟨⟨⟨height,0,Vector.replicate 48 0,0⟩,zero,zero,zero,zero,zero⟩,⟨⟨height,0,Vector.replicate 48 0,0⟩,[]⟩,
    [],zero⟩

def pair : Store := applyBatch (applyBatch ∅ (offerOps (offer 0))) (offerOps (offer 1))

/-- A window of one keeps the second body. -/
theorem first_body_dropped : tip pair = .ok (some 1) ∧ ∃ dropped store',
    pruneColdBodies pair ⟨true,1⟩ = (.ok dropped,store') ∧ store'[blockKey 0]? = none ∧
      getBlock store' 1 = getBlock pair 1 ∧ pruneColdBodies store' ⟨true,1⟩ = (.ok 0,store') := by
  have last : tip pair = .ok (some 1) := tip_stored (get?_tip _ (offer 1))
  obtain ⟨dropped,store',done,cold,-,-,hot,-,-,again⟩ := prune_frame pair 1 1 last (by decide)
  exact ⟨last,dropped,store',done,cold 0 (by decide),hot 1 (by decide),again⟩

end Sample

/-! Along a chain. -/

def putAll [Blake3] (cfg : PruneConfig) (store : Store) (offers : List BodyOffer) : Option Store :=
  offers.foldlM (fun store offer => (putThenMaybePrune store offer cfg).map Prod.snd) store

theorem Pruned.zero (store : Store) {w : U64} (positive : 0 < w.toNat) : Pruned store 0 w store where
  cold h old := by
    have zero : (0 : Height).toNat = 0 := rfl
    omega
  kept _ _ := rfl

section Chain

variable [Blake3] {archive pruned : Store} {t : Height} {w : U64} {offer : BodyOffer}

theorem Pruned.put (related : Pruned archive t w pruned) (positive : 0 < w.toNat)
    (later : t ≤ offer.header.fields.height) :
    Pruned (applyBatch archive (offerOps offer)) offer.header.fields.height w
      (pruneColdBodies (applyBatch pruned (offerOps offer)) ⟨true,w⟩).2 := by
  rw [BitVec.le_def] at later
  rw [pruneColdBodies_eq (tip_stored (get?_tip pruned offer)) positive]
  have step := pruned_dropBodies (applyBatch pruned (offerOps offer)) offer.header.fields.height w positive
  refine ⟨step.cold,fun key apart => ?_⟩
  have before : pruned[key]? = archive[key]? :=
    related.kept key fun h old => apart h (by omega)
  rw [step.kept key apart,applyBatch,applyBatch,Batch.get?_run,Batch.get?_run,before]

/-- A pruning node holds what an archive node holds, without the cold bodies. -/
theorem putAll_pruned {archive' : Store} {offers : List BodyOffer} (related : Pruned archive t w pruned)
    (positive : 0 < w.toNat)
    (ordered : (t :: offers.map fun offer => offer.header.fields.height).IsChain (· ≤ ·))
    (done : putBlocks archive offers = some archive') :
    ∃ pruned', putAll ⟨true,w⟩ pruned offers = some pruned' ∧
      Pruned archive' (((offers.map fun offer => offer.header.fields.height).getLast?).getD t) w pruned' := by
  induction offers generalizing archive pruned t with
  | nil =>
    cases done
    exact ⟨pruned,rfl,related⟩
  | cons offer rest ih =>
    rw [putBlocks,List.foldlM_cons,Option.bind_eq_bind,Option.bind_eq_some_iff] at done
    obtain ⟨middle,first,others⟩ := done
    obtain ⟨next,ordered⟩ := List.isChain_cons_cons.mp ordered
    rw [putBlock] at first
    split at first
    · cases first
    rename_i covered
    cases first
    obtain ⟨pruned',run,ends⟩ := ih (related.put positive next) ordered others
    refine ⟨pruned',?_,?_⟩
    · rw [putAll,List.foldlM_cons,putThenMaybePrune,putBlock,if_neg covered]
      exact run
    · rw [List.map_cons,List.getLast?_cons]
      exact ends

/-- Two nodes start alike and store the same chain, one of them pruning. -/
theorem putAll_archive {store : Store} {offers : List BodyOffer} (positive : 0 < w.toNat)
    (ordered : (offers.map fun offer => offer.header.fields.height).IsChain (· ≤ ·))
    (done : putBlocks store offers = some archive) :
    ∃ pruned, putAll ⟨true,w⟩ store offers = some pruned ∧
      Pruned archive (((offers.map fun offer => offer.header.fields.height).getLast?).getD 0) w pruned :=
  putAll_pruned (.zero store positive) positive
    (List.isChain_cons.mpr ⟨fun _ _ => Nat.zero_le _,ordered⟩) done

end Chain

end L1.Prune
