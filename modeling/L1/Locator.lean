import L1.OfferedChains

/-! How far a block locator reaches. The first ten entries are neighbours, then the steps double, and
the loop stops after the 33rd entry whether it has come to genesis or not. -/
namespace L1.Sync

open Codec Blocks

def widen (count step : Nat) : Nat :=
  if 10 ≤ count + 1 then max (min (step * 2) (2^64 - 1)) 1 else step

def span : Nat → Nat → Nat → Nat
  | 0, _, _ => 0
  | k + 1, count, step => widen count step + span k (count + 1) (widen count step)

theorem locatorHeights_succ (n count index step : Nat) :
    locatorHeights (n + 1) count index step = index :: if index = 0 then [] else
      locatorHeights n (count + 1) (index - min (widen count step) index) (widen count step) := rfl

theorem widen_pos (count : Nat) {step : Nat} (positive : 0 < step) : 0 < widen count step := by
  unfold widen
  split <;> omega

theorem getElem?_locatorHeights (n k count index : Nat) {step : Nat} (positive : 0 < step) (within : k ≤ n)
    (above : span k count step ≤ index) :
    (locatorHeights (n + 1) count index step)[k]? = some (index - span k count step) := by
  induction k generalizing n count index step with
  | zero => rfl
  | succ k ih =>
    obtain ⟨n,rfl⟩ := Nat.exists_eq_add_of_le' (Nat.one_le_of_lt within)
    have wide := widen_pos count positive
    rw [span] at above ⊢
    rw [locatorHeights_succ,if_neg (by omega),List.getElem?_cons_succ,Nat.min_eq_left (by omega),
      ih n _ _ wide (by omega) (by omega)]
    congr 1
    omega

theorem locatorHeights_decreases {n count index step : Nat} (positive : 0 < step) :
    (locatorHeights n count index step).IsChain (· > ·) := by
  induction n generalizing count index step with
  | zero => exact List.isChain_nil
  | succ n ih =>
    rw [locatorHeights_succ]
    split
    · exact List.isChain_singleton _
    · rename_i above
      have wide := widen_pos count positive
      refine List.isChain_cons.mpr ⟨fun next first => ?_,ih wide⟩
      cases n with
      | zero => cases first
      | succ n =>
        cases first
        omega

/-- The loop comes to genesis if the entries reach that far. -/
theorem getLast?_locatorHeights (n count index : Nat) {step : Nat} (positive : 0 < step) :
    (locatorHeights (n + 1) count index step).getLast? = some 0 ↔ index ≤ span n count step := by
  induction n generalizing count index step with
  | zero =>
    rw [locatorHeights_succ,span,locatorHeights,ite_self]
    simp
  | succ n ih =>
    have wide := widen_pos count positive
    have later := ih (count + 1) (index - min (widen count step) index) wide
    rw [locatorHeights_succ,span]
    split
    · rename_i genesis
      simp [genesis]
    · rw [locatorHeights_succ] at later ⊢
      rw [List.getLast?_cons_cons,later]
      omega

/-- It is shorter than its bound if fewer entries reach that far. -/
theorem length_locatorHeights (n k count index : Nat) {step : Nat} (positive : 0 < step) (within : k < n) :
    (locatorHeights (n + 1) count index step).length ≤ k + 1 ↔ index ≤ span k count step := by
  induction k generalizing n count index step with
  | zero =>
    obtain ⟨n,rfl⟩ := Nat.exists_eq_add_of_le' within
    rw [locatorHeights_succ,span]
    split
    · rename_i genesis
      simp [genesis]
    · rename_i above
      rw [locatorHeights_succ]
      simp [above]
  | succ k ih =>
    obtain ⟨n,rfl⟩ := Nat.exists_eq_add_of_le' (Nat.one_le_of_lt within)
    have wide := widen_pos count positive
    have later := ih n (count + 1) (index - min (widen count step) index) wide (by omega)
    rw [locatorHeights_succ,span,List.length_cons]
    split
    · rename_i genesis
      simp [genesis]
    · rw [Nat.add_le_add_iff_right,later]
      omega

/-! The list for a tip. -/

def tipHeights (top : Nat) : List Nat := locatorHeights 33 0 top 1

theorem tipHeights_dense {top d : Nat} (recent : d < 10) (least : d ≤ top) : top - d ∈ tipHeights top := by
  have reach : ∀ d < 10, span d 0 1 = d := by decide
  have found := getElem?_locatorHeights 32 d 0 top Nat.one_pos (by omega) (by rw [reach d recent]; exact least)
  rw [reach d recent] at found
  exact List.mem_of_getElem? found

theorem tipHeights_genesis (top : Nat) : (tipHeights top).getLast? = some 0 ↔ top ≤ 2^24 + 7 :=
  getLast?_locatorHeights 32 0 top Nat.one_pos

theorem tipHeights_short (top : Nat) : (tipHeights top).length ≤ 32 ↔ top ≤ 2^23 + 7 :=
  length_locatorHeights 32 31 0 top Nat.one_pos (by decide)

theorem le_of_mem_tipHeights {top h : Nat} (listed : h ∈ tipHeights top) : h ≤ top := by
  have chain : (tipHeights top).IsChain (· > ·) := locatorHeights_decreases Nat.one_pos
  have first : tipHeights top = top :: (tipHeights top).tail := rfl
  rw [first] at listed chain
  rcases List.mem_cons.mp listed with rfl | later
  · exact le_rfl
  · exact (List.rel_of_pairwise_cons chain.pairwise later).le

section Stores

variable [Blake3]

structure Held (store : Store) (top : Height) (headers : Nat → Header) : Prop where
  tip : tip store = .ok (some top)
  header : ∀ h ≤ top.toNat, getHeader store (BitVec.ofNat 64 h) = .ok (some (headers h))

theorem headerHashes_held {store : Store} {headers : Nat → Header} {heights : List Nat}
    (held : ∀ h ∈ heights, getHeader store (BitVec.ofNat 64 h) = .ok (some (headers h))) :
    headerHashes store heights = .ok (heights.map fun h => (headers h).hash) := by
  induction heights with
  | nil => rfl
  | cons h rest ih =>
    obtain ⟨here,later⟩ := List.forall_mem_cons.mp held
    simp only [headerHashes,here,ih later]
    rfl

theorem Held.locator {store : Store} {top : Height} {headers : Nat → Header}
    (held : Held store top headers) :
    locator store = .ok ((tipHeights top.toNat).map fun h => (headers h).hash) := by
  rw [Sync.locator,held.tip]
  exact headerHashes_held fun h listed => held.header h (le_of_mem_tipHeights listed)

/-- Falling heights from the tip to genesis, the ten latest among them, and no more than 32. -/
structure Located (top : Nat) (heights : List Nat) : Prop where
  falling : heights.IsChain (· > ·)
  first : heights.head? = some top
  recent : ∀ d < 10, d ≤ top → top - d ∈ heights
  last : heights.getLast? = some 0
  short : heights.length ≤ 32

omit [Blake3] in
theorem located_iff (top : Nat) : Located top (tipHeights top) ↔ top ≤ 2^23 + 7 := by
  refine ⟨fun located => (tipHeights_short top).mp located.short,fun low => ?_⟩
  exact ⟨locatorHeights_decreases Nat.one_pos,rfl,fun d recent least => tipHeights_dense recent least,
    (tipHeights_genesis top).mpr (by omega),(tipHeights_short top).mpr low⟩

/-- The locator is as described exactly for tips that 32 entries reach. -/
theorem locator_iff (store : Store) (top : Height) (headers : Nat → Header)
    (held : Held store top headers) :
    (∃ heights, locator store = .ok (heights.map fun h => (headers h).hash) ∧
      Located top.toNat heights) ↔ top.toNat ≤ 2^23 + 7 := by
  rw [held.locator]
  constructor
  · rintro ⟨heights,same,located⟩
    have size := congrArg List.length (Except.ok.inj same)
    rw [List.length_map,List.length_map] at size
    exact (tipHeights_short _).mp (size ▸ located.short)
  · intro low
    exact ⟨tipHeights top.toNat,rfl,(located_iff _).mpr low⟩

end Stores

/-! Chains of headers of any length. -/
namespace Tall

@[reducible] def blake3 : Blake3 := ⟨fun bytes => fixed 32 bytes⟩

attribute [local instance] blake3

def zero : Hash := Vector.replicate 32 0

def header (h : Nat) : Header := ⟨⟨BitVec.ofNat 64 h,0,Vector.replicate 48 0,0⟩,zero,zero,zero,zero,zero⟩

def headersTo (n : Nat) : Store := (List.range (n + 1)).foldl (fun store h => putHeader store (header h)) ∅

def chain (n : Nat) : Store := (headersTo n).insert keyTip (toBeBytes 8 (BitVec.ofNat 64 n))

theorem headersTo_succ (n : Nat) : headersTo (n + 1) = putHeader (headersTo n) (header (n + 1)) := by
  rw [headersTo,List.range_succ,List.foldl_append]
  rfl

theorem getHeader_headersTo {n h : Nat} (size : n < 2^64) (bound : h ≤ n) :
    getHeader (headersTo n) (BitVec.ofNat 64 h) = .ok (some (header h)) := by
  induction n with
  | zero =>
    obtain rfl : h = 0 := by omega
    exact (getHeader_putHeader ∅ (header 0) _).trans (if_pos rfl)
  | succ n ih =>
    rw [headersTo_succ,getHeader_putHeader]
    by_cases last : h = n + 1
    · subst last
      exact if_pos rfl
    · have apart : BitVec.ofNat 64 h ≠ (header (n + 1)).fields.height := by
        intro same
        have naturals := congrArg BitVec.toNat same
        rw [header,BitVec.toNat_ofNat,BitVec.toNat_ofNat,Nat.mod_eq_of_lt (by omega),
          Nat.mod_eq_of_lt (by omega)] at naturals
        exact last naturals
      rw [if_neg apart]
      exact ih (by omega) (by omega)

theorem held {n : Nat} (size : n < 2^64) : Held (chain n) (BitVec.ofNat 64 n) header where
  tip := tip_stored ((Map.get?_insert ..).trans (if_pos rfl))
  header h bound := by
    rw [BitVec.toNat_ofNat,Nat.mod_eq_of_lt size] at bound
    have apart : (StoreKey.header (BitVec.ofNat 64 h)).bytes ≠ StoreKey.tip.bytes :=
      fun same => StoreKey.noConfusion (StoreKey.bytes_injective same)
    have kept : (chain n)[headerHeightKey (BitVec.ofNat 64 h)]? =
        (headersTo n)[headerHeightKey (BitVec.ofNat 64 h)]? :=
      (Map.get?_insert ..).trans (if_neg apart)
    rw [← getHeader_headersTo size bound,getHeader,getHeader,kept]

/-- Three headers are named one by one. -/
theorem three_headers : Held (chain 2) 2 header ∧ ((∃ heights,
    locator (chain 2) = .ok (heights.map fun h => (header h).hash) ∧ Located 2 heights) ↔ 2 ≤ 2^23 + 7) :=
  ⟨held (by decide),locator_iff (chain 2) 2 header (held (by decide))⟩

/-- From this tip the 33 entries end above genesis. -/
theorem genesis_not_reached : ∃ heights : List Nat,
    Held (chain (2^24 + 8)) (BitVec.ofNat 64 (2^24 + 8)) header ∧
    locator (chain (2^24 + 8)) = .ok (heights.map fun h => (header h).hash) ∧
      ¬ heights.length ≤ 32 ∧ heights.getLast? ≠ some 0 := by
  have whole := held (n := 2^24 + 8) (by decide)
  have top : (BitVec.ofNat 64 (2^24 + 8)).toNat = 2^24 + 8 := by decide
  have located := whole.locator
  rw [top] at located
  refine ⟨tipHeights (2^24 + 8),whole,located,?_,?_⟩
  · rw [tipHeights_short]
    decide
  · rw [ne_eq,tipHeights_genesis]
    decide

end Tall
end L1.Sync
