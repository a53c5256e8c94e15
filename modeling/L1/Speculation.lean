import L1.BlockStm
import L1.Independence

/-! The stages of the pipeline before the commit: none of them panics, what a speculative result
records, and what an unflagged one tells of the slots. -/
namespace L1.Stm

open VersionedSlots Host

def version (slots : VersionedSlots) (key : Bytes) : Nat := ((slots.latest key).getD 0).toNat

variable {slots : VersionedSlots} {key : Bytes}

theorem latestVersion_eq {v : U64}
    (known : slots.latest key = some v) : latestVersion slots key = some v :=
  scan_latest known (2^64) 0 (Nat.zero_le _) (by have top := v.isLt; simpa using top)

/-- The staking slot, and keys of the sizes of an account and of a storage slot. -/
def InUse (key : Bytes) : Prop := key = stakingSlot ∨ key.length = 32 ∨ key.length = 64

theorem InUse.slotKey (used : InUse key) : SlotKey key :=
  used.imp_left fun same => by rw [same,length_stakingSlot]

/-- Slots before the commit: no key in use is past its first version. -/
def Seeded (slots : VersionedSlots) : Prop :=
  ∀ key, SlotKey key → ∃ v, slots.latest key = some v ∧ v.toNat ≤ 1

theorem Seeded.healthy (seeded : Seeded slots) : Healthy slots :=
  fun key slot => (seeded key slot).imp fun _ known => known.1

theorem seeded_empty : Seeded ∅ := fun _ _ => ⟨0,by simp [latest],by simp⟩

theorem Seeded.seedSlot (seeded : Seeded slots) (slot : SlotKey key) (value : Option Bytes) :
    ∃ slots', Stm.seedSlot slots key value = some slots' ∧ Seeded slots' := by
  cases value with
  | none => exact ⟨slots,rfl,seeded⟩
  | some value =>
    obtain ⟨v,known,-⟩ := seeded key slot
    by_cases fresh : v = 0
    · subst fresh
      obtain ⟨slots',_,known',written,-⟩ := seeded.healthy.write slot value
      obtain rfl := Option.some_inj.mp (known.symm.trans known')
      refine ⟨slots',by simp [Stm.seedSlot,VersionedSlots.validate,known,written],?_⟩
      intro other slot'
      rw [latest_write slot slot' written]
      split
      · exact ⟨_,rfl,by decide⟩
      · exact seeded other slot'
    · have stays : slots.validate key 0 = some false := by
        simpa [VersionedSlots.validate,known] using fresh
      exact ⟨slots,by simp only [Stm.seedSlot,stays],seeded⟩

theorem seedAndRead_total (seeded : Seeded slots) (world : World)
    {keys : OrdSet Bytes} (proper : ∀ key ∈ keys, SlotKey key) :
    ∃ result, seedAndRead slots world keys = some result ∧ Seeded result.1 := by
  refine Folds.foldlM_total (fun state : VersionedSlots × Map Bytes U64 => Seeded state.1) ?_ seeded
  rintro key listed ⟨slots,observed⟩ seeded
  have slot := proper key (by simpa using listed)
  by_cases staking : key = stakingSlot
  · obtain ⟨v,known,-⟩ := seeded key slot
    simp only [seedKey,if_pos staking,VersionedSlots.validate,known,Option.map_some]
    cases decide (v = 0)
    · exact ⟨_,rfl,seeded⟩
    · exact ⟨_,rfl,seeded⟩
  · obtain ⟨slots',written,seeded'⟩ := seeded.seedSlot slot (seedValue world key)
    obtain ⟨v,known,-⟩ := seeded' key slot
    refine ⟨(slots',observed.insert key v),?_,seeded'⟩
    simp only [seedKey,if_neg staking,written,observeKey,latestVersion_eq known,Option.map_some]

section Observed

variable {slots : VersionedSlots} (healthy : Healthy slots)

include healthy

/-- The first loop of a speculation records the latest version of every key. -/
theorem observeKeys {keys : List Bytes} (proper : ∀ key ∈ keys, SlotKey key)
    (observed : Map Bytes U64) :
    ∃ observed', keys.foldlM (observeKey slots) observed = some observed' ∧
      ∀ key, observed'[key]? = if key ∈ keys then slots.latest key else observed[key]? := by
  have returns (key) (listed : key ∈ keys) (s : Map Bytes U64) :
      observeKey slots s key = some (s.insert key ((slots.latest key).getD 0)) := by
    obtain ⟨v,known⟩ := healthy key (proper key listed)
    simp [observeKey,latestVersion_eq known,known]
  refine ⟨_,Folds.foldlM_eq returns observed,fun key => ?_⟩
  rw [Folds.foldl_at (fun s : Map Bytes U64 => s[key]?)
    (fun _ => some ((slots.latest key).getD 0)) key (fun _ => rfl)
    (fun s => by simp) (fun s k apart => by simp [Map.get?_insert,Ne.symm apart])]
  by_cases listed : key ∈ keys
  · obtain ⟨v,known⟩ := healthy key (proper key listed)
    simp [listed,known]
  · simp [listed]

/-- The second loop adds the keys that are missing. -/
theorem observeRest {keys : List Bytes} (proper : ∀ key ∈ keys, SlotKey key)
    (observed : Map Bytes U64) :
    ∃ observed', keys.foldlM (observeNew slots) observed = some observed' ∧
      ∀ key ∈ keys, observed'[key]? = (observed[key]?).or (slots.latest key) := by
  have returns (key) (listed : key ∈ keys) (s : Map Bytes U64) : observeNew slots s key =
      some (if key ∈ s then s else s.insert key ((slots.latest key).getD 0)) := by
    obtain ⟨v,known⟩ := healthy key (proper key listed)
    unfold observeNew
    split
    · rfl
    · simp [observeKey,latestVersion_eq known,known]
  refine ⟨_,Folds.foldlM_eq returns observed,fun key listed => ?_⟩
  obtain ⟨v,known⟩ := healthy key (proper key listed)
  rw [Folds.foldl_at (fun s : Map Bytes U64 => s[key]?)
    (fun found => found.or (slots.latest key)) key]
  · simp [listed]
  · intro found
    cases found <;> simp [known]
  · intro s
    by_cases inside : key ∈ s
    · obtain ⟨v',held⟩ := Option.isSome_iff_exists.mp (by simpa using inside : (s[key]?).isSome)
      simp only [if_pos inside,held,Option.some_or]
    · have absent : s[key]? = none := by simpa using inside
      simp [if_neg inside,absent,known]
  · intro s k apart
    split
    · rfl
    · simp [Map.get?_insert,Ne.symm apart]

end Observed

/-- What host calls of a contract record as read, and that they remove nothing from storage. -/
structure Grown (contract : Address) (w w' : World) : Prop where
  reads : ∀ key ∈ w'.storageReads, key ∈ w.storageReads ∨ ∃ slot, key = storageKey contract slot
  storage : ∀ key : Bytes, w'.storage[key]? = none → w.storage[key]? = none

namespace Grown

variable {contract : Address} {w w' w'' : World}

theorem refl (w : World) : Grown contract w w := ⟨fun _ listed => .inl listed,fun _ absent => absent⟩

theorem trans (first : Grown contract w w') (second : Grown contract w' w'') :
    Grown contract w w'' where
  reads key listed := by
    rcases second.reads key listed with before | own
    · exact first.reads key before
    · exact .inr own
  storage key absent := first.storage key (second.storage key absent)

theorem sload {slot : U32} {value : U64} (returned : Host.sload w contract slot = some (w',value)) :
    Grown contract w w' := by
  unfold Host.sload at returned
  dsimp only at returned
  split at returned
  · cases returned
  cases returned
  refine ⟨fun key listed => ?_,fun _ absent => absent⟩
  rcases Std.ExtTreeSet.mem_insert.mp listed with same | before
  · exact .inr ⟨slot,(Std.LawfulEqCmp.eq_of_compare same).symm⟩
  · exact .inl before

theorem sstore {slot : U32} {value : U64} (returned : Host.sstore w contract slot value = some w') :
    Grown contract w w' := by
  unfold Host.sstore at returned
  split at returned
  · cases returned
  rename_i loaded
  dsimp only at returned
  split at returned
  · cases returned
  cases returned
  refine (sload loaded).trans ⟨fun _ listed => .inl listed,fun key absent => ?_⟩
  rw [Map.get?_insert] at absent
  split at absent
  · cases absent
  · exact absent

theorem rule : HostRule contract (Grown contract) where
  refl := refl
  trans := trans
  fuel _ := ⟨fun _ listed => .inl listed,fun _ absent => absent⟩
  sload := sload
  sstore := sstore
  marked inner := ⟨inner.reads,inner.storage⟩

theorem call [Wasm] {payload : Call} {fuel : U64} {result : Except RejectReason Unit}
    (returned : WasmCall.call w payload fuel = some (w',result)) : Grown payload.toAddr w w' :=
  rule.call returned

end Grown

section Speculation

variable [Blake3] [Ed25519] [Wasm]

/-- A transaction removes no entry, and the storage it reads is that of the contract it calls. -/
structure Extends (signed : SignedTx) (w w' : World) : Prop where
  accounts : ∀ addr : Address, w'.accounts[addr]? = none → w.accounts[addr]? = none
  code : ∀ addr : Address, w'.code[addr]? = none → w.code[addr]? = none
  storage : ∀ key : Bytes, w'.storage[key]? = none → w.storage[key]? = none
  reads : ∀ key ∈ w'.storageReads, ∃ c slot, signed.tx.asCall = some c ∧
    key = storageKey c.toAddr slot

variable {signed : SignedTx} {w w' : World}

omit [Blake3] [Ed25519] [Wasm] in
theorem extends_clearTraces (w : World) : Extends signed w (Seq.clearTraces w) :=
  ⟨fun _ absent => absent,fun _ absent => absent,fun _ absent => absent,
    fun key listed => by simp [Seq.clearTraces] at listed⟩

omit [Blake3] [Ed25519] [Wasm] in
theorem Extends.setAccount (grown : Extends signed w w') (addr : Address) (a : Account) :
    Extends signed w (w'.setAccount addr a) :=
  { grown with
    accounts := by
      intro other absent
      rw [World.setAccount,Map.get?_insert] at absent
      split at absent
      · cases absent
      · exact grown.accounts other absent }

omit [Blake3] [Ed25519] [Wasm] in
theorem Extends.setCode (grown : Extends signed w w') (addr : Address) (code : Bytes) :
    Extends signed w { w' with code := w'.code.insert addr code } :=
  { grown with
    code := by
      intro other absent
      rw [Map.get?_insert] at absent
      split at absent
      · cases absent
      · exact grown.code other absent }

variable {receipt : Receipt}

theorem extends_applyTx (returned : Seq.applyTx w signed = some (w',receipt)) :
    Extends signed w w' := by
  have cleared : Extends signed w (Seq.clearTraces w) := extends_clearTraces w
  cases Seq.applyTx_outcome returned with
  | rejected => exact cleared
  | unstaked => exact { cleared with }
  | staked => exact { cleared.setAccount _ _ with }
  | deployed => exact ((cleared.setAccount _ _).setAccount _ _).setCode _ _
  | @called c gas paid _ payload admitted _ ran =>
    have before := cleared.setAccount (fromEd25519 signed.publicKey) paid
    have keeps := KeepsLedger.call ran
    have grown := Grown.call ran
    refine ⟨?_,?_,grown.storage,?_⟩
    · exact fun addr absent => before.accounts addr (by rw [← keeps.accounts]; exact absent)
    · exact fun addr absent => before.code addr (by rw [← keeps.code]; exact absent)
    · intro key listed
      rcases grown.reads key listed with earlier | ⟨slot,same⟩
      · exact before.reads key earlier
      · exact ⟨c,slot,by simp [Tx.asCall,payload],same⟩
  | transferred => exact (cleared.setAccount _ _).setAccount _ _

/-- A failed transaction leaves no trace of storage writes. -/
theorem storageWrites_of_failed
    (returned : Seq.applyTx w signed = some (w',receipt)) (failure : receipt.success = false) :
    w'.storageWrites = ∅ := by
  cases Seq.applyTx_outcome returned with
  | rejected => rfl
  | unstaked => rfl
  | staked => cases failure
  | deployed => cases failure
  | called => cases failure
  | transferred => cases failure

omit [Wasm] in
theorem inUse_inferred {k : Bytes} (own : k ∈ inferredKeys signed) : InUse k := by
  rcases inferredKeys_cases own with ⟨rfl,-⟩ | ⟨addr,rfl⟩
  · exact .inl rfl
  · exact .inr (.inl (length_accountKey addr))

theorem inUse_storageReads (returned : Seq.applyTx w signed = some (w',receipt))
    (listed : key ∈ w'.storageReads) : InUse key := by
  obtain ⟨c,slot,-,rfl⟩ := (extends_applyTx returned).reads key listed
  exact .inr (.inr (length_storageKey c.toAddr slot))

theorem inUse_storageWrites (returned : Seq.applyTx w signed = some (w',receipt))
    (listed : key ∈ w'.storageWrites) : InUse key := by
  obtain ⟨c,slot,-,rfl⟩ := (framed_applyTx returned).writes key listed
  exact .inr (.inr (length_storageKey c.toAddr slot))

structure Speculated (pre : World) (slots : VersionedSlots) (index : Nat) (signed : SignedTx)
    (spec : SpecTx) : Prop where
  index_eq : spec.index = index
  ran : Seq.applyTx pre signed = some (spec.specWorld,spec.receipt)
  reads_eq : spec.reads = inferredKeys signed ∪ spec.specWorld.storageReads
  writes_eq : spec.writes = writesFrom spec.receipt spec.reads ∪ spec.specWorld.storageWrites
  observed : ∀ key ∈ spec.reads, spec.observed[key]? = slots.latest key

namespace Speculated

variable {pre : World} {slots : VersionedSlots} {index : Nat} {spec : SpecTx}

theorem inUse_reads (made : Speculated pre slots index signed spec)
    (read : key ∈ spec.reads) : InUse key := by
  rw [made.reads_eq,Std.ExtTreeSet.mem_union_iff] at read
  rcases read with own | stored
  · exact inUse_inferred own
  · exact inUse_storageReads made.ran stored

end Speculated

theorem speculateOne_total {pre : World} (sound : pre.Sound)
    (healthy : Healthy slots) (index : Nat) (signed : SignedTx) :
    ∃ spec, speculateOne index pre signed slots = some spec ∧
      Speculated pre slots index signed spec := by
  obtain ⟨specWorld,receipt,ran,-⟩ := Seq.applyTx_total sound signed
  have proper : ∀ key ∈ (inferredKeys signed ∪ specWorld.storageReads).toList, SlotKey key := by
    intro key read
    rcases Std.ExtTreeSet.mem_union_iff.mp (Std.ExtTreeSet.mem_toList.mp read) with own | stored
    · exact (inUse_inferred own).slotKey
    · exact (inUse_storageReads ran stored).slotKey
  obtain ⟨first,ranFirst,held⟩ := observeKeys healthy
    (fun key own => (inUse_inferred (Std.ExtTreeSet.mem_toList.mp own)).slotKey) ∅
  obtain ⟨second,ranSecond,held'⟩ := observeRest healthy proper first
  have made : speculateOne index pre signed slots = some (SpecTx.mk index
      (inferredKeys signed ∪ specWorld.storageReads)
      (writesFrom receipt (inferredKeys signed ∪ specWorld.storageReads) ∪ specWorld.storageWrites)
      second specWorld receipt) := by
    rw [speculateOne,ranFirst]
    simp only [ran,ranSecond,Option.bind_eq_bind,Option.bind_some]
    rfl
  refine ⟨_,made,rfl,ran,rfl,rfl,fun key read => ?_⟩
  rw [held' key (Std.ExtTreeSet.mem_toList.mpr read),held]
  split
  · simp
  · simp

theorem speculate_total {pre : World} (sound : pre.Sound)
    (healthy : Healthy slots) (index : Nat) (txs : List SignedTx) :
    ∃ specs, speculate pre slots index txs = some specs ∧
      List.Forall₂ (fun (t : SignedTx × Nat) spec => Speculated pre slots t.2 t.1 spec)
        (txs.zipIdx index) specs := by
  induction txs generalizing index with
  | nil => exact ⟨[],rfl,.nil⟩
  | cons signed rest ih =>
    obtain ⟨spec,made,records⟩ := speculateOne_total sound healthy index signed
    obtain ⟨specs,made',records'⟩ := ih (index + 1)
    exact ⟨spec :: specs,by simp [speculate,made,made'],.cons records records'⟩

end Speculation

section Graph

theorem addNeighbor_total {adj : Map Nat (OrdSet Nat)} {i j : Nat} (known : i ∈ adj) :
    ∃ adj', addNeighbor adj i j = some adj' ∧ ∀ k ∈ adj, k ∈ adj' := by
  obtain ⟨nbrs,held⟩ := Option.isSome_iff_exists.mp (by simpa using known : (adj[i]?).isSome)
  refine ⟨adj.insert i (nbrs.insert j),by simp only [addNeighbor,held],fun k inside => ?_⟩
  exact Std.ExtTreeMap.mem_insert.mpr (.inr inside)

def Spans (specs : List SpecTx) (g : ConflictGraph) : Prop := ∀ s ∈ specs, s.index ∈ g.adj

theorem Spans.addConflict {specs : List SpecTx} {g : ConflictGraph} (spans : Spans specs g)
    {a b : SpecTx} (first : a ∈ specs) (second : b ∈ specs) :
    ∃ g', addConflict g a b = some g' ∧ Spans specs g' := by
  unfold Stm.addConflict
  split
  · exact ⟨g,rfl,spans⟩
  obtain ⟨adj,added,kept⟩ := addNeighbor_total (j := b.index) (spans a first)
  obtain ⟨adj',added',kept'⟩ := addNeighbor_total (j := a.index) (kept _ (spans b second))
  refine ⟨_,by rw [added]; simp only [added',Option.bind_eq_bind,Option.bind_some]; rfl,?_⟩
  exact fun s listed => kept' _ (kept _ (spans s listed))

theorem spans_isolated (specs : List SpecTx) : Spans specs (isolated specs) := by
  have inside (specs : List SpecTx) (adj : Map Nat (OrdSet Nat)) (k : Nat)
      (known : k ∈ adj ∨ ∃ s ∈ specs, s.index = k) :
      k ∈ specs.foldl (fun adj s => adj.insertIfNew s.index ∅) adj := by
    induction specs generalizing adj with
    | nil => simpa using known
    | cons s rest ih =>
      refine ih _ ?_
      rw [Std.ExtTreeMap.mem_insertIfNew]
      simp only [List.mem_cons,exists_eq_or_imp,Std.compare_eq_iff_eq] at known ⊢
      tauto
  exact fun s listed => inside specs ∅ s.index (.inr ⟨s,listed,rfl⟩)

theorem conflictGraph_total (specs : List SpecTx) :
    ∃ g, conflictGraph specs = some g ∧ Spans specs g := by
  refine Folds.foldlM_total (Spans specs) (fun a first g spans => ?_) (spans_isolated specs)
  exact Folds.foldlM_total (Spans specs) (fun b second g spans => spans.addConflict first second) spans

theorem pickWaves_total (graph : ConflictGraph) (fuel : Nat) (remaining : List Nat)
    (enough : remaining.length ≤ fuel) : ∃ waves, pickWaves graph fuel remaining = some waves := by
  induction fuel generalizing remaining with
  | zero =>
    obtain rfl : remaining = [] := List.length_eq_zero_iff.mp (by omega)
    exact ⟨[],rfl⟩
  | succ fuel ih =>
    cases remaining with
    | nil => exact ⟨[],rfl⟩
    | cons i cand =>
      have taken : i ∈ pickWave graph ∅ (i :: cand) := by simp [pickWave]
      have fewer : ((i :: cand).filter (· ∉ pickWave graph ∅ (i :: cand))).length ≤ fuel := by
        rw [List.filter_cons_of_neg (by simpa using taken)]
        have bound := List.length_filter_le (· ∉ pickWave graph ∅ (i :: cand)) cand
        simp only [List.length_cons] at enough
        omega
      obtain ⟨waves,picked⟩ := ih _ fewer
      exact ⟨pickWave graph ∅ (i :: cand) :: waves,
        by simp only [pickWaves,if_neg (List.cons_ne_nil i cand),picked,Option.map_some]⟩

theorem schedule_total (graph : ConflictGraph) : ∃ sched, schedule graph = some sched := by
  obtain ⟨waves,picked⟩ := pickWaves_total graph graph.adj.size (List.range graph.adj.size) (by simp)
  exact ⟨⟨waves⟩,by simp only [schedule,picked,Option.map_some]⟩

end Graph

section Validate

variable {slots : VersionedSlots}

theorem outdated_total (healthy : Healthy slots) (observed : Map Bytes U64) {keys : List Bytes}
    (proper : ∀ key ∈ keys, SlotKey key) : ∃ flag, outdated slots observed keys = some flag ∧
      (flag = false → ∀ key ∈ keys, ∀ v, observed[key]? = some v → slots.latest key = some v) := by
  induction keys with
  | nil => exact ⟨false,rfl,by simp⟩
  | cons key rest ih =>
    obtain ⟨flag,told,fresh⟩ := ih fun key listed => proper key (List.mem_cons_of_mem _ listed)
    obtain ⟨v,known⟩ := healthy key (proper key List.mem_cons_self)
    cases held : observed[key]? with
    | none =>
      refine ⟨flag,by simp only [outdated,held,told],fun clear => ?_⟩
      simp only [List.forall_mem_cons,held]
      exact ⟨by simp,fresh clear⟩
    | some obs =>
      by_cases same : v = obs
      · refine ⟨flag,by simp [outdated,held,VersionedSlots.validate,known,same,told,latestVersion_eq known],
          fun clear => ?_⟩
        simp only [List.forall_mem_cons,held]
        exact ⟨by simp [known,same],fresh clear⟩
      · have moved : slots.validate key obs = some false := by
          simpa [VersionedSlots.validate,known] using same
        exact ⟨true,by simp only [outdated,held,moved],by simp⟩

/-- Validation returns, and the versions that an unflagged result observed are the latest. -/
theorem validate_total (healthy : Healthy slots) {specs : List SpecTx} (sched : Schedule)
    (proper : ∀ s ∈ specs, ∀ key ∈ s.reads, SlotKey key) :
    ∃ indices, validate specs slots sched = some indices ∧
      ∀ s ∈ specs, s.index ∉ indices →
        ∀ key ∈ s.reads, ∀ v, s.observed[key]? = some v → slots.latest key = some v := by
  have loop (specs : List SpecTx) (proper : ∀ s ∈ specs, ∀ key ∈ s.reads, SlotKey key)
      (before : OrdSet Nat) : ∃ indices,
      specs.foldlM (fun indices s => (outdated slots s.observed s.reads.toList).map fun flag =>
        if flag then indices.insert s.index else indices) before = some indices ∧
      (∀ i ∈ before, i ∈ indices) ∧ ∀ s ∈ specs, s.index ∉ indices →
        ∀ key ∈ s.reads, ∀ v, s.observed[key]? = some v → slots.latest key = some v := by
    induction specs generalizing before with
    | nil => exact ⟨before,rfl,fun _ inside => inside,by simp⟩
    | cons s rest ih =>
      obtain ⟨flag,told,fresh⟩ := outdated_total healthy s.observed
        fun key read => proper s List.mem_cons_self key (Std.ExtTreeSet.mem_toList.mp read)
      obtain ⟨indices,finished,kept,rest'⟩ := ih
        (fun s listed => proper s (List.mem_cons_of_mem _ listed))
        (if flag then before.insert s.index else before)
      refine ⟨indices,?_,?_,?_⟩
      · rw [List.foldlM_cons,told]
        exact finished
      · intro i inside
        refine kept i ?_
        split
        · exact Std.ExtTreeSet.mem_insert.mpr (.inr inside)
        · exact inside
      · intro s' listed apart
        rcases List.mem_cons.mp listed with rfl | later
        · cases flag with
          | true => exact absurd (kept _ (by simp)) apart
          | false => exact fun key read => fresh rfl key (Std.ExtTreeSet.mem_toList.mpr read)
        · exact rest' s' later apart
  obtain ⟨indices,finished,-,fresh⟩ := loop specs proper ∅
  exact ⟨indices,finished,fresh⟩

end Validate

section Bump

variable {slots : VersionedSlots}

theorem version_bumpKey (healthy : Healthy slots) (world : World) (used : InUse key) :
    Healthy (bumpKey world slots key) ∧ ∀ other, SlotKey other →
      version (bumpKey world slots key) other =
        if other = key then min (version slots key + 1) (2^64 - 1) else version slots other := by
  obtain ⟨value,chosen⟩ : ∃ value, bumpValue world key = some value := by
    unfold bumpValue
    rcases used with staking | account | storage
    · exact ⟨_,if_pos staking⟩
    · by_cases staking : key = stakingSlot
      · exact ⟨_,if_pos staking⟩
      · exact ⟨_,by simp only [if_neg staking,account]; rfl⟩
    · by_cases staking : key = stakingSlot
      · exact ⟨_,if_pos staking⟩
      · exact ⟨_,by simp only [if_neg staking,storage]; rfl⟩
  have slot := used.slotKey
  obtain ⟨slots',v,known,written,healthy'⟩ := healthy.write slot value
  have bumped : bumpKey world slots key = slots' := by simp only [bumpKey,chosen,written]
  rw [bumped]
  refine ⟨healthy',fun other slot' => ?_⟩
  rw [version,latest_write slot slot' written]
  split
  · have one : (1 : U64).toNat = 1 := rfl
    simp only [version,known,Option.getD_some,toNat_saturatingAdd,one]
  · rfl

theorem version_bumpKeys (healthy : Healthy slots) (world : World) {keys : List Bytes}
    (used : ∀ key ∈ keys, InUse key) :
    Healthy (keys.foldl (bumpKey world) slots) ∧ ∀ key, SlotKey key →
      version slots key ≤ version (keys.foldl (bumpKey world) slots) key ∧
      (key ∈ keys → min (version slots key + 1) (2^64 - 1) ≤
        version (keys.foldl (bumpKey world) slots) key) := by
  induction keys generalizing slots with
  | nil => exact ⟨healthy,fun key _ => ⟨le_refl _,by simp⟩⟩
  | cons head rest ih =>
    obtain ⟨healthy',moved⟩ := version_bumpKey healthy world (used head List.mem_cons_self)
    obtain ⟨final,later⟩ := ih healthy' fun key listed => used key (List.mem_cons_of_mem _ listed)
    refine ⟨final,fun key slot => ?_⟩
    obtain ⟨grows,bumps⟩ := later key slot
    rw [List.foldl_cons]
    have top : version slots key < 2^64 := ((slots.latest key).getD 0).isLt
    have moved := moved key slot
    by_cases same : key = head
    · subst same
      rw [if_pos rfl] at moved
      omega
    · rw [if_neg same] at moved
      rw [moved] at grows bumps
      refine ⟨grows,fun listed => bumps ?_⟩
      exact (List.mem_cons.mp listed).resolve_left same

/-- The keys whose version moved since the slots were seeded. -/
def Moved (start slots : VersionedSlots) : Set Bytes :=
  {key | SlotKey key ∧ version start key < version slots key}

/-- Slots that writes lead to from seeded ones. -/
structure Later (start slots : VersionedSlots) : Prop where
  seeded : Seeded start
  healthy : Healthy slots
  grows : ∀ key, SlotKey key → version start key ≤ version slots key

variable {start : VersionedSlots}

theorem Later.refl (seeded : Seeded start) : Later start start :=
  ⟨seeded,seeded.healthy,fun _ _ => le_refl _⟩

/-- All that is written has moved, and what has moved stays so. -/
theorem Later.bumpWrites (later : Later start slots) (world : World)
    {writes : OrdSet Bytes} (used : ∀ key ∈ writes, InUse key) :
    Later start (Stm.bumpWrites slots world writes) ∧
      Moved start slots ∪ {key | key ∈ writes} ⊆ Moved start (Stm.bumpWrites slots world writes) := by
  obtain ⟨healthy,moves⟩ := version_bumpKeys later.healthy world
    fun key listed => used key (Std.ExtTreeSet.mem_toList.mp listed)
  refine ⟨⟨later.seeded,healthy,fun key slot => (later.grows key slot).trans (moves key slot).1⟩,?_⟩
  rintro key (⟨slot,moved⟩ | (listed : key ∈ writes))
  · exact ⟨slot,lt_of_lt_of_le moved (moves key slot).1⟩
  · have slot := (used key listed).slotKey
    obtain ⟨v,known,low⟩ := later.seeded key slot
    have first : version start key ≤ 1 := by simpa [version,known] using low
    have grown := later.grows key slot
    have bumped := (moves key slot).2 (Std.ExtTreeSet.mem_toList.mpr listed)
    refine ⟨slot,?_⟩
    show version start key < version (writes.toList.foldl (bumpKey world) slots) key
    omega

theorem not_moved {v : U64} (first : start.latest key = some v)
    (still : slots.latest key = some v) : key ∉ Moved start slots := by
  simp [Moved,version,first,still]

end Bump

end L1.Stm
