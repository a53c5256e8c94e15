import L1.Commuting
import L1.Executions
import L1.Failures
import L1.Speculation

/-! Block-STM refines sequential execution. The keys of a transaction confine it, so the commit
of speculative results is one of optimistic execution. -/
namespace L1.Stm

open Host VersionedSlots Staking

/-- What runs of transactions rely on and keep. -/
def Steady (w : World) : Prop := w.Sound ∧ Owned w.staking

section Keyed

variable [Blake3] [Ed25519] [Wasm] {signed : SignedTx} {w q w' q' : World} {r r' : Receipt}

theorem Steady.applyTx (steady : Steady w) (signed : SignedTx) :
    ∃ w' r, Seq.applyTx w signed = some (w',r) ∧ Steady w' := by
  obtain ⟨w',r,returned,sound⟩ := Seq.applyTx_total steady.1 signed
  obtain ⟨result,effect⟩ := Failures.staking_effect (Seq.applyTx_outcome returned)
  exact ⟨w',r,returned,sound,effect.owned steady.2⟩

theorem sameAt_failed {k : Bytes} (steady : Steady w) (ran : Seq.applyTx w signed = some (w',r))
    (failure : ¬ r.success = true) : SameAt k w w' := by
  have same := Failures.sameState_of_failed (Seq.applyTx_outcome ran) steady.2 (by simpa using failure)
  have framed := framed_applyTx ran
  exact ⟨fun _ _ => by rw [same.accounts],fun _ _ => by rw [same.code],fun _ _ => by rw [same.storage],
    fun _ => same.staking.symm,framed.params.symm⟩

omit [Blake3] [Ed25519] [Wasm] in
theorem sameAt_equivalence (k : Bytes) : Equivalence (SameAt k) :=
  ⟨SameAt.refl,SameAt.symm,SameAt.trans⟩

/-- Transactions as optimistic execution sees them. -/
def keyed : Optimistic.Keyed World SignedTx Receipt Bytes where
  run := Seq.applyTx
  success r := r.success = true
  sound := Steady
  keys signed := {k | k ∈ inferredKeys signed}
  same k := ⟨SameAt k,sameAt_equivalence k⟩
  total steady := Steady.applyTx steady _
  depends _ _ := sameAt_depends
  frame := sameAt_frame
  failed := sameAt_failed

theorem runAll_keyed (w : World) (txs : List SignedTx) :
    keyed.runAll w txs = Seq.applyTxs w txs := by
  induction txs generalizing w with
  | nil => rfl
  | cons signed rest ih =>
    have run : keyed.run w signed = Seq.applyTx w signed := rfl
    rw [Optimistic.Keyed.runAll,Seq.applyTxs,run]
    cases Seq.applyTx w signed with
    | none => rfl
    | some result =>
      simp only [ih]
      cases Seq.applyTxs result.1 rest <;> rfl

end Keyed

section Merge

theorem get?_copyEntry {K V : Type} [Ord K] [Std.TransOrd K] [Std.LawfulEqOrd K] [DecidableEq K]
    (src dst : Map K V) (key a : K) :
    (copyEntry src dst key)[a]? = if a = key then (src[a]?).or dst[a]? else dst[a]? := by
  unfold copyEntry
  split
  · rename_i value held
    rw [Map.get?_insert]
    split
    · rename_i same
      rw [same,held,Option.some_or]
    · rfl
  · rename_i absent
    split
    · rename_i same
      rw [same,absent,Option.none_or]
    · rfl

theorem fixed_eq_iff {key : Bytes} (length : key.length = 32) (addr : Address) :
    addr = fixed 32 key ↔ key = accountKey addr := by
  refine ⟨fun same => ?_,fun same => by rw [same,accountKey,fixed_toList]⟩
  rw [accountKey,same,toList_fixed key length]

/-- Each kind of key stands for one part of a world. -/
theorem mergeKey_eq (spec dst : World) (key : Bytes) :
    (∀ addr, (mergeKey spec dst key).accounts[addr]? = if key = accountKey addr then
      (spec.accounts[addr]?).or dst.accounts[addr]? else dst.accounts[addr]?) ∧
    (∀ addr, (mergeKey spec dst key).code[addr]? = if key = accountKey addr then
      (spec.code[addr]?).or dst.code[addr]? else dst.code[addr]?) ∧
    (∀ other, (mergeKey spec dst key).storage[other]? = if key = other ∧ key.length = 64 then
      (spec.storage[other]?).or dst.storage[other]? else dst.storage[other]?) ∧
    (mergeKey spec dst key).staking = (if key = stakingSlot then spec.staking else dst.staking) ∧
    (mergeKey spec dst key).params = dst.params ∧
    (mergeKey spec dst key).versioned = dst.versioned := by
  have account (addr : Address) (same : key = accountKey addr) : key.length = 32 := by simp [same]
  unfold mergeKey
  split
  · rename_i staking
    have apart (addr) : stakingSlot ≠ accountKey addr := (accountKey_ne_stakingSlot addr).symm
    simp [apart,staking]
  split
  · rename_i stored
    have apart (addr) : key ≠ accountKey addr := fun same => by have long := account addr same; omega
    simp [apart,stored,get?_copyEntry,eq_comm]
  split
  · rename_i long
    simp [long,get?_copyEntry,fixed_eq_iff long]
  · rename_i stored long
    have apart (addr) : key ≠ accountKey addr := fun same => long (account addr same)
    simp [apart,stored]

variable (dst : World) (spec : SpecTx)

theorem mergeSpec_part {V : Type} (part : World → Option V) (key : Bytes)
    (merged : ∀ w k, part (mergeKey spec.specWorld w k) =
      if k = key then (part spec.specWorld).or (part w) else part w) :
    part (mergeSpec dst spec) =
      if key ∈ spec.writes then (part spec.specWorld).or (part dst) else part dst := by
  rw [mergeSpec,Folds.foldl_at part (fun found => (part spec.specWorld).or found) key]
  · simp
  · intro found
    cases part spec.specWorld <;> simp
  · exact fun w => by simp [merged]
  · exact fun w k apart => by simp [merged,apart]

theorem mergeSpec_accounts (addr : Address) : (mergeSpec dst spec).accounts[addr]? =
    if accountKey addr ∈ spec.writes then (spec.specWorld.accounts[addr]?).or dst.accounts[addr]?
    else dst.accounts[addr]? :=
  mergeSpec_part dst spec (·.accounts[addr]?) _ fun w k => (mergeKey_eq spec.specWorld w k).1 addr

theorem mergeSpec_code (addr : Address) : (mergeSpec dst spec).code[addr]? =
    if accountKey addr ∈ spec.writes then (spec.specWorld.code[addr]?).or dst.code[addr]?
    else dst.code[addr]? :=
  mergeSpec_part dst spec (·.code[addr]?) _ fun w k => (mergeKey_eq spec.specWorld w k).2.1 addr

theorem mergeSpec_storage {key : Bytes} (length : key.length = 64) :
    (mergeSpec dst spec).storage[key]? = if key ∈ spec.writes then
      (spec.specWorld.storage[key]?).or dst.storage[key]? else dst.storage[key]? := by
  refine mergeSpec_part dst spec (·.storage[key]?) key fun w k => ?_
  rw [(mergeKey_eq spec.specWorld w k).2.2.1]
  by_cases same : k = key
  · rw [if_pos ⟨same,same ▸ length⟩,if_pos same]
  · rw [if_neg (same ·.1),if_neg same]

theorem mergeSpec_storage_other {key : Bytes} (length : key.length ≠ 64) :
    (mergeSpec dst spec).storage[key]? = dst.storage[key]? := by
  refine Folds.foldl_keep (fun w : World => w.storage[key]?) (fun w k => ?_) _ _
  rw [(mergeKey_eq spec.specWorld w _).2.2.1,if_neg]
  rintro ⟨rfl,stored⟩
  exact length stored

theorem mergeSpec_staking : (mergeSpec dst spec).staking =
    if stakingSlot ∈ spec.writes then spec.specWorld.staking else dst.staking := by
  rw [mergeSpec,Folds.foldl_at World.staking (fun _ => spec.specWorld.staking) stakingSlot]
  · simp
  · exact fun _ => rfl
  · exact fun w => by simp [(mergeKey_eq spec.specWorld w _).2.2.2.1]
  · exact fun w k apart => by simp [(mergeKey_eq spec.specWorld w _).2.2.2.1,apart]

theorem mergeSpec_params : (mergeSpec dst spec).params = dst.params :=
  Folds.foldl_keep World.params (fun w k => (mergeKey_eq spec.specWorld w k).2.2.2.2.1) _ _

theorem mergeSpec_versioned : (mergeSpec dst spec).versioned = dst.versioned :=
  Folds.foldl_keep World.versioned (fun w k => (mergeKey_eq spec.specWorld w k).2.2.2.2.2) _ _

end Merge

section Commit

variable [Blake3] [Ed25519] [Wasm] {start s : World} {slots₀ slots : VersionedSlots} {index : Nat}
  {signed : SignedTx} {spec : SpecTx}

theorem writes_of_failed (made : Speculated start slots₀ index signed spec)
    (failure : spec.receipt.success = false) : spec.writes = ∅ := by
  rw [made.writes_eq,storageWrites_of_failed made.ran failure,writesFrom,failure]
  rfl

/-- A successful transaction counts as a writer of its keys and of the storage it accessed. -/
theorem mem_writes (made : Speculated start slots₀ index signed spec)
    (success : spec.receipt.success = true) (key : Bytes) :
    key ∈ spec.writes ↔ key ∈ inferredKeys signed ∨ key ∈ spec.specWorld.storageReads ∨
      key ∈ spec.specWorld.storageWrites := by
  rw [made.writes_eq,writesFrom,if_pos success,made.reads_eq]
  simp only [Std.ExtTreeSet.mem_union_iff]
  tauto

variable {key k : Bytes} {n : Nat} {c c' : Holdings.Chain}

theorem accessed_of_mem_writes (made : Speculated start slots₀ index signed spec)
    (written : key ∈ spec.writes) (other : key ∉ inferredKeys signed) :
    ∃ c slot, signed.tx.asCall = some c ∧ key = storageKey c.toAddr slot := by
  cases success : spec.receipt.success with
  | false =>
    rw [writes_of_failed made success] at written
    simp at written
  | true =>
    rcases (mem_writes made success key).mp written with own | read | stored
    · exact absurd own other
    · exact (extends_applyTx made.ran).reads key read
    · exact (framed_applyTx made.ran).writes key stored

theorem inUse_writes (made : Speculated start slots₀ index signed spec)
    (written : key ∈ spec.writes) : InUse key := by
  by_cases own : key ∈ inferredKeys signed
  · exact inUse_inferred own
  · obtain ⟨c,slot,-,rfl⟩ := accessed_of_mem_writes made written own
    exact .inr (.inr (length_storageKey c.toAddr slot))

/-- Merging leaves the parts outside the keys alone. -/
theorem sameAt_mergeSpec (made : Speculated start slots₀ index signed spec)
    (apart : k ∉ inferredKeys signed) : SameAt k s (mergeSpec s spec) := by
  have unwritten {key : Bytes} (other : key ∉ inferredKeys signed) (short : key.length ≠ 64) :
      key ∉ spec.writes := by
    intro written
    obtain ⟨c,slot,-,rfl⟩ := accessed_of_mem_writes made written other
    exact short (length_storageKey c.toAddr slot)
  refine ⟨?_,?_,?_,?_,(mergeSpec_params s spec).symm⟩
  · rintro addr rfl
    rw [mergeSpec_accounts,if_neg (unwritten apart (by simp))]
  · rintro addr rfl
    rw [mergeSpec_code,if_neg (unwritten apart (by simp))]
  · intro key part
    by_cases stored : key.length = 64
    · rw [mergeSpec_storage s spec stored,if_neg]
      intro written
      have other : key ∉ inferredKeys signed := fun own => by
        rcases inferredKeys_cases own with ⟨rfl,-⟩ | ⟨addr,rfl⟩
        · simp at stored
        · simp at stored
      obtain ⟨c,slot,called,rfl⟩ := accessed_of_mem_writes made written other
      rw [take_storageKey] at part
      exact apart (part ▸ contract_mem called)
    · rw [mergeSpec_storage_other s spec stored]
  · rintro rfl
    rw [mergeSpec_staking,if_neg (unwritten apart (by simp))]

/-- At the keys, merging gives what the transaction left on the pre-block world. -/
theorem sameAt_merged (made : Speculated start slots₀ index signed spec)
    (success : spec.receipt.success = true) (clean : ∀ k ∈ inferredKeys signed, SameAt k start s)
    (own : k ∈ inferredKeys signed) : SameAt k spec.specWorld (mergeSpec s spec) := by
  have grown := extends_applyTx made.ran
  have framed := framed_applyTx made.ran
  have at_ := clean k own
  have written : k ∈ spec.writes := (mem_writes made success k).mpr (.inl own)
  refine ⟨?_,?_,?_,?_,?_⟩
  · rintro addr rfl
    rw [mergeSpec_accounts,if_pos written]
    cases held : spec.specWorld.accounts[addr]? with
    | some account => rfl
    | none => rw [← at_.accounts addr rfl,grown.accounts addr held]; rfl
  · rintro addr rfl
    rw [mergeSpec_code,if_pos written]
    cases held : spec.specWorld.code[addr]? with
    | some code => rfl
    | none => rw [← at_.code addr rfl,grown.code addr held]; rfl
  · intro key part
    have before := at_.storage key part
    by_cases stored : key.length = 64
    · rw [mergeSpec_storage s spec stored]
      split
      · cases held : spec.specWorld.storage[key]? with
        | some value => rfl
        | none => rw [← before,grown.storage key held]; rfl
      · rename_i unwritten
        rw [← before]
        exact framed.storage key fun listed => unwritten ((mem_writes made success key).mpr (.inr (.inr listed)))
    · rw [mergeSpec_storage_other s spec stored,← before]
      refine framed.storage key fun listed => ?_
      obtain ⟨c,slot,-,rfl⟩ := framed.writes key listed
      exact stored (length_storageKey c.toAddr slot)
  · rintro rfl
    rw [mergeSpec_staking,if_pos written]
  · rw [mergeSpec_params,← at_.params,framed.params]

theorem reused_mergeSpec (made : Speculated start slots₀ index signed spec)
    (clean : ∀ k ∈ inferredKeys signed, SameAt k start s) :
    keyed.Reused start s signed (mergeSpec s spec) spec.receipt where
  ahead := ⟨spec.specWorld,made.ran,fun _ touched => sameAt_merged made touched.2 clean touched.1⟩
  kept k apart := by
    by_cases own : k ∈ inferredKeys signed
    · have failure : spec.receipt.success = false := by
        by_contra success
        exact apart ⟨own,(Bool.not_eq_false _).mp success⟩
      have unchanged : mergeSpec s spec = s := by
        rw [mergeSpec,writes_of_failed made failure]
        rfl
      rw [unchanged]
    · exact sameAt_mergeSpec made own

theorem steady_mergeSpec (made : Speculated start slots₀ index signed spec) (first : Steady start)
    (steady : Steady s) : Steady (mergeSpec s spec) := by
  obtain ⟨_,_,again,ahead⟩ := first.applyTx signed
  rw [made.ran] at again
  cases again
  refine ⟨⟨by rw [mergeSpec_versioned]; exact steady.1.1,fun key value held => ?_⟩,?_⟩
  · by_cases stored : key.length = 64
    · rw [mergeSpec_storage s spec stored] at held
      split at held
      · cases found : spec.specWorld.storage[key]? with
        | some value' =>
          rw [found] at held
          cases held
          exact ahead.1.2 key value found
        | none =>
          rw [found] at held
          exact steady.1.2 key value held
      · exact steady.1.2 key value held
    · rw [mergeSpec_storage_other s spec stored] at held
      exact steady.1.2 key value held
  · rw [mergeSpec_staking]
    split
    · exact ahead.2
    · exact steady.2

def Fresh (start slots : VersionedSlots) (stale : OrdSet Nat) (specs : List SpecTx) : Prop :=
  ∀ spec ∈ specs, spec.index ∉ stale → ∀ key ∈ spec.reads, key ∉ Moved start slots

def SpeculatedFrom (start : World) (slots : VersionedSlots) (index : Nat) (txs : List SignedTx)
    (specs : List SpecTx) : Prop :=
  List.Forall₂ (fun (t : SignedTx × Nat) spec => Speculated start slots t.2 t.1 spec)
    (txs.zipIdx index) specs

variable {txs : List SignedTx} {specs : List SpecTx} {stale : OrdSet Nat}

theorem SpeculatedFrom.made (from_ : SpeculatedFrom start slots₀ index txs specs) (listed : spec ∈ specs) :
    ∃ i signed, Speculated start slots₀ i signed spec := by
  unfold SpeculatedFrom at from_
  generalize txs.zipIdx index = positions at from_
  induction from_ with
  | nil => cases listed
  | cons made _ ih =>
    rcases List.mem_cons.mp listed with rfl | other
    · exact ⟨_,_,made⟩
    · exact ih other

/-- Validation against the current slots keeps only results that read nothing that moved. -/
theorem validate_fresh (later : Later slots₀ slots)
    (from_ : SpeculatedFrom start slots₀ index txs specs) (sched : Schedule) :
    ∃ indices, validate specs slots sched = some indices ∧ Fresh slots₀ slots indices specs := by
  have proper : ∀ s ∈ specs, ∀ key ∈ s.reads, SlotKey key := by
    intro spec listed key read
    obtain ⟨i,signed,made⟩ := from_.made listed
    exact (made.inUse_reads read).slotKey
  obtain ⟨indices,validated,fresh⟩ := validate_total later.healthy sched proper
  refine ⟨indices,validated,fun spec listed unflagged key read => ?_⟩
  obtain ⟨i,signed,made⟩ := from_.made listed
  obtain ⟨v,known,-⟩ := later.seeded key (proper spec listed key read)
  have seen := made.observed key read
  rw [known] at seen
  exact not_moved known (fresh spec listed unflagged key read v seen)

theorem revalidate_fresh (later : Later slots₀ slots)
    (from_ : SpeculatedFrom start slots₀ index txs specs) (stale : OrdSet Nat) :
    ∃ stale', revalidate slots stale specs = some stale' ∧ Fresh slots₀ slots stale' specs := by
  unfold revalidate
  split
  · rename_i done
    exact ⟨stale,rfl,fun spec listed => by simp [done] at listed⟩
  obtain ⟨graph,built,-⟩ := conflictGraph_total specs
  obtain ⟨sched,scheduled⟩ := schedule_total graph
  obtain ⟨more,validated,fresh⟩ := validate_fresh later from_ sched
  refine ⟨stale ∪ more,?_,fun spec listed unflagged => fresh spec listed fun flagged => ?_⟩
  · rw [built]
    simp only [scheduled,validated,Option.bind_eq_bind,Option.bind_some]
    rfl
  · exact unflagged (Std.ExtTreeSet.mem_union_iff.mpr (.inr flagged))

/-- One transaction of the commit: it is run again, or its result is reused; all that it may have
touched is marked as moved. -/
theorem commitNext_total (first : Steady start) (later : Later slots₀ slots) (steady : Steady s)
    (made : Speculated start slots₀ index signed spec) (need : Bool)
    (clean : need = false → ∀ k ∈ inferredKeys signed, SameAt k start s) :
    ∃ s' slots' r, commitNext s slots need signed spec = some (s',slots',r) ∧
      Later slots₀ slots' ∧ Steady s' ∧
      Moved slots₀ slots ∪ keyed.touched signed r ⊆ Moved slots₀ slots' ∧
      (need = true ∧ Seq.applyTx s signed = some (s',r) ∨
        need = false ∧ keyed.Reused start s signed s' r) := by
  cases need with
  | true =>
    obtain ⟨s',r,ran,steady'⟩ := steady.applyTx signed
    have used : ∀ key ∈ (if r.success then inferredKeys signed else ∅) ∪ s'.storageWrites,
        InUse key := by
      intro key listed
      rcases Std.ExtTreeSet.mem_union_iff.mp listed with own | stored
      · split at own
        · exact inUse_inferred own
        · simp at own
      · exact inUse_storageWrites ran stored
    obtain ⟨later',covers⟩ := later.bumpWrites s' used
    refine ⟨s',_,r,by simp only [commitNext,if_true,ran,Option.bind_eq_bind,Option.bind_some]; rfl,
      later',steady',?_,.inl ⟨rfl,ran⟩⟩
    rintro key (moved | ⟨own,success⟩)
    · exact covers (.inl moved)
    · refine covers (.inr (Std.ExtTreeSet.mem_union_iff.mpr (.inl ?_)))
      have succeeded : r.success = true := success
      rw [if_pos succeeded]
      exact own
  | false =>
    obtain ⟨later',covers⟩ := later.bumpWrites (mergeSpec s spec) fun key => inUse_writes made
    refine ⟨_,_,_,rfl,later',steady_mergeSpec made first steady,?_,
      .inr ⟨rfl,reused_mergeSpec made (clean rfl)⟩⟩
    rintro key (moved | ⟨own,success⟩)
    · exact covers (.inl moved)
    · exact covers (.inr ((mem_writes made success key).mpr (.inl own)))

/-- What holds when the loop is about to commit the first of the remaining transactions: the parts
that did not move are those of the pre-block world, and unflagged results read only such parts. -/
structure Committing (start : World) (slots₀ : VersionedSlots) (index : Nat) (txs : List SignedTx)
    (specs : List SpecTx) (s : World) (slots : VersionedSlots) (stale : OrdSet Nat) : Prop where
  made : SpeculatedFrom start slots₀ index txs specs
  later : Later slots₀ slots
  steady : Steady s
  clean : keyed.Clean start s (Moved slots₀ slots)
  fresh : Fresh slots₀ slots stale specs

namespace Committing

variable {txs : List SignedTx} {rest : List SpecTx} {stale : OrdSet Nat}

theorem speculated (inv : Committing start slots₀ index (signed :: txs) (spec :: rest) s slots stale) :
    Speculated start slots₀ index signed spec := by
  cases inv.made with
  | cons made _ => exact made

/-- Nothing that an unflagged transaction may read has moved. -/
theorem untouched (inv : Committing start slots₀ index (signed :: txs) (spec :: rest) s slots stale)
    (kept : index ∉ stale) : ∀ k ∈ inferredKeys signed, k ∉ Moved slots₀ slots := by
  intro k own
  refine inv.fresh spec List.mem_cons_self ?_ k ?_
  · rwa [inv.speculated.index_eq]
  · rw [inv.speculated.reads_eq]
    exact Std.ExtTreeSet.mem_union_iff.mpr (.inl own)

theorem sameAt (inv : Committing start slots₀ index (signed :: txs) (spec :: rest) s slots stale)
    (kept : index ∉ stale) : ∀ k ∈ inferredKeys signed, SameAt k start s :=
  fun k own => inv.clean k (inv.untouched kept k own)

theorem step (first : Steady start)
    (inv : Committing start slots₀ index (signed :: txs) (spec :: rest) s slots stale) :
    ∃ s₁ slots₁ r stale₁, commitNext s slots (index ∈ stale) signed spec = some (s₁,slots₁,r) ∧
      revalidate slots₁ stale rest = some stale₁ ∧
      Committing start slots₀ (index + 1) txs rest s₁ slots₁ stale₁ ∧
      Moved slots₀ slots ∪ keyed.touched signed r ⊆ Moved slots₀ slots₁ ∧
      (Seq.applyTx s signed = some (s₁,r) ∨ index ∉ stale ∧ keyed.Reused start s signed s₁ r) := by
  have others : SpeculatedFrom start slots₀ (index + 1) txs rest := by
    cases inv.made with
    | cons _ others => exact others
  obtain ⟨s₁,slots₁,r,committed,later₁,steady₁,covers,how⟩ :=
    commitNext_total first inv.later inv.steady inv.speculated (decide (index ∈ stale))
      fun kept => inv.sameAt (of_decide_eq_false kept)
  obtain ⟨stale₁,revalidated,fresh₁⟩ := revalidate_fresh later₁ others stale
  have clean₁ : keyed.Clean start s₁ (Moved slots₀ slots₁) := by
    refine inv.clean.step (fun k apart => ?_) covers
    rcases how with ⟨-,ran⟩ | ⟨-,reused⟩
    · exact Optimistic.Keyed.untouched inv.steady ran apart
    · exact reused.kept k apart
  refine ⟨s₁,slots₁,r,stale₁,committed,revalidated,⟨others,later₁,steady₁,clean₁,fresh₁⟩,covers,?_⟩
  rcases how with ⟨-,ran⟩ | ⟨kept,reused⟩
  · exact .inl ran
  · exact .inr ⟨of_decide_eq_false kept,reused⟩

theorem merged (first : Steady start)
    (inv : Committing start slots₀ index (signed :: txs) (spec :: rest) s slots stale)
    (kept : index ∉ stale) : ∃ s', Seq.applyTx s signed = some (s',spec.receipt) ∧
      ∀ k, SameAt k (mergeSpec s spec) s' := by
  obtain ⟨s',r,ran,-⟩ := inv.steady.applyTx signed
  have reused := reused_mergeSpec inv.speculated (inv.sameAt kept)
  obtain ⟨rfl,same⟩ := reused.run first inv.steady (inv.sameAt kept) ran
  exact ⟨s',ran,same⟩

end Committing

/-- The commit returns, and it is one of optimistic execution. -/
theorem reexecSequential_total (first : Steady start)
    (inv : Committing start slots₀ index txs specs s slots stale) :
    ∃ s' rs, reexecSequential s slots stale index txs specs = some (s',rs) ∧
      keyed.Commit start s (Moved slots₀ slots) txs s' rs := by
  induction txs generalizing s slots index specs stale with
  | nil => exact ⟨s,[],by rw [reexecSequential],.nil⟩
  | cons signed txs ih =>
    cases specs with
    | nil => cases inv.made
    | cons spec rest =>
      obtain ⟨s₁,slots₁,r,stale₁,committed,revalidated,inv₁,covers,how⟩ := inv.step first
      obtain ⟨s₂,rs,finished,commit⟩ := ih inv₁
      refine ⟨s₂,r :: rs,?_,?_⟩
      · rw [reexecSequential,committed]
        simp only [revalidated,finished,Option.bind_eq_bind,Option.bind_some]
        rfl
      · rcases how with ran | ⟨kept,reused⟩
        · exact .redo ran covers commit
        · exact .reuse (inv.untouched kept) reused inv₁.steady covers commit

omit [Wasm] in
theorem inUse_keys (txs : List SignedTx) :
    ∀ key ∈ txs.foldl (fun keys tx => keys ∪ inferredKeys tx) (∅ : OrdSet Bytes), InUse key := by
  have loop (txs : List SignedTx) (keys : OrdSet Bytes) (used : ∀ key ∈ keys, InUse key) :
      ∀ key ∈ txs.foldl (fun keys tx => keys ∪ inferredKeys tx) keys, InUse key := by
    induction txs generalizing keys with
    | nil => exact used
    | cons tx rest ih =>
      refine ih _ fun key listed => ?_
      rcases Std.ExtTreeSet.mem_union_iff.mp listed with before | own
      · exact used key before
      · exact inUse_inferred own
  exact loop txs ∅ fun key listed => by simp at listed

/-- The stages before the commit: seeded slots, speculative results and the first flags. -/
def prepare (pre : World) (block : Block) : Option (VersionedSlots × List SpecTx × OrdSet Nat) := do
  let keys := block.txs.foldl (fun keys tx => keys ∪ inferredKeys tx) ∅
  let (slots,_) ← seedAndRead ∅ pre keys
  let specs ← speculate pre slots 0 block.txs
  let graph ← conflictGraph specs
  let sched ← schedule graph
  let flagged ← validate specs slots sched
  return (slots,specs,staleFromEarlierWrites specs ∪ flagged)

theorem applyBlockEngine_eq (pre : World) (block : Block) : applyBlockEngine pre block = do
    let (slots,specs,stale) ← prepare pre block
    let (world,receipts) ← reexecSequential pre slots stale 0 block.txs specs
    return (world,receipts,Seq.appHash world.commitStateRoot (txRootSigned block.txs)
      (receiptsRoot (receipts.map Receipt.encode))) := by
  simp [applyBlockEngine,prepare,Option.bind_assoc]

theorem prepare_total (steady : Steady start) (block : Block) :
    ∃ slots specs stale, prepare start block = some (slots,specs,stale) ∧
      Committing start slots 0 block.txs specs start slots stale := by
  obtain ⟨⟨slots,observed⟩,seeding,seeded⟩ := seedAndRead_total seeded_empty start
    fun key listed => (inUse_keys block.txs key listed).slotKey
  dsimp only at seeded
  obtain ⟨specs,speculated,from_⟩ := speculate_total steady.1 seeded.healthy 0 block.txs
  obtain ⟨graph,built,-⟩ := conflictGraph_total specs
  obtain ⟨sched,scheduled⟩ := schedule_total graph
  obtain ⟨flagged,validated,-⟩ := validate_fresh (Later.refl seeded) from_ sched
  refine ⟨slots,specs,staleFromEarlierWrites specs ∪ flagged,?_,from_,Later.refl seeded,steady,
    fun k _ => SameAt.refl start,fun _ _ _ key _ moved => lt_irrefl _ moved.2⟩
  rw [prepare,seeding]
  simp only [speculated,built,scheduled,validated,Option.bind_eq_bind,Option.bind_some]
  rfl

/-- From a steady world the pipeline returns what the sequential transition does. -/
theorem applyBlockEngine_sequential (steady : Steady start) (block : Block) :
    ∃ world receipts app world', applyBlockEngine start block = some (world,receipts,app) ∧
      Seq.applyBlock start block = some (world',receipts,app) ∧ SameState world world' := by
  obtain ⟨slots,specs,stale,prepared,inv⟩ := prepare_total steady block
  obtain ⟨world,receipts,committed,commit⟩ := reexecSequential_total steady inv
  obtain ⟨world',ran,same⟩ := commit.sequential steady steady (fun k _ => SameAt.refl start) steady
    (Optimistic.Keyed.Same.refl start)
  rw [runAll_keyed] at ran
  have state := sameState_of_sameAt same
  have root : world.commitStateRoot = world'.commitStateRoot := by
    rw [World.commitStateRoot,World.commitStateRoot,state.accounts,state.storage]
  have sequential : Seq.applyBlock start block = some (world',receipts,Seq.appHash
      world'.commitStateRoot (txRootSigned block.txs) (receiptsRoot (receipts.map Receipt.encode))) := by
    simp only [Seq.applyBlock,ran]
  refine ⟨world,receipts,_,world',?_,sequential,state⟩
  rw [applyBlockEngine_eq,prepared]
  simp only [committed,Option.bind_eq_bind,Option.bind_some,root]
  rfl

/-- The world, the slots and the flags when the loop reaches its `n`th transaction. -/
def reexecTo (world : World) (slots : VersionedSlots) (stale : OrdSet Nat) (i : Nat) :
    Nat → List SignedTx → List SpecTx → Option (World × VersionedSlots × OrdSet Nat)
  | 0, _, _ => some (world,slots,stale)
  | _ + 1, [], _ => none
  | _ + 1, _ :: _, [] => none
  | n + 1, signed :: txs, spec :: rest => do
    let (world,slots,_) ← commitNext world slots (i ∈ stale) signed spec
    let stale ← revalidate slots stale rest
    reexecTo world slots stale (i + 1) n txs rest

/-- From there on the loop does the rest. -/
theorem reexecSequential_resumes {s' : World} {slots' : VersionedSlots} {stale' : OrdSet Nat}
    (arrived : reexecTo s slots stale index n txs specs = some (s',slots',stale')) :
    ∃ done : List Receipt, done.length = n ∧ reexecSequential s slots stale index txs specs =
      (reexecSequential s' slots' stale' (index + n) (txs.drop n) (specs.drop n)).map
        fun result => (result.1,done ++ result.2) := by
  induction n generalizing s slots index txs specs stale with
  | zero =>
    cases arrived
    exact ⟨[],rfl,by simp⟩
  | succ n ih =>
    cases txs with
    | nil => cases arrived
    | cons signed txs => cases specs with
      | nil => cases arrived
      | cons spec rest =>
        rw [reexecTo] at arrived
        obtain ⟨⟨s₁,slots₁,r⟩,committed,arrived⟩ := Option.bind_eq_some_iff.mp arrived
        obtain ⟨stale₁,revalidated,arrived⟩ := Option.bind_eq_some_iff.mp arrived
        obtain ⟨done,length,resumed⟩ := ih arrived
        refine ⟨r :: done,by rw [List.length_cons,length],?_⟩
        have position : index + 1 + n = index + (n + 1) := by omega
        rw [position] at resumed
        rw [reexecSequential,committed]
        simp only [revalidated,resumed,Option.bind_eq_bind,Option.bind_some,List.drop_succ_cons]
        cases reexecSequential s' slots' stale' (index + (n + 1)) (txs.drop n) (rest.drop n) <;> rfl

theorem Committing.arrives (first : Steady start)
    (inv : Committing start slots₀ index txs specs s slots stale) (inside : n ≤ txs.length) :
    ∃ s' slots' stale', reexecTo s slots stale index n txs specs = some (s',slots',stale') ∧
      Committing start slots₀ (index + n) (txs.drop n) (specs.drop n) s' slots' stale' := by
  induction n generalizing s slots index txs specs stale with
  | zero => exact ⟨s,slots,stale,by rw [reexecTo],inv⟩
  | succ n ih =>
    cases txs with
    | nil => simp at inside
    | cons signed txs => cases specs with
      | nil => cases inv.made
      | cons spec rest =>
        obtain ⟨s₁,slots₁,r,stale₁,committed,revalidated,inv₁,-⟩ := inv.step first
        obtain ⟨s',slots',stale',arrived,inv'⟩ := ih inv₁ (by simpa using inside)
        refine ⟨s',slots',stale',?_,by simpa [Nat.add_assoc,Nat.add_comm 1] using inv'⟩
        rw [reexecTo,committed]
        simp only [revalidated,arrived,Option.bind_eq_bind,Option.bind_some]

theorem steady_reached {g : Genesis} {blocks : List Block} {w : World}
    (reached : Seq.applyBlocks (World.fromGenesis g) blocks = some w) : Steady w := by
  rw [Seq.applyBlocks_eq] at reached
  refine Seq.worldAfter_keep (P := Steady) ?_ reached ⟨Execution.sound_start g,Books.owned_empty⟩
  intro world signed world' receipt _ applied steady
  obtain ⟨_,_,again,after⟩ := steady.applyTx signed
  rw [applied] at again
  cases again
  exact after

theorem steady_next [Bls] {event : Failures.Event} (steady : Steady c.world)
    (stepped : Failures.next c event = some c') : Steady c'.world := by
  refine ⟨?_,Failures.owned_next steady.2 stepped⟩
  cases event with
  | apply signed =>
    obtain ⟨⟨world,receipt⟩,applied,rfl⟩ := Option.map_eq_some_iff.mp stepped
    obtain ⟨world',receipt',again,after⟩ := steady.applyTx signed
    rw [applied] at again
    cases again
    exact after.1
  | notice n =>
    cases stepped
    exact steady.1

theorem steady_run [Bls] (events : List Failures.Event) (steady : Steady c.world)
    (reached : Failures.run c events = some c') : Steady c'.world := by
  induction events generalizing c with
  | nil =>
    cases reached
    exact steady
  | cons event rest ih =>
    rw [Failures.run] at reached
    split at reached
    · cases reached
    rename_i middle stepped
    exact ih (steady_next steady stepped) reached

/-- When the loop reaches a transaction that is not flagged, everything the transaction may read is as
in the pre-block world, and merging its result is as good as running it. -/
theorem unflagged_reads_unchanged [Bls] {g : Genesis} {events : List Failures.Event} {c : Holdings.Chain}
    (reached : Failures.run (Holdings.start g) events = some c) (block : Block) :
    ∃ slots specs stale₀, prepare c.world block = some (slots,specs,stale₀) ∧
      ∀ i signed, block.txs[i]? = some signed →
        ∃ spec world slots' stale, specs[i]? = some spec ∧
          reexecTo c.world slots stale₀ 0 i block.txs specs = some (world,slots',stale) ∧
          (∃ done : List Receipt, done.length = i ∧
            reexecSequential c.world slots stale₀ 0 block.txs specs =
              (reexecSequential world slots' stale i (block.txs.drop i) (specs.drop i)).map
                fun result => (result.1,done ++ result.2)) ∧
          (i ∉ stale → (∀ k ∈ inferredKeys signed, SameAt k c.world world) ∧
            ∃ world', Seq.applyTx world signed = some (world',spec.receipt) ∧
              SameState (mergeSpec world spec) world' ∧ (mergeSpec world spec).params = world'.params) := by
  have steady := steady_run events ⟨Execution.sound_start g,Books.owned_empty⟩ reached
  obtain ⟨slots,specs,stale₀,prepared,inv⟩ := prepare_total steady block
  refine ⟨slots,specs,stale₀,prepared,fun i signed listed => ?_⟩
  obtain ⟨inside,here⟩ := List.getElem?_eq_some_iff.mp listed
  obtain ⟨world,slots',stale,arrived,inv⟩ := inv.arrives steady (Nat.le_of_lt inside)
  have remaining : block.txs.drop i = signed :: block.txs.drop (i + 1) := by
    rw [List.drop_eq_getElem_cons inside,here]
  have resumed := reexecSequential_resumes arrived
  rw [Nat.zero_add] at inv resumed
  rw [remaining] at inv
  obtain ⟨spec,rest,results⟩ : ∃ spec rest, specs.drop i = spec :: rest := by
    cases results : specs.drop i with
    | nil =>
      rw [results] at inv
      cases inv.made
    | cons spec rest => exact ⟨spec,rest,rfl⟩
  rw [results] at inv
  refine ⟨spec,world,slots',stale,?_,arrived,resumed,fun kept => ⟨inv.sameAt kept,?_⟩⟩
  · have first := congrArg (·[0]?) results
    simpa using first
  · obtain ⟨world',ran,same⟩ := inv.merged steady kept
    exact ⟨world',ran,sameState_of_sameAt same,(same []).params⟩

/-- Block-STM refines sequential execution: in every world that blocks lead to from a genesis and
for every block, the parallel pipeline gives the receipts and the application hash of the
sequential transition, with the same accounts, storage, code and staking ledger, and the
comparison of the two passes. Tries with any histories of writes have the same roots. -/
theorem parallel_refines_sequential {g : Genesis} {blocks : List Block} {pre : World}
    (reached : Seq.applyBlocks (World.fromGenesis g) blocks = some pre) (block : Block) :
    ∃ world receipts app world',
      applyBlockEngine pre block = some (world,receipts,app) ∧
      Seq.applyBlock pre block = some (world',receipts,app) ∧
      applyBlock pre block = some (world,receipts,app) ∧
      SameState world world' ∧ SameTries world world' := by
  obtain ⟨world,receipts,app,world',engine,sequential,same⟩ :=
    applyBlockEngine_sequential (steady_reached reached) block
  have root : world.commitStateRoot = world'.commitStateRoot := by
    rw [World.commitStateRoot,World.commitStateRoot,same.accounts,same.storage]
  refine ⟨world,receipts,app,world',engine,sequential,?_,same,same.tries⟩
  simp [applyBlock,sequential,engine,root]

end Commit

/-! Three payments of one block, two of them by one sender and all to one recipient. -/
namespace Crowded

open Holdings.Sample (address sign)

attribute [local instance] Holdings.Sample.blake3 Holdings.Sample.ed25519 Holdings.Sample.wasm
  LoneSigner.bls

def payment (tag : UInt8) (nonce : U64) : SignedTx := sign tag nonce 1 (.transfer ⟨address 3,10⟩)

def block : Block := ⟨LoneSigner.header.fields,[payment 1 0,payment 2 0,payment 1 1]⟩

/-- The later payments are run again, and all three succeed. -/
theorem payments_committed : ∃ world receipts app world',
    applyBlockEngine (.fromGenesis Crossing.genesis) block = some (world,receipts,app) ∧
    Seq.applyBlock (.fromGenesis Crossing.genesis) block = some (world',receipts,app) ∧
    applyBlock (.fromGenesis Crossing.genesis) block = some (world,receipts,app) ∧
    SameState world world' ∧ SameTries world world' ∧
    receipts.map Receipt.success = [true,true,true] := by
  obtain ⟨world,receipts,app,world',engine,sequential,compared,same,tries⟩ :=
    @parallel_refines_sequential _ _ _ Crossing.genesis [] _ rfl block
  have told : (Seq.applyTxs (.fromGenesis Crossing.genesis) block.txs).map
      (fun result => result.2.map Receipt.success) = some [true,true,true] := by decide +kernel
  refine ⟨world,receipts,app,world',engine,sequential,compared,same,tries,?_⟩
  unfold Seq.applyBlock at sequential
  split at sequential
  · cases sequential
  rename_i ran
  cases sequential
  rw [ran] at told
  exact Option.some_inj.mp told

/-- The first payment is not flagged, and its speculative result is merged. -/
theorem first_payment_merged : ∃ slots specs stale spec world',
    Failures.run (Holdings.start Crossing.genesis) [] = some (Holdings.start Crossing.genesis) ∧
    prepare (Holdings.start Crossing.genesis).world block = some (slots,specs,stale) ∧
    specs[0]? = some spec ∧ 0 ∉ stale ∧
    Seq.applyTx (Holdings.start Crossing.genesis).world (payment 1 0) = some (world',spec.receipt) ∧
    SameState (mergeSpec (Holdings.start Crossing.genesis).world spec) world' := by
  obtain ⟨slots,specs,stale,prepared,loop⟩ :=
    @unflagged_reads_unchanged _ _ _ _ Crossing.genesis [] _ rfl block
  obtain ⟨spec,world,_,_,result,arrived,-,invariant⟩ := loop 0 (payment 1 0) rfl
  rw [reexecTo] at arrived
  cases arrived
  have unflagged : (prepare (Holdings.start Crossing.genesis).world block).map
      (fun prepared => decide (0 ∈ prepared.2.2)) = some false := by decide +kernel
  rw [prepared] at unflagged
  have kept : 0 ∉ stale := of_decide_eq_false (Option.some_inj.mp unflagged)
  obtain ⟨-,world',ran,same,-⟩ := invariant kept
  exact ⟨slots,specs,stale,spec,world',rfl,prepared,result,kept,ran,same⟩

end Crowded

end L1.Stm
