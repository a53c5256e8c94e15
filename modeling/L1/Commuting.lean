import L1.AccountMpt
import L1.Independence

/-! Two transactions with disjoint keys may run in either order. -/
namespace L1

namespace TrieMap

theorem root_of_entries [Blake3] {K V : Type} [Ord K] [Std.TransOrd K] [Std.LawfulEqOrd K]
    [DecidableEq K] {keyBytes : K → Bytes} {valueBytes : V → Bytes} (injective : Function.Injective keyBytes)
    {writes writes' : List (Write K V)}
    (fits : ∀ write ∈ writes, (write.op keyBytes valueBytes).Fits)
    (fits' : ∀ write ∈ writes', (write.op keyBytes valueBytes).Fits)
    (safe : Mpt.NoCollision (Mpt.run .new (writes.map (Write.op keyBytes valueBytes))).2.nodes)
    (safe' : Mpt.NoCollision (Mpt.run .new (writes'.map (Write.op keyBytes valueBytes))).2.nodes)
    (same : writes.foldl Write.apply ∅ = writes'.foldl Write.apply ∅) :
    (Mpt.run .new (writes.map (Write.op keyBytes valueBytes))).2.root =
      (Mpt.run .new (writes'.map (Write.op keyBytes valueBytes))).2.root := by
  have commits {writes : List (Write K V)}
      (fits : ∀ write ∈ writes, (write.op keyBytes valueBytes).Fits)
      (safe : Mpt.NoCollision (Mpt.run .new (writes.map (Write.op keyBytes valueBytes))).2.nodes) :
      ∃ tree, Mpt.Commits (Mpt.run .new (writes.map (Write.op keyBytes valueBytes))).2 tree
        (image keyBytes valueBytes (writes.foldl Write.apply ∅)) := by
    have ops : ∀ op ∈ writes.map (Write.op keyBytes valueBytes), op.Fits := by
      intro op member
      obtain ⟨write,listed,rfl⟩ := List.mem_map.mp member
      exact fits write listed
    obtain ⟨-,tree,holds⟩ := Mpt.commits_new.run _ ops safe
    rw [← image_empty keyBytes valueBytes,image_writes _ _ injective] at holds
    exact ⟨tree,holds⟩
  obtain ⟨tree,left⟩ := commits fits safe
  obtain ⟨tree',right⟩ := commits fits' safe'
  rw [same] at left
  rw [left.root,right.root,left.tree_eq right]

end TrieMap

open Host

namespace Stm

section Commuting

variable [Blake3] [Ed25519]

def Apart (a b : SignedTx) : Prop := ∀ k ∈ inferredKeys a, k ∉ inferredKeys b

theorem Apart.symm {a b : SignedTx} (apart : Apart a b) : Apart b a :=
  fun k own other => apart k other own

variable {a b : SignedTx}

structure SameState (w q : World) : Prop where
  accounts : w.accounts = q.accounts
  storage : w.storage = q.storage
  code : w.code = q.code
  staking : w.staking = q.staking

omit [Blake3] [Ed25519] in
theorem sameState_of_sameAt {w q : World} (same : ∀ k, SameAt k w q) : SameState w q where
  accounts := Std.ExtTreeMap.ext_getElem? fun addr => (same (accountKey addr)).accounts addr rfl
  storage := Std.ExtTreeMap.ext_getElem? fun key => (same (key.take 32)).storage key rfl
  code := Std.ExtTreeMap.ext_getElem? fun addr => (same (accountKey addr)).code addr rfl
  staking := (same stakingSlot).staking rfl

/-- Two worlds whose tries, with any histories of writes that left their accounts and storage,
have the same roots. -/
structure SameTries (w q : World) : Prop where
  accounts : ∀ writes writes' : List (TrieMap.Write Address Account),
    writes.foldl TrieMap.Write.apply ∅ = w.accounts → writes'.foldl TrieMap.Write.apply ∅ = q.accounts →
    Mpt.NoCollision (Mpt.run .new (writes.map Execution.accountOp)).2.nodes →
    Mpt.NoCollision (Mpt.run .new (writes'.map Execution.accountOp)).2.nodes →
    (Mpt.run .new (writes.map Execution.accountOp)).2.root =
      (Mpt.run .new (writes'.map Execution.accountOp)).2.root
  storage : ∀ writes writes' : List (TrieMap.Write Bytes Bytes),
    (∀ write ∈ writes, (write.op id id).Fits) → (∀ write ∈ writes', (write.op id id).Fits) →
    writes.foldl TrieMap.Write.apply ∅ = w.storage → writes'.foldl TrieMap.Write.apply ∅ = q.storage →
    Mpt.NoCollision (Mpt.run .new (writes.map (TrieMap.Write.op id id))).2.nodes →
    Mpt.NoCollision (Mpt.run .new (writes'.map (TrieMap.Write.op id id))).2.nodes →
    (Mpt.run .new (writes.map (TrieMap.Write.op id id))).2.root =
      (Mpt.run .new (writes'.map (TrieMap.Write.op id id))).2.root

omit [Ed25519] in
theorem SameState.tries {w q : World} (same : SameState w q) : SameTries w q where
  accounts writes writes' entries entries' safe safe' := by
    refine TrieMap.root_of_entries AccountMpt.accountKey_injective (fun write _ => AccountMpt.fits_op write)
      (fun write _ => AccountMpt.fits_op write) safe safe' ?_
    rw [entries,entries',same.accounts]
  storage writes writes' fits fits' entries entries' safe safe' := by
    refine TrieMap.root_of_entries (fun _ _ equal => equal) fits fits' safe safe' ?_
    rw [entries,entries',same.storage]

variable [Wasm] [Bls]

/-- In every world of a run, also within a block, two transactions with disjoint keys give the
same receipts in either order and lead to the same accounts, storage, code and staking ledger;
and tries with any histories of writes that hold these accounts or this storage have the same
roots. -/
theorem disjoint_transactions_commute {g : Genesis} {events : List Execution.Event}
    {c : Holdings.Chain} (reached : Execution.run (Holdings.start g) events = some c)
    {earlier : List SignedTx} {w : World} {receipts : List Receipt}
    (within : Seq.applyTxs c.world earlier = some (w,receipts)) (apart : Apart a b) :
    ∃ wa wab wb wba ra rb,
      Seq.applyTx w a = some (wa,ra) ∧ Seq.applyTx wa b = some (wab,rb) ∧
      Seq.applyTx w b = some (wb,rb) ∧ Seq.applyTx wb a = some (wba,ra) ∧
      SameState wab wba ∧
      wab.accounts.root = wba.accounts.root ∧ wab.storage.root = wba.storage.root ∧
      (∀ writes writes' : List (TrieMap.Write Address Account),
        writes.foldl TrieMap.Write.apply ∅ = wab.accounts →
        writes'.foldl TrieMap.Write.apply ∅ = wba.accounts →
        Mpt.NoCollision (Mpt.run .new (writes.map Execution.accountOp)).2.nodes →
        Mpt.NoCollision (Mpt.run .new (writes'.map Execution.accountOp)).2.nodes →
        (Mpt.run .new (writes.map Execution.accountOp)).2.root =
          (Mpt.run .new (writes'.map Execution.accountOp)).2.root) ∧
      (∀ writes writes' : List (TrieMap.Write Bytes Bytes),
        (∀ write ∈ writes, (write.op id id).Fits) → (∀ write ∈ writes', (write.op id id).Fits) →
        writes.foldl TrieMap.Write.apply ∅ = wab.storage →
        writes'.foldl TrieMap.Write.apply ∅ = wba.storage →
        Mpt.NoCollision (Mpt.run .new (writes.map (TrieMap.Write.op id id))).2.nodes →
        Mpt.NoCollision (Mpt.run .new (writes'.map (TrieMap.Write.op id id))).2.nodes →
        (Mpt.run .new (writes.map (TrieMap.Write.op id id))).2.root =
          (Mpt.run .new (writes'.map (TrieMap.Write.op id id))).2.root) := by
  have sound : w.Sound := by
    obtain ⟨c',ran,sound⟩ := Execution.run_total (Execution.sound_start g) events
    obtain rfl : c' = c := Option.some_inj.mp (ran.symm.trans reached)
    obtain ⟨w',receipts',applied,after⟩ := Seq.applyTxs_total sound earlier
    obtain ⟨rfl,-⟩ := Prod.mk.inj (Option.some_inj.mp (applied.symm.trans within))
    exact after
  obtain ⟨wa,ra,ranA,soundA⟩ := Seq.applyTx_total sound a
  obtain ⟨wab,rb',ranAB,-⟩ := Seq.applyTx_total soundA b
  obtain ⟨wb,rb,ranB,soundB⟩ := Seq.applyTx_total sound b
  obtain ⟨wba,ra',ranBA,-⟩ := Seq.applyTx_total soundB a
  -- each transaction finds its keys as they were before the other
  obtain ⟨sameB,agreeB⟩ := sameAt_depends (fun k own => sameAt_frame ranA (apart.symm k own)) ranB ranAB
  obtain ⟨sameA,agreeA⟩ := sameAt_depends (fun k own => sameAt_frame ranB (apart k own)) ranA ranBA
  subst sameA sameB
  have same : SameState wab wba := by
    refine sameState_of_sameAt fun k => ?_
    by_cases own : k ∈ inferredKeys a
    · exact (sameAt_frame ranAB (apart k own)).symm.trans (agreeA k own)
    by_cases other : k ∈ inferredKeys b
    · exact (agreeB k other).symm.trans (sameAt_frame ranBA own)
    · have left := (sameAt_frame ranA own).trans (sameAt_frame ranAB other)
      have right := (sameAt_frame ranB other).trans (sameAt_frame ranBA own)
      exact left.symm.trans right
  exact ⟨wa,wab,wb,wba,ra,rb,ranA,ranAB,ranB,ranBA,same,by rw [same.accounts],
    by rw [same.storage],same.tries.accounts,same.tries.storage⟩

end Commuting

/-! Two senders pay two others. -/
namespace Crossing

open Holdings.Sample (address sign)

attribute [local instance] Holdings.Sample.blake3 Holdings.Sample.ed25519 Holdings.Sample.wasm
  LoneSigner.bls

def genesis : Genesis where
  chainId := 1
  alloc := Std.ExtTreeMap.ofList [(address 1,⟨100,0,zeroHash⟩),(address 2,⟨100,0,zeroHash⟩)] compare

def payment (tag : UInt8) : SignedTx := sign tag 0 1 (.transfer ⟨address (tag + 2),10⟩)

theorem mem_payment {tag : UInt8} {k : Bytes} (own : k ∈ inferredKeys (payment tag)) :
    k = accountKey (fromEd25519 (address tag)) ∨ k = accountKey (address (tag + 2)) := by
  rcases (mem_inferredKeys rfl k).mp own with sender | ⟨addr,listed,key⟩ | ⟨stakes,-⟩
  · exact .inl sender
  · obtain rfl : addr = address (tag + 2) := by simpa [named,payment,sign] using listed
    exact .inr key
  · cases stakes

theorem payments_apart : Apart (payment 1) (payment 2) := by
  intro k own other
  rcases mem_payment own with rfl | rfl <;> rcases mem_payment other with same | same <;>
    exact absurd same (by decide +kernel)

/-- Both payments give the same receipts and accounts in either order. -/
theorem payments_commute :
    Apart (payment 1) (payment 2) ∧
    ∃ wa wab wb wba ra rb,
      Seq.applyTx (World.fromGenesis genesis) (payment 1) = some (wa,ra) ∧
      Seq.applyTx wa (payment 2) = some (wab,rb) ∧
      Seq.applyTx (World.fromGenesis genesis) (payment 2) = some (wb,rb) ∧
      Seq.applyTx wb (payment 1) = some (wba,ra) ∧ SameState wab wba := by
  refine ⟨payments_apart,?_⟩
  obtain ⟨wa,wab,wb,wba,ra,rb,first,second,first',second',same,-⟩ :=
    @disjoint_transactions_commute _ _ (payment 1) (payment 2) _ _ genesis [] _ rfl [] _ _ rfl
      payments_apart
  exact ⟨wa,wab,wb,wba,ra,rb,first,second,first',second',same⟩

end Crossing
end Stm
end L1
