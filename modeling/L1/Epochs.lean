import L1.Ledger

/-! Validator sets over time: when a new one is installed, who is in it with what power, and
that a barred key stays out. -/
namespace L1.Staking

open Holdings

def epochLength (registry : ParamsRegistry) : U64 := (registry.get .epochLength).getD Spec.epochLength

def Closes (registry : ParamsRegistry) (h : Height) : Prop :=
  epochLength registry ≠ 0 ∧
    h.toNat / (epochLength registry).toNat ≠ (h.toNat + 1) / (epochLength registry).toNat

def delegationsTo (book : StakingState) (id : ValidatorId) : Nat :=
  Map.total (fun key (a : Amount) => if key.2 = id then a.toNat else 0) book.delegations

def stake (book : StakingState) : Nat :=
  Map.total (fun _ (a : Amount) => a.toNat) book.selfBond +
    Map.total (fun _ (a : Amount) => a.toNat) book.delegations

/-- Self-bond and delegations up to the cap, both within a machine word. -/
def power (book : StakingState) (registry : ParamsRegistry) (id : ValidatorId) (bond : Amount) : Nat :=
  min (min bond.toNat (2^64 - 1) + min (delegationsTo book id) (delegationCap registry).toNat)
    (2^64 - 1)

def Eligible (book : StakingState) (registry : ParamsRegistry) (id : ValidatorId) (p : VotingPower) :
    Prop :=
  ∃ bond, book.selfBond[id]? = some bond ∧ id ∉ book.tombstones ∧
    minSelfBondAmount registry ≤ bond ∧ 0 < p ∧ p.toNat = power book registry id bond

section Power

/-- A sum that skips what would overflow is exact where nothing does. -/
theorem foldl_skip_eq {α : Type} (amount : α → Amount) (l : List α) (acc : Amount)
    (fits : acc.toNat + (l.map fun e => (amount e).toNat).sum < 2^128) :
    (l.foldl (fun acc e => (checkedAdd acc (amount e)).getD acc) acc).toNat =
      acc.toNat + (l.map fun e => (amount e).toNat).sum := by
  induction l generalizing acc with
  | nil => simp
  | cons e rest ih =>
    rw [List.map_cons,List.sum_cons] at fits ⊢
    cases sum : checkedAdd acc (amount e) with
    | none =>
      have := checkedAdd_eq_none.mp sum
      omega
    | some next =>
      have exact_ := checkedAdd_eq_some.mp sum
      rw [List.foldl_cons,sum,Option.getD_some,ih next (by omega)]
      omega

theorem sum_filter_to (id : ValidatorId) (l : List ((Address × ValidatorId) × Amount)) :
    ((l.filter fun e => e.1.2 = id).map fun e => e.2.toNat).sum =
      (l.map fun e => if e.1.2 = id then e.2.toNat else 0).sum := by
  induction l with
  | nil => rfl
  | cons e rest ih => by_cases same : e.1.2 = id <;> simp [same,ih]

variable {book : StakingState} {registry : ParamsRegistry}

theorem toNat_delegatedTo (fits : stake book < 2^128) (id : ValidatorId) :
    (delegatedTo book id).toNat = delegationsTo book id := by
  have part : delegationsTo book id ≤ Map.total (fun _ (a : Amount) => a.toNat) book.delegations := by
    unfold delegationsTo Map.total
    refine List.sum_le_sum fun e _ => ?_
    dsimp only
    split
    · exact Nat.le_refl _
    · exact Nat.zero_le _
  have whole := foldl_skip_eq (fun e : (Address × ValidatorId) × Amount => e.2)
    (book.delegations.toList.filter fun e => e.1.2 = id) 0
  rw [sum_filter_to] at whole
  unfold stake at fits
  have same := whole (by
    change 0 + delegationsTo book id < 2^128
    omega)
  exact same.trans (Nat.zero_add _)

theorem toNat_amountPower (a : Amount) : (amountPower a).toNat = min a.toNat (2^64 - 1) := by
  rw [amountPower,BitVec.toNat_ofNat,Nat.mod_eq_of_lt]
  omega

theorem toNat_effectivePower (fits : stake book < 2^128) {id : ValidatorId} {bond : Amount}
    (held : book.selfBond[id]? = some bond) :
    (effectivePower book id registry).toNat = power book registry id bond := by
  have cap := (delegationCap registry).isLt
  have capped : (if amountPower (delegatedTo book id) < delegationCap registry then
      amountPower (delegatedTo book id) else delegationCap registry).toNat =
      min (delegationsTo book id) (delegationCap registry).toNat := by
    have word := toNat_amountPower (delegatedTo book id)
    rw [toNat_delegatedTo fits] at word
    split
    · rename_i less
      rw [BitVec.lt_def] at less
      omega
    · rename_i most
      rw [BitVec.lt_def] at most
      omega
  rw [effectivePower,toNat_saturatingAdd,capped,held,Option.getD_some,toNat_amountPower,power]

end Power

section Sets

variable {book : StakingState} {registry : ParamsRegistry}

/-- The loop inserts the validators that pass its checks. -/
theorem get?_foldl_insert {K V W : Type} [Ord K] [Std.TransOrd K] [Std.LawfulEqOrd K] [DecidableEq K]
    (keep : K → V → Prop) [∀ k v, Decidable (keep k v)] (value : K → W) (l : List (K × V))
    (m : Map K W) (k : K) (w : W) :
    (l.foldl (fun m e => if keep e.1 e.2 then m.insert e.1 (value e.1) else m) m)[k]? = some w ↔
      (∃ v, (k,v) ∈ l ∧ keep k v) ∧ w = value k ∨
      (∀ v, (k,v) ∈ l → ¬ keep k v) ∧ m[k]? = some w := by
  induction l generalizing m with
  | nil => simp
  | cons e rest ih =>
    obtain ⟨a,x⟩ := e
    rw [List.foldl_cons,ih]
    by_cases passed : keep a x
    · simp only [if_pos passed,Map.get?_insert]
      by_cases same : k = a
      · subst a
        simp only [if_true,List.mem_cons,Prod.mk.injEq,true_and]
        constructor
        · rintro (⟨⟨v,listed,kept⟩,rfl⟩ | ⟨none,equal⟩)
          · exact .inl ⟨⟨v,.inr listed,kept⟩,rfl⟩
          · exact .inl ⟨⟨x,.inl rfl,passed⟩,(Option.some.inj equal).symm⟩
        · rintro (⟨_,rfl⟩ | ⟨none,_⟩)
          · by_cases later : ∃ v, (k,v) ∈ rest ∧ keep k v
            · exact .inl ⟨later,rfl⟩
            · exact .inr ⟨fun v listed kept => later ⟨v,listed,kept⟩,rfl⟩
          · exact absurd passed (none x (.inl rfl))
      · simp only [List.mem_cons,Prod.mk.injEq,same,false_and,false_or,if_false]
    · simp only [if_neg passed,List.mem_cons,Prod.mk.injEq]
      constructor
      · rintro (⟨⟨v,listed,kept⟩,rfl⟩ | ⟨none,equal⟩)
        · exact .inl ⟨⟨v,.inr listed,kept⟩,rfl⟩
        · refine .inr ⟨?_,equal⟩
          rintro v (⟨rfl,rfl⟩ | listed) kept
          · exact passed kept
          · exact none v listed kept
      · rintro (⟨⟨v,⟨rfl,rfl⟩ | listed,kept⟩,rfl⟩ | ⟨none,equal⟩)
        · exact absurd kept passed
        · exact .inl ⟨⟨v,listed,kept⟩,rfl⟩
        · exact .inr ⟨fun v listed => none v (.inr listed),equal⟩

theorem computeNextSet_eq : computeNextSet book registry = book.selfBond.toList.foldl (fun set e =>
    if e.1 ∉ book.tombstones ∧ minSelfBondAmount registry ≤ e.2 ∧
        0 < effectivePower book e.1 registry then
      set.insert e.1 (effectivePower book e.1 registry) else set) ∅ := by
  unfold computeNextSet
  congr 1
  funext set e
  by_cases barred : e.1 ∈ book.tombstones
  · simp [barred]
  by_cases small : e.2 < minSelfBondAmount registry
  · simp [barred,small,BitVec.not_le.mpr small]
  · simp [barred,small,BitVec.not_lt.mp small]

theorem get?_computeNextSet_eq_some {id : ValidatorId} {p : VotingPower} :
    (computeNextSet book registry)[id]? = some p ↔
      (∃ bond, book.selfBond[id]? = some bond ∧ id ∉ book.tombstones ∧
        minSelfBondAmount registry ≤ bond ∧ 0 < effectivePower book id registry) ∧
      p = effectivePower book id registry := by
  rw [computeNextSet_eq,get?_foldl_insert (fun id bond => id ∉ book.tombstones ∧
    minSelfBondAmount registry ≤ bond ∧ 0 < effectivePower book id registry)
    (fun id => effectivePower book id registry)]
  simp only [Std.ExtTreeMap.mem_toList_iff_getElem?_eq_some,Std.ExtTreeMap.getElem?_empty,
    reduceCtorEq,and_false,or_false]

/-- The next set is made of exactly the eligible validators, each with its power. -/
theorem get?_computeNextSet (fits : stake book < 2^128) (id : ValidatorId) (p : VotingPower) :
    (computeNextSet book registry)[id]? = some p ↔ Eligible book registry id p := by
  rw [get?_computeNextSet_eq_some]
  constructor
  · rintro ⟨⟨bond,held,barred,least,positive⟩,rfl⟩
    exact ⟨bond,held,barred,least,positive,toNat_effectivePower fits held⟩
  · rintro ⟨bond,held,barred,least,positive,same⟩
    have equal : p = effectivePower book id registry :=
      BitVec.eq_of_toNat_eq (same.trans (toNat_effectivePower fits held).symm)
    exact ⟨⟨bond,held,barred,least,equal ▸ positive⟩,equal⟩

theorem get?_computeNextSet_barred {id : ValidatorId} (barred : id ∈ book.tombstones) :
    (computeNextSet book registry)[id]? = none := by
  cases found : (computeNextSet book registry)[id]? with
  | none => rfl
  | some p =>
    obtain ⟨⟨bond,-,out,-⟩,-⟩ := get?_computeNextSet_eq_some.mp found
    exact absurd barred out

theorem div_ne_div_succ_iff (registry : ParamsRegistry) (h : Height) : (epochLength registry ≠ 0 ∧
      h / epochLength registry ≠ saturatingAdd h 1 / epochLength registry) ↔
    Closes registry h ∧ h.toNat + 1 < 2^64 := by
  have bound := h.isLt
  have words : h / epochLength registry = saturatingAdd h 1 / epochLength registry ↔
      h.toNat / (epochLength registry).toNat =
        min (h.toNat + 1) (2^64 - 1) / (epochLength registry).toNat := by
    rw [← BitVec.toNat_inj,BitVec.toNat_udiv,BitVec.toNat_udiv,toNat_saturatingAdd]
    rfl
  rw [Closes,ne_eq (h / _),words]
  by_cases last : h.toNat + 1 < 2^64
  · have same : min (h.toNat + 1) (2^64 - 1) = h.toNat + 1 := by omega
    rw [same]
    exact ⟨fun both => ⟨both,last⟩,And.left⟩
  · have same : min (h.toNat + 1) (2^64 - 1) = h.toNat := by omega
    rw [same]
    exact ⟨fun both => absurd rfl both.2,fun both => absurd both.2 last⟩

/-- A set is installed at the last height of an epoch, if there is a height after it. -/
theorem epochSetUpdate_cases [Blake3] (book : StakingState) (registry : ParamsRegistry)
    (finalized : Steps.Finalized) :
    (Closes registry finalized.height ∧ finalized.height.toNat + 1 < 2^64) ∧
      (epochSetUpdate book registry finalized).1.currentSet =
        computeNextSet (observeCommit book finalized) registry ∨
    ¬ (Closes registry finalized.height ∧ finalized.height.toNat + 1 < 2^64) ∧
      (epochSetUpdate book registry finalized).1.currentSet = book.currentSet := by
  rw [← div_ne_div_succ_iff]
  unfold epochSetUpdate
  dsimp only
  split
  · rename_i none
    exact .inr ⟨fun both => both.1 none,rfl⟩
  rename_i some
  split
  · rename_i inside
    exact .inr ⟨fun both => both.2 inside,rfl⟩
  · rename_i crossed
    exact .inl ⟨⟨some,crossed⟩,rfl⟩

end Sets

/-- The notices that install a set: the last height of an epoch, if there is a height after it. -/
def Installs (registry : ParamsRegistry) (action : Action) : Prop :=
  ∃ finalized, action = .notice (.epoch finalized) ∧ Closes registry finalized.height ∧
    finalized.height.toNat + 1 < 2^64

section Runs

variable [Bls] [Blake3] {registry : ParamsRegistry}

variable {b b' : Books} {book : StakingState} {tx : Tx} {actions : List Action} {id : ValidatorId}

omit [Bls] [Blake3] in
theorem Effect.keeps_set {book' : StakingState} {sender : Address}
    {result : Except RejectReason Unit} (effect : Effect book registry sender tx book' result) :
    book'.currentSet = book.currentSet ∧ book'.tombstones = book.tombstones := by
  cases effect <;> exact ⟨rfl,rfl⟩

/-- Only the update at the end of an epoch changes the set, to the one computed there. -/
theorem act_currentSet {action : Action} (acted : b.act registry action = some b') :
    (∃ finalized, action = .notice (.epoch finalized) ∧ Closes registry finalized.height ∧
      finalized.height.toNat + 1 < 2^64 ∧
      b'.staking.currentSet = computeNextSet (observeCommit b.staking finalized) registry) ∨
    ¬ Installs registry action ∧ b'.staking.currentSet = b.staking.currentSet := by
  cases action with
  | stake sender tx =>
    obtain ⟨⟨book',result⟩,applied,rfl⟩ := Option.map_eq_some_iff.mp acted
    exact .inr ⟨nofun,(applyStakeTx_effect applied).keeps_set.1⟩
  | notice n =>
    cases acted
    cases n with
    | slash evidence =>
      refine .inr ⟨nofun,?_⟩
      unfold Books.heed
      dsimp only
      split
      · rfl
      · rename_i applied
        exact (Books.heeded_apply applied).2
    | tombstone id => exact .inr ⟨nofun,rfl⟩
    | observe finalized => exact .inr ⟨nofun,rfl⟩
    | epoch finalized =>
      rcases epochSetUpdate_cases b.staking registry finalized with ⟨⟨closes,room⟩,set⟩ | ⟨off,same⟩
      · exact .inl ⟨finalized,rfl,closes,room,set⟩
      · refine .inr ⟨?_,same⟩
        rintro ⟨finalized',equal,both⟩
        cases equal
        exact off both

/-- The set in force was computed at the last notice that installed one. -/
theorem run_currentSet (reached : b.run registry actions = some b') :
    (∃ before finalized rest middle, actions = before ++ .notice (.epoch finalized) :: rest ∧
      b.run registry before = some middle ∧ Closes registry finalized.height ∧
      (∀ action ∈ rest, ¬ Installs registry action) ∧
      b'.staking.currentSet = computeNextSet (observeCommit middle.staking finalized) registry) ∨
    (∀ action ∈ actions, ¬ Installs registry action) ∧
      b'.staking.currentSet = b.staking.currentSet := by
  induction actions generalizing b with
  | nil =>
    cases reached
    exact .inr ⟨by simp,rfl⟩
  | cons action rest ih =>
    rw [Books.run] at reached
    split at reached
    · cases reached
    rename_i next acted
    rcases ih reached with ⟨before,finalized,later,middle,rfl,ran,closes,quiet,set⟩ | ⟨quiet,same⟩
    · refine .inl ⟨action :: before,finalized,later,middle,rfl,?_,closes,quiet,set⟩
      rw [Books.run,acted]
      exact ran
    · rcases act_currentSet acted with ⟨finalized,rfl,closes,-,set⟩ | ⟨off,kept⟩
      · exact .inl ⟨[],finalized,rest,b,rfl,rfl,closes,quiet,same.trans set⟩
      · exact .inr ⟨List.forall_mem_cons.mpr ⟨off,quiet⟩,same.trans kept⟩

theorem run_tombstones (reached : b.run registry actions = some b') (barred : id ∈ b.staking.tombstones) :
    id ∈ b'.staking.tombstones :=
  Books.keep (P := fun book => id ∈ book.tombstones)
    (fun _ _ _ _ _ effect listed => by rw [effect.keeps_set.2]; exact listed)
    (fun b n listed => (Books.heeded_heed registry b n).tombstones id listed) reached barred

omit [Bls] [Blake3] in
/-- Bonds and delegations to a barred key are turned down. -/
theorem applyStakeTx_barred (barred : id ∈ book.tombstones)
    (sender : Address) {s : StakePayload} (staked : tx.asStake = some s)
    (target : s.validator = some id) (kind : s.kind = .bond ∨ s.kind = .delegate) :
    applyStakeTx book registry sender tx = some (book,.error .stakeTombstone) := by
  rcases kind with kind | kind
  · simp only [applyStakeTx,staked,kind,target,bond,if_pos barred]
  · simp only [applyStakeTx,staked,kind,target,delegate,if_pos barred,settle]

/-- In every state that payloads, slashes, tombstones and commits lead to from the empty ledger:
the set in force was installed at the last height of an epoch and is made of exactly the
validators that were eligible then, each with its power; it changes at such a height only; and a
barred key is in no set that is installed later, and no bond or delegation to it succeeds. -/
theorem epoch_sets (registry : ParamsRegistry) (actions : List Action) (b : Books)
    (reached : Books.run registry {} actions = some b) :
    ((∃ before finalized rest middle, actions = before ++ .notice (.epoch finalized) :: rest ∧
        Books.run registry {} before = some middle ∧ Closes registry finalized.height ∧
        (∀ action ∈ rest, ¬ Installs registry action) ∧
        (stake middle.staking < 2^128 → ∀ id p,
          b.staking.currentSet[id]? = some p ↔ Eligible middle.staking registry id p)) ∨
      (∀ action ∈ actions, ¬ Installs registry action) ∧ b.staking.currentSet = ∅) ∧
    (∀ action b', b.act registry action = some b' →
      b'.staking.currentSet ≠ b.staking.currentSet → Installs registry action) ∧
    (∀ id, id ∈ b.staking.tombstones → ∀ more b', b.run registry more = some b' →
      (∀ action b'', b'.act registry action = some b'' → Installs registry action →
        b''.staking.currentSet[id]? = none) ∧
      ∀ sender tx s, tx.asStake = some s → s.validator = some id →
        s.kind = .bond ∨ s.kind = .delegate →
        applyStakeTx b'.staking registry sender tx = some (b'.staking,.error .stakeTombstone)) := by
  refine ⟨?_,fun action b' acted changed => ?_,fun id barred more b' later => ⟨?_,?_⟩⟩
  · rcases run_currentSet reached with
      ⟨before,finalized,rest,middle,split,ran,closes,quiet,set⟩ | quiet
    · refine .inl ⟨before,finalized,rest,middle,split,ran,closes,quiet,fun fits id p => ?_⟩
      have small : stake (observeCommit middle.staking finalized) < 2^128 := fits
      rw [set]
      exact get?_computeNextSet small id p
    · exact .inr quiet
  · rcases act_currentSet acted with ⟨finalized,rfl,closes,room,-⟩ | ⟨-,same⟩
    · exact ⟨finalized,rfl,closes,room⟩
    · exact absurd same changed
  · intro action b'' acted installs
    rcases act_currentSet acted with ⟨finalized,rfl,closes,room,set⟩ | ⟨off,-⟩
    · have out : id ∈ (observeCommit b'.staking finalized).tombstones := run_tombstones later barred
      rw [set]
      exact get?_computeNextSet_barred out
    · exact absurd installs off
  · intro sender tx s staked target kind
    exact applyStakeTx_barred (run_tombstones later barred) sender staked target kind

end Runs

namespace Sample

attribute [local instance] LoneSigner.bls LoneSigner.blake3

def firstEpoch : List Action := [
  .stake (Vector.replicate 32 1)
    ⟨1,0,0,0,Tx.stakeWith .bond StakeKind.bond_ne (LoneSigner.validator 1) 200⟩,
  .notice (.epoch ⟨99,0,zeroHash,zeroHash⟩),
  .notice (.tombstone (LoneSigner.validator 1))]

def closed : Books := (Books.run .new {} firstEpoch).get (by decide +kernel)

/-- The validator is in the set of the second epoch, and in none that is installed later. -/
theorem barred_validator_leaves :
    Books.run .new {} firstEpoch = some closed ∧
    closed.staking.currentSet[LoneSigner.validator 1]? = some 200 ∧
    ∀ action b, closed.act .new action = some b → Installs .new action →
      b.staking.currentSet[LoneSigner.validator 1]? = none := by
  have reached : Books.run .new {} firstEpoch = some closed := (Option.some_get _).symm
  exact ⟨reached,by decide +kernel,((epoch_sets .new firstEpoch closed reached).2.2
    (LoneSigner.validator 1) (by decide +kernel) [] closed rfl).1⟩

end Sample
end L1.Staking
