import L1.Outcome

/-! Who holds what. A share is the sum of all balances, self-bonds, delegations and pending
unbonds whose owner satisfies a predicate; the total and the holdings of one address are
two of them, and every step is accounted for by one equation for all. -/
namespace L1.Holdings

open Staking

/-- A predicate on owners. A self-bond without an operator has none. -/
abbrev Owners := Option Address → Bool

section Shares

variable (own : Owners)

def counted (owner : Option Address) (amount : Amount) : Nat :=
  if own owner then amount.toNat else 0

def accountShare (accounts : AccountTrie) : Nat :=
  Map.total (fun addr (a : Account) => counted own (some addr) a.balance) accounts

def bondShare (operator : Map ValidatorId Address) (selfBond : Map ValidatorId Amount) : Nat :=
  Map.total (fun id amount => counted own operator[id]? amount) selfBond

def delegationShare (delegations : Map (Address × ValidatorId) Amount) : Nat :=
  Map.total (fun key amount => counted own (some key.1) amount) delegations

def entryShare (_ : U64) (e : UnbondEntry) : Nat := counted own (some e.owner) e.amount

def pendingShare (pending : Map U64 UnbondEntry) : Nat := Map.total (entryShare own) pending

def bookShare (book : StakingState) : Nat :=
  bondShare own book.operator book.selfBond + delegationShare own book.delegations +
    pendingShare own book.pendingUnbond

def share (world : World) : Nat := accountShare own world.accounts + bookShare own world.staking

/-- What the slot of the next unbond already holds. -/
def slotShare (book : StakingState) : Nat :=
  Map.part (entryShare own) book.pendingUnbond book.nextUnbond

end Shares

def everyone : Owners := fun _ => true

def only (addr : Address) : Owners := fun owner => decide (owner = some addr)

def total (world : World) : Nat := share everyone world

/-- Balance, delegations made, self-bonds operated and pending unbonds owned. -/
def holdings (world : World) (addr : Address) : Nat := share (only addr) world

section Updates

variable (own : Owners)

theorem counted_congr {own : Owners} {a b : Option Address} (same : own a = own b) (amount : Amount) :
    counted own a amount = counted own b amount := by
  unfold counted
  rw [same]

theorem counted_add (owner : Option Address) {a b c : Amount} (sum : c.toNat = a.toNat + b.toNat) :
    counted own owner c = counted own owner a + counted own owner b := by
  unfold counted
  split <;> omega

@[simp] theorem counted_zero (owner : Option Address) : counted own owner 0#128 = 0 := by
  simp [counted]

@[simp] theorem counted_everyone (owner : Option Address) (amount : Amount) :
    counted everyone owner amount = amount.toNat := rfl

theorem counted_only (addr other : Address) (amount : Amount) :
    counted (only addr) (some other) amount = if other = addr then amount.toNat else 0 := by
  simp [counted,only]

theorem accountShare_setAccount (world : World) (addr : Address) (account : Account) :
    accountShare own (world.setAccount addr account).accounts +
        counted own (some addr) (world.account addr).balance =
      accountShare own world.accounts + counted own (some addr) account.balance := by
  have change := Map.total_insert
    (fun addr (a : Account) => counted own (some addr) a.balance) world.accounts addr account
  have here : Map.part (fun addr (a : Account) => counted own (some addr) a.balance)
      world.accounts addr = counted own (some addr) (world.account addr).balance := by
    unfold Map.part World.account
    cases world.accounts[addr]? <;> simp [Account.empty]
  rw [here] at change
  exact change

theorem balance_le (world : World) (addr : Address) :
    (world.account addr).balance.toNat ≤ accountShare everyone world.accounts := by
  have part := Map.part_le_total
    (fun addr (a : Account) => counted everyone (some addr) a.balance) world.accounts addr
  unfold Map.part at part
  unfold World.account accountShare
  cases known : world.accounts[addr]? with
  | none => simp [Account.empty]
  | some a => simpa [known] using part

section Amounts

variable {K : Type} [Ord K] [Std.TransOrd K] [Std.LawfulEqOrd K] [DecidableEq K]
variable (owner : K → Option Address) (m : Map K Amount) (k : K)

omit [Std.LawfulEqOrd K] [DecidableEq K] in
theorem part_counted : Map.part (fun k amount => counted own (owner k) amount) m k =
    counted own (owner k) ((m[k]?).getD 0) := by
  unfold Map.part
  cases m[k]? <;> simp

theorem total_insert_counted (next : Amount) :
    Map.total (fun k amount => counted own (owner k) amount) (m.insert k next) +
        counted own (owner k) ((m[k]?).getD 0) =
      Map.total (fun k amount => counted own (owner k) amount) m + counted own (owner k) next := by
  rw [← part_counted]
  exact Map.total_insert _ m k next

theorem total_erase_counted : Map.total (fun k amount => counted own (owner k) amount) (m.erase k) +
        counted own (owner k) ((m[k]?).getD 0) =
      Map.total (fun k amount => counted own (owner k) amount) m := by
  rw [← part_counted]
  exact Map.total_erase _ m k

end Amounts

theorem bondShare_congr {own : Owners} {operator operator' : Map ValidatorId Address}
    (alike : ∀ id : ValidatorId, own operator'[id]? = own operator[id]?)
    (selfBond : Map ValidatorId Amount) :
    bondShare own operator' selfBond = bondShare own operator selfBond := by
  unfold bondShare
  congr 1
  funext id amount
  exact counted_congr (alike id) amount

end Updates

section Withdraw

variable {own : Owners} {sender : Address} {height : Height}

def due (sender : Address) (height : Height) (_ : U64) (e : UnbondEntry) : Nat :=
  if Matured sender height e then e.amount.toNat else 0

theorem withdrawLoop_zero (keys : List U64) (pending : Map U64 UnbondEntry) :
    withdrawLoop sender height keys 0 pending = some pending := by
  cases keys <;> simp [withdrawLoop]

variable {pending pending' : Map U64 UnbondEntry}

theorem due_other {k : U64} {keys : List U64}
    (fresh : k ∉ keys) (same : ∀ a, a ≠ k → pending'[a]? = pending[a]?) :
    (keys.map (Map.part (due sender height) pending')).sum =
      (keys.map (Map.part (due sender height) pending)).sum := by
  congr 1
  apply List.map_congr_left
  intro a listed
  have apart : a ≠ k := fun equal => fresh (equal ▸ listed)
  unfold Map.part
  rw [same a apart]

/-- What is taken from each slot: only matured entries of the sender are touched, and what is
not taken of them stays. -/
structure Taken (sender : Address) (height : Height) (pending pending' : Map U64 UnbondEntry)
    (take : U64 → Nat) : Prop where
  absent : ∀ k, pending[k]? = none → take k = 0 ∧ pending'[k]? = none
  present : ∀ k e, pending[k]? = some e →
    take k = 0 ∧ pending'[k]? = some e ∨
    Matured sender height e ∧
      (take k = e.amount.toNat ∧ pending'[k]? = none ∨
        ∃ rest : Amount, rest.toNat + take k = e.amount.toNat ∧
          pending'[k]? = some { e with amount := rest })

theorem Taken.nothing (pending : Map U64 UnbondEntry) :
    Taken sender height pending pending (fun _ => 0) :=
  ⟨fun _ absent => ⟨rfl,absent⟩,fun _ _ held => .inl ⟨rfl,held⟩⟩

/-- One slot is served first, and the loop goes on without it. -/
theorem Taken.first {middle : Map U64 UnbondEntry} {take : U64 → Nat} {k : U64}
    {e : UnbondEntry} {amount : Nat} (held : pending[k]? = some e) (mine : Matured sender height e)
    (others : ∀ a, a ≠ k → middle[a]? = pending[a]?) (served : pending'[k]? = middle[k]?)
    (left : amount = e.amount.toNat ∧ middle[k]? = none ∨
      ∃ rest : Amount, rest.toNat + amount = e.amount.toNat ∧
        middle[k]? = some { e with amount := rest })
    (taken : Taken sender height middle pending' take) :
    Taken sender height pending pending' (fun a => if a = k then amount else take a) := by
  refine ⟨fun a absent => ?_,fun a e' held' => ?_⟩
  · have apart : a ≠ k := by
      rintro rfl
      rw [held] at absent
      cases absent
    simp only [if_neg apart]
    exact taken.absent a ((others a apart).trans absent)
  · by_cases same : a = k
    · subst a
      rw [held] at held'
      cases held'
      simp only [if_true,served]
      exact .inr ⟨mine,left⟩
    · simp only [if_neg same]
      exact taken.present a e' ((others a same).trans held')

/-- The loop never panics and takes exactly what it is asked for, as far as it is due. -/
theorem withdrawLoop_taken (sender : Address) (height : Height) (keys : List U64) (left : Amount)
    (pending : Map U64 UnbondEntry) (distinct : keys.Nodup) :
    ∃ pending' take, withdrawLoop sender height keys left pending = some pending' ∧
      Taken sender height pending pending' take ∧
      (∀ k, k ∉ keys → take k = 0 ∧ pending'[k]? = pending[k]?) ∧
      (keys.map take).sum =
        min left.toNat (keys.map (Map.part (due sender height) pending)).sum := by
  induction keys generalizing left pending with
  | nil => exact ⟨pending,_,by simp [withdrawLoop],.nothing pending,by simp,by simp⟩
  | cons k keys ih =>
    obtain ⟨fresh,distinct⟩ := List.nodup_cons.mp distinct
    by_cases nothing : left = 0
    · subst nothing
      exact ⟨pending,_,withdrawLoop_zero _ _,.nothing pending,by simp,by simp⟩
    -- a slot that is passed over
    have skip (passed : withdrawLoop sender height (k :: keys) left pending =
        withdrawLoop sender height keys left pending)
        (worthless : Map.part (due sender height) pending k = 0) : ∃ pending' take,
        withdrawLoop sender height (k :: keys) left pending = some pending' ∧
        Taken sender height pending pending' take ∧
        (∀ a, a ∉ k :: keys → take a = 0 ∧ pending'[a]? = pending[a]?) ∧
        ((k :: keys).map take).sum =
          min left.toNat ((k :: keys).map (Map.part (due sender height) pending)).sum := by
      obtain ⟨pending',take,returned,taken,rest,equation⟩ := ih left pending distinct
      refine ⟨pending',take,passed.trans returned,taken,
        fun a outside => rest a (fun inside => outside (List.mem_cons_of_mem _ inside)),?_⟩
      rw [List.map_cons,List.sum_cons,List.map_cons,List.sum_cons,worthless,(rest k fresh).1,
        Nat.zero_add,Nat.zero_add,equation]
    cases held : pending[k]? with
    | none =>
      exact skip (by simp only [withdrawLoop,if_neg nothing,held]) (by simp [Map.part,held])
    | some e =>
      by_cases mine : Matured sender height e
      swap
      · exact skip (by simp only [withdrawLoop,if_neg nothing,held,mine,not_false_eq_true,if_true])
          (by simp [Map.part,held,due,mine])
      have worth : Map.part (due sender height) pending k = e.amount.toNat := by
        simp [Map.part,held,due,mine]
      have elsewhere (take : U64 → Nat) (amount : Nat) :
          keys.map (fun a => if a = k then amount else take a) = keys.map take :=
        List.map_congr_left fun a listed => if_neg fun (same : a = k) => fresh (same ▸ listed)
      by_cases whole : e.amount ≤ left
      · -- the whole entry goes, and the rest is taken from later ones
        obtain ⟨rest,difference⟩ : ∃ rest, checkedSub left e.amount = some rest := by
          cases known : checkedSub left e.amount with
          | none => exact absurd (checkedSub_eq_none.mp known) (Nat.not_lt.mpr whole)
          | some rest => exact ⟨rest,rfl⟩
        have parts := checkedSub_eq_some.mp difference
        have others : ∀ a, a ≠ k → (pending.erase k)[a]? = pending[a]? := fun a apart => by
          rw [Map.get?_erase,if_neg apart]
        have emptied : (pending.erase k)[k]? = none := by rw [Map.get?_erase,if_pos rfl]
        obtain ⟨pending',take,returned,taken,untouched,equation⟩ := ih rest (pending.erase k) distinct
        refine ⟨pending',_,by simp only [withdrawLoop,if_neg nothing,held,mine,not_true_eq_false,
          if_false,whole,if_true,difference,returned],
          taken.first held mine others (untouched k fresh).2 (.inl ⟨rfl,emptied⟩),?_,?_⟩
        · intro a outside
          obtain ⟨apart,later⟩ := not_or.mp (fun both => outside (List.mem_cons.mpr both))
          rw [if_neg apart,(untouched a later).2,others a apart]
          exact ⟨(untouched a later).1,rfl⟩
        · have later : (keys.map (Map.part (due sender height) (pending.erase k))).sum =
              (keys.map (Map.part (due sender height) pending)).sum := due_other fresh others
          rw [List.map_cons,List.sum_cons,if_pos rfl,elsewhere,equation,later,List.map_cons,
            List.sum_cons,worth]
          omega
      · -- the entry covers what is left
        obtain ⟨rest,difference⟩ : ∃ rest, checkedSub e.amount left = some rest := by
          cases known : checkedSub e.amount left with
          | none => exact absurd (Nat.le_of_lt (checkedSub_eq_none.mp known)) whole
          | some rest => exact ⟨rest,rfl⟩
        have parts := checkedSub_eq_some.mp difference
        have others : ∀ a, a ≠ k →
            (pending.insert k { e with amount := rest })[a]? = pending[a]? := fun a apart => by
          rw [Map.get?_insert,if_neg apart]
        refine ⟨_,_,by simp only [withdrawLoop,if_neg nothing,held,mine,not_true_eq_false,if_false,
          whole,difference,withdrawLoop_zero],
          (Taken.nothing _).first held mine others rfl
            (.inr ⟨rest,(by omega : rest.toNat + left.toNat = _),by rw [Map.get?_insert,if_pos rfl]⟩),
          ?_,?_⟩
        · intro a outside
          have apart : a ≠ k := fun same => outside (same ▸ List.mem_cons_self ..)
          exact ⟨if_neg apart,others a apart⟩
        · rw [List.map_cons,List.sum_cons,if_pos rfl,elsewhere,List.map_cons,List.sum_cons,worth]
          simp
          omega

theorem Taken.share {take : U64 → Nat} (taken : Taken sender height pending pending' take) :
    pendingShare own pending' + (if own (some sender) then ∑ k ∈ Map.keySet pending, take k else 0) =
      pendingShare own pending := by
  have within : Map.keySet pending' ⊆ Map.keySet pending := by
    intro k listed
    obtain ⟨e,held⟩ := (Map.mem_keySet pending' k).mp listed
    rw [Map.mem_keySet]
    cases before : pending[k]? with
    | some e => exact ⟨e,rfl⟩
    | none =>
      rw [(taken.absent k before).2] at held
      cases held
  have after : pendingShare own pending' =
      ∑ k ∈ Map.keySet pending, Map.part (entryShare own) pending' k := by
    rw [pendingShare,Map.total_eq_sum]
    refine Finset.sum_subset within fun k _ outside => ?_
    have gone : pending'[k]? = none := by
      cases held : pending'[k]? with
      | none => rfl
      | some e => exact absurd ((Map.mem_keySet pending' k).mpr ⟨e,held⟩) outside
    simp [Map.part,gone]
  have spread : (if own (some sender) then ∑ k ∈ Map.keySet pending, take k else 0) =
      ∑ k ∈ Map.keySet pending, if own (some sender) then take k else 0 := by
    split <;> simp
  rw [after,spread,← Finset.sum_add_distrib,pendingShare,Map.total_eq_sum]
  refine Finset.sum_congr rfl fun k listed => ?_
  obtain ⟨e,held⟩ := (Map.mem_keySet pending k).mp listed
  rcases taken.present k e held with ⟨none,same⟩ | ⟨mine,⟨all,gone⟩ | ⟨rest,sum,kept⟩⟩
  · simp [Map.part,same,held,none]
  · simp [Map.part,gone,held,all,entryShare,counted,mine.1]
  · simp only [Map.part,kept,held,entryShare,counted,mine.1,Option.elim_some]
    split <;> omega

/-- A sum that skips what would overflow is at most the exact one. -/
theorem foldl_skip_le {α : Type} (amount : α → Amount) (l : List α) (acc : Amount) :
    (l.foldl (fun acc e => (checkedAdd acc (amount e)).getD acc) acc).toNat ≤
      acc.toNat + (l.map fun e => (amount e).toNat).sum := by
  induction l generalizing acc with
  | nil => simp
  | cons e rest ih =>
    have later := ih ((checkedAdd acc (amount e)).getD acc)
    simp only [List.foldl_cons,List.map_cons,List.sum_cons]
    cases sum : checkedAdd acc (amount e) with
    | none =>
      simp only [sum,Option.getD_none] at later ⊢
      omega
    | some next =>
      have := checkedAdd_eq_some.mp sum
      simp only [sum,Option.getD_some] at later ⊢
      omega

theorem sum_filter_matured (l : List (U64 × UnbondEntry)) :
    ((l.filter fun e => Matured sender height e.2).map fun e => e.2.amount.toNat).sum =
      (l.map fun e => due sender height e.1 e.2).sum := by
  induction l with
  | nil => rfl
  | cons e rest ih =>
    by_cases mine : Matured sender height e.2 <;> simp [due,mine,ih]

theorem maturedWithdrawable_le (book : StakingState) (sender : Address) :
    (maturedWithdrawable book sender).toNat ≤
      Map.total (due sender book.lastCommitHeight) book.pendingUnbond := by
  have bound := foldl_skip_le (fun e : U64 × UnbondEntry => e.2.amount)
    (book.pendingUnbond.toList.filter fun e => Matured sender book.lastCommitHeight e.2) 0
  rw [sum_filter_matured] at bound
  simpa [maturedWithdrawable,Map.total] using bound

/-- A withdrawal takes its amount from matured entries of the sender, and changes nothing else. -/
theorem withdraw_ok {book next : StakingState} {amount : Amount}
    (returned : withdraw book sender amount = some (.ok next)) :
    ∃ take, next = { book with pendingUnbond := next.pendingUnbond } ∧
      Taken sender book.lastCommitHeight book.pendingUnbond next.pendingUnbond take ∧
      ∑ k ∈ Map.keySet book.pendingUnbond, take k = amount.toNat := by
  unfold withdraw at returned
  dsimp only at returned
  split at returned
  · split at returned <;> cases returned
  rename_i covered
  have enough := maturedWithdrawable_le book sender
  rw [← Map.sum_part_keys] at enough
  have distinct := Map.nodup_keys book.pendingUnbond
  obtain ⟨pending',take,looped,taken,-,sum⟩ := withdrawLoop_taken sender book.lastCommitHeight
    (book.pendingUnbond.toList.map Prod.fst) amount book.pendingUnbond distinct
  rw [looped] at returned
  cases returned
  refine ⟨take,rfl,taken,?_⟩
  rw [Map.keySet,List.sum_toFinset take distinct,sum]
  rw [BitVec.lt_def] at covered
  omega

end Withdraw

end L1.Holdings

namespace L1.Staking

open Holdings

abbrev selfBondOf (book : StakingState) (id : ValidatorId) : Amount := (book.selfBond[id]?).getD 0

abbrev delegationOf (book : StakingState) (sender : Address) (id : ValidatorId) : Amount :=
  (book.delegations[(sender,id)]?).getD 0

/-- How a staking payload ends. Only the sum of a first bond that overflows fails with a mark
in the ledger. -/
inductive Effect (book : StakingState) (registry : ParamsRegistry) (sender : Address) (tx : Tx) :
    StakingState → Except RejectReason Unit → Prop
  | rejected {reason} : Effect book registry sender tx book (.error reason)
  | marked {s id} : tx.asStake = some s → s.kind = .bond → s.validator = some id →
      book.operator[id]? = none → checkedAdd (selfBondOf book id) s.amount = none →
      Effect book registry sender tx { book with operator := book.operator.insert id sender }
        (.error .stakeInsufficient)
  | bonded {s id operator next} : tx.asStake = some s → s.kind = .bond → s.validator = some id →
      id ∉ book.tombstones → (∀ op, book.operator[id]? = some op → op = sender) →
      (∀ a, operator[a]? = if a = id then some sender else book.operator[a]?) →
      checkedAdd (selfBondOf book id) s.amount = some next →
      Effect book registry sender tx
        { book with operator, selfBond := book.selfBond.insert id next } (.ok ())
  | unbonded {s id next} : tx.asStake = some s → s.kind = .unbond → s.validator = some id →
      book.operator[id]? = some sender → checkedSub (selfBondOf book id) s.amount = some next →
      Effect book registry sender tx { book with
        selfBond := book.selfBond.insert id next
        nextUnbond := saturatingAdd book.nextUnbond 1
        pendingUnbond := book.pendingUnbond.insert book.nextUnbond
          (unbondEntry book registry sender id s.amount) } (.ok ())
  | delegated {s id next} : tx.asStake = some s → s.kind = .delegate → s.validator = some id →
      id ∉ book.tombstones → checkedAdd (delegationOf book sender id) s.amount = some next →
      Effect book registry sender tx
        { book with delegations := book.delegations.insert (sender,id) next } (.ok ())
  | undelegated {s id delegations next} : tx.asStake = some s → s.kind = .undelegate →
      s.validator = some id → checkedSub (delegationOf book sender id) s.amount = some next →
      delegations = (if next = 0 then book.delegations.erase (sender,id)
        else book.delegations.insert (sender,id) next) →
      Effect book registry sender tx { book with delegations } (.ok ())
  | withdrawn {s pendingUnbond take} : tx.asStake = some s → s.kind = .withdraw →
      Taken sender book.lastCommitHeight book.pendingUnbond pendingUnbond take →
      ∑ k ∈ Map.keySet book.pendingUnbond, take k = s.amount.toNat →
      Effect book registry sender tx { book with pendingUnbond } (.ok ())

section Effects

variable {book book' : StakingState} {registry : ParamsRegistry} {sender : Address} {tx : Tx}
  {s : StakePayload} {id : ValidatorId} {result : Except RejectReason Unit}

theorem deposit_effect {operator : Map ValidatorId Address} (staked : tx.asStake = some s)
    (kind : s.kind = .bond) (target : s.validator = some id) (barred : id ∉ book.tombstones)
    (own : ∀ op, book.operator[id]? = some op → op = sender)
    (named : ∀ a, operator[a]? = if a = id then some sender else book.operator[a]?)
    (marked : operator = book.operator ∨
      book.operator[id]? = none ∧ operator = book.operator.insert id sender) :
    Effect book registry sender tx (bond.deposit id s.amount { book with operator }).1
      (bond.deposit id s.amount { book with operator }).2 := by
  unfold bond.deposit
  dsimp only
  cases sum : checkedAdd ((book.selfBond[id]?).getD 0) s.amount with
  | none =>
    rcases marked with rfl | ⟨unnamed,rfl⟩
    · exact .rejected
    · exact .marked staked kind target unnamed sum
  | some next => exact .bonded staked kind target barred own named sum

theorem bond_effect (staked : tx.asStake = some s) (kind : s.kind = .bond)
    (target : s.validator = some id) :
    Effect book registry sender tx (bond book registry sender id s.amount).1
      (bond book registry sender id s.amount).2 := by
  unfold bond
  split
  · exact .rejected
  rename_i barred
  split
  · exact .rejected
  split
  · rename_i op known
    split
    · exact .rejected
    · rename_i same
      obtain rfl := not_not.mp same
      refine deposit_effect staked kind target barred (fun other named => ?_) (fun a => ?_) (.inl rfl)
      · exact Option.some.inj (named.symm.trans known)
      · by_cases here : a = id
        · rw [if_pos here,here,known]
        · rw [if_neg here]
  · rename_i unnamed
    refine deposit_effect staked kind target barred (fun other named => ?_)
      (fun a => Map.get?_insert _ _ _ _) (.inr ⟨unnamed,rfl⟩)
    rw [unnamed] at named
    cases named

theorem settle_effect {result : Except RejectReason StakingState}
    (success : ∀ next, result = .ok next → Effect book registry sender tx next (.ok ())) :
    Effect book registry sender tx (settle book result).1 (settle book result).2 := by
  cases result with
  | error e => exact .rejected
  | ok next => exact success next rfl

theorem unbond_effect (staked : tx.asStake = some s) (kind : s.kind = .unbond)
    (target : s.validator = some id) {next : StakingState}
    (returned : unbond book registry sender id s.amount = .ok next) :
    Effect book registry sender tx next (.ok ()) := by
  unfold unbond at returned
  split at returned
  · cases returned
  rename_i same
  split at returned
  · cases returned
  rename_i difference
  split at returned
  · cases returned
  · cases returned
    exact .unbonded staked kind target (not_not.mp same) difference

theorem delegate_effect (staked : tx.asStake = some s) (kind : s.kind = .delegate)
    (target : s.validator = some id) {next : StakingState}
    (returned : delegate book sender id s.amount = .ok next) :
    Effect book registry sender tx next (.ok ()) := by
  unfold delegate at returned
  split at returned
  · cases returned
  rename_i barred
  split at returned
  · cases returned
  · rename_i sum
    cases returned
    exact .delegated staked kind target barred sum

theorem undelegate_effect (staked : tx.asStake = some s) (kind : s.kind = .undelegate)
    (target : s.validator = some id) {next : StakingState}
    (returned : undelegate book sender id s.amount = .ok next) :
    Effect book registry sender tx next (.ok ()) := by
  unfold undelegate at returned
  split at returned
  · cases returned
  rename_i difference
  split at returned
  · rename_i none
    cases returned
    exact .undelegated staked kind target difference (if_pos none).symm
  · rename_i some
    cases returned
    exact .undelegated staked kind target difference (if_neg some).symm

theorem applyStakeTx_effect (returned : applyStakeTx book registry sender tx = some (book',result)) :
    Effect book registry sender tx book' result := by
  unfold applyStakeTx at returned
  split at returned
  · cases returned
    exact .rejected
  rename_i s staked
  split at returned
  · rename_i kind
    obtain ⟨inner,withdrawn,settled⟩ := Option.map_eq_some_iff.mp returned
    obtain ⟨rfl,rfl⟩ := Prod.mk.inj settled.symm
    refine settle_effect fun next ok => ?_
    subst ok
    obtain ⟨take,same,taken,sum⟩ := withdraw_ok withdrawn
    rw [same]
    exact .withdrawn staked kind taken sum
  · cases returned
    exact .rejected
  · rename_i id kind target
    obtain ⟨rfl,rfl⟩ := Prod.mk.inj (Option.some.inj returned).symm
    exact bond_effect staked kind target
  · rename_i id kind target
    obtain ⟨rfl,rfl⟩ := Prod.mk.inj (Option.some.inj returned).symm
    exact settle_effect fun next ok => unbond_effect staked kind target ok
  · rename_i id kind target
    obtain ⟨rfl,rfl⟩ := Prod.mk.inj (Option.some.inj returned).symm
    exact settle_effect fun next ok => delegate_effect staked kind target ok
  · rename_i id kind target
    obtain ⟨rfl,rfl⟩ := Prod.mk.inj (Option.some.inj returned).symm
    exact settle_effect fun next ok => undelegate_effect staked kind target ok

end Effects

end L1.Staking

namespace L1.Holdings

open Staking

section Payload

variable {own : Owners}

/-- What leaves the ledger with a staking payload. -/
def ledgerLost (own : Owners) (book : StakingState) (sender : Address) (s : StakePayload) : Nat :=
  match s.kind with
  | .unbond => slotShare own book
  | .undelegate => counted own (some sender) s.amount
  | .withdraw => counted own (some sender) s.amount
  | .bond => 0
  | .delegate => 0

/-- What enters the ledger with it. -/
def ledgerGained (own : Owners) (sender : Address) (s : StakePayload) : Nat :=
  match s.kind with
  | .bond => counted own (some sender) s.amount
  | .delegate => counted own (some sender) s.amount
  | .unbond => 0
  | .undelegate => 0
  | .withdraw => 0

/-- How a staking operation accounts for its result: a failure moves nothing. -/
structure Accounted (own : Owners) (book book' : StakingState) (result : Except RejectReason Unit)
    (lost gained : Nat) : Prop where
  ok : result = .ok () → bookShare own book' + lost = bookShare own book + gained
  failed : result ≠ .ok () → bookShare own book' = bookShare own book

variable {book book' : StakingState} {registry : ParamsRegistry} {sender : Address} {tx : Tx}
  {s : StakePayload} {result : Except RejectReason Unit}

theorem Accounted.success {lost gained : Nat}
    (equation : bookShare own book' + lost = bookShare own book + gained) :
    Accounted own book book' (.ok ()) lost gained :=
  ⟨fun _ => equation,by simp⟩

/-- A first operator does not matter to a predicate that puts the sender with nobody. -/
theorem own_named {operator operator' : Map ValidatorId Address} {id : ValidatorId}
    (same : own none = own (some sender)) (mine : ∀ op, operator[id]? = some op → op = sender)
    (named : ∀ a, operator'[a]? = if a = id then some sender else operator[a]?) (a : ValidatorId) :
    own operator'[a]? = own operator[a]? := by
  rw [named]
  split
  · rename_i here
    cases known : operator[id]? with
    | none => rw [here,known,same]
    | some op => rw [here,known,mine op known]
  · rfl

theorem effect_accounted (same : own none = own (some sender)) (staked : tx.asStake = some s)
    (effect : Effect book registry sender tx book' result) :
    Accounted own book book' result (ledgerLost own book sender s) (ledgerGained own sender s) := by
  cases effect with
  | rejected => exact ⟨by simp,fun _ => rfl⟩
  | @marked s' id _ _ _ unnamed _ =>
    refine ⟨by simp,fun _ => ?_⟩
    have alike := own_named same (fun op known => by rw [unnamed] at known; cases known)
      (Map.get?_insert book.operator id · sender)
    rw [bookShare,bondShare_congr alike,bookShare]
  | @bonded s' id operator next staked' kind _ _ mine named sum =>
    obtain rfl := Option.some.inj (staked.symm.trans staked')
    apply Accounted.success
    have change := total_insert_counted own (fun id => operator[id]?) book.selfBond id next
    have grown := counted_add own operator[id]? (checkedAdd_eq_some.mp sum)
    have moved := bondShare_congr (own_named same mine named) book.selfBond
    have operated : operator[id]? = some sender := by rw [named,if_pos rfl]
    simp only [ledgerLost,ledgerGained,kind,operated,bookShare,bondShare,selfBondOf] at change grown moved ⊢
    omega
  | @unbonded s' id next staked' kind _ operated difference =>
    obtain rfl := Option.some.inj (staked.symm.trans staked')
    apply Accounted.success
    have taken := total_insert_counted own (fun id => book.operator[id]?) book.selfBond id next
    have parts := counted_add own (some sender) (checkedSub_eq_some.mp difference)
    have put := Map.total_insert (entryShare own) book.pendingUnbond book.nextUnbond
      (unbondEntry book registry sender id s.amount)
    have entry : entryShare own book.nextUnbond (unbondEntry book registry sender id s.amount) =
        counted own (some sender) s.amount := rfl
    simp only [operated,selfBondOf] at taken parts
    simp only [ledgerLost,ledgerGained,kind,bookShare,bondShare,pendingShare,slotShare]
    omega
  | @delegated s' id next staked' kind _ _ sum =>
    obtain rfl := Option.some.inj (staked.symm.trans staked')
    apply Accounted.success
    have change := total_insert_counted own (fun key : Address × ValidatorId => some key.1)
      book.delegations (sender,id) next
    have grown := counted_add own (some sender) (checkedAdd_eq_some.mp sum)
    simp only [ledgerLost,ledgerGained,kind,bookShare,delegationShare]
    dsimp only [delegationOf] at change grown
    omega
  | @undelegated s' id delegations next staked' kind _ difference left =>
    obtain rfl := Option.some.inj (staked.symm.trans staked')
    apply Accounted.success
    have parts := counted_add own (some sender) (checkedSub_eq_some.mp difference)
    have change : delegationShare own delegations + counted own (some sender) (delegationOf book sender id) =
        delegationShare own book.delegations + counted own (some sender) next := by
      subst left
      split
      · rename_i nothing
        rw [nothing,show counted own (some sender) 0 = 0 from counted_zero own _,Nat.add_zero]
        exact total_erase_counted own (fun key : Address × ValidatorId => some key.1) book.delegations
          (sender,id)
      · exact total_insert_counted own (fun key : Address × ValidatorId => some key.1)
          book.delegations (sender,id) next
    simp only [ledgerLost,ledgerGained,kind,bookShare]
    omega
  | @withdrawn s' pending take staked' kind taken sum =>
    obtain rfl := Option.some.inj (staked.symm.trans staked')
    apply Accounted.success
    have moved : pendingShare own pending + _ = _ := taken.share
    rw [sum] at moved
    simp only [ledgerLost,ledgerGained,kind,bookShare,counted]
    omega

theorem applyStakeTx_accounted (same : own none = own (some sender)) (payload : tx.payload = .stake s)
    (returned : applyStakeTx book registry sender tx = some (book',result)) :
    Accounted own book book' result (ledgerLost own book sender s) (ledgerGained own sender s) :=
  effect_accounted same (by rw [Tx.asStake,payload]) (applyStakeTx_effect returned)

end Payload

section Transactions

open L1.Seq

variable {own : Owners} {world world' : World} {sender : Address} {gas : U64} {tx : Tx}
  {receipt : Receipt}

/-- What leaves the chosen owners with a successful transaction: the fee, a transferred
amount, and in two staking kinds value that reaches nobody. -/
def lost (own : Owners) (world : World) (sender : Address) (tx : Tx) : Nat :=
  counted own (some sender) tx.maxFee +
  match tx.payload with
  | .transfer t => counted own (some sender) t.amount
  | .stake s => match s.kind with
    | .unbond => slotShare own world.staking
    | .undelegate => counted own (some sender) s.amount
    | .bond => 0
    | .delegate => 0
    | .withdraw => 0
  | .deploy _ => 0
  | .call _ => 0

def gained (own : Owners) (tx : Tx) : Nat :=
  match tx.payload with
  | .transfer t => counted own (some t.toAddr) t.amount
  | .stake _ => 0
  | .deploy _ => 0
  | .call _ => 0

structure Settled (own : Owners) (world world' : World) (receipt : Receipt) (lost gained : Nat) :
    Prop where
  success : receipt.success = true → share own world' + lost = share own world + gained
  failed : receipt.success = false → share own world' = share own world

variable {pay : Amount} {paid : Account} {s : StakePayload}

theorem Settled.reject {lost gained : Nat} {reason : RejectReason} (same : share own world' = share own world) :
    Settled own world world' (.fail reason) lost gained :=
  ⟨by simp [Receipt.fail],fun _ => same⟩

theorem Settled.accept {lost gained : Nat} {event : Event}
    (equation : share own world' + lost = share own world + gained) :
    Settled own world world' (.ok gas event) lost gained :=
  ⟨fun _ => equation,by simp [Receipt.ok]⟩

theorem accountShare_charge (own : Owners)
    (charged : charge (world.account sender) pay = some paid) :
    accountShare own (world.setAccount sender paid).accounts + counted own (some sender) pay =
      accountShare own world.accounts := by
  obtain ⟨balance,rest,rfl⟩ := Option.map_eq_some_iff.mp charged
  have written := accountShare_setAccount own world sender
    { world.account sender with balance, nonce := nextNonce (world.account sender).nonce }
  have parts := counted_add own (some sender) (checkedSub_eq_some.mp rest)
  dsimp only at written
  omega

theorem accountShare_credit (own : Owners) {amount : Amount}
    (fits : (world.account sender).balance.toNat + amount.toNat < 2^128) :
    accountShare own (world.setAccount sender (credit (world.account sender) amount)).accounts =
      accountShare own world.accounts + counted own (some sender) amount := by
  cases sum : checkedAdd (world.account sender).balance amount with
  | none =>
    have := checkedAdd_eq_none.mp sum
    omega
  | some next =>
    have written := accountShare_setAccount own world sender (credit (world.account sender) amount)
    have parts := counted_add own (some sender) (checkedAdd_eq_some.mp sum)
    simp only [credit,sum,Option.getD_some] at written ⊢
    omega

theorem transferred_share {t : Transfer} (payload : tx.payload = .transfer t)
    (fits : total world < 2^128) (sum : checkedAdd t.amount tx.maxFee = some pay)
    (charged : charge (world.account sender) pay = some paid) :
    share own (transferred world sender paid t) + lost own world sender tx =
      share own world + gained own tx := by
  have debit := accountShare_charge own charged
  have parts := counted_add own (some sender) (checkedAdd_eq_some.mp sum)
  -- what the recipient holds and receives was all there before
  have room : ((world.setAccount sender paid).account t.toAddr).balance.toNat + t.amount.toNat <
      2^128 := by
    have held := balance_le (world.setAccount sender paid) t.toAddr
    have before := accountShare_charge everyone charged
    have whole := checkedAdd_eq_some.mp sum
    simp only [counted_everyone] at before
    unfold total share at fits
    omega
  have credited := accountShare_credit own room
  unfold share lost gained
  simp only [payload]
  have book : (transferred world sender paid t).staking = world.staking := rfl
  rw [book,transferred,credited]
  omega

theorem withdraw_fits {book : StakingState} (kind : s.kind = .withdraw) (fits : total world < 2^128)
    (ledger : bookShare everyone book + ledgerLost everyone world.staking sender s =
      bookShare everyone world.staking + ledgerGained everyone sender s)
    (charged : charge (world.account sender) pay = some paid) :
    ((world.setAccount sender paid).account sender).balance.toNat + s.amount.toNat < 2^128 := by
  have held := balance_le (world.setAccount sender paid) sender
  have before := accountShare_charge everyone charged
  simp only [ledgerLost,ledgerGained,kind,counted_everyone] at ledger
  unfold total share at fits
  omega

theorem account_setAccount (world : World) (sender : Address) (account : Account) :
    (world.setAccount sender account).account sender = account := by
  simp [World.account,World.setAccount]

theorem staked_share {book : StakingState} (same : own none = own (some sender))
    (payload : tx.payload = .stake s) (fits : total world < 2^128)
    (staked : applyStakeTx world.staking world.params sender tx = some (book,.ok ()))
    (sum : checkedAdd (stakeDebit s) tx.maxFee = some pay)
    (charged : charge (world.account sender) pay = some paid) :
    share own { world.setAccount sender (if s.kind = .withdraw then credit paid s.amount else paid) with
        staking := book } + lost own world sender tx = share own world + gained own tx := by
  have ledger := (applyStakeTx_accounted same payload staked).ok rfl
  have debit := accountShare_charge own charged
  have parts := counted_add own (some sender) (checkedAdd_eq_some.mp sum)
  unfold share lost gained
  simp only [payload]
  unfold ledgerLost ledgerGained at ledger
  have none : counted own (some sender) 0 = 0 := counted_zero own _
  by_cases kind : s.kind = .withdraw
  · have room := withdraw_fits kind fits ((applyStakeTx_accounted rfl payload staked).ok rfl) charged
    have credited := accountShare_credit own room
    rw [account_setAccount] at credited
    have twice : (world.setAccount sender paid).setAccount sender (credit paid s.amount) =
        world.setAccount sender (credit paid s.amount) := by
      unfold World.setAccount
      congr 1
      apply Std.ExtTreeMap.ext_getElem?
      intro a
      simp only [Map.get?_insert]
      split <;> rfl
    rw [twice] at credited
    simp only [kind,if_true,stakeDebit] at ledger parts ⊢
    omega
  · simp only [if_neg kind]
    have kept : accountShare own { world.setAccount sender paid with staking := book }.accounts =
      accountShare own (world.setAccount sender paid).accounts := rfl
    rw [kept]
    cases known : s.kind with
    | withdraw => exact absurd known kind
    | bond => simp only [known,stakeDebit] at ledger parts ⊢; omega
    | unbond => simp only [known,stakeDebit] at ledger parts ⊢; omega
    | delegate => simp only [known,stakeDebit] at ledger parts ⊢; omega
    | undelegate => simp only [known,stakeDebit] at ledger parts ⊢; omega

/-- The code hash changes, the balance does not. -/
theorem installed_share [Blake3] {d : Deploy} (payload : tx.payload = .deploy d)
    (charged : charge (world.account sender) tx.maxFee = some paid) :
    share own (installed world sender paid tx.nonce d) + lost own world sender tx =
      share own world + gained own tx := by
  have debit := accountShare_charge own charged
  have written := accountShare_setAccount own (world.setAccount sender paid)
    (WasmCall.createAddress sender tx.nonce)
    { (world.setAccount sender paid).account (WasmCall.createAddress sender tx.nonce) with
      codeHash := hashToArray d.code }
  unfold share lost gained installed
  simp only [payload]
  dsimp only [World.setAccount] at written debit ⊢
  omega

variable [Wasm] [Blake3] [Ed25519]

theorem applyTx_settled {signed : SignedTx} (own : Owners)
    (same : own none = own (some (fromEd25519 signed.publicKey))) (fits : total world < 2^128)
    (returned : applyTx world signed = some (world',receipt)) :
    Settled own world world' receipt (lost own world (fromEd25519 signed.publicKey) signed.tx)
      (gained own signed.tx) := by
  have clear : total (clearTraces world) < 2^128 := fits
  cases applyTx_outcome returned with
  | rejected => exact .reject rfl
  | unstaked payload failed =>
    have ledger := (applyStakeTx_accounted same payload failed).failed (by simp)
    exact .reject (congrArg (accountShare own world.accounts + ·) ledger)
  | staked payload _ staked sum charged =>
    exact .accept (staked_share same payload clear staked sum charged)
  | transferred payload _ sum charged =>
    exact .accept (transferred_share payload clear sum charged)
  | deployed payload _ charged => exact .accept (installed_share payload charged)
  | called payload _ charged ran =>
    apply Settled.accept
    have debit := accountShare_charge own charged
    have kept := KeepsLedger.call ran
    unfold share lost gained
    simp only [payload,kept.accounts,kept.staking]
    dsimp only [World.setAccount,clearTraces] at debit ⊢
    omega

end Transactions
end L1.Holdings
