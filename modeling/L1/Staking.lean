import L1.Receipt
import L1.Steps

/-! The staking ledger: bonds, delegations, unbonding, epochs and slashing. -/
namespace L1

structure UnbondEntry where
  owner : Address
  validator : ValidatorId
  amount : Amount
  unlockHeight : Height
  unlockEpoch : Epoch
  deriving DecidableEq

structure StakingState where
  selfBond : Map ValidatorId Amount := ∅
  operator : Map ValidatorId Address := ∅
  delegations : Map (Address × ValidatorId) Amount := ∅
  pendingUnbond : Map U64 UnbondEntry := ∅
  nextUnbond : U64 := 0
  tombstones : OrdSet ValidatorId := ∅
  currentSet : ValidatorSet := ∅
  lastCommitHeight : Height := 0
  lastCommitHash : Hash := zeroHash

namespace Staking

def minSelfBondAmount (registry : ParamsRegistry) : Amount :=
  ((registry.get .minSelfBond).getD Spec.minSelfBond).setWidth 128

def checkMinSelfBond (amount : Amount) (registry : ParamsRegistry) : Except RejectReason Unit :=
  if amount < minSelfBondAmount registry then .error .stakeMinBond else .ok ()

def delegationCap (registry : ParamsRegistry) : U64 :=
  (registry.get .delegationCap).getD Spec.delegationCap

/-- Voting power saturates at the largest machine word. -/
def amountPower (a : Amount) : U64 := BitVec.ofNat 64 (min a.toNat (2^64 - 1))

def delegatedTo (book : StakingState) (id : ValidatorId) : Amount :=
  (book.delegations.toList.filter fun e => e.1.2 = id).foldl
    (fun acc e => (checkedAdd acc e.2).getD acc) 0

def effectivePower (book : StakingState) (id : ValidatorId) (registry : ParamsRegistry) :
    VotingPower :=
  let selfP := amountPower ((book.selfBond[id]?).getD 0)
  let delP := amountPower (delegatedTo book id)
  saturatingAdd selfP (if delP < delegationCap registry then delP else delegationCap registry)

def unbondingUnlock (lastCommit : Height) (registry : ParamsRegistry) : Height × Epoch :=
  let period := (registry.get .unbondingPeriod).getD Spec.unbondingPeriod
  let epochLen := (registry.get .epochLength).getD Spec.epochLength
  let unlock := saturatingAdd lastCommit period
  (unlock,if epochLen = 0 then 0 else unlock / epochLen)

def Matured (owner : Address) (height : Height) (e : UnbondEntry) : Prop :=
  e.owner = owner ∧ e.unlockHeight ≤ height

instance (owner : Address) (height : Height) (e : UnbondEntry) :
    Decidable (Matured owner height e) := inferInstanceAs (Decidable (_ ∧ _))

def maturedWithdrawable (book : StakingState) (owner : Address) : Amount :=
  (book.pendingUnbond.toList.filter fun e => Matured owner book.lastCommitHeight e.2).foldl
    (fun acc e => (checkedAdd acc e.2.amount).getD acc) 0

/-- A new bond. The operator is set before the sum is checked, so a sum that overflows
fails with the operator in place. -/
def bond (book : StakingState) (registry : ParamsRegistry) (sender : Address) (id : ValidatorId)
    (amount : Amount) : StakingState × Except RejectReason Unit :=
  if id ∈ book.tombstones then (book,.error .stakeTombstone)
  else match checkMinSelfBond amount registry with
    | .error e => (book,.error e)
    | .ok () =>
      match book.operator[id]? with
      | some op => if op ≠ sender then (book,.error .stakeInsufficient) else deposit book
      | none => deposit { book with operator := book.operator.insert id sender }
where
  deposit (book : StakingState) : StakingState × Except RejectReason Unit :=
    match checkedAdd ((book.selfBond[id]?).getD 0) amount with
    | none => (book,.error .stakeInsufficient)
    | some next => ({ book with selfBond := book.selfBond.insert id next },.ok ())

def unbondEntry (book : StakingState) (registry : ParamsRegistry) (sender : Address)
    (id : ValidatorId) (amount : Amount) : UnbondEntry :=
  let unlock := unbondingUnlock book.lastCommitHeight registry
  ⟨sender,id,amount,unlock.1,unlock.2⟩

/-- The operator takes out part of a self-bond; the rest is nothing or at least the minimum.
The entry goes to the next slot, and the last slot is its own successor. -/
def unbond (book : StakingState) (registry : ParamsRegistry) (sender : Address) (id : ValidatorId)
    (amount : Amount) : Except RejectReason StakingState :=
  if book.operator[id]? ≠ some sender then .error .stakeInsufficient
  else match checkedSub ((book.selfBond[id]?).getD 0) amount with
    | none => .error .stakeInsufficient
    | some next =>
      if next ≠ 0 ∧ next < minSelfBondAmount registry then .error .stakeMinBond
      else
        .ok { book with
          selfBond := book.selfBond.insert id next
          nextUnbond := saturatingAdd book.nextUnbond 1
          pendingUnbond := book.pendingUnbond.insert book.nextUnbond
            (unbondEntry book registry sender id amount) }

def delegate (book : StakingState) (sender : Address) (id : ValidatorId) (amount : Amount) :
    Except RejectReason StakingState :=
  if id ∈ book.tombstones then .error .stakeTombstone
  else match checkedAdd ((book.delegations[(sender,id)]?).getD 0) amount with
    | none => .error .stakeInsufficient
    | some next => .ok { book with delegations := book.delegations.insert (sender,id) next }

def undelegate (book : StakingState) (sender : Address) (id : ValidatorId) (amount : Amount) :
    Except RejectReason StakingState :=
  match checkedSub ((book.delegations[(sender,id)]?).getD 0) amount with
  | none => .error .stakeInsufficient
  | some next =>
    if next = 0 then .ok { book with delegations := book.delegations.erase (sender,id) }
    else .ok { book with delegations := book.delegations.insert (sender,id) next }

/-- Consume matured entries of the sender in slot order. `none` is a panic. -/
def withdrawLoop (sender : Address) (height : Height) :
    List U64 → Amount → Map U64 UnbondEntry → Option (Map U64 UnbondEntry)
  | [], _, pending => some pending
  | k :: keys, left, pending =>
    if left = 0 then some pending
    else match pending[k]? with
      | none => withdrawLoop sender height keys left pending
      | some e =>
        if ¬ Matured sender height e then withdrawLoop sender height keys left pending
        else if e.amount ≤ left then
          match checkedSub left e.amount with
          | none => none
          | some left => withdrawLoop sender height keys left (pending.erase k)
        else match checkedSub e.amount left with
          | none => none
          | some rem => withdrawLoop sender height keys 0 (pending.insert k { e with amount := rem })

def withdraw (book : StakingState) (sender : Address) (amount : Amount) :
    Option (Except RejectReason StakingState) :=
  let avail := maturedWithdrawable book sender
  if avail < amount then
    if book.pendingUnbond.toList.any fun e => e.2.owner = sender then some (.error .stakeUnbonding)
    else some (.error .stakeInsufficient)
  else match withdrawLoop sender book.lastCommitHeight (book.pendingUnbond.toList.map Prod.fst)
      amount book.pendingUnbond with
    | none => none
    | some pendingUnbond => some (.ok { book with pendingUnbond })

/-- An error leaves the ledger as it was. -/
def settle (book : StakingState) : Except RejectReason StakingState →
    StakingState × Except RejectReason Unit
  | .error e => (book,.error e)
  | .ok book => (book,.ok ())

/-- Apply a staking payload; account balances are moved by the caller. -/
def applyStakeTx (book : StakingState) (registry : ParamsRegistry) (sender : Address) (tx : Tx) :
    Option (StakingState × Except RejectReason Unit) :=
  match tx.asStake with
  | none => some (book,.error .gas)
  | some s => match s.kind, s.validator with
    | .withdraw, _ => (withdraw book sender s.amount).map (settle book)
    | _, none => some (book,.error .gas)
    | .bond, some id => some (bond book registry sender id s.amount)
    | .unbond, some id => some (settle book (unbond book registry sender id s.amount))
    | .delegate, some id => some (settle book (delegate book sender id s.amount))
    | .undelegate, some id => some (settle book (undelegate book sender id s.amount))

def observeCommit (book : StakingState) (finalized : Steps.Finalized) : StakingState :=
  { book with lastCommitHeight := finalized.height, lastCommitHash := finalized.blockHash }

def computeNextSet (book : StakingState) (registry : ParamsRegistry) : ValidatorSet :=
  book.selfBond.toList.foldl (fun set e =>
    if e.1 ∈ book.tombstones then set
    else if e.2 < minSelfBondAmount registry then set
    else
      let p := effectivePower book e.1 registry
      if 0 < p then set.insert e.1 p else set) ∅

/-- At the last height of an epoch, install the set of the next one. -/
def epochSetUpdate [Blake3] (book : StakingState) (registry : ParamsRegistry)
    (finalized : Steps.Finalized) : StakingState × Option (Hash × ValidatorSet) :=
  let book := observeCommit book finalized
  let epochLen := (registry.get .epochLength).getD Spec.epochLength
  if epochLen = 0 then (book,none)
  else if finalized.height / epochLen = saturatingAdd finalized.height 1 / epochLen then (book,none)
  else
    let set := computeNextSet book registry
    ({ book with currentSet := set },some (validatorsHash set,set))

end Staking

/-- Hashes of the evidence already applied. -/
abbrev SlashState := OrdSet Hash

namespace Slash

variable [Bls] [Blake3]

def evidenceHash (ev : Evidence) : Hash := hashToArray ev.encode

def slashPercent (registry : ParamsRegistry) : U64 :=
  (registry.get .slashPercent).getD Spec.slashPercent

/-- Reduce the offender's self-bond. Evidence seen before changes nothing, and an error
leaves both states as they were. -/
def apply (staking : StakingState) (slash : SlashState) (registry : ParamsRegistry)
    (evidence : Evidence) : Except VerifyError (StakingState × SlashState × Amount) :=
  match submitEvidence evidence with
  | .error e => .error e
  | .ok _ =>
    let h := evidenceHash evidence
    if h ∈ slash then .ok (staking,slash,0)
    else
      let id := evidence.a.signer
      let cur := (staking.selfBond[id]?).getD 0
      let cut := saturatingMul cur ((slashPercent registry).setWidth 128) / 100
      let next := (checkedSub cur cut).getD 0
      .ok ({ staking with selfBond := staking.selfBond.insert id next },slash.insert h,cut)

/-- Bar a validator key from future sets and bonds. -/
def tombstone (staking : StakingState) (id : ValidatorId) : StakingState :=
  { staking with tombstones := staking.tombstones.insert id }

end Slash
end L1
