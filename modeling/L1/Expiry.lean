import L1.AccountMpt
import L1.Runs

/-! Accounts that leave the live trie for unpaid rent, and come back with the record of it. -/
namespace L1.Expiry

open AccountMpt Mpt

/-- The account as it was, with a proof against the root of that time. -/
structure ExpiryRecord where
  address : Address
  encoded : Bytes
  inclusion : MptProof
  root : Hash
  deriving DecidableEq

inductive ExpiryError where
  | stillPaid | proof | stillPresent
  deriving DecidableEq, Repr

section Calls

variable [Blake3]

/-- Drop an unpaid account. `none` is a panic of the trie. -/
def expire (accounts : AccountMpt) (addr : Address) (rentDue prepaid : U64) :
    Option (Except ExpiryError ExpiryRecord × AccountMpt) :=
  if rentDue ≤ prepaid then some (.error .stillPaid,accounts)
  else match accounts.get addr with
    | none => none
    | some none => some (.error .proof,accounts)
    | some (some account) => match prove accounts.trie (accountKey addr) with
      | none => some (.error .proof,accounts)
      | some inclusion =>
        if verify (accountKey addr) inclusion accounts.root = false then some (.error .proof,accounts)
        else match accounts.delete addr with
          | (none,_) => none
          | (some (),after) => some (.ok ⟨addr,account.encode,inclusion,accounts.root⟩,after)

/-- Put an account back. The record brings the root that its proof is checked against; only the
proof of absence is about the live trie. -/
def reactivate (accounts : AccountMpt) (record : ExpiryRecord) (exclusion : MptProof) :
    Option (Except ExpiryError Account × AccountMpt) :=
  match accounts.get record.address with
  | none => none
  | some (some _) => some (.error .stillPresent,accounts)
  | some none =>
    if record.inclusion.value ≠ some record.encoded then some (.error .proof,accounts)
    else if verify (accountKey record.address) record.inclusion record.root = false then
      some (.error .proof,accounts)
    else match proveExclusion accounts.trie (accountKey record.address) with
      | none => some (.error .proof,accounts)
      | some ex =>
        if verify (accountKey record.address) exclusion accounts.root = false ∨ exclusion ≠ ex then
          some (.error .proof,accounts)
        else match Account.decode record.encoded with
          | .error _ => some (.error .proof,accounts)
          | .ok account => match accounts.put record.address account with
            | (none,_) => none
            | (some (),after) => some (.ok account,after)

/-- All that a call has to bring for an account to come back. -/
structure Passes (accounts : AccountMpt) (record : ExpiryRecord) (exclusion : MptProof)
    (account : Account) : Prop where
  absent : accounts.get record.address = some none
  carried : record.inclusion.value = some record.encoded
  included : verify (accountKey record.address) record.inclusion record.root = true
  excluded : verify (accountKey record.address) exclusion accounts.root = true
  current : proveExclusion accounts.trie (accountKey record.address) = some exclusion
  decoded : Account.decode record.encoded = .ok account
  returns : (accounts.put record.address account).1 = some ()

theorem reactivate_ok_iff {accounts after : AccountMpt} {record : ExpiryRecord} {exclusion : MptProof}
    {account : Account} : reactivate accounts record exclusion = some (.ok account,after) ↔
      Passes accounts record exclusion account ∧ after = (accounts.put record.address account).2 := by
  constructor
  · intro done
    unfold reactivate at done
    split at done
    · cases done
    · cases done
    rename_i absent
    split at done
    · cases done
    rename_i carried
    split at done
    · cases done
    rename_i included
    split at done
    · cases done
    rename_i ex current
    split at done
    · cases done
    rename_i excluded
    split at done
    · cases done
    rename_i found decoded
    split at done
    · cases done
    rename_i stored put
    cases done
    rw [not_or,Bool.not_eq_false,not_not] at excluded
    obtain ⟨verified,rfl⟩ := excluded
    refine ⟨⟨absent,not_not.mp carried,Bool.not_eq_false _ ▸ included,verified,current,decoded,?_⟩,?_⟩
    · rw [put]
    · rw [put]
  · rintro ⟨passes,rfl⟩
    have put : accounts.put record.address account = (some (),(accounts.put record.address account).2) :=
      Prod.ext passes.returns rfl
    unfold reactivate
    rw [passes.absent]
    dsimp only
    rw [if_neg (not_not.mpr passes.carried),if_neg (by simp [passes.included]),passes.current]
    dsimp only
    rw [if_neg (by simp [passes.excluded]),passes.decoded]
    dsimp only
    rw [put]

inductive Call where
  | put (addr : Address) (account : Account)
  | expire (addr : Address) (rentDue prepaid : U64)
  | reactivate (record : ExpiryRecord) (exclusion : MptProof)

/-- The live trie, and for each address the record of its last expiry with the account that was
removed, until it is used. -/
structure State where
  accounts : AccountMpt
  outstanding : Address → Option (ExpiryRecord × Account)

def start : State := ⟨.new,fun _ => none⟩

def next (s : State) : Call → Option State
  | .put addr account => match s.accounts.put addr account with
    | (none,_) => none
    | (some (),after) => some { s with accounts := after }
  | .expire addr rentDue prepaid => match expire s.accounts addr rentDue prepaid with
    | none => none
    | some (.error _,after) => some { s with accounts := after }
    | some (.ok record,after) =>
      let removed := (s.accounts.get addr).join
      some ⟨after,Function.update s.outstanding addr (removed.map fun account => (record,account))⟩
  | .reactivate record exclusion => match reactivate s.accounts record exclusion with
    | none => none
    | some (.error _,after) => some { s with accounts := after }
    | some (.ok _,after) => some ⟨after,Function.update s.outstanding record.address none⟩

def run (calls : List Call) : Option State :=
  calls.foldl (fun s call => s.bind (next · call)) (some start)

theorem run_snoc (done : List Call) (call : Call) :
    run (done ++ [call]) = (run done).bind (next · call) := by
  simp [run]

theorem expire_ok {accounts after : AccountMpt} {addr : Address} {rentDue prepaid : U64}
    {record : ExpiryRecord} (done : expire accounts addr rentDue prepaid = some (.ok record,after)) :
    record.address = addr ∧ ∃ account, accounts.get addr = some (some account) ∧
      record.encoded = account.encode := by
  unfold expire at done
  split at done
  · cases done
  split at done
  · cases done
  · cases done
  rename_i account found
  split at done
  · cases done
  split at done
  · cases done
  split at done
  · cases done
  cases done
  exact ⟨rfl,account,found,rfl⟩

def Recorded (s : State) : Prop :=
  ∀ addr record removed, s.outstanding addr = some (record,removed) →
    record.encoded = removed.encode

theorem Recorded.next {s s' : State} (recorded : Recorded s) {call : Call}
    (stepped : next s call = some s') : Recorded s' := by
  cases call with
  | put addr account =>
    rw [Expiry.next] at stepped
    split at stepped
    · cases stepped
    · cases stepped
      exact recorded
  | expire addr rentDue prepaid =>
    rw [Expiry.next] at stepped
    split at stepped
    · cases stepped
    · cases stepped
      exact recorded
    · rename_i record after expired
      obtain ⟨-,account,found,encoded⟩ := expire_ok expired
      cases stepped
      intro other record' removed held
      dsimp only at held
      rw [found,Function.update_apply] at held
      split at held
      · cases held
        exact encoded
      · exact recorded other record' removed held
  | reactivate record exclusion =>
    rw [Expiry.next] at stepped
    split at stepped
    · cases stepped
    · cases stepped
      exact recorded
    · cases stepped
      intro other record' removed held
      dsimp only at held
      rw [Function.update_apply] at held
      split at held
      · cases held
      · exact recorded other record' removed held

theorem recorded_run {calls : List Call} {s : State} (reached : run calls = some s) : Recorded s := by
  induction calls using List.reverseRecOn generalizing s with
  | nil =>
    cases reached
    intro _ _ _ held
    cases held
  | append_singleton done call ih =>
    rw [run_snoc] at reached
    obtain ⟨before,earlier,stepped⟩ := Option.bind_eq_some_iff.mp reached
    exact (ih earlier).next stepped

end Calls

namespace Sample

@[reducible] def blake3 : Blake3 :=
  ⟨fun bytes => Vector.replicate 32 (UInt8.ofNat (bytes.foldl (fun sum b => (3 * sum + b.toNat + 1) % 251) 0))⟩

attribute [local instance] blake3

def holder : Address := Vector.replicate 32 7

def account (balance : Amount) : Account := ⟨balance,0,zeroHash⟩

def forged : ExpiryRecord :=
  let made := (AccountMpt.new.put holder (account 1000)).2
  ⟨holder,(account 1000).encode,(prove made.trie (accountKey holder)).get (by decide +kernel),made.root⟩

def absence : MptProof := (proveExclusion AccountMpt.new.trie (accountKey holder)).get (by decide +kernel)

end Sample
end L1.Expiry
