import L1.Expiry

/-! Expiry and reactivation undo each other. The account that comes back is the one that left, whatever
was done to other addresses meanwhile, and where nothing else has changed so is the root. -/
namespace L1

namespace AccountMpt

open TrieMap

section Histories

variable [Blake3] {accounts : AccountMpt} {entries : AccountTrie}

theorem Holds.root_eq {other : AccountMpt} (held : accounts.Holds entries) (same : other.Holds entries) :
    accounts.root = other.root := by
  obtain ⟨tree,commits⟩ := held
  obtain ⟨tree',commits'⟩ := same
  rw [root,root,commits.root,commits'.root,commits.tree_eq commits']

theorem Holds.proveExclusion (held : accounts.Holds entries)
    (safe : Mpt.NoCollision accounts.trie.nodes) {addr : Address} (absent : entries[addr]? = none) :
    ∃ proof, Mpt.proveExclusion accounts.trie (accountKey addr) = some proof ∧
      Mpt.verify (accountKey addr) proof accounts.root = true := by
  obtain ⟨proof,made,verified,value⟩ := held.prove safe addr
  rw [absent] at value
  refine ⟨proof,?_,verified⟩
  rw [Mpt.proveExclusion,made]
  dsimp only
  rw [value]
  rfl

/-- A trie only grows, so that what is safe after a write was safe before it. -/
theorem safe_put {addr : Address} {account : Account}
    (safe : Mpt.NoCollision (accounts.put addr account).2.trie.nodes) :
    Mpt.NoCollision accounts.trie.nodes :=
  safe.of_suffix (Mpt.apply_grows accounts.trie (.put (accountKey addr) account.encode))

theorem safe_delete {addr : Address} (safe : Mpt.NoCollision (accounts.delete addr).2.trie.nodes) :
    Mpt.NoCollision accounts.trie.nodes :=
  safe.of_suffix (Mpt.apply_grows accounts.trie (.delete (accountKey addr)))

theorem safe_writesOn {writes : List (Write Address Account)}
    (safe : Mpt.NoCollision (accounts.writesOn writes).2.trie.nodes) :
    Mpt.NoCollision accounts.trie.nodes :=
  safe.of_suffix (Mpt.run_grows accounts.trie _)

end Histories

def target : Write Address Account → Address
  | .put addr _ => addr
  | .delete addr => addr

theorem get?_writes {addr : Address} {writes : List (Write Address Account)}
    (others : ∀ write ∈ writes, target write ≠ addr) (entries : AccountTrie) :
    (writes.foldl Write.apply entries)[addr]? = entries[addr]? := by
  induction writes generalizing entries with
  | nil => rfl
  | cons write rest ih =>
    obtain ⟨other,later⟩ := List.forall_mem_cons.mp others
    rw [List.foldl_cons,ih later]
    cases write with
    | put key value => exact (Map.get?_insert ..).trans (if_neg (Ne.symm other))
    | delete key => exact (Map.get?_erase ..).trans (if_neg (Ne.symm other))

end AccountMpt

namespace Expiry

open AccountMpt Mpt TrieMap

section RoundTrip

variable [Blake3] {accounts : AccountMpt} {entries : AccountTrie} {addr : Address} {account : Account}

/-- An unpaid account leaves with a record that proves it. -/
theorem expire_present (held : accounts.Holds entries) {rentDue prepaid : U64}
    (safe : NoCollision (accounts.delete addr).2.trie.nodes) (present : entries[addr]? = some account)
    (unpaid : prepaid < rentDue) :
    ∃ record, expire accounts addr rentDue prepaid = some (.ok record,(accounts.delete addr).2) ∧
      record.address = addr ∧ record.encoded = account.encode ∧
      record.inclusion.value = some record.encoded ∧
      verify (accountKey addr) record.inclusion record.root = true := by
  have before := safe_delete safe
  have read := held.get before addr
  rw [present] at read
  obtain ⟨proof,made,verified,value⟩ := held.prove before addr
  rw [present,Option.map_some] at value
  have deleted : accounts.delete addr = (some (),(accounts.delete addr).2) :=
    Prod.ext (held.delete addr safe).1 rfl
  refine ⟨⟨addr,account.encode,proof,accounts.root⟩,?_,rfl,rfl,value,verified⟩
  have due : ¬ rentDue ≤ prepaid := BitVec.not_le.mpr unpaid
  rw [expire,if_neg due,read]
  dsimp only
  rw [made]
  dsimp only
  rw [if_neg (by simp [verified]),deleted]

/-- A record of an absent account brings it back. -/
theorem reactivate_absent {record : ExpiryRecord} (held : accounts.Holds entries)
    (safe : NoCollision (accounts.put record.address account).2.trie.nodes)
    (absent : entries[record.address]? = none) (encoded : record.encoded = account.encode)
    (carried : record.inclusion.value = some record.encoded)
    (included : verify (accountKey record.address) record.inclusion record.root = true) :
    ∃ exclusion, proveExclusion accounts.trie (accountKey record.address) = some exclusion ∧
      reactivate accounts record exclusion =
        some (.ok account,(accounts.put record.address account).2) := by
  have before := safe_put safe
  obtain ⟨exclusion,current,excluded⟩ := held.proveExclusion before absent
  have read := held.get before record.address
  rw [absent] at read
  refine ⟨exclusion,current,reactivate_ok_iff.mpr ⟨?_,rfl⟩⟩
  exact ⟨read,carried,included,excluded,current,by rw [encoded,Account.decode_encode],
    (held.put record.address account safe).1⟩

def Left (addr : Address) (before after : AccountMpt) : Prop :=
  ∀ other, after.get other = if other = addr then some none else before.get other

def Returned (addr : Address) (account : Account) (live final : AccountMpt) : Prop :=
  ∀ other, final.get other = if other = addr then some (some account) else live.get other

theorem Left.of_holds (held : accounts.Holds entries)
    (safe : NoCollision (accounts.delete addr).2.trie.nodes) : Left addr accounts (accounts.delete addr).2 := by
  intro other
  rw [(held.delete addr safe).2.get safe,held.get (safe_delete safe),Map.get?_erase]
  split <;> rfl

theorem Returned.of_holds (held : accounts.Holds entries)
    (safe : NoCollision (accounts.put addr account).2.trie.nodes) :
    Returned addr account accounts (accounts.put addr account).2 := by
  intro other
  rw [(held.put addr account safe).2.get safe,held.get (safe_put safe),Map.get?_insert]
  split <;> rfl

/-- The trie from which an account leaves, on which others are written, and to which it returns. -/
def roundTrip (accounts : AccountMpt) (addr : Address) (account : Account)
    (between : List (Write Address Account)) : AccountMpt :=
  (((accounts.delete addr).2.writesOn between).2.put addr account).2

omit [Blake3] in
/-- An account returns to its map: with the other entries as they were, the map is the same. -/
theorem insert_eq {live : AccountTrie} (present : entries[addr]? = some account)
    (unchanged : ∀ other, other ≠ addr → live[other]? = entries[other]?) :
    live.insert addr account = entries := by
  apply Std.ExtTreeMap.ext_getElem?
  intro other
  rw [Map.get?_insert]
  split
  · rename_i same
    rw [same,present]
  · rename_i different
    exact unchanged other different

/-- An unpaid account leaves, and its record brings it back after any writes to other addresses. Where
these have changed nothing, the root is the one it left. -/
theorem expire_reactivate (writes between : List (Write Address Account)) (addr : Address)
    (account : Account) (rentDue prepaid : U64)
    (safe : NoCollision (roundTrip (ofWrites writes) addr account between).trie.nodes)
    (present : (ofWrites writes).get addr = some (some account)) (unpaid : prepaid < rentDue)
    (others : ∀ write ∈ between, target write ≠ addr) :
    ∃ record after live, expire (ofWrites writes) addr rentDue prepaid = some (.ok record,after) ∧
      Left addr (ofWrites writes) after ∧ after.writesOn between = (some (),live) ∧
      ∃ exclusion final, proveExclusion live.trie (accountKey addr) = some exclusion ∧
        reactivate live record exclusion = some (.ok account,final) ∧
        Returned addr account live final ∧
        ((∀ other, other ≠ addr → live.get other = (ofWrites writes).get other) →
          final.root = (ofWrites writes).root) := by
  -- each trie of the round trip is safe because the last one is
  have safeLive := safe_put safe
  have safeAfter := safe_writesOn safeLive
  have safeBefore := safe_delete safeAfter
  have held := holds_ofWrites writes safeBefore
  rw [held.get safeBefore,Option.some_inj] at present
  obtain ⟨record,expired,rfl,encoded,carried,included⟩ := expire_present held safeAfter present unpaid
  have heldAfter := (held.delete record.address safeAfter).2
  obtain ⟨written,heldLive⟩ := heldAfter.writesOn between safeLive
  have absent : (between.foldl Write.apply
      ((writes.foldl Write.apply ∅).erase record.address))[record.address]? = none := by
    rw [get?_writes others,Map.get?_erase,if_pos rfl]
  obtain ⟨exclusion,current,returned⟩ :=
    reactivate_absent heldLive safe absent encoded carried included
  refine ⟨record,_,_,expired,.of_holds held safeAfter,Prod.ext written rfl,
    exclusion,_,current,returned,.of_holds heldLive safe,?_⟩
  intro unchanged
  have agree : ∀ other, other ≠ record.address →
      (between.foldl Write.apply ((writes.foldl Write.apply ∅).erase record.address))[other]? =
        (writes.foldl Write.apply ∅)[other]? := by
    intro other different
    have read := unchanged other different
    rwa [heldLive.get safeLive,held.get safeBefore,Option.some_inj] at read
  have heldFinal := (heldLive.put record.address account safe).2
  rw [insert_eq present agree] at heldFinal
  exact heldFinal.root_eq held

end RoundTrip

namespace Sample

attribute [local instance] blake3

def neighbour : Address := Vector.replicate 32 9

/-- The neighbour changes while the holder is away. -/
theorem holder_returns :
    ∃ record after live,
      expire (ofWrites [.put holder (account 5),.put neighbour (account 1)]) holder 3 2 =
        some (.ok record,after) ∧
      Left holder (ofWrites [.put holder (account 5),.put neighbour (account 1)]) after ∧
      after.writesOn [.delete neighbour,.put neighbour (account 1)] = (some (),live) ∧
      ∃ exclusion final, proveExclusion live.trie (accountKey holder) = some exclusion ∧
        reactivate live record exclusion = some (.ok (account 5),final) ∧
        Returned holder (account 5) live final ∧
        ((∀ other, other ≠ holder → live.get other =
            (ofWrites [.put holder (account 5),.put neighbour (account 1)]).get other) →
          final.root = (ofWrites [.put holder (account 5),.put neighbour (account 1)]).root) :=
  expire_reactivate _ _ holder (account 5) 3 2 (by unfold NoCollision; decide +kernel) (by decide +kernel)
    (by decide) (by decide)

end Sample
end Expiry
end L1
