import L1.MptProof
import L1.Tries

/-! The account trie over its nodes. In execution the map of accounts stands for it; here it is the
structure that proofs are made of, and the map is what it holds. -/
namespace L1

/-- `AccountTrie` of the source. -/
structure AccountMpt where
  trie : Mpt.Trie

namespace AccountMpt

open TrieMap

def accountKey (addr : Address) : Bytes := addr.toList

section Operations

variable [Blake3]

def new : AccountMpt := ⟨.new⟩

/-- `none` is a panic of the trie below. -/
def put (accounts : AccountMpt) (addr : Address) (account : Account) : Option Unit × AccountMpt :=
  let result := accounts.trie.put (accountKey addr) account.encode
  (result.1,⟨result.2⟩)

def get (accounts : AccountMpt) (addr : Address) : Option (Option Account) :=
  match accounts.trie.get (accountKey addr) with
  | none => none
  | some none => some none
  | some (some bytes) => match Account.decode bytes with
    | .error _ => some none
    | .ok account => some (some account)

def delete (accounts : AccountMpt) (addr : Address) : Option Unit × AccountMpt :=
  let result := accounts.trie.delete (accountKey addr)
  (result.1,⟨result.2⟩)

def root (accounts : AccountMpt) : Hash := accounts.trie.root

def ofWrites (writes : List (Write Address Account)) : AccountMpt :=
  ⟨(Mpt.run .new (writes.map (Write.op accountKey Account.encode))).2⟩

def writesOn (accounts : AccountMpt) (writes : List (Write Address Account)) : Option Unit × AccountMpt :=
  let result := Mpt.run accounts.trie (writes.map (Write.op accountKey Account.encode))
  (result.1,⟨result.2⟩)

end Operations

theorem accountKey_injective : Function.Injective accountKey := fun _ _ => toList_injective

theorem fits_op (write : Write Address Account) : (write.op accountKey Account.encode).Fits := by
  cases write with
  | put addr account => simp [Write.op,Mpt.Op.Fits,accountKey,Account.encode,Account.length_payload,
      Encoding.length_encode]
  | delete addr => exact trivial

section Contents

variable [Blake3]

/-- The trie commits to the accounts of a map and to nothing else. -/
def Holds (accounts : AccountMpt) (entries : AccountTrie) : Prop :=
  ∃ tree, Mpt.Commits accounts.trie tree (image accountKey Account.encode entries)

variable {accounts : AccountMpt} {entries : AccountTrie}

theorem holds_new : (new : AccountMpt).Holds ∅ :=
  ⟨_,(image_empty accountKey Account.encode).symm ▸ Mpt.commits_new⟩

theorem Holds.writesOn (held : accounts.Holds entries) (writes : List (Write Address Account))
    (safe : Mpt.NoCollision (accounts.writesOn writes).2.trie.nodes) :
    (accounts.writesOn writes).1 = some () ∧
      (accounts.writesOn writes).2.Holds (writes.foldl Write.apply entries) := by
  obtain ⟨tree,commits⟩ := held
  have fits : ∀ op ∈ writes.map (Write.op accountKey Account.encode), op.Fits := by
    intro op member
    obtain ⟨write,-,rfl⟩ := List.mem_map.mp member
    exact fits_op write
  obtain ⟨returned,tree',next⟩ := commits.run _ fits safe
  rw [image_writes _ _ accountKey_injective] at next
  exact ⟨returned,tree',next⟩

theorem holds_ofWrites (writes : List (Write Address Account))
    (safe : Mpt.NoCollision (ofWrites writes).trie.nodes) :
    (ofWrites writes).Holds (writes.foldl Write.apply ∅) :=
  (holds_new.writesOn writes safe).2

theorem Holds.apply (held : accounts.Holds entries) (write : Write Address Account)
    (safe : Mpt.NoCollision (accounts.trie.apply (write.op accountKey Account.encode)).2.nodes) :
    (accounts.trie.apply (write.op accountKey Account.encode)).1 = some () ∧
      Holds ⟨(accounts.trie.apply (write.op accountKey Account.encode)).2⟩ (write.apply entries) := by
  obtain ⟨tree,commits⟩ := held
  obtain ⟨done,tree',next⟩ := commits.apply _ (fits_op write) safe
  rw [← image_apply _ _ accountKey_injective] at next
  exact ⟨done,tree',next⟩

theorem Holds.put (held : accounts.Holds entries) (addr : Address) (account : Account)
    (safe : Mpt.NoCollision (accounts.put addr account).2.trie.nodes) :
    (accounts.put addr account).1 = some () ∧
      (accounts.put addr account).2.Holds (entries.insert addr account) :=
  held.apply (.put addr account) safe

theorem Holds.delete (held : accounts.Holds entries) (addr : Address)
    (safe : Mpt.NoCollision (accounts.delete addr).2.trie.nodes) :
    (accounts.delete addr).1 = some () ∧ (accounts.delete addr).2.Holds (entries.erase addr) :=
  held.apply (.delete addr) safe

theorem get_none {addr : Address} (read : accounts.trie.get (accountKey addr) = some none) :
    accounts.get addr = some none := by
  simp only [get,read]

theorem get_some {addr : Address} {bytes : Bytes} {account : Account}
    (read : accounts.trie.get (accountKey addr) = some (some bytes))
    (decoded : Account.decode bytes = .ok account) : accounts.get addr = some (some account) := by
  simp only [get,read,decoded]

theorem Holds.get (held : accounts.Holds entries) (safe : Mpt.NoCollision accounts.trie.nodes)
    (addr : Address) : accounts.get addr = some entries[addr]? := by
  obtain ⟨tree,commits⟩ := held
  have read := commits.get safe (accountKey addr)
  rw [image_key _ _ accountKey_injective] at read
  cases present : entries[addr]? with
  | none =>
    rw [present] at read
    exact get_none read
  | some account =>
    rw [present] at read
    exact get_some read account.decode_encode

/-- No proof that verifies carries anything but the account that the trie holds. -/
theorem Holds.verify (held : accounts.Holds entries) (addr : Address) (proof : Mpt.MptProof)
    (safe : Mpt.NoCollision (accounts.trie.nodes ++ Mpt.proofTable proof.nodes))
    (accepted : Mpt.verify (accountKey addr) proof accounts.root = true) :
    proof.value = entries[addr]?.map Account.encode := by
  obtain ⟨tree,commits⟩ := held
  rw [Mpt.verify_sound commits _ proof safe accepted,image_key _ _ accountKey_injective]

theorem Holds.prove (held : accounts.Holds entries) (safe : Mpt.NoCollision accounts.trie.nodes)
    (addr : Address) : ∃ proof, Mpt.prove accounts.trie (accountKey addr) = some proof ∧
      Mpt.verify (accountKey addr) proof accounts.root = true ∧
      proof.value = entries[addr]?.map Account.encode := by
  obtain ⟨tree,commits⟩ := held
  have proved := Mpt.prove_complete commits safe (accountKey addr)
  rw [image_key _ _ accountKey_injective] at proved
  exact proved

end Contents
end AccountMpt
end L1
