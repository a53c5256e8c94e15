import L1.Wal

/-! What it means that a store holds a chain, and that replay then repeats its execution. -/
namespace L1

open Codec Blocks Replay

/-! Lookups after a block is stored. The secondary indexes have keys of their own. -/
namespace Blocks

section Lookups

variable [Blake3] (store : Store) (offer : BodyOffer)

def offerOps : List BatchOp := putBlockOps offer.header offer.block offer.receipts offer.appHash

/-- What the block leaves under the keys other than the secondary indexes. -/
def written : StoreKey → Option Bytes
  | .header h => if h = offer.header.fields.height then some offer.header.hashPreimage else none
  | .body h => if h = offer.header.fields.height then some (encodeBlockBody offer.block) else none
  | .app h => if h = offer.header.fields.height then some offer.appHash.toList else none
  | .tip => some (toBeBytes 8 offer.header.fields.height)
  | _ => none

def Secondary : StoreKey → Prop
  | .headerHash _ => True
  | .tx _ => True
  | .receipt _ => True
  | _ => False

theorem key_txIndexOps {height : Height} {block : Block} {op : BatchOp}
    (listed : op ∈ txIndexOps height block) : ∃ hash, op.key = (StoreKey.tx hash).bytes := by
  obtain ⟨⟨signed,i⟩,-,rfl⟩ := List.mem_map.mp listed
  exact ⟨txHash signed.tx,rfl⟩

theorem key_receiptPutOps {block : Block} {encoded : List Bytes} {op : BatchOp}
    (listed : op ∈ receiptPutOps block encoded) : ∃ hash, op.key = (StoreKey.receipt hash).bytes := by
  obtain ⟨⟨signed,receipt⟩,-,rfl⟩ := List.mem_map.mp listed
  exact ⟨txHash signed.tx,rfl⟩

omit [Blake3] in
theorem last_cons_put (a key : StoreKey) (value : Bytes) (rest : List BatchOp) :
    Batch.last key.bytes (.put a.bytes value :: rest) =
      (Batch.last key.bytes rest).or (if a = key then some (some value) else none) := by
  simp only [Batch.last,Batch.Op.key,Batch.Op.left,StoreKey.bytes_inj]

theorem last_indexes {key : StoreKey} (primary : ¬ Secondary key) (rest : List BatchOp) :
    Batch.last key.bytes (txIndexOps offer.header.fields.height offer.block ++
      (receiptPutOps offer.block offer.receipts ++ rest)) = Batch.last key.bytes rest := by
  have noTx : Batch.last key.bytes (txIndexOps offer.header.fields.height offer.block) = none := by
    refine (Batch.last_eq_none _ _).mpr fun op listed same => ?_
    obtain ⟨hash,named⟩ := key_txIndexOps listed
    rw [← StoreKey.bytes_injective (named.symm.trans same)] at primary
    exact primary trivial
  have noReceipt : Batch.last key.bytes (receiptPutOps offer.block offer.receipts) = none := by
    refine (Batch.last_eq_none _ _).mpr fun op listed same => ?_
    obtain ⟨hash,named⟩ := key_receiptPutOps listed
    rw [← StoreKey.bytes_injective (named.symm.trans same)] at primary
    exact primary trivial
  rw [Batch.last_append,Batch.last_append,noTx,noReceipt,Option.or_none,Option.or_none]

theorem last_offerOps {key : StoreKey} (primary : ¬ Secondary key) :
    Batch.last key.bytes (offerOps offer) = (written offer key).map some := by
  have unfolded : offerOps offer =
      .put (StoreKey.header offer.header.fields.height).bytes offer.header.hashPreimage ::
      .put (StoreKey.headerHash offer.header.hash).bytes (toBeBytes 8 offer.header.fields.height) ::
      .put (StoreKey.body offer.header.fields.height).bytes (encodeBlockBody offer.block) ::
      (txIndexOps offer.header.fields.height offer.block ++
        (receiptPutOps offer.block offer.receipts ++ [
        .put (StoreKey.app offer.header.fields.height).bytes offer.appHash.toList,
        .put StoreKey.tip.bytes (toBeBytes 8 offer.header.fields.height)])) := rfl
  rw [unfolded,last_cons_put,last_cons_put,last_cons_put,last_indexes offer primary,last_cons_put,
    last_cons_put,Batch.last]
  unfold written
  generalize offer.header.hashPreimage = preimage
  generalize encodeBlockBody offer.block = body
  generalize offer.appHash.toList = app
  generalize offer.header.hash = hash
  generalize offer.header.fields.height = height
  generalize toBeBytes 8 height = bytes
  cases key with
  | header h => by_cases same : h = height <;> simp [same,@eq_comm _ height h]
  | body h => by_cases same : h = height <;> simp [same,@eq_comm _ height h]
  | app h => by_cases same : h = height <;> simp [same,@eq_comm _ height h]
  | headerHash hash => exact absurd trivial primary
  | tx hash => exact absurd trivial primary
  | receipt hash => exact absurd trivial primary
  | tip => simp
  | genesis => simp
  | wal => simp

/-- A stored block is found at its height, and the other heights stay as they were. -/
theorem get?_offerOps {k : StoreKey} (primary : ¬ Secondary k) :
    (applyBatch store (offerOps offer))[k.bytes]? = (written offer k).or store[k.bytes]? := by
  rw [applyBatch,Batch.get?_run,last_offerOps offer primary]
  cases written offer k <;> rfl

theorem get?_header (h : Height) : (applyBatch store (offerOps offer))[headerHeightKey h]? =
    if h = offer.header.fields.height then some offer.header.hashPreimage
    else store[headerHeightKey h]? := by
  have looked : (applyBatch store (offerOps offer))[headerHeightKey h]? =
      (if h = offer.header.fields.height then some offer.header.hashPreimage else none).or
        store[headerHeightKey h]? := get?_offerOps store offer (k := .header h) not_false
  rw [looked]
  by_cases same : h = offer.header.fields.height
  · rw [if_pos same,if_pos same,Option.some_or]
  · rw [if_neg same,if_neg same,Option.none_or]

theorem get?_body (h : Height) : (applyBatch store (offerOps offer))[blockKey h]? =
    if h = offer.header.fields.height then some (encodeBlockBody offer.block)
    else store[blockKey h]? := by
  have looked : (applyBatch store (offerOps offer))[blockKey h]? =
      (if h = offer.header.fields.height then some (encodeBlockBody offer.block) else none).or
        store[blockKey h]? := get?_offerOps store offer (k := .body h) not_false
  rw [looked]
  by_cases same : h = offer.header.fields.height
  · rw [if_pos same,if_pos same,Option.some_or]
  · rw [if_neg same,if_neg same,Option.none_or]

theorem get?_app (h : Height) : (applyBatch store (offerOps offer))[appHashKey h]? =
    if h = offer.header.fields.height then some offer.appHash.toList
    else store[appHashKey h]? := by
  have looked : (applyBatch store (offerOps offer))[appHashKey h]? =
      (if h = offer.header.fields.height then some offer.appHash.toList else none).or
        store[appHashKey h]? := get?_offerOps store offer (k := .app h) not_false
  rw [looked]
  by_cases same : h = offer.header.fields.height
  · rw [if_pos same,if_pos same,Option.some_or]
  · rw [if_neg same,if_neg same,Option.none_or]

theorem get?_tip : (applyBatch store (offerOps offer))[keyTip]? =
    some (toBeBytes 8 offer.header.fields.height) := get?_offerOps store offer (k := .tip) id

theorem get?_genesis : (applyBatch store (offerOps offer))[keyGenesis]? = store[keyGenesis]? :=
  get?_offerOps store offer (k := .genesis) id

theorem get?_wal : (applyBatch store (offerOps offer))[keyWal]? = store[keyWal]? :=
  get?_offerOps store offer (k := .wal) id

end Lookups
end Blocks

/-! Replay succeeds exactly where the stored bodies execute to the stored hashes. -/
namespace Replay

section Execution

variable {W R : Type} (apply : W → Block → Option (W × List R × Hash))

/-- Blocks in order, each with the application hash that is expected of it. -/
def execute : W → Hash → List (Block × Hash) → Option (W × Hash)
  | world, app, [] => some (world,app)
  | world, _, (block,expected) :: rest => match apply world block with
    | none => none
    | some (world,_,app) => if app = expected then execute world app rest else none

theorem execute_append (world : W) (app : Hash) (steps more : List (Block × Hash)) :
    execute apply world app (steps ++ more) =
      (execute apply world app steps).bind fun r => execute apply r.1 r.2 more := by
  induction steps generalizing world app with
  | nil => rfl
  | cons step rest ih =>
    rw [List.cons_append,execute,execute]
    cases apply world step.1 with
    | none => rfl
    | some r =>
      dsimp only
      split
      · exact ih ..
      · rfl

/-- The bodies and hashes that a store has from a height on. -/
def Reads (store : Store) (h : Nat) (steps : List (Block × Hash)) : Prop :=
  ∀ i block app, steps[i]? = some (block,app) →
    getBlock store (BitVec.ofNat 64 (h + i)) = .ok (some block) ∧
    getAppHash store (BitVec.ofNat 64 (h + i)) = .ok (some app)

variable {apply}

variable {store : Store} {h : Nat}

theorem reads_nil : Reads store h [] := by
  intro i block app listed
  simp at listed

theorem reads_cons {block : Block} {app : Hash} {steps : List (Block × Hash)} :
    Reads store h ((block,app) :: steps) ↔
      (getBlock store (BitVec.ofNat 64 h) = .ok (some block) ∧
        getAppHash store (BitVec.ofNat 64 h) = .ok (some app)) ∧ Reads store (h + 1) steps := by
  constructor
  · intro reads
    refine ⟨reads 0 block app rfl,fun i b a listed => ?_⟩
    have later := reads (i + 1) b a listed
    rwa [Nat.add_comm i 1,← Nat.add_assoc] at later
  · rintro ⟨first,rest⟩ i b a listed
    cases i with
    | zero =>
      cases listed
      exact first
    | succ i =>
      have later := rest i b a listed
      rwa [Nat.add_assoc,Nat.add_comm 1 i] at later

theorem replayOne_ok_iff {world : W} {r : W × Hash} : replayOne apply store h world = some (.ok r) ↔
      ∃ block, getBlock store (BitVec.ofNat 64 h) = .ok (some block) ∧
        getAppHash store (BitVec.ofNat 64 h) = .ok (some r.2) ∧
        ∃ receipts, apply world block = some (r.1,receipts,r.2) := by
  constructor
  · intro done
    unfold replayOne at done
    dsimp only at done
    split at done
    · cases done
    · cases done
    rename_i block body
    split at done
    · cases done
    · cases done
    rename_i stored app
    split at done
    · cases done
    rename_i next receipts got applied
    split at done
    · cases done
    · rename_i same
      obtain rfl := not_not.mp same
      cases done
      exact ⟨block,body,app,receipts,applied⟩
  · rintro ⟨block,body,app,receipts,applied⟩
    simp only [replayOne,body,app,applied,ne_eq,not_true_eq_false,if_false]

theorem replayBlocks_ok_iff {n : Nat} {world : W} {app : Hash} {r : W × Hash} :
    replayBlocks apply store n h world app = some (.ok r) ↔
      ∃ steps, steps.length = n ∧ Reads store h steps ∧ (n = 0 ∨ h + n < 2^64) ∧
        execute apply world app steps = some r := by
  induction n generalizing h world app with
  | zero =>
    constructor
    · intro done
      cases done
      exact ⟨[],rfl,reads_nil,.inl rfl,rfl⟩
    · rintro ⟨steps,length,-,-,ran⟩
      obtain rfl := List.length_eq_zero_iff.mp length
      cases ran
      rfl
  | succ n ih =>
    rw [replayBlocks]
    constructor
    · intro done
      split at done
      · cases done
      · cases done
      rename_i world' app' one
      obtain ⟨block,body,stored,receipts,applied⟩ := replayOne_ok_iff.mp one
      split at done
      · rename_i inside
        obtain ⟨steps,length,reads,bound,ran⟩ := ih.mp done
        refine ⟨(block,app') :: steps,by simp [length],reads_cons.mpr ⟨⟨body,stored⟩,reads⟩,
          .inr (by omega),?_⟩
        simp only [execute,applied,if_true,ran]
      · cases done
    · rintro ⟨steps,length,reads,bound,ran⟩
      match steps,length with
      | (block,expected) :: steps,length =>
        obtain ⟨⟨body,stored⟩,rest⟩ := reads_cons.mp reads
        rw [execute] at ran
        split at ran
        · cases ran
        rename_i world' receipts app' applied
        split at ran
        · rename_i same
          subst expected
          have one : replayOne apply store h world = some (.ok (world',app')) :=
            replayOne_ok_iff.mpr ⟨block,body,stored,receipts,applied⟩
          have inside : h + 1 < 2^64 := by
            rcases bound with none | bound
            · cases none
            · omega
          simp only [one,if_pos inside]
          exact ih.mpr ⟨steps,by simpa using length,rest,.inr (by omega),ran⟩
        · cases ran

variable [Blake3]

theorem replayFromGenesis_ok_iff {g : Genesis} {world : W} {r : W × Hash} :
    replayFromGenesis apply store g world = some (.ok r) ↔
      getGenesisHash store = .ok (some g.hash) ∧
      (tip store = .ok none ∧ r = (world,g.hash) ∨
        ∃ last steps, tip store = .ok (some last) ∧ steps.length = last.toNat + 1 ∧
          last.toNat + 1 < 2^64 ∧ Reads store 0 steps ∧ execute apply world g.hash steps = some r) := by
  constructor
  · intro done
    unfold replayFromGenesis at done
    split at done
    · cases done
    · cases done
    rename_i stored found
    split at done
    · cases done
    rename_i same
    obtain rfl := not_not.mp same
    refine ⟨found,?_⟩
    split at done
    · cases done
    · rename_i empty
      cases done
      exact .inl ⟨empty,rfl⟩
    · rename_i last height
      obtain ⟨steps,length,reads,bound,ran⟩ := replayBlocks_ok_iff.mp done
      exact .inr ⟨last,steps,height,length,by omega,reads,ran⟩
  · rintro ⟨found,⟨empty,rfl⟩ | ⟨last,steps,height,length,bound,reads,ran⟩⟩
    · simp only [replayFromGenesis,found,empty,ne_eq,not_true_eq_false,if_false]
    · simp only [replayFromGenesis,found,height,ne_eq,not_true_eq_false,if_false]
      exact replayBlocks_ok_iff.mpr ⟨steps,length,reads,.inr (by omega),ran⟩

end Execution
end Replay

/-! Chains that a store holds. -/
namespace Blocks

variable {store : Store} {height : Height}

theorem getBlock_stored {block found : Block}
    (stored : store[blockKey height]? = some (encodeBlockBody block)) :
    getBlock store height = .ok (some found) ↔ (bodyPayload block).length < 2^32 ∧ found = block := by
  -- the bytes are abstract here, so that nothing tries to run the codec
  have read {bytes : Bytes} {result : Except TypesError Block} (stored : store[blockKey height]? = some bytes)
      (decoded : decodeBlockBody bytes = result) :
      getBlock store height = .ok (some found) ↔ result = .ok found := by
    simp only [getBlock,stored,decoded]
    cases result <;> simp
  by_cases fits : (bodyPayload block).length < 2^32
  · rw [read stored (decodeBlockBody_encodeBlockBody block fits),Except.ok.injEq,eq_comm]
    exact ⟨fun same => ⟨fits,same⟩,And.right⟩
  · obtain ⟨e,failed⟩ := decodeBlockBody_wide fits
    rw [read stored failed]
    exact ⟨fun same => (nomatch same),fun both => absurd both.1 fits⟩

theorem getAppHash_stored {app : Hash} (stored : store[appHashKey height]? = some app.toList) :
    getAppHash store height = .ok (some app) := by
  simp only [getAppHash,stored,app.length_toList,if_true,fixed_toList]

theorem tip_stored (stored : store[keyTip]? = some (toBeBytes 8 height)) :
    tip store = .ok (some height) := by
  simp only [tip,stored,length_toBeBytes,if_true,fromBeBytes_toBeBytes 8 height (by decide)]

theorem getGenesisHash_stored {hash : Hash} (stored : store[keyGenesis]? = some hash.toList) :
    getGenesisHash store = .ok (some hash) := by
  simp only [getGenesisHash,stored,hash.length_toList,if_true,fixed_toList]

end Blocks

namespace BodyOffer

def BodyFits (offer : BodyOffer) : Prop := (bodyPayload offer.block).length < 2^32

def step (offer : BodyOffer) : Block × Hash := (offer.block,offer.appHash)

end BodyOffer

def tipOf : Nat → Option Bytes
  | 0 => none
  | n + 1 => some (toBeBytes 8 (BitVec.ofNat 64 n))

/-- The store holds the chain, each block under its height, from 0 to the tip. -/
structure Keeps [Blake3] (g : Genesis) (store : Store) (chain : List BodyOffer) : Prop where
  genesis : store[keyGenesis]? = some g.hash.toList
  tip : store[keyTip]? = tipOf chain.length
  heights : ∀ (i : Nat) (offer : BodyOffer), chain[i]? = some offer → offer.header.fields.height.toNat = i
  header : ∀ offer ∈ chain,
    store[headerHeightKey offer.header.fields.height]? = some offer.header.hashPreimage
  body : ∀ offer ∈ chain,
    store[blockKey offer.header.fields.height]? = some (encodeBlockBody offer.block)
  app : ∀ offer ∈ chain, store[appHashKey offer.header.fields.height]? = some offer.appHash.toList

namespace Keeps

variable [Blake3] {g : Genesis} {store : Store} {chain : List BodyOffer}

variable {offer : BodyOffer}

theorem height_eq (kept : Keeps g store chain) {i : Nat}
    (listed : chain[i]? = some offer) : offer.header.fields.height = BitVec.ofNat 64 i := by
  rw [← kept.heights i offer listed,BitVec.ofNat_toNat,BitVec.setWidth_eq]

theorem length_le (kept : Keeps g store chain) : chain.length ≤ 2^64 := by
  by_contra long
  obtain ⟨offer,listed⟩ : ∃ offer, chain[2^64]? = some offer :=
    ⟨_,List.getElem?_eq_getElem (by omega)⟩
  have height := kept.heights _ offer listed
  have bound := offer.header.fields.height.isLt
  omega

theorem found (kept : Keeps g store chain) {i : Nat} (listed : chain[i]? = some offer) :
    (∀ block, getBlock store (BitVec.ofNat 64 i) = .ok (some block) ↔
      offer.BodyFits ∧ block = offer.block) ∧
    getAppHash store (BitVec.ofNat 64 i) = .ok (some offer.appHash) := by
  have member := List.mem_of_getElem? listed
  rw [← kept.height_eq listed]
  exact ⟨fun block => getBlock_stored (kept.body offer member),
    getAppHash_stored (kept.app offer member)⟩

theorem reads (kept : Keeps g store chain) (fits : ∀ offer ∈ chain, offer.BodyFits) :
    Reads store 0 (chain.map BodyOffer.step) := by
  intro i block app listed
  rw [List.getElem?_map,Option.map_eq_some_iff] at listed
  obtain ⟨offer,here,same⟩ := listed
  cases same
  have both := kept.found here
  rw [Nat.zero_add]
  exact ⟨(both.1 _).mpr ⟨fits offer (List.mem_of_getElem? here),rfl⟩,both.2⟩

/-- Whatever is read from the store is the chain, and every body of it fits. -/
theorem eq_of_reads (kept : Keeps g store chain) {steps : List (Block × Hash)}
    (length : steps.length = chain.length) (read : Reads store 0 steps) :
    (∀ offer ∈ chain, offer.BodyFits) ∧ steps = chain.map BodyOffer.step := by
  have each (i : Nat) (offer : BodyOffer) (listed : chain[i]? = some offer) :
      offer.BodyFits ∧ steps[i]? = some offer.step := by
    have inside : i < steps.length := length ▸ (List.getElem?_eq_some_iff.mp listed).1
    obtain ⟨block,app,there⟩ : ∃ block app, steps[i]? = some (block,app) :=
      ⟨_,_,List.getElem?_eq_getElem inside⟩
    obtain ⟨body,hash⟩ := read i block app there
    rw [Nat.zero_add] at body hash
    have both := kept.found listed
    obtain ⟨fits,rfl⟩ := (both.1 block).mp body
    rw [both.2] at hash
    cases hash
    exact ⟨fits,there⟩
  constructor
  · intro offer member
    obtain ⟨i,listed⟩ := List.mem_iff_getElem?.mp member
    exact (each i offer listed).1
  · apply List.ext_getElem?
    intro i
    rw [List.getElem?_map]
    cases listed : chain[i]? with
    | none =>
      rw [List.getElem?_eq_none_iff] at listed
      rw [List.getElem?_eq_none_iff.mpr (length ▸ listed),Option.map_none]
    | some offer => rw [(each i offer listed).2,Option.map_some]

theorem tip_eq (kept : Keeps g store chain) : Blocks.tip store = .ok (match chain.length with
      | 0 => none
      | n + 1 => some (BitVec.ofNat 64 n)) := by
  have stored := kept.tip
  cases count : chain.length with
  | zero =>
    rw [count] at stored
    simp only [Blocks.tip,stored,tipOf]
  | succ n =>
    rw [count] at stored
    exact tip_stored stored

/-- Replay of a stored chain repeats its execution, if every body can be read and the counter
of heights does not run out. -/
theorem replay_ok_iff {W R : Type} {apply : W → Block → Option (W × List R × Hash)}
    (kept : Keeps g store chain) {world : W} {r : W × Hash} :
    replayFromGenesis apply store g world = some (.ok r) ↔
      (∀ offer ∈ chain, offer.BodyFits) ∧ chain.length < 2^64 ∧
        execute apply world g.hash (chain.map BodyOffer.step) = some r := by
  have hash := getGenesisHash_stored kept.genesis
  have height := kept.tip_eq
  have bound := kept.length_le
  rw [replayFromGenesis_ok_iff]
  cases count : chain.length with
  | zero =>
    obtain rfl := List.length_eq_zero_iff.mp count
    rw [count] at height
    constructor
    · rintro ⟨-,⟨-,rfl⟩ | ⟨last,steps,top,-⟩⟩
      · exact ⟨fun offer member => (List.not_mem_nil member).elim,by decide,rfl⟩
      · rw [height] at top
        cases top
    · rintro ⟨-,-,ran⟩
      cases ran
      exact ⟨hash,.inl ⟨height,rfl⟩⟩
  | succ n =>
    rw [count] at height bound
    have last : (BitVec.ofNat 64 n).toNat = n := by
      rw [BitVec.toNat_ofNat,Nat.mod_eq_of_lt (by omega)]
    constructor
    · rintro ⟨-,⟨empty,-⟩ | ⟨last',steps,top,length,short,read,ran⟩⟩
      · rw [height] at empty
        cases empty
      · rw [height] at top
        cases top
        rw [last] at length short
        obtain ⟨fits,rfl⟩ := kept.eq_of_reads (length.trans count.symm) read
        exact ⟨fits,short,ran⟩
    · rintro ⟨fits,short,ran⟩
      exact ⟨hash,.inr ⟨_,_,height,by rw [List.length_map,count,last],by rw [last]; exact short,
        kept.reads fits,ran⟩⟩

/-- The keys that a chain of so many blocks rests on. -/
def Rests (n : Nat) : StoreKey → Prop
  | .genesis => True
  | .tip => True
  | .header h => h.toNat < n
  | .body h => h.toNat < n
  | .app h => h.toNat < n
  | _ => False

theorem height_lt (kept : Keeps g store chain) (member : offer ∈ chain) :
    offer.header.fields.height.toNat < chain.length := by
  obtain ⟨i,listed⟩ := List.mem_iff_getElem?.mp member
  rw [kept.heights i offer listed]
  exact (List.getElem?_eq_some_iff.mp listed).1

theorem transfer (kept : Keeps g store chain) {store' : Store}
    (same : ∀ key, Rests chain.length key → store'[key.bytes]? = store[key.bytes]?) :
    Keeps g store' chain where
  genesis := (same .genesis trivial).trans kept.genesis
  tip := (same .tip trivial).trans kept.tip
  heights := kept.heights
  header offer member := (same (.header _) (kept.height_lt member)).trans (kept.header offer member)
  body offer member := (same (.body _) (kept.height_lt member)).trans (kept.body offer member)
  app offer member := (same (.app _) (kept.height_lt member)).trans (kept.app offer member)

theorem put (kept : Keeps g store chain) (next : offer.header.fields.height.toNat = chain.length) :
    Keeps g (applyBatch store (offerOps offer)) (chain ++ [offer]) := by
  have apart {other : BodyOffer} (member : other ∈ chain) :
      other.header.fields.height ≠ offer.header.fields.height := by
    intro same
    have below := kept.height_lt member
    rw [same] at below
    omega
  have top : BitVec.ofNat 64 chain.length = offer.header.fields.height := by
    rw [← next,BitVec.ofNat_toNat,BitVec.setWidth_eq]
  refine ⟨?_,?_,?_,?_,?_,?_⟩
  · rw [get?_genesis,kept.genesis]
  · rw [List.length_append,List.length_singleton,tipOf,top,get?_tip]
  · intro i other listed
    rw [List.getElem?_append] at listed
    split at listed
    · exact kept.heights i other listed
    · rename_i beyond
      cases rest : i - chain.length with
      | zero =>
        rw [rest] at listed
        cases listed
        omega
      | succ j => simp [rest] at listed
  · intro other member
    rw [get?_header]
    rcases List.mem_append.mp member with old | new
    · rw [if_neg (apart old),kept.header other old]
    · rw [List.mem_singleton.mp new,if_pos rfl]
  · intro other member
    rw [get?_body]
    rcases List.mem_append.mp member with old | new
    · rw [if_neg (apart old),kept.body other old]
    · rw [List.mem_singleton.mp new,if_pos rfl]
  · intro other member
    rw [get?_app]
    rcases List.mem_append.mp member with old | new
    · rw [if_neg (apart old),kept.app other old]
    · rw [List.mem_singleton.mp new,if_pos rfl]

end Keeps
end L1
