import L1.StoredChain

/-! The index of transactions and receipts over a chain of stored blocks. Its keys are hashes of
envelopes, and an envelope names no sender. -/
namespace L1

open Codec Blocks

namespace Codec

def decodeTxLocator (buf : Bytes) : Except TypesError (Height × U32) :=
  if buf.length ≠ 12 then .error (.badLength 12 buf.length)
  else .ok (fromBeBytes 64 (slice buf 0 8),fromBeBytes 32 (slice buf 8 12))

theorem decodeTxLocator_encodeTxLocator (height : Height) (index : U32) :
    decodeTxLocator (encodeTxLocator height index) = .ok (height,index) := by
  have first : slice (encodeTxLocator height index) 0 8 = toBeBytes 8 height := by
    simp [slice,encodeTxLocator]
  have second : slice (encodeTxLocator height index) 8 12 = toBeBytes 4 index := by
    simp [slice,encodeTxLocator]
  rw [decodeTxLocator,if_neg (by simp [encodeTxLocator]),first,second,
    fromBeBytes_toBeBytes 8 height (by decide),fromBeBytes_toBeBytes 4 index (by decide)]

end Codec

namespace Index

section Lookups

variable [Blake3]

/-- A transaction by the hash of its envelope, with its height and position. -/
def getTxByHash (store : Store) (hash : Hash) :
    Except TypesError (Option (Height × U32 × SignedTx)) :=
  match store[txIndexKey hash]? with
  | none => .ok none
  | some loc => match decodeTxLocator loc with
    | .error e => .error e
    | .ok (height,index) => match getBlock store height with
      | .error e => .error e
      | .ok none => .error (.kv "tx index without block")
      | .ok (some block) => match block.txs[index.toNat]? with
        | none => .error (.kv "tx index out of range")
        | some signed =>
          if txHash signed.tx ≠ hash then .error (.kv "tx hash mismatch")
          else .ok (some (height,index,signed))

def getReceipt (store : Store) (hash : Hash) : Except TypesError (Option Bytes) :=
  .ok store[receiptKey hash]?

variable {offer : BodyOffer} {value : Bytes} {offers : List BodyOffer} {store : Store} {hash : Hash}
  {height : Height} {op : BatchOp}

theorem getTxByHash_ok_iff {index : U32} {signed : SignedTx} :
    getTxByHash store hash = .ok (some (height,index,signed)) ↔
      ∃ loc block, store[txIndexKey hash]? = some loc ∧ decodeTxLocator loc = .ok (height,index) ∧
        getBlock store height = .ok (some block) ∧ block.txs[index.toNat]? = some signed ∧
        txHash signed.tx = hash := by
  constructor
  · intro found
    unfold getTxByHash at found
    split at found
    · cases found
    rename_i loc stored
    split at found
    · cases found
    rename_i h i decoded
    split at found
    · cases found
    · cases found
    rename_i block body
    split at found
    · cases found
    rename_i s listed
    split at found
    · cases found
    · rename_i same
      cases found
      exact ⟨loc,block,stored,decoded,body,listed,not_not.mp same⟩
  · rintro ⟨loc,block,stored,decoded,body,listed,same⟩
    simp only [getTxByHash,stored,decoded,body,listed,same,ne_eq,not_true_eq_false,if_false]

def putBlocks (store : Store) (offers : List BodyOffer) : Option Store :=
  offers.foldlM (fun store offer =>
    putBlock store offer.header offer.block offer.receipts offer.appHash) store

inductive Entry (offer : BodyOffer) : StoreKey → Bytes → Prop
  | header : Entry offer (.header offer.header.fields.height) offer.header.hashPreimage
  | headerHash : Entry offer (.headerHash offer.header.hash) (toBeBytes 8 offer.header.fields.height)
  | body : Entry offer (.body offer.header.fields.height) (encodeBlockBody offer.block)
  | tx (i : Nat) (signed : SignedTx) (listed : offer.block.txs[i]? = some signed) :
      Entry offer (.tx (txHash signed.tx))
        (encodeTxLocator offer.header.fields.height (BitVec.ofNat 32 i))
  | receipt (i : Nat) (signed : SignedTx) (receipt : Bytes) (listed : offer.block.txs[i]? = some signed)
      (returned : offer.receipts[i]? = some receipt) :
      Entry offer (.receipt (txHash signed.tx)) receipt
  | app : Entry offer (.app offer.header.fields.height) offer.appHash.toList
  | tip : Entry offer .tip (toBeBytes 8 offer.header.fields.height)

theorem mem_txIndexOps {block : Block} :
    op ∈ txIndexOps height block ↔ ∃ i signed, block.txs[i]? = some signed ∧
      op = .put (StoreKey.tx (txHash signed.tx)).bytes (encodeTxLocator height (BitVec.ofNat 32 i)) := by
  simp only [txIndexOps,List.mem_map,Prod.exists,List.mem_zipIdx_iff_getElem?,StoreKey.bytes]
  constructor
  · rintro ⟨signed,i,listed,rfl⟩
    exact ⟨i,signed,listed,rfl⟩
  · rintro ⟨i,signed,listed,rfl⟩
    exact ⟨signed,i,listed,rfl⟩

theorem mem_receiptPutOps {block : Block} {encoded : List Bytes} :
    op ∈ receiptPutOps block encoded ↔ ∃ (i : Nat) (signed : SignedTx) (receipt : Bytes),
      block.txs[i]? = some signed ∧ encoded[i]? = some receipt ∧
      op = .put (StoreKey.receipt (txHash signed.tx)).bytes receipt := by
  rw [receiptPutOps,List.mem_map]
  constructor
  · rintro ⟨⟨signed,receipt⟩,paired,rfl⟩
    obtain ⟨i,at_i⟩ := List.mem_iff_getElem?.mp paired
    obtain ⟨listed,returned⟩ := List.getElem?_zip_eq_some.mp at_i
    exact ⟨i,signed,receipt,listed,returned,rfl⟩
  · rintro ⟨i,signed,receipt,listed,returned,rfl⟩
    have paired : (block.txs.zip encoded)[i]? = some (signed,receipt) :=
      List.getElem?_zip_eq_some.mpr ⟨listed,returned⟩
    exact ⟨(signed,receipt),List.mem_of_getElem? paired,rfl⟩

theorem mem_offerOps :
    op ∈ offerOps offer ↔ ∃ key value, Entry offer key value ∧ op = .put key.bytes value := by
  constructor
  · intro listed
    simp only [offerOps,putBlockOps,putHeaderOps,List.mem_append,List.mem_cons,List.not_mem_nil,
      or_false,mem_txIndexOps,mem_receiptPutOps] at listed
    obtain (rfl | rfl) | rfl | ⟨i,signed,listed,rfl⟩ | ⟨i,signed,receipt,listed,returned,rfl⟩ |
      rfl | rfl := listed
    · exact ⟨_,_,.header,rfl⟩
    · exact ⟨_,_,.headerHash,rfl⟩
    · exact ⟨_,_,.body,rfl⟩
    · exact ⟨_,_,.tx i signed listed,rfl⟩
    · exact ⟨_,_,.receipt i signed receipt listed returned,rfl⟩
    · exact ⟨_,_,.app,rfl⟩
    · exact ⟨_,_,.tip,rfl⟩
  · rintro ⟨key,value,entry,rfl⟩
    simp only [offerOps,putBlockOps,putHeaderOps,List.mem_append,List.mem_cons,List.not_mem_nil,
      or_false,mem_txIndexOps,mem_receiptPutOps]
    cases entry with
    | header => exact .inl (.inl rfl)
    | headerHash => exact .inl (.inr rfl)
    | body => exact .inr (.inl rfl)
    | tx i signed listed => exact .inr (.inr (.inl ⟨i,signed,listed,rfl⟩))
    | receipt i signed receipt listed returned =>
      exact .inr (.inr (.inr (.inl ⟨i,signed,_,listed,returned,rfl⟩)))
    | app => exact .inr (.inr (.inr (.inr (.inl rfl))))
    | tip => exact .inr (.inr (.inr (.inr (.inr rfl))))

theorem Entry.of_body (entry : Entry offer (.body height) value) :
    height = offer.header.fields.height ∧ value = encodeBlockBody offer.block := by
  cases entry
  exact ⟨rfl,rfl⟩

theorem Entry.of_tx (entry : Entry offer (.tx hash) value) :
    ∃ (i : Nat) (signed : SignedTx), offer.block.txs[i]? = some signed ∧ hash = txHash signed.tx ∧
      value = encodeTxLocator offer.header.fields.height (BitVec.ofNat 32 i) := by
  cases entry with
  | tx i signed listed => exact ⟨i,signed,listed,rfl,rfl⟩

theorem Entry.of_receipt (entry : Entry offer (.receipt hash) value) :
    ∃ (i : Nat) (signed : SignedTx), offer.block.txs[i]? = some signed ∧ hash = txHash signed.tx ∧
      offer.receipts[i]? = some value := by
  cases entry with
  | receipt i signed receipt listed returned => exact ⟨i,signed,listed,rfl,returned⟩

theorem putBlocks_eq_some {store' : Store} (done : putBlocks store offers = some store') :
    (∀ offer ∈ offers, offer.block.txs.length = offer.receipts.length) ∧
      store' = applyBatch store (offers.flatMap offerOps) := by
  induction offers generalizing store with
  | nil =>
    cases done
    exact ⟨by simp,rfl⟩
  | cons offer rest ih =>
    rw [putBlocks,List.foldlM_cons,Option.bind_eq_bind,Option.bind_eq_some_iff] at done
    obtain ⟨middle,first,later⟩ := done
    rw [putBlock] at first
    split at first
    · cases first
    rename_i covered
    cases first
    obtain ⟨others,rfl⟩ := ih later
    refine ⟨List.forall_mem_cons.mpr ⟨not_not.mp covered,others⟩,?_⟩
    rw [List.flatMap_cons,applyBatch,applyBatch,applyBatch,Batch.run_append]
    rfl

theorem get?_putBlocks {store' : Store}
    {key : StoreKey} (done : putBlocks store offers = some store')
    (member : offer ∈ offers) (entry : Entry offer key value)
    (agree : ∀ other ∈ offers, ∀ v, Entry other key v → v = value) :
    store'[key.bytes]? = some value := by
  have found : Batch.last key.bytes (offers.flatMap offerOps) = some (some value) := by
    refine Batch.last_of_agree ⟨.put key.bytes value,?_,rfl⟩ fun op listed same => ?_
    · exact List.mem_flatMap.mpr ⟨offer,member,mem_offerOps.mpr ⟨key,value,entry,rfl⟩⟩
    · obtain ⟨other,inside,put⟩ := List.mem_flatMap.mp listed
      obtain ⟨k,v,written,rfl⟩ := mem_offerOps.mp put
      obtain rfl := StoreKey.bytes_injective same
      rw [Batch.Op.left,agree other inside v written]
  rw [(putBlocks_eq_some done).2,applyBatch,Batch.get?_run,found,Option.getD_some]

def envelopes (offers : List BodyOffer) : List Bytes :=
  offers.flatMap fun offer => offer.block.txs.map fun signed => signed.tx.encode

structure Listed (offers : List BodyOffer) (offer : BodyOffer) (i : Nat) (signed : SignedTx) : Prop where
  member : offer ∈ offers
  listed : offer.block.txs[i]? = some signed

/-- Under the hash its submitter was given, every transaction is found at its place, and so is its
receipt. -/
def Indexed (store : Store) (offers : List BodyOffer) : Prop :=
  ∀ offer i signed receipt, Listed offers offer i signed → offer.receipts[i]? = some receipt →
    (∃ index : U32, index.toNat = i ∧
      getTxByHash store (txHash signed.tx) = .ok (some (offer.header.fields.height,index,signed))) ∧
    getReceipt store (txHash signed.tx) = .ok (some receipt)

/-- No two positions of the chain have an envelope in common. -/
def Apart (offers : List BodyOffer) : Prop :=
  ∀ offer other i j signed signed', Listed offers offer i signed → Listed offers other j signed' →
    signed.tx.encode = signed'.tx.encode → offer = other ∧ i = j

omit [Blake3] in
theorem Listed.envelope {i : Nat} {signed : SignedTx}
    (at_i : Listed offers offer i signed) : signed.tx.encode ∈ envelopes offers :=
  List.mem_flatMap.mpr ⟨offer,at_i.member,List.mem_map.mpr ⟨signed,List.mem_of_getElem? at_i.listed,rfl⟩⟩

omit [Blake3] in
theorem nodup_envelopes_iff (distinct : offers.Nodup) :
    (envelopes offers).Nodup ↔ Apart offers := by
  rw [envelopes,List.nodup_flatMap]
  constructor
  · rintro ⟨within,between⟩ offer other i j signed signed' at_i at_j same
    have together : offer = other := by
      by_contra different
      have symm : Std.Symm (Function.onFun List.Disjoint fun offer : BodyOffer =>
          offer.block.txs.map fun signed => signed.tx.encode) := ⟨fun _ _ apart => apart.symm⟩
      exact between.forall at_i.member at_j.member different
        (List.mem_map.mpr ⟨signed,List.mem_of_getElem? at_i.listed,rfl⟩)
        (List.mem_map.mpr ⟨signed',List.mem_of_getElem? at_j.listed,same.symm⟩)
    subst other
    refine ⟨rfl,?_⟩
    have bound : i < (offer.block.txs.map fun signed => signed.tx.encode).length := by
      rw [List.length_map]
      exact (List.getElem?_eq_some_iff.mp at_i.listed).1
    refine (List.getElem?_inj bound (within offer at_i.member)).mp ?_
    rw [List.getElem?_map,List.getElem?_map,at_i.listed,at_j.listed,Option.map_some,Option.map_some,same]
  · intro apart
    refine ⟨fun offer member => ?_,distinct.imp_of_mem ?_⟩
    · rw [List.nodup_iff_getElem?_ne_getElem?]
      intro i j less bound same
      rw [List.length_map] at bound
      rw [List.getElem?_map,List.getElem?_map,List.getElem?_eq_getElem bound,
        List.getElem?_eq_getElem (less.trans bound),Option.map_some,Option.map_some,
        Option.some.injEq] at same
      have here := apart offer offer i j _ _ ⟨member,List.getElem?_eq_getElem (less.trans bound)⟩
        ⟨member,List.getElem?_eq_getElem bound⟩ same
      exact absurd here.2 (Nat.ne_of_lt less)
    · intro offer other member member' different envelope left right
      obtain ⟨signed,inside,rfl⟩ := List.mem_map.mp left
      obtain ⟨signed',inside',same⟩ := List.mem_map.mp right
      obtain ⟨i,listed⟩ := List.mem_iff_getElem?.mp inside
      obtain ⟨j,listed'⟩ := List.mem_iff_getElem?.mp inside'
      have at_i : Listed offers offer i signed := ⟨member,listed⟩
      have at_j : Listed offers other j signed' := ⟨member',listed'⟩
      exact different (apart offer other i j signed signed' at_i at_j same.symm).1

omit [Blake3] in
theorem count_of_fits (fits : offer.BodyFits) : offer.block.txs.length < 2^32 := by
  have counted := count_le_flatMap (fun tx => chunk (encodeSignedTx tx)) (fun tx => by simp) offer.block.txs
  rw [BodyOffer.BodyFits,bodyPayload,List.length_append,List.length_append] at fits
  omega

section Chain

variable {store store' : Store} {offers : List BodyOffer} (done : putBlocks store offers = some store')
  (heights : (offers.map fun offer => offer.header.fields.height).Nodup)

include done heights

theorem getBlock_putBlocks (member : offer ∈ offers) {found : Block} :
    getBlock store' offer.header.fields.height = .ok (some found) ↔
      offer.BodyFits ∧ found = offer.block := by
  refine getBlock_stored (get?_putBlocks done member .body fun other inside v written => ?_)
  obtain ⟨same,rfl⟩ := written.of_body
  rw [List.inj_on_of_nodup_map heights inside member same.symm]

omit heights in
theorem Listed.receipt {i : Nat} {signed : SignedTx}
    (at_i : Listed offers offer i signed) : ∃ receipt, offer.receipts[i]? = some receipt := by
  have bound := (List.getElem?_eq_some_iff.mp at_i.listed).1
  rw [(putBlocks_eq_some done).1 offer at_i.member] at bound
  exact ⟨_,List.getElem?_eq_getElem bound⟩

theorem Indexed.fits (indexed : Indexed store' offers) (member : offer ∈ offers)
    (filled : offer.block.txs ≠ []) : offer.BodyFits := by
  obtain ⟨signed,rest,txs⟩ := List.exists_cons_of_ne_nil filled
  have first : Listed offers offer 0 signed := ⟨member,by rw [txs]; rfl⟩
  obtain ⟨receipt,returned⟩ := first.receipt done
  obtain ⟨⟨index,-,found⟩,-⟩ := indexed offer 0 signed receipt first returned
  obtain ⟨loc,block,-,-,body,-⟩ := getTxByHash_ok_iff.mp found
  exact ((getBlock_putBlocks done heights member).mp body).1

theorem Indexed.apart (indexed : Indexed store' offers) : Apart offers := by
  intro offer other i j signed signed' at_i at_j same
  obtain ⟨receipt,returned⟩ := at_i.receipt done
  obtain ⟨receipt',returned'⟩ := at_j.receipt done
  obtain ⟨⟨index,rfl,found⟩,-⟩ := indexed offer i signed receipt at_i returned
  obtain ⟨⟨index',rfl,found'⟩,-⟩ := indexed other j signed' receipt' at_j returned'
  have hash : txHash signed.tx = txHash signed'.tx := by rw [txHash,txHash,same]
  rw [hash,found'] at found
  simp only [Except.ok.injEq,Option.some.injEq,Prod.mk.injEq] at found
  obtain ⟨height,position,-⟩ := found
  exact ⟨(List.inj_on_of_nodup_map heights at_j.member at_i.member height).symm,by rw [position]⟩

theorem indexed_of_apart (injective : Set.InjOn hashToArray {envelope | envelope ∈ envelopes offers})
    (apart : Apart offers) (fits : ∀ offer ∈ offers, offer.block.txs ≠ [] → offer.BodyFits) :
    Indexed store' offers := by
  intro offer i signed receipt at_i returned
  -- what another position writes under these keys is written by this very position
  have alone : ∀ other ∈ offers, ∀ (j : Nat) (s : SignedTx), other.block.txs[j]? = some s →
      txHash signed.tx = txHash s.tx → offer = other ∧ i = j := by
    intro other inside j s listed same
    have at_j : Listed offers other j s := ⟨inside,listed⟩
    exact apart offer other i j signed s at_i at_j (injective at_i.envelope at_j.envelope same)
  have fit : offer.BodyFits := fits offer at_i.member (List.ne_nil_of_mem (List.mem_of_getElem? at_i.listed))
  have small : (BitVec.ofNat 32 i).toNat = i := by
    have bound := (List.getElem?_eq_some_iff.mp at_i.listed).1
    exact Nat.mod_eq_of_lt (bound.trans (count_of_fits fit))
  have located := get?_putBlocks done at_i.member (.tx i signed at_i.listed)
    fun other inside v written => by
      obtain ⟨j,s,listed,same,rfl⟩ := written.of_tx
      obtain ⟨rfl,rfl⟩ := alone other inside j s listed same
      rfl
  have kept := get?_putBlocks done at_i.member (.receipt i signed receipt at_i.listed returned)
    fun other inside v written => by
      obtain ⟨j,s,listed,same,returned'⟩ := written.of_receipt
      obtain ⟨rfl,rfl⟩ := alone other inside j s listed same
      exact Option.some.inj (returned'.symm.trans returned)
  refine ⟨⟨BitVec.ofNat 32 i,small,getTxByHash_ok_iff.mpr ⟨_,offer.block,located,?_,?_,?_,rfl⟩⟩,?_⟩
  · exact decodeTxLocator_encodeTxLocator _ _
  · exact (getBlock_putBlocks done heights at_i.member).mpr ⟨fit,rfl⟩
  · rw [small]
    exact at_i.listed
  · exact congrArg Except.ok kept

end Chain

/-- The lookups work exactly if no envelope occurs twice and the bodies can be read back. -/
theorem lookups_iff (store store' : Store) (offers : List BodyOffer)
    (done : putBlocks store offers = some store')
    (heights : (offers.map fun offer => offer.header.fields.height).Nodup)
    (injective : Set.InjOn hashToArray {envelope | envelope ∈ envelopes offers}) :
    Indexed store' offers ↔
      (envelopes offers).Nodup ∧ ∀ offer ∈ offers, offer.block.txs ≠ [] → offer.BodyFits := by
  rw [nodup_envelopes_iff heights.of_map]
  constructor
  · intro indexed
    exact ⟨indexed.apart done heights,fun offer member => indexed.fits done heights member⟩
  · rintro ⟨apart,fits⟩
    exact indexed_of_apart done heights injective apart fits

end Lookups

namespace Sample

@[reducible] def blake3 : Blake3 := ⟨fun bytes => fixed 32 bytes⟩

attribute [local instance] blake3

def payment (sender : UInt8) : SignedTx :=
  ⟨⟨1,0,21000,1,.transfer ⟨Vector.replicate 32 9,1⟩⟩,Vector.replicate 64 sender,
    Vector.replicate 32 sender⟩

def zero : Hash := Vector.replicate 32 0

def fields : HeaderFields := ⟨0,0,Vector.replicate 48 0,0⟩

def offer (txs : List SignedTx) (receipts : List Bytes) : BodyOffer :=
  ⟨⟨fields,zero,zero,zero,zero,zero⟩,⟨fields,txs⟩,receipts,zero⟩

def stored (txs : List SignedTx) (receipts : List Bytes) : Store :=
  applyBatch ∅ (offerOps (offer txs receipts))

theorem one_envelope {n : Nat} {offers : List BodyOffer}
    (same : envelopes offers = List.replicate n (payment 1).tx.encode) :
    Set.InjOn hashToArray {envelope | envelope ∈ envelopes offers} := by
  intro a left b right _
  have first : a ∈ List.replicate n (payment 1).tx.encode := same ▸ left
  have second : b ∈ List.replicate n (payment 1).tx.encode := same ▸ right
  rw [List.eq_of_mem_replicate first,List.eq_of_mem_replicate second]

/-- A payment that is alone in the chain is found. -/
theorem lone_payment_found :
    putBlocks ∅ [offer [payment 1] [[1]]] = some (stored [payment 1] [[1]]) ∧
    Indexed (stored [payment 1] [[1]]) [offer [payment 1] [[1]]] := by
  have done : putBlocks ∅ [offer [payment 1] [[1]]] = some (stored [payment 1] [[1]]) := rfl
  refine ⟨done,(lookups_iff _ _ _ done (by decide) (one_envelope (n := 1) rfl)).mpr ⟨?_,?_⟩⟩
  · decide +kernel
  · intro other member _
    rw [List.mem_singleton.mp member]
    exact (by decide +kernel : (bodyPayload (offer [payment 1] [[1]]).block).length < 2^32)

/-- Two senders make the same payment. Who asks for the first is given the second, with its
receipt. -/
theorem second_sender_found :
    putBlocks ∅ [offer [payment 1,payment 2] [[1],[0]]] = some (stored [payment 1,payment 2] [[1],[0]]) ∧
    Set.InjOn hashToArray {envelope | envelope ∈ envelopes [offer [payment 1,payment 2] [[1],[0]]]} ∧
    getTxByHash (stored [payment 1,payment 2] [[1],[0]]) (txHash (payment 1).tx) =
      .ok (some (0,1,payment 2)) ∧
    getReceipt (stored [payment 1,payment 2] [[1],[0]]) (txHash (payment 1).tx) = .ok (some [0]) := by
  refine ⟨rfl,one_envelope (n := 2) rfl,?_,?_⟩
  · decide +kernel
  · decide +kernel

end Sample
end Index
end L1
