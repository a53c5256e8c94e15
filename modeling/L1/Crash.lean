import L1.Conservation
import L1.StoredChain

/-! A crash between the single writes of a commit, and what recovery makes of it. -/
namespace L1.Wal

open Codec Blocks Replay

section Crashes

variable [Blake3]

def commitOps (offer : BodyOffer) : List BatchOp := writeWalOps offer ++ (offerOps offer ++ clearWalOps)

def survivor (store : Store) (offer : BodyOffer) (k : Nat) : Store :=
  applyBatch store ((commitOps offer).take k)

def WalFits (offer : BodyOffer) : Prop := (walPayload offer).length < 2^32

def initOps (offer : BodyOffer) : List BatchOp :=
  putHeaderOps offer.header ++ .put (blockKey offer.header.fields.height) (encodeBlockBody offer.block) ::
    (txIndexOps offer.header.fields.height offer.block ++ (receiptPutOps offer.block offer.receipts ++
      [.put (appHashKey offer.header.fields.height) offer.appHash.toList]))

theorem offerOps_eq (offer : BodyOffer) :
    offerOps offer = initOps offer ++ [.put keyTip (toBeBytes 8 offer.header.fields.height)] := by
  simp only [offerOps,putBlockOps,initOps,List.append_assoc,List.cons_append,List.nil_append]

variable {offer : BodyOffer} {store : Store} {n : Nat}

theorem key_initOps {op : BatchOp} (listed : op ∈ initOps offer) :
    ∃ key : StoreKey, op.key = key.bytes ∧ (Secondary key ∨ key = .header offer.header.fields.height ∨
      key = .body offer.header.fields.height ∨ key = .app offer.header.fields.height) := by
  simp only [initOps,putHeaderOps,List.mem_append,List.mem_cons,List.not_mem_nil,or_false] at listed
  rcases listed with (rfl | rfl) | rfl | indexed | received | rfl
  · exact ⟨.header _,rfl,.inr (.inl rfl)⟩
  · exact ⟨.headerHash _,rfl,.inl trivial⟩
  · exact ⟨.body _,rfl,.inr (.inr (.inl rfl))⟩
  · obtain ⟨hash,named⟩ := key_txIndexOps indexed
    exact ⟨.tx hash,named,.inl trivial⟩
  · obtain ⟨hash,named⟩ := key_receiptPutOps received
    exact ⟨.receipt hash,named,.inl trivial⟩
  · exact ⟨.app _,rfl,.inr (.inr (.inr rfl))⟩

theorem offerOps_ne_wal : ∀ op ∈ offerOps offer, op.key ≠ keyWal := by
  intro op listed same
  rw [offerOps_eq,List.mem_append] at listed
  rcases listed with early | last
  · obtain ⟨key,named,kind⟩ := key_initOps early
    obtain rfl : key = .wal := StoreKey.bytes_injective (named.symm.trans same)
    rcases kind with second | same | same | same
    · exact second
    · cases same
    · cases same
    · cases same
  · cases List.mem_singleton.mp last
    cases StoreKey.bytes_injective (a := .tip) (b := .wal) same

/-- Before the tip moves, the writes of the next block leave the stored chain alone. -/
theorem initOps_ne (next : offer.header.fields.height.toNat = n)
    {key : StoreKey} (rests : Keeps.Rests n key) : ∀ op ∈ initOps offer, op.key ≠ key.bytes := by
  intro op listed same
  obtain ⟨other,named,kind⟩ := key_initOps listed
  obtain rfl : other = key := StoreKey.bytes_injective (named.symm.trans same)
  rcases kind with second | rfl | rfl | rfl
  · cases other <;> first | exact rests | exact second
  all_goals
    have below : offer.header.fields.height.toNat < n := rests
    omega

omit [Blake3] in
theorem WalFits.body (fits : WalFits offer) : offer.BodyFits := by
  unfold WalFits walPayload at fits
  simp only [List.length_append,length_chunk,encodeBlockBody,Encoding.length_encode] at fits
  unfold BodyOffer.BodyFits
  omega

/-! The stores that a crash can leave. -/

theorem length_commitOps (offer : BodyOffer) :
    (commitOps offer).length = (offerOps offer).length + 2 := by
  simp [commitOps,writeWalOps,clearWalOps]

/-- The store with the record, and the first writes of the block. -/
def logged (store : Store) (offer : BodyOffer) (n : Nat) : Store :=
  applyBatch (store.insert keyWal (encodeWal offer)) ((offerOps offer).take n)

theorem survivor_zero (store : Store) (offer : BodyOffer) : survivor store offer 0 = store := rfl

theorem survivor_succ (store : Store) (offer : BodyOffer)
    (within : n ≤ (offerOps offer).length) : survivor store offer (n + 1) = logged store offer n := by
  rw [survivor,commitOps,writeWalOps,List.cons_append,List.nil_append,List.take_succ_cons,
    List.take_append_of_le_length within]
  rfl

theorem clearWal_logged (empty : store[keyWal]? = none) (offer : BodyOffer) (n : Nat) :
    clearWal (logged store offer n) = applyBatch store ((offerOps offer).take n) := by
  have other : ∀ op ∈ (offerOps offer).take n, op.key ≠ keyWal :=
    fun op listed => offerOps_ne_wal op (List.mem_of_mem_take listed)
  have erased := Batch.erase_run (store.insert keyWal (encodeWal offer)) other
  rw [Map.erase_insert,Map.erase_absent _ _ empty] at erased
  exact erased

theorem survivor_all (empty : store[keyWal]? = none) (offer : BodyOffer) :
    survivor store offer (commitOps offer).length = applyBatch store (offerOps offer) := by
  have cleared := clearWal_logged empty offer (offerOps offer).length
  rw [List.take_length] at cleared
  rw [survivor,List.take_length,← cleared,logged,List.take_length,commitOps,applyBatch,
    Batch.run_append,Batch.run_append]
  rfl

theorem wal_logged (store : Store) (offer : BodyOffer) (n : Nat) :
    (logged store offer n)[keyWal]? = some (encodeWal offer) := by
  rw [logged,applyBatch,Batch.get?_run_other _ _
    (fun op listed => offerOps_ne_wal op (List.mem_of_mem_take listed)),Map.get?_insert,if_pos rfl]

theorem get?_logged {m : Nat}
    (next : offer.header.fields.height.toNat = m) (early : n < (offerOps offer).length)
    {key : StoreKey} (rests : Keeps.Rests m key) :
    (logged store offer n)[key.bytes]? = store[key.bytes]? := by
  have part : (offerOps offer).take n = (initOps offer).take n := by
    rw [offerOps_eq] at early ⊢
    rw [List.length_append,List.length_singleton] at early
    exact List.take_append_of_le_length (by omega)
  have other : key.bytes ≠ keyWal := by
    intro same
    obtain rfl : key = .wal := StoreKey.bytes_injective same
    exact rests
  rw [logged,applyBatch,part,Batch.get?_run_other _ _
    (fun op listed => initOps_ne next rests op (List.mem_of_mem_take listed)),Map.get?_insert,
    if_neg other]

/-- Redoing the block over the first writes of it, and dropping the record, is the commit. -/
theorem finish_logged (empty : store[keyWal]? = none) (offer : BodyOffer) (n : Nat) :
    clearWal (applyBatch (logged store offer n) (offerOps offer)) =
      applyBatch store (offerOps offer) := by
  rw [logged,applyBatch,applyBatch,Batch.run_redo _ (List.take_prefix n _)]
  have cleared := clearWal_logged empty offer (offerOps offer).length
  rw [logged,List.take_length] at cleared
  exact cleared

section Recovery

variable {W R : Type} (apply : W → Block → Option (W × List R × Hash)) {g : Genesis} {store : Store}
  {world : W}

theorem replayed_ok_iff {store' : Store} {world' : W} :
    replayed apply store g world = some (.ok world',store') ↔
      store' = store ∧ ∃ app, replayFromGenesis apply store g world = some (.ok (world',app)) := by
  unfold replayed
  split
  · rename_i failed
    simp [failed]
  · rename_i failed
    simp [failed]
  · rename_i done app ran
    simp only [ran,Option.some.injEq,Prod.mk.injEq,Except.ok.injEq,eq_comm (a := store')]
    exact ⟨fun both => ⟨both.2,app,both.1,rfl⟩,fun both => ⟨both.2.choose_spec.1,both.1⟩⟩

theorem recover_idle (none : store[keyWal]? = none) :
    recover apply store g world = replayed apply store g world := by
  simp only [recover,none]

variable {bytes : Bytes} {offer : BodyOffer} (log : store[keyWal]? = some bytes)

include log

theorem recover_corrupt {e : WalError} (failed : decodeWal bytes = .error e) :
    recover apply store g world = some (.error e,store) := by
  simp only [recover,log,failed]

theorem recover_found (read : decodeWal bytes = .ok offer) {block : Block}
    (found : getBlock store offer.header.fields.height = .ok (some block)) :
    recover apply store g world = replayed apply (clearWal store) g world := by
  simp only [recover,log,read,found]

theorem recover_unread (read : decodeWal bytes = .ok offer) {e : TypesError}
    (failed : getBlock store offer.header.fields.height = .error e) :
    recover apply store g world = some (.error (.store e),store) := by
  simp only [recover,log,read,failed]

/-- Where the body is missing, recovery finishes the commit if the chain before it replays. -/
theorem recover_missing_iff (read : decodeWal bytes = .ok offer)
    (missing : getBlock store offer.header.fields.height = .ok none)
    (receipts : offer.block.txs.length = offer.receipts.length) {store' : Store} {after : W} :
    recover apply store g world = some (.ok after,store') ↔
      store' = clearWal (applyBatch store (offerOps offer)) ∧
      ∃ before app rs, replayFromGenesis apply store g world = some (.ok (before,app)) ∧
        apply before offer.block = some (after,rs,offer.appHash) := by
  have stored : putBlock store offer.header offer.block offer.receipts offer.appHash =
      some (applyBatch store (offerOps offer)) := by
    rw [putBlock,if_neg (not_not.mpr receipts)]
    rfl
  simp only [recover,log,read,missing,stored]
  constructor
  · intro done
    split at done
    · cases done
    · cases done
    rename_i before app ran
    split at done
    · cases done
    rename_i post rs got applied
    split at done
    · cases done
    · rename_i same
      obtain rfl := not_not.mp same
      cases done
      exact ⟨rfl,before,app,rs,ran,applied⟩
  · rintro ⟨rfl,before,app,rs,ran,applied⟩
    simp only [ran,applied,ne_eq,not_true_eq_false,if_false]

end Recovery

/-- A block that extends a stored chain, with the worlds before and after it. -/
structure Extends {W R : Type} (apply : W → Block → Option (W × List R × Hash)) (g : Genesis)
    (origin : W) (store : Store) (chain : List BodyOffer) (offer : BodyOffer) (before after : W) :
    Prop where
  kept : Keeps g store chain
  empty : store[keyWal]? = none
  executed : ∃ app, execute apply origin g.hash (chain.map BodyOffer.step) = some (before,app)
  height : offer.header.fields.height.toNat = chain.length
  receipts : offer.block.txs.length = offer.receipts.length
  applied : ∃ rs, apply before offer.block = some (after,rs,offer.appHash)

namespace Extends

variable {W R : Type} {apply : W → Block → Option (W × List R × Hash)} {g : Genesis} {origin : W}
  {store : Store} {chain : List BodyOffer} {offer : BodyOffer} {before after : W}
  (next : Extends apply g origin store chain offer before after)

include next

theorem committed : Keeps g (applyBatch store (offerOps offer)) (chain ++ [offer]) :=
  next.kept.put next.height

theorem wal_committed : (applyBatch store (offerOps offer))[keyWal]? = none :=
  (get?_wal store offer).trans next.empty

theorem execute_all : ∃ app, execute apply origin g.hash ((chain ++ [offer]).map BodyOffer.step) =
    some (after,app) := by
  obtain ⟨app,ran⟩ := next.executed
  obtain ⟨rs,applied⟩ := next.applied
  refine ⟨offer.appHash,?_⟩
  rw [List.map_append,execute_append,ran,Option.bind_some,List.map_singleton,BodyOffer.step]
  simp only [execute,applied,if_true]

theorem replay_before {store' : Store} (kept : Keeps g store' chain) {world : W} :
    (∃ app, replayFromGenesis apply store' g origin = some (.ok (world,app))) ↔
      (∀ o ∈ chain, o.BodyFits) ∧ world = before := by
  have short : chain.length < 2^64 := next.height ▸ offer.header.fields.height.isLt
  obtain ⟨app,ran⟩ := next.executed
  simp only [kept.replay_ok_iff,short,ran,true_and,Option.some.injEq,Prod.mk.injEq]
  exact ⟨fun ⟨_,fits,same,_⟩ => ⟨fits,same.symm⟩,fun ⟨fits,same⟩ => ⟨app,fits,same.symm,rfl⟩⟩

theorem replay_after : (∃ app, replayFromGenesis apply (applyBatch store (offerOps offer)) g origin =
    some (.ok (after,app))) ↔
      (∀ o ∈ chain, o.BodyFits) ∧ offer.BodyFits ∧ chain.length + 1 < 2^64 := by
  obtain ⟨app,ran⟩ := next.execute_all
  simp only [next.committed.replay_ok_iff,ran,List.length_append,List.length_singleton,
    List.forall_mem_append,List.forall_mem_singleton]
  exact ⟨fun ⟨_,⟨old,new⟩,short,_⟩ => ⟨old,new,short⟩,fun ⟨old,new,short⟩ => ⟨app,⟨old,new⟩,short,rfl⟩⟩

theorem kept_logged (early : n < (offerOps offer).length) : Keeps g (logged store offer n) chain :=
  next.kept.transfer fun _ rests => get?_logged next.height early rests

theorem tip_logged (early : n < (offerOps offer).length) :
    clearWal (logged store offer n) ≠ applyBatch store (offerOps offer) := by
  intro same
  have tip : (clearWal (logged store offer n))[keyTip]? =
      (applyBatch store (offerOps offer))[keyTip]? := by rw [same]
  have other : ∀ op ∈ clearWalOps, op.key ≠ keyTip := by
    intro op listed
    cases List.mem_singleton.mp listed
    intro same
    cases StoreKey.bytes_injective (a := .wal) (b := .tip) same
  rw [clearWal,applyBatch,Batch.get?_run_other _ _ other,(next.kept_logged early).tip,get?_tip] at tip
  have height := next.height
  cases count : chain.length with
  | zero =>
    rw [count] at tip
    cases tip
  | succ m =>
    rw [count,tipOf,Option.some.injEq] at tip
    have same := toBeBytes_injective 8 (by decide) tip
    rw [← same,BitVec.toNat_ofNat,count] at height
    omega

omit next in
theorem body_full : (logged store offer (offerOps offer).length)[blockKey offer.header.fields.height]? =
    some (encodeBlockBody offer.block) := by
  rw [logged,List.take_length,get?_body,if_pos rfl]

/-- What recovery is to give after so many writes of the commit. -/
def Recovered (store : Store) (offer : BodyOffer) (before after : W) (k : Nat) :
    Except WalError W × Store :=
  if k = 0 then (.ok before,store) else (.ok after,applyBatch store (offerOps offer))

end Extends

/-- When recovery can do it: every body it reads and the record fit their length fields, and
the store it finds does not have the body of the block without the tip. -/
def Recoverable (store : Store) (chain : List BodyOffer) (offer : BodyOffer) (k : Nat) : Prop :=
  (∀ o ∈ chain, o.BodyFits) ∧
  (k = 0 ∨
    k = (commitOps offer).length ∧ offer.BodyFits ∧ chain.length + 1 < 2^64 ∨
    k < (commitOps offer).length ∧ WalFits offer ∧
      ((survivor store offer k)[blockKey offer.header.fields.height]? = none ∨
        k + 1 = (commitOps offer).length ∧ chain.length + 1 < 2^64))

namespace Extends

variable {W R : Type} {apply : W → Block → Option (W × List R × Hash)} {g : Genesis} {origin : W}
  {store : Store} {chain : List BodyOffer} {offer : BodyOffer} {before after : W}
  (next : Extends apply g origin store chain offer before after)

include next

theorem recover_zero : recover apply (survivor store offer 0) g origin = some (.ok before,store) ↔
    ∀ o ∈ chain, o.BodyFits := by
  rw [survivor_zero,recover_idle apply next.empty,replayed_ok_iff,next.replay_before next.kept]
  simp

theorem recover_all : recover apply (survivor store offer (commitOps offer).length) g origin =
    some (.ok after,applyBatch store (offerOps offer)) ↔
      (∀ o ∈ chain, o.BodyFits) ∧ offer.BodyFits ∧ chain.length + 1 < 2^64 := by
  rw [survivor_all next.empty,recover_idle apply next.wal_committed,replayed_ok_iff,next.replay_after]
  simp

theorem recover_full (fits : WalFits offer) :
    recover apply (logged store offer (offerOps offer).length) g origin =
      some (.ok after,applyBatch store (offerOps offer)) ↔
        (∀ o ∈ chain, o.BodyFits) ∧ chain.length + 1 < 2^64 := by
  have found : getBlock (logged store offer (offerOps offer).length) offer.header.fields.height =
      .ok (some offer.block) := (getBlock_stored body_full).mpr ⟨fits.body,rfl⟩
  have cleared := clearWal_logged next.empty offer (offerOps offer).length
  rw [List.take_length] at cleared
  rw [recover_found apply (wal_logged ..) (decodeWal_encodeWal offer fits) found,cleared,
    replayed_ok_iff,next.replay_after]
  simp [fits.body]

/-- With the record and a part of the block, the body decides. -/
theorem recover_part (fits : WalFits offer) (early : n < (offerOps offer).length) :
    recover apply (logged store offer n) g origin =
      some (.ok after,applyBatch store (offerOps offer)) ↔
        (∀ o ∈ chain, o.BodyFits) ∧ (logged store offer n)[blockKey offer.header.fields.height]? = none := by
  have log := wal_logged store offer n
  have read := decodeWal_encodeWal offer fits
  cases body : getBlock (logged store offer n) offer.header.fields.height with
  | error e =>
    have there : (logged store offer n)[blockKey offer.header.fields.height]? ≠ none := by
      intro missing
      simp only [getBlock,missing] at body
      cases body
    rw [recover_unread apply log read body]
    simp [there]
  | ok found =>
    cases found with
    | some block =>
      have there : (logged store offer n)[blockKey offer.header.fields.height]? ≠ none := by
        intro missing
        simp only [getBlock,missing] at body
        cases body
      rw [recover_found apply log read body,replayed_ok_iff]
      constructor
      · rintro ⟨same,-⟩
        exact absurd same.symm (next.tip_logged early)
      · rintro ⟨-,missing⟩
        exact absurd missing there
    | none =>
      have missing : (logged store offer n)[blockKey offer.header.fields.height]? = none := by
        unfold getBlock at body
        split at body
        · assumption
        · split at body <;> cases body
      rw [recover_missing_iff apply log read body next.receipts,finish_logged next.empty]
      obtain ⟨rs,applied⟩ := next.applied
      constructor
      · rintro ⟨-,before',app,rs',ran,-⟩
        exact ⟨((next.replay_before (next.kept_logged early)).mp ⟨app,ran⟩).1,missing⟩
      · rintro ⟨bodies,-⟩
        obtain ⟨app,ran⟩ := (next.replay_before (next.kept_logged early)).mpr ⟨bodies,rfl⟩
        exact ⟨rfl,before,app,rs,ran,applied⟩

end Extends

/-- After a crash at any write of a commit, recovery ends with the new block if its record was
written and with the chain before it otherwise, if and only if the store it finds does not
have the body of the block without the tip, and lengths fit. -/
theorem recover_crash_iff [Wasm] [Ed25519] (g : Genesis) (store : Store) (chain : List BodyOffer)
    (offer : BodyOffer) (before after : World)
    (next : Extends Seq.applyBlock g (.fromGenesis g) store chain offer before after) (k : Nat)
    (within : k ≤ (commitOps offer).length) :
    Keeps g (applyBatch store (offerOps offer)) (chain ++ [offer]) ∧
    (applyBatch store (offerOps offer))[keyWal]? = none ∧
    (recover Seq.applyBlock (survivor store offer k) g (.fromGenesis g) =
      some (Extends.Recovered store offer before after k) ↔ Recoverable store chain offer k) := by
  refine ⟨next.committed,next.wal_committed,?_⟩
  unfold Recoverable Extends.Recovered
  have total := length_commitOps offer
  rcases Nat.eq_zero_or_pos k with rfl | started
  · simpa using next.recover_zero
  rw [if_neg (by omega)]
  rcases Nat.eq_or_lt_of_le within with rfl | crashed
  · rw [next.recover_all]
    simp [total]
  -- the record was written and not yet dropped
  obtain ⟨n,rfl⟩ : ∃ n, k = n + 1 := ⟨k - 1,by omega⟩
  have part : n ≤ (offerOps offer).length := by omega
  rw [survivor_succ store offer part]
  by_cases fits : WalFits offer
  · rcases Nat.eq_or_lt_of_le part with rfl | early
    · rw [next.recover_full fits,Extends.body_full]
      simp [total,fits]
    · rw [next.recover_part fits early]
      have notAll : n + 1 ≠ (commitOps offer).length := by omega
      have notLast : n + 1 + 1 ≠ (commitOps offer).length := by omega
      simp [fits,crashed,notAll,notLast]
  · obtain ⟨e,failed⟩ := decodeWal_wide fits
    rw [recover_corrupt _ (wal_logged ..) failed]
    have notAll : n + 1 ≠ (commitOps offer).length := by omega
    simp [fits,notAll]

end Crashes

namespace Sample

open Holdings.Sample

attribute [local instance] Holdings.Sample.blake3 ed25519 wasm

def payment : SignedTx := sign 1 0 1 (.transfer ⟨address 2,10⟩)

def block : Block := ⟨⟨0,0,LoneSigner.validator 1,0⟩,[payment]⟩

def origin : World := .fromGenesis genesis

def applied : World × List Receipt × Hash :=
  (Seq.applyBlock origin block).get (by decide +kernel)

def offer : BodyOffer where
  header := { LoneSigner.header with fields := block.headerFields }
  block := block
  receipts := applied.2.1.map Receipt.encode
  appHash := applied.2.2

def fresh : Store := putGenesisHash ∅ genesis

theorem first : Extends Seq.applyBlock genesis origin fresh [] offer origin applied.1 where
  kept := ⟨by decide +kernel,by decide +kernel,by simp,by simp,by simp,by simp⟩
  empty := by decide +kernel
  executed := ⟨_,rfl⟩
  height := by decide +kernel
  receipts := by decide +kernel
  applied := ⟨_,(Option.some_get _).symm⟩

/-- A crash right after the record is made good. -/
theorem recorded_block_recovered :
    recover Seq.applyBlock (survivor fresh offer 1) genesis origin =
      some (.ok applied.1,applyBatch fresh (offerOps offer)) := by
  refine (recover_crash_iff genesis fresh [] offer origin applied.1 first 1
    (by decide +kernel)).2.2.mpr ⟨by simp,.inr (.inr ⟨by decide +kernel,?_,.inl (by decide +kernel)⟩)⟩
  have fits : (walPayload offer).length < 2^32 := by decide +kernel
  exact fits

/-- The body was written and the tip was not: recovery returns the world without the payment,
and drops the record of it. -/
theorem half_written_block_lost :
    (applied.1.account (address 1)).nonce = 1 ∧
    (survivor fresh offer 4)[keyWal]? = some (encodeWal offer) ∧
    (recover Seq.applyBlock (survivor fresh offer 4) genesis origin).map (fun r =>
      (r.1.toOption.map fun world => (world.account (address 1)).nonce,r.2[keyTip]?,r.2[keyWal]?)) =
        some (some 0,none,none) := by
  refine ⟨by decide +kernel,by decide +kernel,by decide +kernel⟩

end Sample
end L1.Wal
