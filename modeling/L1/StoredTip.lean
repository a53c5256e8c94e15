import L1.FailedSync
import L1.Runs

/-! The tip of a store that blocks are put into, committed to and synced into in any order. -/
namespace L1.StoredTip

open Codec Blocks Wal Sync

section Calls

variable [Blake3]

/-- Log, store and clear the log. `crashAfterWal` stops after the log is written. The first
component is `none` for the assertion in `put_block`. -/
def commitWithWal (store : Store) (offer : BodyOffer) (crashAfterWal : Bool) : Option Unit × Store :=
  let logged := writeWal store offer
  if crashAfterWal then (some (),logged)
  else match putBlock logged offer.header offer.block offer.receipts offer.appHash with
    | none => (none,logged)
    | some stored => (some (),clearWal stored)

inductive Call where
  | put (offer : BodyOffer)
  | commit (offer : BodyOffer) (crashAfterWal : Bool)
  | sync (remoteHeaders : List Header) (bodies : List BodyOffer)

/-- The store after a call. A panic of `put_block` comes before its write, and one of `wire_sync`
comes on the scratch store. -/
def next (store : Store) : Call → Store
  | .put offer => (putBlock store offer.header offer.block offer.receipts offer.appHash).getD store
  | .commit offer crashAfterWal => (commitWithWal store offer crashAfterWal).2
  | .sync remoteHeaders bodies => match wireSync store remoteHeaders bodies with
    | none => store
    | some (_,after) => after

def offered : Call → List BodyOffer
  | .put offer => if offer.block.txs.length = offer.receipts.length then [offer] else []
  | .commit offer crashAfterWal =>
    if crashAfterWal = false ∧ offer.block.txs.length = offer.receipts.length then [offer] else []
  | .sync remoteHeaders bodies => match headersThenBodies ∅ remoteHeaders bodies with
    | some (.ok _,_) => bodies
    | _ => []

/-- What passes on the scratch store is persisted on every store. -/
theorem persistAll_of_accepted {scratch scratch' : Store} {bodies : List BodyOffer} (store : Store)
    (accepted : acceptBodies scratch bodies = some (.ok (),scratch')) :
    persistAll store bodies = some (.ok (),bodies.foldl persisted store) := by
  induction bodies generalizing scratch store with
  | nil => rfl
  | cons offer rest ih =>
    rw [acceptBodies] at accepted
    split at accepted
    · cases accepted
    rename_i passed
    split at accepted
    · cases accepted
    rename_i put
    have counted : ¬ offer.block.txs.length ≠ offer.receipts.length := by
      intro apart
      rw [putBlock,if_pos apart] at put
      cases put
    have one : persistThenBroadcast store offer = some (.ok (),persisted store offer) := by
      simp only [persistThenBroadcast,passed,putBlock,if_neg counted]
      rfl
    simp only [persistAll,one,List.foldl_cons]
    exact ih (persisted store offer) accepted

theorem wireSync_accepted (store : Store) {scratch : Store} {remoteHeaders : List Header}
    {bodies : List BodyOffer} {top : Option Height}
    (accepted : headersThenBodies ∅ remoteHeaders bodies = some (.ok top,scratch)) :
    ∃ result, wireSync store remoteHeaders bodies = some (result,bodies.foldl persisted store) := by
  have tried : ∃ before after, acceptBodies before bodies = some (.ok (),after) := by
    unfold headersThenBodies at accepted
    split at accepted
    · cases accepted
    split at accepted
    · cases accepted
    split at accepted
    · cases accepted
    · cases accepted
    rename_i tried
    exact ⟨_,_,tried⟩
  obtain ⟨before,after,tried⟩ := tried
  simp only [wireSync,accepted,persistAll_of_accepted store tried]
  split
  · exact ⟨_,rfl⟩
  · exact ⟨_,rfl⟩

/-- Stores that differ in the log at most. -/
def Agree (store store' : Store) : Prop :=
  ∀ key : StoreKey, key ≠ .wal → store[key.bytes]? = store'[key.bytes]?

omit [Blake3] in
theorem agree_writeWal (store : Store) (offer : BodyOffer) : Agree (writeWal store offer) store := by
  intro key other
  change (store.insert keyWal (encodeWal offer))[key.bytes]? = _
  rw [Map.get?_insert,if_neg]
  exact fun same => other (StoreKey.bytes_injective same)

/-- Outside of the log, a call persists what it stores and does nothing else. -/
theorem agree_next (store : Store) (call : Call) :
    Agree (next store call) ((offered call).foldl persisted store) := by
  intro key other
  cases call with
  | put offer =>
    by_cases counted : offer.block.txs.length = offer.receipts.length
    · rw [offered,if_pos counted]
      simp only [next,putBlock,counted,ne_eq,not_true_eq_false,if_false,Option.getD_some]
      exact (get?_persisted store offer other).symm
    · rw [offered,if_neg counted]
      simp only [next,putBlock,ne_eq,counted,not_false_eq_true,if_true,Option.getD_none]
      rfl
  | commit offer crashAfterWal =>
    cases crashAfterWal with
    | true => exact agree_writeWal store offer key other
    | false =>
      by_cases counted : offer.block.txs.length = offer.receipts.length
      · rw [offered,if_pos ⟨rfl,counted⟩]
        simp only [next,commitWithWal,putBlock,counted,ne_eq,not_true_eq_false,if_false]
        rfl
      · rw [offered,if_neg fun both => counted both.2]
        simp only [next,commitWithWal,putBlock,ne_eq,counted,not_false_eq_true,if_true]
        exact agree_writeWal store offer key other
  | sync remoteHeaders bodies =>
    cases tried : headersThenBodies ∅ remoteHeaders bodies with
    | none => simp only [next,offered,wireSync,tried,List.foldl_nil]
    | some outcome =>
      obtain ⟨result,scratch⟩ := outcome
      cases result with
      | error e => simp only [next,offered,wireSync,tried,List.foldl_nil]
      | ok top =>
        obtain ⟨result,synced⟩ := wireSync_accepted store tried
        simp only [next,offered,tried,synced]

end Calls

def Stored (store : Store) (h : Height) : Prop := store[blockKey h]?.isSome = true

/-- The tip is the greatest height that has a body. -/
def TipGreatest (store : Store) : Prop :=
  match tip store with
  | .ok (some top) => Stored store top ∧ ∀ h, Stored store h → h ≤ top
  | .ok none => ∀ h, ¬ Stored store h
  | .error _ => False

/-- If the heights of the bodies are those up to some height, then there are a body, a header and an
application hash at each height up to the tip. -/
def Gapless (store : Store) : Prop :=
  ∀ n : Height, (∀ h, Stored store h ↔ h ≤ n) → ∀ top, tip store = .ok (some top) → ∀ h, h ≤ top →
    Stored store h ∧ (∃ header, getHeader store h = .ok (some header)) ∧
      ∃ app, getAppHash store h = .ok (some app)

/-- Nothing is stored in part, and the tip is a stored height. -/
structure Complete (store : Store) : Prop where
  header : ∀ h, Stored store h → ∃ header, getHeader store h = .ok (some header)
  app : ∀ h, Stored store h → ∃ app, getAppHash store h = .ok (some app)
  top : ∀ top, tip store = .ok (some top) → Stored store top

theorem Complete.gapless {store : Store} (complete : Complete store) : Gapless store := by
  intro n exact_ top read h below
  have held : Stored store h :=
    (exact_ h).mpr (BitVec.le_trans below ((exact_ top).mp (complete.top top read)))
  exact ⟨held,complete.header h held,complete.app h held⟩

namespace Agree

variable {store store' : Store}

theorem stored (same : Agree store store') (h : Height) : Stored store h ↔ Stored store' h := by
  unfold Stored
  rw [show store[blockKey h]? = store'[blockKey h]? from same (.body h) (by simp)]

theorem header (same : Agree store store') (h : Height) : getHeader store h = getHeader store' h := by
  unfold getHeader
  rw [show store[headerHeightKey h]? = store'[headerHeightKey h]? from same (.header h) (by simp)]

theorem app (same : Agree store store') (h : Height) : getAppHash store h = getAppHash store' h := by
  unfold getAppHash
  rw [show store[appHashKey h]? = store'[appHashKey h]? from same (.app h) (by simp)]

theorem tip_eq (same : Agree store store') : tip store = tip store' := by
  unfold tip
  rw [show store[keyTip]? = store'[keyTip]? from same .tip (by simp)]

theorem complete (same : Agree store store') (held : Complete store') : Complete store where
  header h stored := by
    rw [same.header]
    exact held.header h ((same.stored h).mp stored)
  app h stored := by
    rw [same.app]
    exact held.app h ((same.stored h).mp stored)
  top t read := (same.stored t).mpr (held.top t (same.tip_eq.symm.trans read))

end Agree

section Persisted

variable [Blake3]

theorem stored_persisted (store : Store) (offer : BodyOffer) (h : Height) :
    Stored (persisted store offer) h ↔ h = offer.header.fields.height ∨ Stored store h := by
  have read : (persisted store offer)[blockKey h]? = _ :=
    (get?_persisted store offer (by simp : StoreKey.body h ≠ .wal)).trans (get?_body store offer h)
  unfold Stored
  rw [read]
  split <;> simp [*]

variable {store : Store}

theorem Complete.persisted (complete : Complete store) (offer : BodyOffer) :
    Complete (persisted store offer) where
  header h stored := by
    have read := getHeader_synced store [offer] h
    rw [List.foldl_cons,List.foldl_nil] at read
    rw [read]
    by_cases here : offer.header.fields.height = h
    · rw [lastAt,lastAt,if_pos here]
      exact ⟨_,rfl⟩
    · rw [lastAt,lastAt,if_neg here]
      rcases (stored_persisted store offer h).mp stored with same | before
      · exact absurd same.symm here
      · exact complete.header h before
  app h stored := by
    have read : (Sync.persisted store offer)[appHashKey h]? = _ :=
      (get?_persisted store offer (by simp : StoreKey.app h ≠ .wal)).trans (get?_app store offer h)
    by_cases here : h = offer.header.fields.height
    · rw [if_pos here] at read
      exact ⟨_,getAppHash_stored read⟩
    · rw [if_neg here] at read
      obtain ⟨app,found⟩ := complete.app h
        (((stored_persisted store offer h).mp stored).resolve_left here)
      refine ⟨app,?_⟩
      rw [← found]
      unfold getAppHash
      rw [read]
  top t read := by
    rw [tip_persisted] at read
    cases read
    exact (stored_persisted store offer _).mpr (.inl rfl)

theorem stored_synced (store : Store) (bodies : List BodyOffer) (h : Height) :
    Stored (bodies.foldl persisted store) h ↔
      Stored store h ∨ ∃ offer ∈ bodies, offer.header.fields.height = h := by
  induction bodies generalizing store with
  | nil => simp
  | cons offer rest ih =>
    rw [List.foldl_cons,ih,stored_persisted]
    simp only [List.mem_cons,exists_eq_or_imp,eq_comm (a := h)]
    tauto

theorem Complete.synced (complete : Complete store) (bodies : List BodyOffer) :
    Complete (bodies.foldl Sync.persisted store) := by
  induction bodies generalizing store with
  | nil => exact complete
  | cons offer rest ih => exact ih (complete.persisted offer)

theorem stored_next (store : Store) (call : Call) (h : Height) : Stored (next store call) h ↔
      Stored store h ∨ ∃ offer ∈ offered call, offer.header.fields.height = h :=
  ((agree_next store call).stored h).trans (stored_synced store _ h)

theorem Complete.next (complete : Complete store) (call : Call) : Complete (next store call) :=
  (agree_next store call).complete (complete.synced _)

/-- The block that a call stores last is at no lower height than any that was stored before. -/
def InOrder (store : Store) (call : Call) : Prop :=
  ∀ last, (offered call).getLast? = some last → ∀ h,
    (Stored store h ∨ ∃ offer ∈ offered call, offer.header.fields.height = h) →
      h ≤ last.header.fields.height

theorem tipGreatest_next_iff (complete : Complete store) (top : TipGreatest store)
    (call : Call) : TipGreatest (next store call) ↔ InOrder store call := by
  have same := agree_next store call
  rcases List.eq_nil_or_concat (offered call) with none | ⟨before,last,some⟩
  · -- nothing is stored, so the tip and the heights stay
    rw [none,List.foldl_nil] at same
    constructor
    · intro _ last found
      rw [none] at found
      cases found
    · intro _
      unfold TipGreatest at top ⊢
      simp only [same.tip_eq,same.stored]
      exact top
  · rw [List.concat_eq_append] at some
    have read : tip (next store call) = .ok (Option.some last.header.fields.height) := by
      rw [same.tip_eq,some,List.foldl_append,List.foldl_cons,List.foldl_nil,tip_persisted]
    have held := (complete.next call).top _ read
    unfold TipGreatest InOrder
    rw [read]
    simp only [held,true_and,stored_next,some,List.getLast?_concat,Option.some.injEq,forall_eq']

theorem Complete.run (complete : Complete store) (calls : List Call) :
    Complete (Runs.run StoredTip.next store calls) := by
  induction calls using List.reverseRecOn with
  | nil => exact complete
  | append_singleton done call ih =>
    rw [Runs.run_append_singleton]
    exact ih.next call

structure Sound (store : Store) : Prop where
  complete : Complete store
  top : TipGreatest store

/-- From a complete store, the tip is the greatest stored height all the way exactly if every call
stores its last block at no lower height than those before. Nothing is missing below it either way. -/
theorem tip_greatest_iff (store : Store) (complete : Complete store) (top : TipGreatest store)
    (calls : List Call) :
    (∀ done, done <+: calls →
      TipGreatest (Runs.run next store done) ∧ Gapless (Runs.run next store done)) ↔
    ∀ done call, done ++ [call] <+: calls → InOrder (Runs.run next store done) call := by
  have step (s : Store) (call : Call) (held : Sound s) : Sound (next s call) ↔ InOrder s call := by
    rw [← tipGreatest_next_iff held.complete held.top]
    exact ⟨Sound.top,fun greatest => ⟨held.complete.next call,greatest⟩⟩
  have all := Runs.always_iff (⟨complete,top⟩ : Sound store) step calls
  constructor
  · intro greatest
    refine all.mp fun done within => ⟨?_,(greatest done within).1⟩
    exact Complete.run complete done
  · intro ordered done within
    have sound := all.mpr ordered done within
    exact ⟨sound.top,sound.complete.gapless⟩

end Persisted

namespace Sample

attribute [local instance] LoneSigner.blake3

def offer (height : Height) : BodyOffer where
  header := { LoneSigner.header with fields := { LoneSigner.header.fields with height := height } }
  block := ⟨{ LoneSigner.header.fields with height := height },[]⟩
  receipts := []
  appHash := zeroHash

theorem empty_complete : Complete ∅ where
  header _ stored := by simp [Stored] at stored
  app _ stored := by simp [Stored] at stored
  top _ read := by simp [tip] at read

theorem empty_tip : TipGreatest ∅ := by
  simp [TipGreatest,tip,Stored]

/-- A first block is the tip. -/
theorem first_block_tip : TipGreatest (next ∅ (.put (offer 1))) := by
  have ordered : InOrder ∅ (.put (offer 1)) := by
    rintro last ⟨⟩ h (before | ⟨offer,listed,rfl⟩)
    · simp [Stored] at before
    · rw [List.mem_singleton.mp listed]
      exact BitVec.le_refl _
  exact ((tip_greatest_iff ∅ empty_complete empty_tip [.put (offer 1)]).mpr
    (Runs.met_singleton ordered) _ List.prefix_rfl).1

/-- An older block that is stored again takes the tip back. -/
theorem older_block_lowers_tip :
    let store := Runs.run next ∅ [.put (offer 1),.put (offer 0)]
    tip store = .ok (some 0) ∧ Stored store 1 ∧ ¬ TipGreatest store := by
  have read : tip (Runs.run next ∅ [.put (offer 1),.put (offer 0)]) = .ok (some 0) := by decide +kernel
  have held : Stored (Runs.run next ∅ [.put (offer 1),.put (offer 0)]) 1 := by
    unfold Stored
    decide +kernel
  refine ⟨read,held,?_⟩
  unfold TipGreatest
  rw [read]
  intro greatest
  exact absurd (greatest.2 1 held) (by decide)

end Sample
end L1.StoredTip
