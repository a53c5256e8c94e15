import L1.Crash
import L1.Sync

/-! What a catch-up that fails leaves in the store. -/
namespace L1.Sync

open Codec Blocks Replay Wal

/-- What was stored is still there and the tip has not moved; the write-ahead log apart. -/
def Unchanged (store store' : Store) : Prop :=
  ∀ key, key ≠ keyWal → store[key]? ≠ none ∨ key = keyTip → store'[key]? = store[key]?

namespace Unchanged

theorem refl (store : Store) : Unchanged store store := fun _ _ _ => rfl

variable {store store' : Store}

theorem held (same : Unchanged store store') (key : StoreKey) (other : key ≠ .wal) {value : Bytes}
    (stored : store[key.bytes]? = some value) : store'[key.bytes]? = some value :=
  (same key.bytes (fun equal => other (StoreKey.bytes_injective equal))
    (.inl (by simp [stored]))).trans stored

variable [Blake3] {g : Genesis} {chain : List BodyOffer}

theorem keeps (same : Unchanged store store') (kept : Keeps g store chain) :
    Keeps g store' chain where
  genesis := same.held .genesis (by simp) kept.genesis
  tip := (same keyTip (by decide) (.inr rfl)).trans kept.tip
  heights := kept.heights
  header offer member := same.held (.header _) (by simp) (kept.header offer member)
  body offer member := same.held (.body _) (by simp) (kept.body offer member)
  app offer member := same.held (.app _) (by simp) (kept.app offer member)

end Unchanged

section Failures

variable [Blake3]

variable {store store' : Store} {bodies : List BodyOffer} {remoteHeaders : List Header} {e : WireError}

theorem acceptBodies_ok (done : acceptBodies store bodies = some (.ok (),store')) :
    ∀ offer ∈ bodies, ingestBlock offer.header offer.block offer.receipts = .ok () := by
  induction bodies generalizing store with
  | nil => simp
  | cons offer rest ih =>
    rw [acceptBodies] at done
    split at done
    · cases done
    rename_i passed
    split at done
    · cases done
    · exact List.forall_mem_cons.mpr ⟨passed,ih done⟩

theorem headersThenBodies_ok {top : Option Height}
    (done : headersThenBodies store remoteHeaders bodies = some (.ok top,store')) :
    ∀ offer ∈ bodies, ingestBlock offer.header offer.block offer.receipts = .ok () := by
  unfold headersThenBodies at done
  split at done
  · cases done
  split at done
  · cases done
  split at done
  · cases done
  · cases done
  rename_i accepted
  exact acceptBodies_ok accepted

theorem persistAll_error
    (passed : ∀ offer ∈ bodies, ingestBlock offer.header offer.block offer.receipts = .ok ()) :
    persistAll store bodies ≠ some (.error e,store') := by
  induction bodies generalizing store with
  | nil =>
    intro done
    cases done
  | cons offer rest ih =>
    obtain ⟨here,others⟩ := List.forall_mem_cons.mp passed
    intro done
    rw [persistAll] at done
    split at done
    · cases done
    · rename_i one
      rw [persistThenBroadcast,here] at one
      dsimp only at one
      split at one <;> cases one
    · exact ih others done

theorem tip_persisted (store : Store) (offer : BodyOffer) :
    tip (persisted store offer) = .ok (some offer.header.fields.height) :=
  tip_stored ((get?_persisted store offer (by simp : StoreKey.tip ≠ .wal)).trans (get?_tip store offer))

theorem tip_synced_error {e : TypesError}
    (failed : tip (bodies.foldl persisted store) = .error e) : bodies = [] := by
  rcases List.eq_nil_or_concat bodies with empty | ⟨before,offer,rfl⟩
  · exact empty
  · rw [List.concat_eq_append,List.foldl_append,List.foldl_cons,List.foldl_nil,tip_persisted] at failed
    cases failed

/-- Fetching writes nothing before every offer has passed the gate. -/
theorem wireSync_error (failed : wireSync store remoteHeaders bodies = some (.error e,store')) :
    store' = store ∧
      ((∃ e scratch, headersThenBodies ∅ remoteHeaders bodies = some (.error e,scratch)) ∨
        bodies = []) := by
  unfold wireSync at failed
  split at failed
  · cases failed
  · rename_i rejected
    cases failed
    exact ⟨rfl,.inl ⟨_,_,rejected⟩⟩
  · rename_i accepted
    split at failed
    · cases failed
    · rename_i stopped
      exact absurd stopped (persistAll_error (headersThenBodies_ok accepted))
    · rename_i all
      obtain ⟨-,rfl⟩ := persistAll_ok all
      split at failed
      · rename_i corrupt
        obtain rfl := tip_synced_error corrupt
        cases failed
        exact ⟨rfl,.inr rfl⟩
      · cases failed

theorem wireSync_rejected {e : TopicError} {scratch : Store}
    (rejected : headersThenBodies ∅ remoteHeaders bodies = some (.error e,scratch)) :
    wireSync store remoteHeaders bodies = some (.error .gossip,store) := by
  simp only [wireSync,rejected]

theorem get?_synced_ne (store : Store) (bodies : List BodyOffer) {key : Bytes} (apart : key ≠ keyWal) :
    (bodies.foldl persisted store)[key]? =
      (Batch.last key (bodies.flatMap offerOps)).getD store[key]? := by
  induction bodies generalizing store with
  | nil => rfl
  | cons offer rest ih =>
    rw [List.foldl_cons,ih,get?_persisted_ne store offer apart,applyBatch,Batch.get?_run,
      List.flatMap_cons,Batch.last_append]
    cases Batch.last key (rest.flatMap offerOps) <;> rfl

/-- What the offers would write under the keys in use stands there already, and the tip is
where they would put it. -/
def Repeats (store : Store) (bodies : List BodyOffer) : Prop :=
  ∀ key value, key ≠ keyWal → Batch.last key (bodies.flatMap offerOps) = some value →
    store[key]? ≠ none ∨ key = keyTip → store[key]? = value

theorem Repeats.nil (store : Store) : Repeats store [] := by
  intro key value _ last
  cases last

theorem unchanged_synced_iff (store : Store) (bodies : List BodyOffer) :
    Unchanged store (bodies.foldl persisted store) ↔ Repeats store bodies := by
  constructor
  · intro same key value apart last used
    have here := same key apart used
    rw [get?_synced_ne store bodies apart,last] at here
    exact here.symm
  · intro repeats key apart used
    rw [get?_synced_ne store bodies apart]
    cases last : Batch.last key (bodies.flatMap offerOps) with
    | none => rfl
    | some value => exact (repeats key value apart last used).symm

variable [Wasm] [Ed25519]

theorem catchup_error {g : Genesis}
    (failed : catchup g store remoteHeaders bodies = some (.error e,store')) :
    wireSync store remoteHeaders bodies = some (.error e,store') ∨
      (∀ e scratch, headersThenBodies ∅ remoteHeaders bodies ≠ some (.error e,scratch)) ∧
        store' = bodies.foldl persisted store := by
  unfold catchup at failed
  split at failed
  · cases failed
  · rename_i stopped
    cases failed
    exact .inl stopped
  · rename_i synced
    have same := (wireSync_ok synced).2
    split at failed
    · cases failed
    · cases failed
      refine .inr ⟨fun e scratch rejected => ?_,same⟩
      rw [wireSync_rejected rejected] at synced
      cases synced
    · cases failed

/-- Fetching that fails leaves the store as it was. Catching up that fails leaves the committed
chain as it was, if and only if the gate turned the offers down, or they only repeat what
is stored: the replay comes after the writes. -/
theorem failed_sync_harmless_iff (g : Genesis) (store : Store) (chain : List BodyOffer)
    (kept : Keeps g store chain) (remoteHeaders : List Header) (bodies : List BodyOffer) :
    (∀ e store', wireSync store remoteHeaders bodies = some (.error e,store') → store' = store) ∧
    (∀ e store', catchup g store remoteHeaders bodies = some (.error e,store') →
      ((Unchanged store store' ∧ ∀ r,
          replayFromGenesis Seq.applyBlock store' g (.fromGenesis g) = some (.ok r) ↔
          replayFromGenesis Seq.applyBlock store g (.fromGenesis g) = some (.ok r)) ↔
        (∃ e scratch, headersThenBodies ∅ remoteHeaders bodies = some (.error e,scratch)) ∨
          Repeats store bodies)) := by
  refine ⟨fun e store' failed => (wireSync_error failed).1,fun e store' failed => ?_⟩
  have replays : Unchanged store store' → ∀ r,
      replayFromGenesis Seq.applyBlock store' g (.fromGenesis g) = some (.ok r) ↔
      replayFromGenesis Seq.applyBlock store g (.fromGenesis g) = some (.ok r) := fun same r => by
    rw [(same.keeps kept).replay_ok_iff,kept.replay_ok_iff]
  rw [and_iff_left_of_imp replays]
  rcases catchup_error failed with stopped | ⟨accepted,rfl⟩
  · obtain ⟨rfl,rejected | rfl⟩ := wireSync_error stopped
    · exact iff_of_true (.refl store') (.inl rejected)
    · exact iff_of_true (.refl store') (.inr (.nil store'))
  · rw [unchanged_synced_iff]
    exact ⟨.inr,Or.rec (fun ⟨e,scratch,rejected⟩ => absurd rejected (accepted e scratch)) id⟩

end Failures

namespace Sample

open Holdings.Sample

attribute [local instance] Holdings.Sample.blake3 ed25519 wasm

def paid : Store := applyBatch Wal.Sample.fresh (offerOps Wal.Sample.offer)

theorem keeps_paid : Keeps genesis paid [Wal.Sample.offer] :=
  Wal.Sample.first.kept.put (by decide +kernel)

def odd : BodyOffer := { trusted with header := { trusted.header with txRoot := address 5 } }

def refused : Except WireError Hash × Store :=
  (catchup genesis paid [] [odd]).get (by decide +kernel)

/-- The transactions do not match the header: the gate turns the offer down. -/
theorem refused_offer_harmless :
    catchup genesis paid [] [odd] = some refused ∧
    refused.1 = .error .gossip ∧ Unchanged paid refused.2 := by
  have whole : catchup genesis paid [] [odd] = some refused :=
    (Option.some_get _).symm
  have failed : refused.1 = .error .gossip := by decide +kernel
  refine ⟨whole,failed,(((failed_sync_harmless_iff genesis paid _ keeps_paid _ _).2 .gossip refused.2
    (by rw [whole,← failed])).mpr (.inl ?_)).1⟩
  have rejected : (headersThenBodies ∅ [] [odd]).map (·.1) =
      some (.error .block) := by decide +kernel
  obtain ⟨⟨result,scratch⟩,done,same⟩ := Option.map_eq_some_iff.mp rejected
  exact ⟨.block,scratch,by rw [done,← same]⟩

def wrong : BodyOffer := { trusted with appHash := zeroHash }

/-- The catch-up fails, and has replaced the block with the payment; replay now fails too. -/
theorem failed_catchup_overwrites :
    Keeps genesis paid [Wal.Sample.offer] ∧
    (replayFromGenesis Seq.applyBlock paid genesis (.fromGenesis genesis)).map
      (fun r => r.toOption.map fun replayed => (replayed.1.account (address 2)).balance) =
        some (some 10) ∧
    (catchup genesis paid [] [wrong]).map (fun r => (r.1,(getBlock r.2 0).toOption,
      (replayFromGenesis Seq.applyBlock r.2 genesis (.fromGenesis genesis)).map fun replayed =>
        replayed.toOption.isSome)) =
      some (.error .store,some (some wrong.block),some false) ∧
    wrong.block ≠ Wal.Sample.offer.block :=
  ⟨keeps_paid,by decide +kernel,by decide +kernel,by decide +kernel⟩

end Sample
end L1.Sync
