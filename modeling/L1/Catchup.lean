import L1.Sync

/-! What catching up proves about the roots in the headers it stores. -/
namespace L1

structure Roots where
  state : Hash
  tx : Hash
  receipts : Hash
  deriving DecidableEq, Repr

def Header.roots (h : Header) : Roots := ⟨h.stateRoot,h.txRoot,h.receiptsRoot⟩

def Roots.appHash [Blake3] (r : Roots) : Hash := Seq.appHash r.state r.tx r.receipts

def rootsOf [Blake3] (world : World) (block : Block) (receipts : List Receipt) : Roots :=
  ⟨world.commitStateRoot,txRootSigned block.txs,receiptsRoot (receipts.map Receipt.encode)⟩

namespace Sync

open Codec Blocks Replay

section Execution

variable [Blake3] [Wasm] [Ed25519]

def executedRoots : World → List Block → Option (List Roots)
  | _, [] => some []
  | world, block :: rest => match Seq.applyBlock world block with
    | none => none
    | some (world,receipts,_) => (executedRoots world rest).map (rootsOf world block receipts :: ·)

variable {world : World} {block : Block} {app : Hash} {r : World × Hash}

theorem applyBlock_roots {world' : World} {receipts : List Receipt}
    (applied : Seq.applyBlock world block = some (world',receipts,app)) :
    app = (rootsOf world' block receipts).appHash := by
  unfold Seq.applyBlock at applied
  split at applied
  · cases applied
  · cases applied
    rfl

/-- An execution against expected hashes has roots that make these hashes. -/
theorem execute_roots {steps : List (Block × Hash)}
    (ran : execute Seq.applyBlock world app steps = some r) :
    ∃ roots, executedRoots world (steps.map Prod.fst) = some roots ∧
      roots.map Roots.appHash = steps.map Prod.snd ∧
      r.2 = ((roots.map Roots.appHash).getLast?).getD app := by
  induction steps generalizing world app with
  | nil =>
    cases ran
    exact ⟨[],rfl,rfl,rfl⟩
  | cons step rest ih =>
    obtain ⟨block,expected⟩ := step
    rw [execute] at ran
    split at ran
    · cases ran
    rename_i world' receipts got applied
    split at ran
    · rename_i same
      subst expected
      obtain ⟨roots,executed,hashes,last⟩ := ih ran
      have here := applyBlock_roots applied
      refine ⟨rootsOf world' block receipts :: roots,?_,?_,?_⟩
      · simp only [List.map_cons,executedRoots,applied,executed,Option.map_some]
      · rw [List.map_cons,List.map_cons,hashes,← here]
      · rw [last,List.map_cons,← here,List.getLast?_cons]
        rfl
    · cases ran

theorem executedRoots_tx {blocks : List Block} {roots : List Roots}
    (executed : executedRoots world blocks = some roots) {i : Nat}
    (listed : blocks[i]? = some block) :
    ∃ r, roots[i]? = some r ∧ r.tx = txRootSigned block.txs := by
  induction blocks generalizing world roots i with
  | nil => simp at listed
  | cons first rest ih =>
    rw [executedRoots] at executed
    split at executed
    · cases executed
    rename_i world' receipts _ _
    obtain ⟨later,inner,rfl⟩ := Option.map_eq_some_iff.mp executed
    cases i with
    | zero =>
      cases listed
      exact ⟨_,rfl,rfl⟩
    | succ i => exact ih inner listed

/-- The bodies that a store has up to its tip, and the roots of their execution from genesis. -/
structure Executed (g : Genesis) (store : Store) (blocks : List Block) (roots : List Roots) :
    Prop where
  tip : Blocks.tip store = .ok (match blocks.length with
    | 0 => none
    | n + 1 => some (BitVec.ofNat 64 n))
  bodies : ∀ (i : Nat) (block : Block), blocks[i]? = some block →
    getBlock store (BitVec.ofNat 64 i) = .ok (some block)
  roots : executedRoots (.fromGenesis g) blocks = some roots

theorem replay_executed {g : Genesis} {store : Store}
    (ran : replayFromGenesis Seq.applyBlock store g (.fromGenesis g) = some (.ok r)) :
    ∃ blocks roots, Executed g store blocks roots ∧ roots.length = blocks.length ∧
      r.2 = ((roots.map Roots.appHash).getLast?).getD g.hash := by
  obtain ⟨-,⟨empty,rfl⟩ | ⟨last,steps,top,length,short,reads,ran⟩⟩ := replayFromGenesis_ok_iff.mp ran
  · exact ⟨[],[],⟨empty,by simp,rfl⟩,rfl,rfl⟩
  · obtain ⟨roots,executed,hashes,app⟩ := execute_roots ran
    have count : roots.length = steps.length := by
      have lengths := congrArg List.length hashes
      simpa using lengths
    refine ⟨steps.map Prod.fst,roots,⟨?_,?_,executed⟩,by rw [count,List.length_map],app⟩
    · rw [top,List.length_map,length]
      simp
    · intro i block listed
      rw [List.getElem?_map,Option.map_eq_some_iff] at listed
      obtain ⟨⟨b,a⟩,here,rfl⟩ := listed
      have read := (reads i b a here).1
      rwa [Nat.zero_add] at read

/-- The headers that a store has for some blocks carry the roots of their execution, and the
hash is made of those of the last. -/
def Sound (store : Store) (roots : List Roots) (app : Hash) : Prop :=
  (∀ (i : Nat) header, i < roots.length → getHeader store (BitVec.ofNat 64 i) = .ok (some header) →
    roots[i]? = some header.roots) ∧
  ∀ last header, tip store = .ok (some last) → getHeader store last = .ok (some header) →
    app = header.roots.appHash

/-- Catching up leaves headers with the roots of the stored bodies, if and only if the last
offer of every height has the state root and the receipts root of its execution, and a header
stored before that was not offered again has all three. Only the transactions are checked. -/
theorem catchup_sound_iff (g : Genesis) (store store' : Store) (remoteHeaders : List Header)
    (bodies : List BodyOffer) (app : Hash)
    (done : catchup g store remoteHeaders bodies = some (.ok app,store')) :
    ∃ blocks roots, Executed g store' blocks roots ∧ roots.length = blocks.length ∧
      (Sound store' roots app ↔ ∀ i < roots.length, match lastAt (BitVec.ofNat 64 i) bodies with
        | some offer => ∃ r, roots[i]? = some r ∧ offer.header.stateRoot = r.state ∧
            offer.header.receiptsRoot = r.receipts
        | none => ∀ header, getHeader store (BitVec.ofNat 64 i) = .ok (some header) →
            roots[i]? = some header.roots) := by
  obtain ⟨passed,rfl,world,ran⟩ := catchup_ok done
  obtain ⟨blocks,roots,executed,count,last⟩ := replay_executed ran
  refine ⟨blocks,roots,executed,count,?_,?_⟩
  · rintro ⟨sound,-⟩ i inside
    have here := getHeader_synced store bodies (BitVec.ofNat 64 i)
    split
    · rename_i offer found
      rw [found] at here
      exact ⟨_,sound i offer.header inside here,rfl,rfl⟩
    · rename_i found
      rw [found] at here
      intro header stored
      exact sound i header inside (here.trans stored)
  · intro bound
    have each : ∀ (i : Nat) header, i < roots.length →
        getHeader (bodies.foldl persisted store) (BitVec.ofNat 64 i) = .ok (some header) →
          roots[i]? = some header.roots := by
      intro i header inside read
      have here := getHeader_synced store bodies (BitVec.ofNat 64 i)
      have condition := bound i inside
      split at condition
      · rename_i offer found
        rw [found,read] at here
        obtain rfl : header = offer.header := by simpa using here
        obtain ⟨r,listed,state,receipts⟩ := condition
        -- the gate has compared the transactions with the header
        obtain ⟨-,txs,-⟩ := ingestBlock_ok (passed offer (lastAt_some found).1)
        obtain ⟨block,there⟩ : ∃ block, blocks[i]? = some block :=
          ⟨_,List.getElem?_eq_getElem (count ▸ inside)⟩
        obtain ⟨r',again,tx⟩ := executedRoots_tx executed.roots there
        obtain rfl := getBlock_synced found (executed.bodies i block there)
        obtain rfl : r' = r := Option.some.inj (again.symm.trans listed)
        rw [listed,Header.roots,state,receipts,txs,← tx]
      · rename_i found
        rw [found] at here
        exact condition header (here.symm.trans read)
    refine ⟨each,?_⟩
    intro top header height read
    rw [executed.tip] at height
    cases blocksLength : blocks.length with
    | zero =>
      rw [blocksLength] at height
      cases height
    | succ n =>
      rw [blocksLength] at height count
      cases height
      have final := each n header (by omega) read
      rw [List.getLast?_eq_getElem?,List.length_map,count,Nat.add_sub_cancel,List.getElem?_map,
        final] at last
      exact last

end Execution

namespace Sample

open Holdings.Sample

attribute [local instance] Holdings.Sample.blake3 ed25519 wasm

def caught : Except WireError Hash × Store :=
  (catchup genesis fresh [] [trusted]).get (by decide +kernel)

/-- An honest offer passes, and its header has the roots. -/
theorem honest_offer_sound :
    catchup genesis fresh [] [trusted] = some (.ok trusted.appHash,caught.2) ∧
    ∃ blocks roots, Executed genesis caught.2 blocks roots ∧ roots.length = blocks.length := by
  have whole : catchup genesis fresh [] [trusted] = some caught := (Option.some_get _).symm
  have accepted : caught.1 = .ok trusted.appHash := by decide +kernel
  have done : catchup genesis fresh [] [trusted] = some (.ok trusted.appHash,caught.2) := by
    rw [whole,← accepted]
  obtain ⟨blocks,roots,executed,count,-⟩ := catchup_sound_iff _ _ _ _ _ _ done
  exact ⟨done,blocks,roots,executed,count⟩

def forged : BodyOffer := { trusted with header := { trusted.header with stateRoot := zeroHash } }

/-- Catching up accepts the header, whose state root no execution gives. -/
theorem forged_state_root_stored :
    (catchup genesis fresh [] [forged]).map (fun r => (r.1,(getHeader r.2 0).toOption)) =
      some (.ok trusted.appHash,some (some forged.header)) ∧
    forged.block = trusted.block ∧
    forged.header.stateRoot ≠ (applied (LoneSigner.validator 1)).1.commitStateRoot := by
  decide +kernel

end Sample
end Sync
end L1
