import L1.Finality
import L1.Runs
import L1.Steps
import L1.Store

/-! The consensus log on disk: the body of a vote is stored under the key of its slot before the
vote is handed out, and a vote whose slot holds another body is refused. -/
namespace L1.ConsensusWal

section Log

variable [Bls] [Blake3]

def logPrefix : Bytes := ascii "cw/"

def voteKey (v : Vote) : Bytes := logPrefix ++ v.key.toList

def encodeVoteBody (v : Vote) : Bytes := signedMessage v.height v.round v.kind v.block

def proposalKey (p : Proposal) : Bytes :=
  logPrefix ++ (ascii "p/" ++ (toBeBytes 8 p.height ++ toBeBytes 4 p.round))

inductive DoubleSignError where
  | store | wouldDoubleSign | equivocation (evidence : Evidence)
  deriving DecidableEq

/-- Which access to the store fails during a call, if any. A failed batch writes nothing. -/
inductive Outage where
  | none | read | write
  deriving DecidableEq, Repr

def logVote (outage : Outage) (store : Store) (vote : Vote) : Except DoubleSignError Store :=
  if outage = .write then .error .store
  else .ok (applyBatch store [.put (voteKey vote) (encodeVoteBody vote)])

def logProposal (outage : Outage) (store : Store) (p : Proposal) : Except DoubleSignError Store :=
  if outage = .write then .error .store
  else .ok (applyBatch store [.put (proposalKey p) p.header.hash.toList])

def loggedVoteBody (outage : Outage) (store : Store) (vote : Vote) :
    Except DoubleSignError (Option Bytes) :=
  if outage = .read then .error .store else .ok store[voteKey vote]?

/-- Refuse a vote that conflicts with the log, with evidence where both votes are at hand. -/
def checkNoDoubleSign (outage : Outage) (store : Store) (candidate : Vote)
    (previousSigned : Option Vote) : Except DoubleSignError Unit :=
  match loggedVoteBody outage store candidate with
  | .error e => .error e
  | .ok none => .ok ()
  | .ok (some prevBody) =>
    if prevBody = encodeVoteBody candidate then .ok ()
    else match previousSigned with
      | none => .error .wouldDoubleSign
      | some old => match L1.equivocation old candidate with
        | .error _ => .error .wouldDoubleSign
        | .ok evidence => .error (.equivocation evidence)

/-- Hand a vote out only after the check and the log entry. -/
def signVoteLogged (outage : Outage) (store : Store) (unsigned : Vote) (previous : Option Vote) :
    Except DoubleSignError (Vote × Store) :=
  match checkNoDoubleSign outage store unsigned previous with
  | .error e => .error e
  | .ok () => match logVote outage store unsigned with
    | .error e => .error e
    | .ok store => .ok (unsigned,store)

variable {outage : Outage} {store store' : Store} {previous : Option Vote}

theorem checkNoDoubleSign_ok {candidate : Vote}
    (passed : checkNoDoubleSign outage store candidate previous = .ok ()) :
    ∀ body, store[voteKey candidate]? = some body → body = encodeVoteBody candidate := by
  unfold checkNoDoubleSign loggedVoteBody at passed
  intro body held
  by_cases unread : outage = .read
  · simp [unread] at passed
  · rw [if_neg unread,held] at passed
    by_contra differs
    simp only [if_neg differs] at passed
    split at passed
    · cases passed
    · split at passed <;> cases passed

theorem signVoteLogged_ok {unsigned v : Vote}
    (signed : signVoteLogged outage store unsigned previous = .ok (v,store')) :
    v = unsigned ∧ store' = store.insert (voteKey v) (encodeVoteBody v) ∧
      ∀ body, store[voteKey v]? = some body → body = encodeVoteBody v := by
  unfold signVoteLogged at signed
  split at signed
  · cases signed
  rename_i passed
  unfold logVote at signed
  by_cases unwritten : outage = .write
  · simp [unwritten] at signed
  · rw [if_neg unwritten] at signed
    cases signed
    exact ⟨rfl,rfl,checkNoDoubleSign_ok passed⟩

omit [Bls] in
theorem logProposal_ok {p : Proposal} (logged : logProposal outage store p = .ok store') :
    store' = store.insert (proposalKey p) p.header.hash.toList := by
  unfold logProposal at logged
  by_cases unwritten : outage = .write
  · simp [unwritten] at logged
  · rw [if_neg unwritten] at logged
    cases logged
    rfl

omit [Bls] in
/-- The records of votes and of proposals differ in length. -/
theorem proposalKey_ne (p : Proposal) (v : Vote) : proposalKey p ≠ voteKey v := by
  intro same
  have lengths := congrArg List.length same
  simp [proposalKey,voteKey,logPrefix,ascii] at lengths

/-! A history of the log. A restart loses what is in memory, which no call reads. -/

inductive Call where
  | sign (outage : Outage) (unsigned : Vote) (previous : Option Vote)
  | propose (outage : Outage) (p : Proposal)
  | restart

structure History where
  store : Store
  signed : List Vote := []

def History.next (s : History) : Call → History
  | .sign outage unsigned previous => match signVoteLogged outage s.store unsigned previous with
    | .error _ => s
    | .ok (v,store) => ⟨store,s.signed ++ [v]⟩
  | .propose outage p => match logProposal outage s.store p with
    | .error _ => s
    | .ok store => { s with store }
  | .restart => s

def History.Logged (s : History) : Prop :=
  ∀ v ∈ s.signed, s.store[voteKey v]? = some (encodeVoteBody v)

theorem History.Logged.next {s : History} (logged : s.Logged) (call : Call) : (s.next call).Logged := by
  cases call with
  | restart => exact logged
  | propose outage p =>
    cases written : logProposal outage s.store p with
    | error e => simpa only [History.next,written] using logged
    | ok store =>
      simp only [History.next,written]
      intro v handed
      rw [logProposal_ok written,Map.get?_insert,if_neg (proposalKey_ne p v).symm]
      exact logged v handed
  | sign outage unsigned previous =>
    cases signed : signVoteLogged outage s.store unsigned previous with
    | error e => simpa only [History.next,signed] using logged
    | ok r =>
      obtain ⟨v,store⟩ := r
      simp only [History.next,signed]
      obtain ⟨-,rfl,own⟩ := signVoteLogged_ok signed
      intro w handed
      rw [Map.get?_insert]
      rcases List.mem_append.mp handed with before | now
      · -- An older vote at this key has the same body, or the check had refused.
        by_cases same : voteKey w = voteKey v
        · rw [if_pos same]
          exact congrArg some (own _ (same ▸ logged w before)).symm
        · rw [if_neg same]
          exact logged w before
      · obtain rfl := List.mem_singleton.mp now
        rw [if_pos rfl]

theorem History.logged_run (store : Store) (calls : List Call) :
    (Runs.run History.next ⟨store,[]⟩ calls).Logged := by
  have keeps (s : History) (call : Call) (logged : s.Logged) (_ : True) : (s.next call).Logged :=
    logged.next call
  exact Runs.keep (fun v handed => absurd handed List.not_mem_nil) keeps fun _ _ _ => trivial

/-- Whatever was in the store and whichever calls fail, two votes handed out for one slot of one
signer are for one block. -/
theorem no_double_sign (store : Store) (calls : List Call) (v w : Vote)
    (first : v ∈ (Runs.run History.next ⟨store,[]⟩ calls).signed)
    (second : w ∈ (Runs.run History.next ⟨store,[]⟩ calls).signed) (signer : v.signer = w.signer)
    (height : v.height = w.height) (round : v.round = w.round) (kind : v.kind = w.kind) :
    v.block = w.block := by
  have logged := History.logged_run store calls
  have keys : voteKey v = voteKey w := by
    simp only [voteKey,Vote.key,signer,height,round,kind]
  have bodies : encodeVoteBody v = encodeVoteBody w :=
    Option.some.inj ((logged v first).symm.trans (keys ▸ logged w second))
  exact (signedMessage_injective bodies).2.2.2

end Log

namespace Sample

attribute [local instance] LoneSigner.bls LoneSigner.blake3

def vote (hash : Hash) (mark : UInt8) : Vote :=
  ⟨4,2,.prevote,.block hash,LoneSigner.validator 1,Vector.replicate 96 mark⟩

def someBlock : Hash := Vector.replicate 32 1

def calls : List Call := [.sign .none (vote someBlock 0) none,.restart,
  .sign .none (vote zeroHash 0) none,.sign .none (vote someBlock 7) none]

theorem signed_calls :
    (Runs.run History.next ⟨∅,[]⟩ calls).signed = [vote someBlock 0,vote someBlock 7] := by
  decide +kernel

/-- After a restart the same block is signed again and another one is not. -/
theorem same_block_signed_twice :
    (Runs.run History.next ⟨∅,[]⟩ calls).signed = [vote someBlock 0,vote someBlock 7] ∧
      (vote someBlock 0).block = (vote someBlock 7).block := by
  refine ⟨signed_calls,no_double_sign ∅ calls _ _ ?_ ?_ rfl rfl rfl rfl⟩
  · rw [signed_calls]
    exact List.mem_cons_self
  · rw [signed_calls]
    exact List.mem_cons_of_mem _ List.mem_cons_self

end Sample
end L1.ConsensusWal
