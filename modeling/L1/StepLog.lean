import L1.Agreement
import L1.Runs

/-! One validator that votes through the step functions with one replay log. The log refuses a
second body for a slot, but a nil prevote and a precommit are handed out all the same. -/
namespace L1.StepLog

open Steps

section Log

variable [Blake3]

/-- The log has no other body for the slot of a vote. -/
def Free (log : VoteReplayLog) (v : Vote) : Prop :=
  ∀ body : Hash, log[v.key]? = some body → body = v.body

theorem observe_of_free {log : VoteReplayLog} {v : Vote} (free : Free log v) :
    ∃ log', log.observe v = .ok log' := by
  unfold VoteReplayLog.observe
  cases seen : log[v.key]? with
  | none => exact ⟨_,rfl⟩
  | some prev => exact ⟨log,by simp [free prev seen]⟩

/-- An entry of the log after a vote was shown to it is older or the vote's own. -/
theorem observe_entry {log log' : VoteReplayLog} {v : Vote} (accepted : log.observe v = .ok log')
    {key body : Hash} (held : log'[key]? = some body) :
    log[key]? = some body ∨ key = v.key ∧ body = v.body := by
  unfold VoteReplayLog.observe at accepted
  split at accepted
  · split at accepted
    · cases accepted
    · cases accepted
      exact .inl held
  · cases accepted
    rw [Map.get?_insert] at held
    split at held
    · rename_i same
      cases held
      exact .inr ⟨same,rfl⟩
    · exact .inl held

end Log

section Calls

variable [Bls] [Blake3] [Vrf]

/-- A call of a step function, with all it is given but the key and the log. -/
inductive Call where
  | prevote (proposal : Proposal) (vrfPks : Map ValidatorId (Vector UInt8 32)) (seed : VrfSeed)
      (validators : ValidatorSet) (height : Height) (round : Round) (lock : Option Lock)
      (unlockPolka : Option (Round × Hash))
  | precommit (height : Height) (round : Round) (prevotes : List Vote) (validators : ValidatorSet)
      (headerFor : Header)

variable (sk : Bls.SecretKey) (ourId : ValidatorId)

def Call.step (log : VoteReplayLog) : Call → Option (Vote × VoteReplayLog)
  | .prevote proposal vrfPks seed validators height round lock unlockPolka =>
    (prevoteStep sk ourId proposal vrfPks seed validators height round lock unlockPolka log).toOption
  | .precommit height round prevotes validators headerFor =>
    let r := precommitStep sk ourId height round prevotes validators headerFor log
    some (r.1,r.2.2)

/-- A vote as the step functions make it, and the log after it was shown to the log. -/
structure Shown (log : VoteReplayLog) (v : Vote) (log' : VoteReplayLog) : Prop where
  signed : v = signVote sk ourId v.height v.round v.kind v.block
  log : log' = (v.verify v.height v.round log).toOption.getD log

variable {sk ourId}

theorem shown_prevoteStep {proposal : Proposal} {vrfPks : Map ValidatorId (Vector UInt8 32)}
    {seed : VrfSeed} {validators : ValidatorSet} {height : Height} {round : Round}
    {lock : Option Lock} {unlockPolka : Option (Round × Hash)} {log log' : VoteReplayLog} {v : Vote}
    (returned : prevoteStep sk ourId proposal vrfPks seed validators height round lock unlockPolka
      log = .ok (v,log')) : Shown sk ourId log v log' := by
  obtain ⟨-,rfl,⟨-,rfl⟩ | ⟨-,rfl⟩⟩ := prevoteStep_cases returned
  · exact ⟨rfl,rfl⟩
  · exact ⟨rfl,rfl⟩

theorem shown_step {call : Call} {log log' : VoteReplayLog} {v : Vote}
    (returned : call.step sk ourId log = some (v,log')) : Shown sk ourId log v log' := by
  cases call with
  | prevote proposal vrfPks seed validators height round lock unlockPolka =>
    rw [Call.step] at returned
    cases result : prevoteStep sk ourId proposal vrfPks seed validators height round lock unlockPolka
        log with
    | error e =>
      rw [result] at returned
      cases returned
    | ok r =>
      simp only [result,Except.toOption,Option.some.injEq] at returned
      exact shown_prevoteStep (result.trans (congrArg Except.ok returned))
  | precommit height round prevotes validators headerFor =>
    simp only [Call.step,precommitStep,Option.some.injEq] at returned
    split at returned
    · cases returned
      exact ⟨rfl,rfl⟩
    · cases returned
      exact ⟨rfl,rfl⟩

structure State where
  log : VoteReplayLog
  returned : List Vote := []

variable (sk ourId)

def State.next (s : State) (call : Call) : State :=
  match call.step sk ourId s.log with
  | none => s
  | some (v,log) => ⟨log,s.returned ++ [v]⟩

def run (calls : List Call) : State := Runs.run (State.next sk ourId) ⟨∅,[]⟩ calls

variable {sk ourId}

theorem run_snoc (done : List Call) (call : Call) :
    run sk ourId (done ++ [call]) = (run sk ourId done).next sk ourId call :=
  Runs.run_append_singleton ..

theorem returned_mono {done calls : List Call} (within : done <+: calls) :
    (run sk ourId done).returned ⊆ (run sk ourId calls).returned := by
  obtain ⟨rest,rfl⟩ := within
  induction rest using List.reverseRecOn with
  | nil => simp
  | append_singleton rest call ih =>
    rw [← List.append_assoc,run_snoc,State.next]
    split
    · exact ih
    · exact fun v member => List.mem_append_left _ (ih member)

theorem returned_signer (calls : List Call) :
    ∀ v ∈ (run sk ourId calls).returned, v.signer = ourId := by
  induction calls using List.reverseRecOn with
  | nil => simp [run,Runs.run]
  | append_singleton done call ih =>
    rw [run_snoc,State.next]
    split
    · exact ih
    · rename_i v log stepped
      intro w member
      rcases List.mem_append.mp member with earlier | now
      · exact ih w earlier
      · obtain rfl := List.mem_singleton.mp now
        rw [(shown_step stepped).signed]
        rfl

theorem log_returned (calls : List Call) (key body : Hash)
    (held : (run sk ourId calls).log[key]? = some body) :
    ∃ v ∈ (run sk ourId calls).returned, v.key = key ∧ v.body = body := by
  induction calls using List.reverseRecOn with
  | nil => simp [run,Runs.run] at held
  | append_singleton done call ih =>
    rw [run_snoc,State.next] at held ⊢
    cases stepped : call.step sk ourId (run sk ourId done).log with
    | none =>
      simp only [stepped] at held ⊢
      exact ih held
    | some r =>
      obtain ⟨v,log⟩ := r
      simp only [stepped] at held ⊢
      have older (held : (run sk ourId done).log[key]? = some body) :
          ∃ w ∈ (run sk ourId done).returned ++ [v], w.key = key ∧ w.body = body := by
        obtain ⟨w,member,same⟩ := ih held
        exact ⟨w,List.mem_append_left _ member,same⟩
      rw [(shown_step stepped).log] at held
      cases accepted : v.verify v.height v.round (run sk ourId done).log with
      | error e =>
        rw [accepted] at held
        exact older held
      | ok after =>
        rw [accepted] at held
        rcases observe_entry (Vote.verify_ok accepted).2.2.2 held with before | ⟨rfl,rfl⟩
        · exact older before
        · exact ⟨v,List.mem_append_right _ (List.mem_singleton_self v),rfl,rfl⟩

def Accepted (sk : Bls.SecretKey) (ourId : ValidatorId) (s : State) (call : Call) : Prop :=
  ∀ v log, call.step sk ourId s.log = some (v,log) → Free s.log v

section Correct

-- The validator's key is its own: its signatures verify under its identifier.
variable (signs : ∀ height round kind block,
  verifySignature (signVote sk ourId height round kind block) = .ok ())

include signs

/-- If the log took every vote, every vote returned is in it. -/
theorem returned_logged (calls : List Call)
    (accepted : ∀ done call, done ++ [call] <+: calls → Accepted sk ourId (run sk ourId done) call) :
    ∀ v ∈ (run sk ourId calls).returned, (run sk ourId calls).log[v.key]? = some v.body := by
  induction calls using List.reverseRecOn with
  | nil => simp [run,Runs.run]
  | append_singleton done call ih =>
    have before := ih fun earlier call' within =>
      accepted earlier call' (within.trans (List.prefix_append done [call]))
    rw [run_snoc,State.next]
    cases stepped : call.step sk ourId (run sk ourId done).log with
    | none => exact before
    | some r =>
      obtain ⟨v,log⟩ := r
      have shown := shown_step stepped
      have free := accepted done call List.prefix_rfl v log stepped
      obtain ⟨after,observed⟩ := observe_of_free free
      have signed : verifySignature v = .ok () := by
        rw [shown.signed]
        exact signs ..
      have verified : v.verify v.height v.round (run sk ourId done).log = .ok after := by
        simp only [Vote.verify,signed,ne_eq,not_true_eq_false,or_self,if_false]
        exact observed
      obtain rfl : log = after := by rw [shown.log,verified]; rfl
      obtain ⟨own,kept⟩ := VoteReplayLog.observe_ok observed
      intro w member
      rcases List.mem_append.mp member with earlier | now
      · exact kept _ _ (before w earlier)
      · obtain rfl := List.mem_singleton.mp now
        exact own

def hashed (votes : List Vote) : Set Bytes :=
  {p | ∃ v ∈ votes, p = replayPreimage v.signer v.height v.round v.kind [] ∨
    p = replayPreimage v.signer v.height v.round v.kind v.block.encode}

end Correct
end Calls

namespace Sample

attribute [local instance] LoneSigner.bls LoneSigner.blake3 Agreement.Solo.vrf

open LoneSigner (validator validators header)

def prevotes : List Vote := [1,2,3].map fun tag => Vote.prevote () (validator tag) 0 0 header

def precommitOn (seen : List Vote) : Call := .precommit 0 0 seen validators header

def returned (calls : List Call) : List Vote := (run () (validator 1) calls).returned

theorem returned_one : returned [precommitOn prevotes] =
    [Vote.precommit () (validator 1) 0 0 header] := by
  decide +kernel

theorem returned_two : returned [precommitOn prevotes,precommitOn []] =
    [Vote.precommit () (validator 1) 0 0 header,Vote.nil () (validator 1) 0 0 .precommit] := by
  decide +kernel

end Sample
end L1.StepLog
