import L1.Finality
import L1.Steps

/-! Agreement of the step functions over the rounds of one height. Honest validators call
the steps in order and keep their lock; the others may sign anything. The run is shown to
be an instance of voting with locks. -/
namespace L1.Agreement

open Steps Quorum

section Protocol

variable [Bls]

/-- One height: the validator set, who follows the protocol, and with which keys. -/
structure Config where
  validators : ValidatorSet
  height : Height
  honest : ValidatorId → Bool
  secretKey : ValidatorId → Bls.SecretKey

/-- What a validator keeps between calls. Slot `2r` is the prevote of round `r` and slot
`2r + 1` its precommit; `next` is the first slot not yet passed. -/
structure Node where
  lock : Option Lock
  log : VoteReplayLog
  next : Nat

/-- All validators, who signed what, and what calls of commit returned. -/
structure System where
  nodes : ValidatorId → Node
  signed : List (ValidatorId × Bytes)
  finalized : List Finalized

/-- A call of a step function with the arguments its caller chooses. -/
inductive Call where
  | prevote (id : ValidatorId) (round : Round) (proposal : Proposal)
      (vrfPks : Map ValidatorId (Vector UInt8 32)) (seed : VrfSeed)
      (unlockPolka : Option (Round × Hash))
  | precommit (id : ValidatorId) (round : Round) (prevotes : List Vote) (headerFor : Header)
  | commit (precommits : List Vote) (reachable : VotingPower) (proposal : Proposal)
      (log : CommitLog)

def System.setNode (s : System) (id : ValidatorId) (node : Node) : System :=
  { s with nodes := Function.update s.nodes id node }

def System.sign (s : System) (id : ValidatorId) (msg : Bytes) : System :=
  { s with signed := (id,msg) :: s.signed }

/-- A quorum whose honest members signed the vote. -/
def Backed (cfg : Config) (signed : List (ValidatorId × Bytes)) (round : Round) (kind : VoteKind)
    (h : Hash) : Prop :=
  ∃ s ⊆ cfg.validators.members, 2 * cfg.validators.power < 3 * cfg.validators.powerOf s ∧
    ∀ id ∈ s, cfg.honest id → (id,signedMessage cfg.height round kind (.block h)) ∈ signed

/-- How honest validators call the steps, and with which precommits anyone commits. -/
def Obeys (cfg : Config) (s : System) : Call → Prop
  | .prevote id round _ _ _ unlockPolka =>
    cfg.honest id ∧ (s.nodes id).next ≤ 2 * round.toNat ∧
    ∀ r h, unlockPolka = some (r,h) → r < round ∧ Backed cfg s.signed r .prevote h
  | .precommit id round prevotes _ =>
    cfg.honest id ∧ (s.nodes id).next ≤ 2 * round.toNat + 1 ∧
    (prevotes.map Vote.signer).Nodup ∧
    ∀ v ∈ prevotes, verifySignature v = .ok () ∧ v.kind = .prevote ∧ v.height = cfg.height ∧
      v.round = round
  | .commit precommits _ proposal _ => ∀ v ∈ precommits, v.height = proposal.height

/-- Unforgeability for the signatures that a call is given: what verifies under the key of
an honest validator was signed by it at some point of the run. -/
def Genuine (cfg : Config) (signed : List (ValidatorId × Bytes)) : Call → Prop
  | .prevote _ _ _ _ _ _ => True
  | .precommit _ _ prevotes _ =>
    ∀ v ∈ prevotes, verifySignature v = .ok () → cfg.honest v.signer → (v.signer,v.message) ∈ signed
  | .commit precommits _ _ _ =>
    ∀ qc, Qc.aggregate precommits cfg.validators = .ok qc →
      Qc.Genuine (fun id => cfg.honest id) (fun id msg => (id,msg) ∈ signed) qc

/-- Nothing signed or finalized yet, and no lock of this height. -/
structure Fresh (cfg : Config) (s : System) : Prop where
  signed : s.signed = []
  finalized : s.finalized = []
  locks : ∀ id l, (s.nodes id).lock = some l → l.height ≠ cfg.height

def byzantinePower (cfg : Config) : Nat :=
  cfg.validators.powerOf (cfg.validators.members.filter fun id => cfg.honest id = false)

section Model

variable [Blake3] [Vrf]

/-- A prevote that the step withholds is not released; a lock is replaced only by a new one. -/
def step (cfg : Config) (s : System) : Call → System
  | .prevote id round proposal vrfPks seed unlockPolka =>
    let node := s.nodes id
    match prevoteStep (cfg.secretKey id) id proposal vrfPks seed cfg.validators cfg.height round
      node.lock unlockPolka node.log with
    | .error _ => s.setNode id { node with next := 2 * round.toNat + 1 }
    | .ok (v,log) =>
      (s.setNode id { node with log, next := 2 * round.toNat + 1 }).sign v.signer v.message
  | .precommit id round prevotes headerFor =>
    let node := s.nodes id
    match precommitStep (cfg.secretKey id) id cfg.height round prevotes cfg.validators headerFor
      node.log with
    | (v,lock,log) =>
      (s.setNode id ⟨lock.or node.lock,log,2 * round.toNat + 2⟩).sign v.signer v.message
  | .commit precommits reachable proposal log =>
    match Steps.commit precommits cfg.validators reachable proposal log with
    | some (.ok (some (f,_))) => { s with finalized := f :: s.finalized }
    | _ => s

def run (cfg : Config) (s : System) (calls : List Call) : System := calls.foldl (step cfg) s

def Obeyed (cfg : Config) : System → List Call → Prop
  | _, [] => True
  | s, c :: rest => Obeys cfg s c ∧ Obeyed cfg (step cfg s c) rest

end Model

section Effects

variable {cfg : Config} {final : List (ValidatorId × Bytes)}

variable {round : Round} {s : System}

variable {h : Hash} {prevotes : List Vote} {id : ValidatorId} {proposal : Proposal}

theorem Backed.mono {signed : List (ValidatorId × Bytes)} {kind : VoteKind}
    (backed : Backed cfg signed round kind h) (sub : signed ⊆ final) :
    Backed cfg final round kind h := by
  obtain ⟨s,members,quorum,all⟩ := backed
  exact ⟨s,members,quorum,fun id chosen honest => sub (all id chosen honest)⟩

/-- All that a call does to the votes and locks. Backing is judged at the end of the run. -/
inductive Effect (cfg : Config) (final : List (ValidatorId × Bytes)) (s s' : System) : Prop where
  | quiet (signed : s'.signed = s.signed) (locks : ∀ i, (s'.nodes i).lock = (s.nodes i).lock)
      (slots : ∀ i, (s.nodes i).next ≤ (s'.nodes i).next)
  | prevote (id : ValidatorId) (round : Round) (block : VoteBlock) (honest : cfg.honest id)
      (slot : (s.nodes id).next ≤ 2 * round.toNat)
      (nodes : ∃ log, s'.nodes = Function.update s.nodes id
        ⟨(s.nodes id).lock,log,2 * round.toNat + 1⟩)
      (signed : s'.signed = (id,signedMessage cfg.height round .prevote block) :: s.signed)
      (allowed : ∀ h l, block = .block h → (s.nodes id).lock = some l → l.height = cfg.height →
        h = l.blockHash ∨ ∃ r, l.round < r ∧ r < round ∧ Backed cfg final r .prevote h)
  | precommit (id : ValidatorId) (round : Round) (block : VoteBlock) (honest : cfg.honest id)
      (slot : (s.nodes id).next ≤ 2 * round.toNat + 1)
      (nodes : ∃ lock log, s'.nodes = Function.update s.nodes id ⟨lock,log,2 * round.toNat + 2⟩ ∧
        ((block = .nil ∧ lock = (s.nodes id).lock) ∨
          ∃ h, block = .block h ∧ lock = some ⟨cfg.height,round,h⟩ ∧
            Backed cfg final round .prevote h))
      (signed : s'.signed = (id,signedMessage cfg.height round .precommit block) :: s.signed)

theorem backed_of_polka (distinct : (prevotes.map Vote.signer).Nodup)
    (verified : ∀ v ∈ prevotes, verifySignature v = .ok () ∧ v.kind = .prevote ∧
      v.height = cfg.height ∧ v.round = round)
    (genuine : ∀ v ∈ prevotes, verifySignature v = .ok () → cfg.honest v.signer →
      (v.signer,v.message) ∈ final)
    (found : polka prevotes cfg.validators = some (.block h)) :
    Backed cfg final round .prevote h := by
  have quorum := polka_quorum found
  obtain ⟨s,members,power,votes⟩ := votedPower_members distinct
  refine ⟨s,members,power ▸ quorum,?_⟩
  intro id chosen honest
  obtain ⟨v,listed,rfl,block⟩ := votes id chosen
  obtain ⟨accepted,kind,height,here⟩ := verified v listed
  have known := genuine v listed accepted honest
  rwa [Vote.message,kind,height,here,block] at known

variable [Blake3] [Vrf]

theorem prevote_effect
    {vrfPks : Map ValidatorId (Vector UInt8 32)} {seed : VrfSeed} {unlock : Option (Round × Hash)}
    (sub : s.signed ⊆ final) (obeys : Obeys cfg s (.prevote id round proposal vrfPks seed unlock)) :
    Effect cfg final s (step cfg s (.prevote id round proposal vrfPks seed unlock)) := by
  obtain ⟨honest,slot,backing⟩ := obeys
  simp only [step]
  split
  · refine .quiet rfl ?_ ?_ <;> intro i <;> by_cases same : i = id
    · simp [System.setNode,same]
    · simp [System.setNode,same]
    · simp only [System.setNode,same,Function.update_self]
      omega
    · simp [System.setNode,same]
  · rename_i v log returned
    obtain ⟨message,signer,candidate⟩ := prevoteStep_ok returned
    refine .prevote id round v.block honest slot ⟨log,rfl⟩ (by simp [System.sign,message,signer,System.setNode]) ?_
    intro h l block lock here
    obtain ⟨-,allowed⟩ := candidate h block
    rw [lock] at allowed
    rcases prevoteAllowed_block here allowed with same | ⟨r,given,above⟩
    · exact .inl same
    · obtain ⟨earlier,backed⟩ := backing r h given
      exact .inr ⟨r,above,earlier,backed.mono sub⟩

theorem precommit_effect {headerFor : Header} (obeys : Obeys cfg s (.precommit id round prevotes headerFor))
    (genuine : Genuine cfg final (.precommit id round prevotes headerFor)) :
    Effect cfg final s (step cfg s (.precommit id round prevotes headerFor)) := by
  obtain ⟨honest,slot,distinct,verified⟩ := obeys
  rcases returned : precommitStep (cfg.secretKey id) id cfg.height round prevotes cfg.validators
    headerFor (s.nodes id).log with ⟨v,lock,log⟩
  obtain ⟨message,signer,outcome⟩ := precommitStep_spec returned
  simp only [step,returned]
  refine .precommit id round v.block honest slot ⟨lock.or (s.nodes id).lock,log,rfl,?_⟩
    (by simp [System.sign,message,signer,System.setNode])
  rcases outcome with ⟨block,none⟩ | ⟨block,some,found⟩
  · exact .inl ⟨block,by simp [none]⟩
  · exact .inr ⟨_,block,by simp [some],backed_of_polka distinct verified genuine found⟩

theorem commit_effect {precommits : List Vote} {reachable : VotingPower} {log : CommitLog} :
    Effect cfg final s (step cfg s (.commit precommits reachable proposal log)) := by
  simp only [step]
  split <;> exact .quiet rfl (fun _ => rfl) (fun _ => Nat.le_refl _)

theorem step_effect {c : Call}
    (sub : s.signed ⊆ final) (obeys : Obeys cfg s c) (genuine : Genuine cfg final c) :
    Effect cfg final s (step cfg s c) := by
  cases c with
  | prevote => exact prevote_effect sub obeys
  | precommit => exact precommit_effect obeys genuine
  | commit => exact commit_effect

end Effects

def slot (round : Round) : VoteKind → Nat
  | .prevote => 2 * round.toNat
  | .precommit => 2 * round.toNat + 1

def System.Signed (cfg : Config) (s : System) (id : ValidatorId) (round : Round) (kind : VoteKind)
    (block : VoteBlock) : Prop :=
  (id,signedMessage cfg.height round kind block) ∈ s.signed

theorem System.signed_cons {cfg : Config} {s s' : System} {id i : ValidatorId} {r round : Round}
    {k kind : VoteKind} {b block : VoteBlock}
    (appended : s'.signed = (id,signedMessage cfg.height round kind block) :: s.signed) :
    s'.Signed cfg i r k b ↔
      (i = id ∧ r = round ∧ k = kind ∧ b = block) ∨ s.Signed cfg i r k b := by
  unfold System.Signed
  rw [appended,List.mem_cons,Prod.mk.injEq]
  constructor
  · rintro (⟨same,msg⟩ | old)
    · exact .inl ⟨same,(signedMessage_injective msg).2⟩
    · exact .inr old
  · rintro (⟨rfl,rfl,rfl,rfl⟩ | old)
    · exact .inl ⟨rfl,rfl⟩
    · exact .inr old

/-- What holds of every honest validator between calls. -/
structure Invariant (cfg : Config) (final : List (ValidatorId × Bytes)) (s : System)
    (id : ValidatorId) : Prop where
  slots : ∀ r k b, s.Signed cfg id r k b → slot r k < (s.nodes id).next
  unique : ∀ r a b, s.Signed cfg id r .precommit a → s.Signed cfg id r .precommit b → a = b
  polka : ∀ r h, s.Signed cfg id r .precommit (.block h) → Backed cfg final r .prevote h
  held : ∀ r h, s.Signed cfg id r .precommit (.block h) → ∃ l, (s.nodes id).lock = some l ∧
    l.height = cfg.height ∧ r ≤ l.round ∧ (l.round = r → l.blockHash = h)
  justified : ∀ l, (s.nodes id).lock = some l → l.height = cfg.height →
    s.Signed cfg id l.round .precommit (.block l.blockHash)
  locked : ∀ r a r' b, s.Signed cfg id r .precommit (.block a) →
    s.Signed cfg id r' .prevote (.block b) → r < r' →
    b = a ∨ ∃ q, r < q ∧ q < r' ∧ Backed cfg final q .prevote b

section Preservation

variable {cfg : Config} {final : List (ValidatorId × Bytes)} {s s' : System}

theorem Fresh.invariant (fresh : Fresh cfg s) (i : ValidatorId) : Invariant cfg final s i := by
  have silent : ∀ r k b, ¬ s.Signed cfg i r k b := by
    intro r k b
    simp [System.Signed,fresh.signed]
  constructor
  · intro r k b vote
    exact absurd vote (silent _ _ _)
  · intro r a b vote
    exact absurd vote (silent _ _ _)
  · intro r h vote
    exact absurd vote (silent _ _ _)
  · intro r h vote
    exact absurd vote (silent _ _ _)
  · intro l lock here
    exact absurd here (fresh.locks i l lock)
  · intro r a r' b vote
    exact absurd vote (silent _ _ _)

variable {i id : ValidatorId}

theorem Invariant.quiet (inv : Invariant cfg final s i)
    (signed : s'.signed = s.signed) (lock : (s'.nodes i).lock = (s.nodes i).lock)
    (slots : (s.nodes i).next ≤ (s'.nodes i).next) : Invariant cfg final s' i := by
  have same : ∀ r k b, s'.Signed cfg i r k b ↔ s.Signed cfg i r k b := by
    intro r k b
    unfold System.Signed
    rw [signed]
  constructor
  · intro r k b vote
    exact Nat.lt_of_lt_of_le (inv.slots r k b ((same ..).mp vote)) slots
  · simpa only [same] using inv.unique
  · simpa only [same] using inv.polka
  · simpa only [same,lock] using inv.held
  · simpa only [same,lock] using inv.justified
  · simpa only [same] using inv.locked

theorem Invariant.other {msg : Bytes} (inv : Invariant cfg final s i)
    (apart : i ≠ id) (signed : s'.signed = (id,msg) :: s.signed)
    (node : s'.nodes i = s.nodes i) : Invariant cfg final s' i := by
  have same : ∀ r k b, s'.Signed cfg i r k b ↔ s.Signed cfg i r k b := by
    intro r k b
    unfold System.Signed
    rw [signed]
    simp [apart]
  constructor
  · simpa only [same,node] using inv.slots
  · simpa only [same] using inv.unique
  · simpa only [same] using inv.polka
  · simpa only [same,node] using inv.held
  · simpa only [same,node] using inv.justified
  · simpa only [same] using inv.locked

/-- A new prevote keeps to the lock, and the lock is the last precommit of a block. -/
theorem Invariant.prevote {round : Round} {block : VoteBlock}
    (inv : Invariant cfg final s id) (slot_ : (s.nodes id).next ≤ 2 * round.toNat)
    (lock : (s'.nodes id).lock = (s.nodes id).lock)
    (next : (s'.nodes id).next = 2 * round.toNat + 1)
    (signed : s'.signed = (id,signedMessage cfg.height round .prevote block) :: s.signed)
    (allowed : ∀ h l, block = .block h → (s.nodes id).lock = some l → l.height = cfg.height →
      h = l.blockHash ∨ ∃ r, l.round < r ∧ r < round ∧ Backed cfg final r .prevote h) :
    Invariant cfg final s' id := by
  have cases : ∀ {r k b}, s'.Signed cfg id r k b ↔
      (id = id ∧ r = round ∧ k = .prevote ∧ b = block) ∨ s.Signed cfg id r k b :=
    System.signed_cons signed
  have precommits : ∀ {r b}, s'.Signed cfg id r .precommit b ↔ s.Signed cfg id r .precommit b := by
    intro r b
    rw [cases]
    simp
  constructor
  · intro r k b vote
    rw [next]
    rcases cases.mp vote with ⟨-,rfl,rfl,-⟩ | old
    · simp [slot]
    · have := inv.slots r k b old
      omega
  · simpa only [precommits] using inv.unique
  · simpa only [precommits] using inv.polka
  · simpa only [precommits,lock] using inv.held
  · simpa only [precommits,lock] using inv.justified
  · intro r a r' b precommit prevote before
    rw [precommits] at precommit
    rcases cases.mp prevote with ⟨-,rfl,-,rfl⟩ | old
    · obtain ⟨l,locked,here,above,same⟩ := inv.held r a precommit
      have passed := inv.slots _ _ _ (inv.justified l locked here)
      rcases allowed b l rfl locked here with rfl | ⟨q,beyond,under,backed⟩
      · -- voting for the locked block: either the same precommit, or a later one with a polka
        rcases eq_or_ne l.round r with equal | later
        · exact .inl (same equal)
        · refine .inr ⟨l.round,?_,?_,inv.polka _ _ (inv.justified l locked here)⟩
          · have apart : l.round.toNat ≠ r.toNat := fun same => later (BitVec.eq_of_toNat_eq same)
            rw [BitVec.lt_def]
            rw [BitVec.le_def] at above
            omega
          · simp only [slot] at passed
            rw [BitVec.lt_def]
            omega
      · refine .inr ⟨q,?_,under,backed⟩
        rw [BitVec.lt_def] at beyond ⊢
        rw [BitVec.le_def] at above
        omega
    · exact inv.locked r a r' b precommit old before

/-- A new precommit of a block comes later than all before it and becomes the lock. -/
theorem Invariant.precommit {round : Round} {block : VoteBlock}
    (inv : Invariant cfg final s id) (slot_ : (s.nodes id).next ≤ 2 * round.toNat + 1)
    (next : (s'.nodes id).next = 2 * round.toNat + 2)
    (signed : s'.signed = (id,signedMessage cfg.height round .precommit block) :: s.signed)
    (outcome : (block = .nil ∧ (s'.nodes id).lock = (s.nodes id).lock) ∨
      ∃ h, block = .block h ∧ (s'.nodes id).lock = some ⟨cfg.height,round,h⟩ ∧
        Backed cfg final round .prevote h) :
    Invariant cfg final s' id := by
  have cases : ∀ {r k b}, s'.Signed cfg id r k b ↔
      (id = id ∧ r = round ∧ k = .precommit ∧ b = block) ∨ s.Signed cfg id r k b :=
    System.signed_cons signed
  have prevotes : ∀ {r b}, s'.Signed cfg id r .prevote b ↔ s.Signed cfg id r .prevote b := by
    intro r b
    rw [cases]
    simp
  have fresh : ∀ b, ¬ s.Signed cfg id round .precommit b := by
    intro b old
    have := inv.slots _ _ _ old
    simp only [slot] at this
    omega
  have earlier : ∀ r b, s.Signed cfg id r .precommit b → r.toNat < round.toNat := by
    intro r b old
    have := inv.slots _ _ _ old
    simp only [slot] at this
    omega
  constructor
  · intro r k b vote
    rw [next]
    rcases cases.mp vote with ⟨-,rfl,rfl,-⟩ | old
    · simp [slot]
    · have := inv.slots r k b old
      omega
  · intro r a b one other
    rcases cases.mp one with ⟨-,rfl,-,rfl⟩ | old
    · rcases cases.mp other with ⟨-,-,-,rfl⟩ | old'
      · rfl
      · exact absurd old' (fresh b)
    · rcases cases.mp other with ⟨-,rfl,-,-⟩ | old'
      · exact absurd old (fresh a)
      · exact inv.unique r a b old old'
  · intro r h vote
    rcases cases.mp vote with ⟨-,rfl,-,rfl⟩ | old
    · rcases outcome with ⟨nil,-⟩ | ⟨h',same,-,backed⟩
      · cases nil
      · cases same
        exact backed
    · exact inv.polka r h old
  · intro r h vote
    rcases outcome with ⟨rfl,lock⟩ | ⟨h',rfl,lock,-⟩
    · rcases cases.mp vote with ⟨-,-,-,nil⟩ | old
      · cases nil
      · rw [lock]
        exact inv.held r h old
    · refine ⟨_,lock,rfl,?_,?_⟩
      · rcases cases.mp vote with ⟨-,rfl,-,-⟩ | old
        · exact BitVec.le_refl _
        · exact Nat.le_of_lt (earlier r _ old)
      · intro same
        rcases cases.mp vote with ⟨-,-,-,block⟩ | old
        · cases block
          rfl
        · have := earlier r _ old
          dsimp only at same
          rw [same] at this
          omega
  · intro l lock here
    rcases outcome with ⟨rfl,kept⟩ | ⟨h',rfl,replaced,-⟩
    · rw [kept] at lock
      exact cases.mpr (.inr (inv.justified l lock here))
    · rw [replaced] at lock
      cases lock
      exact cases.mpr (.inl ⟨rfl,rfl,rfl,rfl⟩)
  · intro r a r' b precommit prevote before
    rw [prevotes] at prevote
    rcases cases.mp precommit with ⟨-,rfl,-,-⟩ | old
    · -- the prevote would lie in a slot after this one
      have := inv.slots _ _ _ prevote
      simp only [slot] at this
      rw [BitVec.lt_def] at before
      omega
    · exact inv.locked r a r' b old prevote before

theorem Invariant.step (inv : Invariant cfg final s i)
    (effect : Effect cfg final s s') : Invariant cfg final s' i := by
  cases effect with
  | quiet signed locks slots => exact inv.quiet signed (locks i) (slots i)
  | prevote id round block honest slot nodes signed allowed =>
    obtain ⟨log,nodes⟩ := nodes
    by_cases same : i = id
    · subst same
      exact inv.prevote slot (by simp [nodes]) (by simp [nodes]) signed allowed
    · exact inv.other same signed (by simp [nodes,same])
  | precommit id round block honest slot nodes signed =>
    obtain ⟨lock,log,nodes,outcome⟩ := nodes
    by_cases same : i = id
    · subst same
      exact inv.precommit slot (by simp [nodes]) signed (by simpa [nodes] using outcome)
    · exact inv.other same signed (by simp [nodes,same])

end Preservation

section Runs

variable [Blake3] [Vrf] {cfg : Config}

theorem signed_step (s : System) (c : Call) : s.signed ⊆ (step cfg s c).signed := by
  cases c with
  | prevote => simp only [step]; split <;> simp [System.setNode,System.sign]
  | precommit => simp [step,System.setNode,System.sign]
  | commit => simp only [step]; split <;> simp

theorem signed_run (s : System) (calls : List Call) : s.signed ⊆ (run cfg s calls).signed := by
  induction calls generalizing s with
  | nil => exact List.Subset.refl _
  | cons c rest ih => exact List.Subset.trans (signed_step s c) (ih (step cfg s c))

variable {final : List (ValidatorId × Bytes)}

/-- The invariant along a whole run, with unforgeability judged by its end. -/
theorem invariant_run (s : System) (calls : List Call) (obeyed : Obeyed cfg s calls)
    (genuine : ∀ c ∈ calls, Genuine cfg final c) (sub : (run cfg s calls).signed ⊆ final)
    {i : ValidatorId} (inv : Invariant cfg final s i) :
    Invariant cfg final (run cfg s calls) i := by
  induction calls generalizing s with
  | nil => exact inv
  | cons c rest ih =>
    have known : s.signed ⊆ final := List.Subset.trans (signed_run s (c :: rest)) sub
    have effect := step_effect known obeyed.1 (genuine c (by simp))
    exact ih (step cfg s c) obeyed.2 (fun d later => genuine d (by simp [later])) sub
      (inv.step effect)

omit [Vrf] in
theorem backed_commit {precommits : List Vote}
    {reachable : VotingPower} {proposal : Proposal} {log log' : CommitLog} {f : Finalized}
    (heights : ∀ v ∈ precommits, v.height = proposal.height)
    (genuine : Genuine cfg final (.commit precommits reachable proposal log))
    (returned : Steps.commit precommits cfg.validators reachable proposal log =
      some (.ok (some (f,log')))) (here : f.height = cfg.height) :
    ∃ r, Backed cfg final r .precommit f.blockHash := by
  obtain ⟨qc,c⟩ := commit_ok returned
  have built := Qc.aggregate_ok c.aggregated
  have quorum := polka_quorum c.polka
  have positive : 0 < votedPower cfg.validators (.block f.blockHash) precommits := by omega
  obtain ⟨v,listed,-⟩ := exists_vote_of_votedPower positive
  have height : qc.height = cfg.height := by
    rw [← (built.votes v listed).2.1,heights v listed,← here,c.finalized]
  refine ⟨qc.round,qc.signers.toFinset,?_,built.quorum c.verified,?_⟩
  · intro id chosen
    exact built.members id (List.mem_toFinset.mp chosen)
  · intro id chosen honest
    have known := (genuine qc c.aggregated).signed c.verified id (List.mem_toFinset.mp chosen) honest
    rwa [Qc.message,height,c.block] at known

theorem finalized_run (s : System) (calls : List Call) (obeyed : Obeyed cfg s calls)
    (genuine : ∀ c ∈ calls, Genuine cfg final c)
    (before : ∀ f ∈ s.finalized, f.height = cfg.height →
      ∃ r, Backed cfg final r .precommit f.blockHash) :
    ∀ f ∈ (run cfg s calls).finalized, f.height = cfg.height →
      ∃ r, Backed cfg final r .precommit f.blockHash := by
  induction calls generalizing s with
  | nil => exact before
  | cons c rest ih =>
    refine ih (step cfg s c) obeyed.2 (fun d later => genuine d (by simp [later])) ?_
    have mine := genuine c (by simp)
    have rule := obeyed.1
    cases c with
    | prevote => simp only [step]; split <;> exact before
    | precommit => exact before
    | commit precommits reachable proposal log =>
      simp only [step]
      split
      · rename_i f log' returned
        intro g listed here
        rcases List.mem_cons.mp listed with rfl | old
        · exact backed_commit rule mine returned here
        · exact before g old here
      · exact before

end Runs

section Refinement

variable {cfg : Config}

def electorate (cfg : Config) (minority : 3 * byzantinePower cfg < cfg.validators.power) :
    Electorate ValidatorId where
  members := cfg.validators.members
  weight := cfg.validators.weight
  faulty := cfg.validators.members.filter fun id => cfg.honest id = false
  minority := minority

theorem honest_of_not_faulty {minority : 3 * byzantinePower cfg < cfg.validators.power}
    {i : ValidatorId} (member : i ∈ (electorate cfg minority).members)
    (honest : i ∉ (electorate cfg minority).faulty) : cfg.honest i = true := by
  by_contra faulty
  exact honest (Finset.mem_filter.mpr ⟨member,by simpa using faulty⟩)

def Voted (cfg : Config) (final : List (ValidatorId × Bytes)) (kind : VoteKind) (i : ValidatorId)
    (r : Nat) (h : Hash) : Prop :=
  ∃ round : Round, round.toNat = r ∧ (i,signedMessage cfg.height round kind (.block h)) ∈ final

theorem Backed.supported {minority : 3 * byzantinePower cfg < cfg.validators.power}
    {final : List (ValidatorId × Bytes)} {round : Round} {kind : VoteKind} {h : Hash}
    (backed : Backed cfg final round kind h) :
    (electorate cfg minority).Supported fun i => Voted cfg final kind i round.toNat h := by
  obtain ⟨s,members,quorum,signed⟩ := backed
  refine ⟨s,⟨members,quorum⟩,fun i chosen honest => ⟨round,rfl,?_⟩⟩
  exact signed i chosen (honest_of_not_faulty (members chosen) honest)

def voting (minority : 3 * byzantinePower cfg < cfg.validators.power)
    {final : List (ValidatorId × Bytes)} {s : System} (signed : s.signed = final)
    (inv : ∀ i, cfg.honest i → Invariant cfg final s i) :
    LockedVoting (electorate cfg minority) Hash where
  prevoted := Voted cfg final .prevote
  precommitted := Voted cfg final .precommit
  unique := by
    subst signed
    rintro i r a b member honest ⟨round,rfl,one⟩ ⟨round',same,other⟩
    obtain rfl := BitVec.eq_of_toNat_eq same
    have equal := (inv i (honest_of_not_faulty member honest)).unique _ _ _ one other
    simpa using equal
  polka := by
    subst signed
    rintro i r b member honest ⟨round,rfl,vote⟩
    exact ((inv i (honest_of_not_faulty member honest)).polka _ _ vote).supported
  locked := by
    subst signed
    rintro i r a r' b member honest ⟨round,rfl,precommit⟩ ⟨round',rfl,prevote⟩ before
    rcases (inv i (honest_of_not_faulty member honest)).locked _ _ _ _ precommit prevote before with
      same | ⟨q,above,under,backed⟩
    · exact .inl same
    · exact .inr ⟨q.toNat,above,under,backed.supported⟩

end Refinement

section Agreement

variable [Blake3] [Vrf]

/-- No two calls of commit finalize different blocks of one height, whatever the order of
messages and the behaviour of a minority. -/
theorem no_two_commits (cfg : Config) (start : System) (calls : List Call)
    (small : cfg.validators.power < 2^62) (minority : 3 * byzantinePower cfg < cfg.validators.power)
    (fresh : Fresh cfg start) (obeyed : Obeyed cfg start calls)
    (unforgeable : ∀ c ∈ calls, Genuine cfg (run cfg start calls).signed c) (f g : Finalized)
    (first : f ∈ (run cfg start calls).finalized) (second : g ∈ (run cfg start calls).finalized)
    (atF : f.height = cfg.height) (atG : g.height = cfg.height) : f.blockHash = g.blockHash := by
  have inv : ∀ i, cfg.honest i → Invariant cfg (run cfg start calls).signed (run cfg start calls) i :=
    fun i _ => invariant_run start calls obeyed unforgeable (List.Subset.refl _)
      (fresh.invariant i)
  have decided := finalized_run start calls obeyed unforgeable (by simp [fresh.finalized])
  obtain ⟨r,backed⟩ := decided f first atF
  obtain ⟨r',backed'⟩ := decided g second atG
  have one : (voting minority rfl inv).Decided r.toNat f.blockHash := backed.supported
  have other : (voting minority rfl inv).Decided r'.toNat g.blockHash := backed'.supported
  exact one.eq other

end Agreement
end Protocol

/-! One validator that proposes, prevotes, precommits and commits. -/
namespace Solo

open LoneSigner

@[reducible] def vrf : Vrf where
  prove _ _ := .ok (Vector.replicate 64 0,Vector.replicate 80 0)
  verify _ _ _ := .ok (Vector.replicate 64 0)

attribute [local instance] bls blake3 vrf

def cfg : Config := ⟨alone,0,fun _ => true,fun _ => ()⟩

def proposal : Proposal := {
  height := 0
  round := 0
  header
  appHash := zeroHash
  proposer := validator 1
  vrfSource := validator 1
  vrfProof := Vector.replicate 80 0
  signature := Vector.replicate 96 0 }

def start : System := ⟨fun _ => ⟨none,∅,0⟩,[],[]⟩

def prevote : Vote := Vote.prevote () (validator 1) 0 0 header

def precommit : Vote := Vote.precommit () (validator 1) 0 0 header

def calls : List Call := [
  .prevote (validator 1) 0 proposal (Std.ExtTreeMap.ofList [(validator 1,zeroHash)] compare)
    zeroHash none,
  .precommit (validator 1) 0 [prevote] header,
  .commit [precommit] 1 proposal ∅]

theorem signed_calls : (run cfg start calls).signed =
    [(validator 1,precommit.message),(validator 1,prevote.message)] := by decide +kernel

theorem obeyed_calls : Obeyed cfg start calls := by
  refine ⟨⟨rfl,by decide,by simp⟩,⟨rfl,by decide +kernel,by decide,?_⟩,?_,trivial⟩
  · simp only [List.mem_singleton,forall_eq]
    exact ⟨rfl,rfl,rfl,rfl⟩
  · simp only [Obeys,List.mem_singleton,forall_eq]
    rfl

theorem genuine_calls : ∀ c ∈ calls, Genuine cfg (run cfg start calls).signed c := by
  rw [signed_calls]
  simp only [calls,List.mem_cons,List.not_mem_nil,or_false,forall_eq_or_imp,forall_eq]
  refine ⟨trivial,?_,?_⟩
  · simp only [Genuine,List.mem_singleton,forall_eq]
    intro _ _
    exact List.mem_cons_of_mem _ (List.mem_singleton.mpr rfl)
  · intro qc built
    have only : Qc.aggregate [precommit] alone = .ok (certificate 1) := by decide +kernel
    obtain rfl : certificate 1 = qc := Except.ok.inj (only.symm.trans built)
    intro _ _ _ _ _ id listed _
    rw [List.mem_singleton.mp listed]
    exact List.mem_cons_self ..

/-- The run commits, and with it every further commit of the height agrees. -/
theorem solo_commits_once :
    (run cfg start calls).finalized = [⟨0,0,header.hash,zeroHash⟩] ∧
    ∀ f ∈ (run cfg start calls).finalized, ∀ g ∈ (run cfg start calls).finalized,
      f.height = 0 → g.height = 0 → f.blockHash = g.blockHash :=
  ⟨by decide +kernel,fun f first g second atF atG =>
    no_two_commits cfg start calls (by decide +kernel) (by decide +kernel)
      ⟨rfl,rfl,by simp [start]⟩ obeyed_calls genuine_calls f g first second atF atG⟩

end Solo
end L1.Agreement
