import L1.AccountProofs
import L1.CheckedProofs

/-! When a light client stops instead of answering. Aggregate verification takes the first key of a
certificate without asking whether there is one, and the next height is computed without asking whether
there is one; nothing else that a peer sends stops it. -/
namespace L1.Light

open AccountMpt Sync

variable [Bls] [Blake3]

structure AnnouncedHeader where
  header : Header
  qc : QuorumCertificate

/-- The first header at the height of the checkpoint, which must be the one it names. -/
def findAnchor (checkpoint : Checkpoint) : List AnnouncedHeader → Nat → Except LightError (Option Nat)
  | [], _ => .ok none
  | item :: rest, i =>
    if item.header.fields.height = checkpoint.height then
      if item.header.hash ≠ checkpoint.headerHash then .error .checkpoint else .ok (some i)
    else findAnchor checkpoint rest (i + 1)

/-- The headers from the checkpoint on. `none` is a stop: of a verification, or of the addition that
finds the next height. -/
def verifyForward (validators : ValidatorSet) : Option Height → Option Header → List AnnouncedHeader →
    Option (Except LightError (Option Header))
  | _, last, [] => some (.ok last)
  | prev, _, item :: rest => match verifyQc item.header item.qc validators with
    | none => none
    | some (.error e) => some (.error e)
    | some (.ok ()) => match prev with
      | none => verifyForward validators (some item.header.fields.height) (some item.header) rest
      | some ph => match checkedAdd ph 1 with
        | none => none
        | some next =>
          if item.header.fields.height ≠ next then some (.error .gap)
          else verifyForward validators (some item.header.fields.height) (some item.header) rest

def syncCheckpoints (checkpoint : Checkpoint) (headers : List AnnouncedHeader)
    (validators : ValidatorSet) : Option (Except LightError Header) :=
  match findAnchor checkpoint headers 0 with
  | .error e => some (.error e)
  | .ok none => some (.error .checkpoint)
  | .ok (some start) =>
    if headers.length < start then none
    else match verifyForward validators none none (headers.drop start) with
      | none => none
      | some (.error e) => some (.error e)
      | some (.ok none) => some (.error .checkpoint)
      | some (.ok (some header)) => some (.ok header)

/-- A commitment to packets, bound to a verified header. -/
structure IbcCommitment where
  headerHash : Hash
  height : Height
  merkleRoot : Hash
  mptRoot : Hash

def packetKey (index : U32) : Bytes := ascii "ibc/pkt/" ++ toBeBytes 4 index

/-- Verify a claimed packet. `none` is a stop. -/
def verifyPacket (commit : IbcCommitment) (index : U32) (proof : Mpt.MptProof) (expected : Bytes) :
    Option (Except LightError Unit) := do
  if (← Checked.verifyProof (packetKey index) proof commit.mptRoot) = false then
    return .error .proof
  else match proof.value with
    | some v => if v = expected then return .ok () else return .error .proof
    | none => return .error .proof

def readAccountChecked (header : Header) (answer : Except StateRpcError Json) (addr : Address) :
    Option (Except LightError Account) :=
  match answer with
  | .error _ => some (.error .source)
  | .ok resp => match parseRoot32 resp "accountRoot" with
    | .error e => some (.error e)
    | .ok accountRoot => match parseRoot32 resp "storageRoot" with
      | .error e => some (.error e)
      | .ok storageRoot => match Checked.stateRoot accountRoot storageRoot with
        | none => none
        | some bound =>
          if bound ≠ header.stateRoot then some (.error .proof)
          else match (resp.get "proof").bind Rpc.parseProof with
            | none => some (.error .source)
            | some proof => match Checked.verifyProof (accountKey addr) proof accountRoot with
              | none => none
              | some false => some (.error .proof)
              | some true => match proof.value with
                | none => some (.error .proof)
                | some raw => match (Checked.decodeAccount raw).run with
                  | none => none
                  | some (.error _) => some (.error .proof)
                  | some (.ok account) => some (.ok account)

def verifyAccountChecked (header : Header) (qc : QuorumCertificate) (validators : ValidatorSet)
    (source : Json → Except StateRpcError Json) (addr : Address) :
    Option (Except LightError Account) :=
  match verifyQc header qc validators with
  | none => none
  | some (.error e) => some (.error e)
  | some (.ok ()) => readAccountChecked header (source (request addr header.fields.height)) addr

/-! Certificates without signers. -/

/-- A certificate that names the header and its slot, claims a quorum and lists no signer. -/
structure EmptyCertificate (header : Header) (qc : QuorumCertificate) (validators : ValidatorSet) :
    Prop where
  named : qc.block = .block header.hash
  slot : qc.height = header.fields.height ∧ qc.round = header.fields.round
  power : Qc.hasQuorum qc.power validators.totalPower = true
  signature : Bls.signatureFromBytes qc.aggSig ≠ none
  signers : qc.signers = []

omit [Blake3] in
theorem verifyFastAggregate_none {agg : Bls.Signature} {pks : List Bls.PublicKey} {msg : Bytes} :
    Bls.verifyFastAggregate agg pks msg = none ↔ pks = [] := by
  cases pks with
  | nil => exact ⟨fun _ => rfl,fun _ => rfl⟩
  | cons first rest =>
    unfold Bls.verifyFastAggregate
    cases sum : rest.foldlM Bls.addPublicKey first <;> simp [sum]

omit [Bls] [Blake3] in
theorem mapM_length {α β : Type} {f : α → Option β} {l : List α} {r : List β}
    (mapped : l.mapM f = some r) : r.length = l.length := by
  induction l generalizing r with
  | nil =>
    cases mapped
    rfl
  | cons a rest ih =>
    rw [List.mapM_cons] at mapped
    obtain ⟨b,-,others⟩ := Option.bind_eq_some_iff.mp mapped
    obtain ⟨more,found,same⟩ := Option.bind_eq_some_iff.mp others
    cases same
    rw [List.length_cons,List.length_cons,ih found]

variable {validators : ValidatorSet}

variable {qc : QuorumCertificate} {prev : Option Height} {checkpoint : Checkpoint}
  {headers : List AnnouncedHeader}

omit [Blake3] in
theorem verify_none_iff :
    Qc.verify qc validators = none ↔ Qc.hasQuorum qc.power validators.totalPower = true ∧
      Bls.signatureFromBytes qc.aggSig ≠ none ∧ qc.signers = [] := by
  unfold Qc.verify
  cases power : Qc.hasQuorum qc.power validators.totalPower with
  | false => simp
  | true =>
    cases signature : Bls.signatureFromBytes qc.aggSig with
    | none => simp
    | some agg =>
      cases keys : qc.signers.mapM Bls.publicKeyFromBytes with
      | none =>
        have listed : qc.signers ≠ [] := by
          intro empty
          rw [empty] at keys
          cases keys
        simp [listed]
      | some pks =>
        have length : pks = [] ↔ qc.signers = [] := by
          rw [← List.length_eq_zero_iff,← List.length_eq_zero_iff,mapM_length keys]
        cases checked : Bls.verifyFastAggregate agg pks (Qc.message qc) with
        | none => simpa [checked] using length.mp (verifyFastAggregate_none.mp checked)
        | some right =>
          have filled : qc.signers ≠ [] := by
            intro empty
            rw [verifyFastAggregate_none.mpr (length.mpr empty)] at checked
            cases checked
          cases right <;> simp [checked,filled]

theorem verifyQc_none_iff {header : Header} :
    verifyQc header qc validators = none ↔ EmptyCertificate header qc validators := by
  unfold verifyQc
  by_cases named : qc.block = .block header.hash
  · by_cases slot : qc.height = header.fields.height ∧ qc.round = header.fields.round
    · rw [if_neg (not_not.mpr named),if_neg (by tauto)]
      constructor
      · intro stopped
        cases checked : Qc.verify qc validators with
        | none =>
          obtain ⟨power,signature,signers⟩ := verify_none_iff.mp checked
          exact ⟨named,slot,power,signature,signers⟩
        | some result =>
          rw [checked] at stopped
          cases result <;> cases stopped
      · intro empty
        rw [verify_none_iff.mpr ⟨empty.power,empty.signature,empty.signers⟩]
    · rw [if_neg (not_not.mpr named),if_pos (by tauto)]
      exact ⟨fun stopped => (by cases stopped),fun empty => absurd empty.slot slot⟩
  · rw [if_pos named]
    exact ⟨fun stopped => (by cases stopped),fun empty => absurd empty.named named⟩

/-! Headers from a checkpoint on. -/

def Verified (validators : ValidatorSet) : Option Height → List AnnouncedHeader → Prop
  | _, [] => True
  | prev, item :: rest => verifyQc item.header item.qc validators = some (.ok ()) ∧
      (∀ ph, prev = some ph → ph.toNat + 1 = item.header.fields.height.toNat) ∧
      Verified validators (some item.header.fields.height) rest

def heightAfter (prev : Option Height) (items : List AnnouncedHeader) : Option Height :=
  items.foldl (fun _ item => some item.header.fields.height) prev

/-- Behind verified headers stands one with an empty certificate, or a verified one behind the last
height. -/
def Stops (validators : ValidatorSet) (prev : Option Height) (items : List AnnouncedHeader) : Prop :=
  ∃ done item rest, items = done ++ item :: rest ∧ Verified validators prev done ∧
    (EmptyCertificate item.header item.qc validators ∨
      verifyQc item.header item.qc validators = some (.ok ()) ∧
      heightAfter prev done = some (BitVec.allOnes 64))

theorem stops_cons {item : AnnouncedHeader}
    {rest : List AnnouncedHeader} : Stops validators prev (item :: rest) ↔
      EmptyCertificate item.header item.qc validators ∨
      verifyQc item.header item.qc validators = some (.ok ()) ∧
      (prev = some (BitVec.allOnes 64) ∨
        (∀ ph, prev = some ph → ph.toNat + 1 = item.header.fields.height.toNat) ∧
        Stops validators (some item.header.fields.height) rest) := by
  constructor
  · rintro ⟨done,found,behind,split,verified,why⟩
    cases done with
    | nil =>
      cases split
      rcases why with empty | ⟨checked,last⟩
      · exact .inl empty
      · exact .inr ⟨checked,.inl last⟩
    | cons first done =>
      cases split
      exact .inr ⟨verified.1,.inr ⟨verified.2.1,done,found,behind,rfl,verified.2.2,why⟩⟩
  · rintro (empty | ⟨checked,last | ⟨follows,done,found,behind,rfl,verified,why⟩⟩)
    · exact ⟨[],item,rest,rfl,trivial,.inl empty⟩
    · exact ⟨[],item,rest,rfl,trivial,.inr ⟨checked,last⟩⟩
    · exact ⟨item :: done,found,behind,rfl,⟨checked,follows,verified⟩,why⟩

theorem verifyForward_none_iff {last : Option Header} {items : List AnnouncedHeader} :
    verifyForward validators prev last items = none ↔ Stops validators prev items := by
  induction items generalizing prev last with
  | nil =>
    refine ⟨fun stopped => (by cases stopped),?_⟩
    rintro ⟨done,item,rest,split,-⟩
    simp at split
  | cons item rest ih =>
    rw [stops_cons]
    unfold verifyForward
    cases checked : verifyQc item.header item.qc validators with
    | none => simp [verifyQc_none_iff.mp checked]
    | some result =>
      have listed : ¬ EmptyCertificate item.header item.qc validators := by
        rw [← verifyQc_none_iff,checked]
        simp
      cases result with
      | error e => simp [listed]
      | ok _ =>
        cases prev with
        | none => simp [listed,ih]
        | some ph =>
          have one : (1 : Height).toNat = 1 := rfl
          cases sum : checkedAdd ph 1 with
          | none =>
            have top : ph = BitVec.allOnes 64 := by
              have large := checkedAdd_eq_none.mp sum
              have bound := ph.isLt
              apply BitVec.eq_of_toNat_eq
              rw [BitVec.toNat_allOnes]
              omega
            dsimp only
            rw [sum]
            exact ⟨fun _ => .inr ⟨rfl,.inl (congrArg some top)⟩,fun _ => rfl⟩
          | some next =>
            have exact_ := checkedAdd_eq_some.mp sum
            have below : ¬ some ph = some (BitVec.allOnes 64) := by
              intro top
              cases top
              have bound := next.isLt
              rw [BitVec.toNat_allOnes] at exact_
              omega
            have follows : (∀ p, some ph = some p → p.toNat + 1 = item.header.fields.height.toNat) ↔
                item.header.fields.height = next := by
              constructor
              · intro all
                exact BitVec.eq_of_toNat_eq ((all ph rfl).symm.trans (by omega))
              · rintro same p equal
                cases equal
                rw [same]
                omega
            dsimp only
            rw [sum,follows,or_iff_right below]
            by_cases gap : item.header.fields.height = next
            · simp [listed,gap,ih]
            · simp [listed,gap]

/-- The anchor: the first header at the height of the checkpoint, and the one it names. -/
structure Anchored (checkpoint : Checkpoint) (before : List AnnouncedHeader) (anchor : AnnouncedHeader) :
    Prop where
  first : ∀ item ∈ before, item.header.fields.height ≠ checkpoint.height
  height : anchor.header.fields.height = checkpoint.height
  hash : anchor.header.hash = checkpoint.headerHash

omit [Bls] in
theorem findAnchor_iff {i start : Nat} :
    findAnchor checkpoint headers i = .ok (some start) ↔ ∃ before anchor after,
      headers = before ++ anchor :: after ∧ start = i + before.length ∧
      Anchored checkpoint before anchor := by
  induction headers generalizing i with
  | nil => simp [findAnchor]
  | cons item rest ih =>
    unfold findAnchor
    by_cases here : item.header.fields.height = checkpoint.height
    · rw [if_pos here]
      by_cases same : item.header.hash = checkpoint.headerHash
      · rw [if_neg (not_not.mpr same)]
        constructor
        · intro found
          cases found
          exact ⟨[],item,rest,rfl,rfl,by simp,here,same⟩
        · rintro ⟨before,anchor,after,split,rfl,anchored⟩
          cases before with
          | nil => rfl
          | cons first before =>
            cases split
            exact absurd here (anchored.first item (by simp))
      · rw [if_pos same]
        refine ⟨fun found => (by cases found),?_⟩
        rintro ⟨before,anchor,after,split,rfl,anchored⟩
        cases before with
        | nil =>
          cases split
          exact absurd anchored.hash same
        | cons first before =>
          cases split
          exact absurd here (anchored.first item (by simp))
    · rw [if_neg here,ih]
      constructor
      · rintro ⟨before,anchor,after,rfl,rfl,anchored⟩
        refine ⟨item :: before,anchor,after,rfl,by simp; omega,?_,anchored.height,anchored.hash⟩
        exact List.forall_mem_cons.mpr ⟨here,anchored.first⟩
      · rintro ⟨before,anchor,after,split,rfl,anchored⟩
        cases before with
        | nil =>
          cases split
          exact absurd anchored.height here
        | cons first before =>
          cases split
          exact ⟨before,anchor,after,rfl,by simp; omega,
            fun other listed => anchored.first other (by simp [listed]),anchored.height,anchored.hash⟩

theorem syncCheckpoints_none_iff : syncCheckpoints checkpoint headers validators = none ↔
      ∃ before anchor after, headers = before ++ anchor :: after ∧
        Anchored checkpoint before anchor ∧ Stops validators none (anchor :: after) := by
  have started {start : Nat} (found : findAnchor checkpoint headers 0 = .ok (some start)) :
      (syncCheckpoints checkpoint headers validators = none ↔
        Stops validators none (headers.drop start)) := by
    obtain ⟨before,anchor,after,rfl,rfl,-⟩ := findAnchor_iff.mp found
    have inside : ¬ (before ++ anchor :: after).length < 0 + before.length := by simp
    have forward (items : List AnnouncedHeader) :
        verifyForward validators none none items = none ↔ Stops validators none items :=
      verifyForward_none_iff
    rw [← forward]
    simp only [syncCheckpoints,found,if_neg inside]
    generalize verifyForward validators none none _ = outcome
    rcases outcome with _ | (_ | (_ | _)) <;> simp
  constructor
  · intro stopped
    cases found : findAnchor checkpoint headers 0 with
    | error e => simp [syncCheckpoints,found] at stopped
    | ok start =>
      cases start with
      | none => simp [syncCheckpoints,found] at stopped
      | some start =>
        have stops := (started found).mp stopped
        obtain ⟨before,anchor,after,rfl,rfl,anchored⟩ := findAnchor_iff.mp found
        rw [Nat.zero_add,List.drop_left] at stops
        exact ⟨before,anchor,after,rfl,anchored,stops⟩
  · rintro ⟨before,anchor,after,rfl,anchored,stops⟩
    refine (started (findAnchor_iff.mpr ⟨before,anchor,after,rfl,rfl,anchored⟩)).mpr ?_
    rwa [Nat.zero_add,List.drop_left]

/-! Account and packet proofs. -/

omit [Bls] in
theorem readAccountChecked_eq (header : Header) (answer : Except StateRpcError Json) (addr : Address) :
    readAccountChecked header answer addr = some (readAccount header answer addr) := by
  cases answer with
  | error e => rfl
  | ok resp =>
    simp only [readAccountChecked,Checked.stateRoot_eq,Checked.verifyProof_eq,Checked.decodeAccount_eq]
    unfold readAccount
    dsimp only [Except.toOption,okOr,bind,Except.bind]
    cases parseRoot32 resp "accountRoot" with
    | error e => rfl
    | ok accountRoot =>
      cases parseRoot32 resp "storageRoot" with
      | error e => rfl
      | ok storageRoot =>
        dsimp only
        by_cases bound : stateRoot accountRoot storageRoot = header.stateRoot
        · rw [if_neg (not_not.mpr bound),if_neg (not_not.mpr bound)]
          cases (resp.get "proof").bind Rpc.parseProof with
          | none => rfl
          | some proof =>
            cases verified : Mpt.verify (accountKey addr) proof accountRoot with
            | false => simp only [verified]; rfl
            | true =>
              cases value : proof.value with
              | none => simp only [verified,value]; rfl
              | some raw =>
                cases decoded : Account.decode raw <;> simp only [verified,value,decoded] <;> rfl
        · rw [if_pos bound,if_pos bound]
          rfl

omit [Bls] in
theorem verifyPacket_eq (commit : IbcCommitment) (index : U32) (proof : Mpt.MptProof) (expected : Bytes) :
    verifyPacket commit index proof expected = some (
      if Mpt.verify (packetKey index) proof commit.mptRoot = true ∧ proof.value = some expected
      then .ok () else .error .proof) := by
  unfold verifyPacket
  rw [Checked.verifyProof_eq]
  cases verified : Mpt.verify (packetKey index) proof commit.mptRoot with
  | false => rfl
  | true =>
    cases value : proof.value with
    | none => rfl
    | some v => by_cases same : v = expected <;> simp [same]

/-- Where the light client stops, over everything that a peer may send: at a certificate that lists no
signer, and at a header behind one at the last height. The proofs never stop it. -/
theorem light_client_stops_iff :
    (∀ header qc validators,
      verifyQc header qc validators = none ↔ EmptyCertificate header qc validators) ∧
    (∀ checkpoint headers validators,
      syncCheckpoints checkpoint headers validators = none ↔
        ∃ before anchor after, headers = before ++ anchor :: after ∧
          Anchored checkpoint before anchor ∧ Stops validators none (anchor :: after)) ∧
    (∀ header qc validators source addr,
      verifyAccountChecked header qc validators source addr = none ↔
        EmptyCertificate header qc validators) ∧
    ∀ commit index proof expected, verifyPacket commit index proof expected ≠ none := by
  refine ⟨fun _ _ _ => verifyQc_none_iff,fun _ _ _ => syncCheckpoints_none_iff,?_,?_⟩
  · intro header qc validators source addr
    rw [← verifyQc_none_iff]
    unfold verifyAccountChecked
    simp only [readAccountChecked_eq]
    cases verifyQc header qc validators with
    | none => simp
    | some result => cases result <;> simp
  · intro commit index proof expected
    rw [verifyPacket_eq]
    exact Option.some_ne_none _

end L1.Light

namespace L1.Light.Sample

attribute [local instance] LoneSigner.bls LoneSigner.blake3

def unsigned : QuorumCertificate := { LoneSigner.certificate 3 with signers := [] }

def announced (height : Height) : AnnouncedHeader :=
  let last : Header := { LoneSigner.header with fields := ⟨height,0,LoneSigner.validator 1,0⟩ }
  ⟨last,{ LoneSigner.certificate 3 with height, block := .block last.hash }⟩

def last : AnnouncedHeader := announced (BitVec.allOnes 64)

/-- A certificate without signers stops the client, and so does any verified header behind one at the
last height, here the first one. -/
theorem unsigned_last_stop :
    verifyQc LoneSigner.header unsigned LoneSigner.validators = none ∧
    syncCheckpoints ⟨0,LoneSigner.header.hash⟩ [⟨LoneSigner.header,unsigned⟩] LoneSigner.validators = none ∧
    verifyAccountChecked LoneSigner.header unsigned LoneSigner.validators (fun _ => .ok .null)
      zeroHash = none ∧
    syncCheckpoints ⟨BitVec.allOnes 64,last.header.hash⟩ [last] LoneSigner.validators =
      some (.ok last.header) ∧
    syncCheckpoints ⟨BitVec.allOnes 64,last.header.hash⟩ [last,announced 0] LoneSigner.validators =
      none := by
  decide +kernel

end L1.Light.Sample
