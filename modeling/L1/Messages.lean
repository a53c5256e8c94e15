import L1.BodyBinding

/-! The byte strings that are signed and hashed do not stand for one another. Domains are told apart by
their labels, votes and replay preimages of one domain by their lengths, and receipts, which carry no
label, by the codec version in front. -/
namespace L1

namespace Receipt

theorem reasonByte_injective {a b : Option RejectReason} (same : reasonByte a = reasonByte b) : a = b := by
  rcases a with _ | ⟨⟨⟩⟩ <;> rcases b with _ | ⟨⟨⟩⟩ <;> first | rfl | exact absurd same (by decide)

/-- The tag of an event fixes how many bytes it takes. -/
theorem eventBytes_append {e f : Event} {p q : Bytes} (same : eventBytes e ++ p = eventBytes f ++ q) :
    e = f ∧ p = q := by
  cases e with
  | transfer sender toAddr amount => cases f with
    | transfer sender' toAddr' amount' =>
      simp only [eventBytes,List.cons_append,List.cons.injEq,true_and] at same
      obtain ⟨same,rest⟩ := List.append_inj same (by simp)
      obtain ⟨same,amounts⟩ := List.append_inj same (by simp)
      obtain ⟨senders,targets⟩ := List.append_inj same (by simp)
      exact ⟨by rw [toList_injective senders,toList_injective targets,
        toBeBytes_injective 16 (by decide) amounts],rest⟩
    | stake => simp [eventBytes] at same
    | wasm => simp [eventBytes] at same
  | stake sender amount => cases f with
    | transfer => simp [eventBytes] at same
    | stake sender' amount' =>
      simp only [eventBytes,List.cons_append,List.cons.injEq,true_and] at same
      obtain ⟨same,rest⟩ := List.append_inj same (by simp)
      obtain ⟨senders,amounts⟩ := List.append_inj same (by simp)
      exact ⟨by rw [toList_injective senders,toBeBytes_injective 16 (by decide) amounts],rest⟩
    | wasm => simp [eventBytes] at same
  | wasm sender contract => cases f with
    | transfer => simp [eventBytes] at same
    | stake => simp [eventBytes] at same
    | wasm sender' contract' =>
      simp only [eventBytes,List.cons_append,List.cons.injEq,true_and] at same
      obtain ⟨same,rest⟩ := List.append_inj same (by simp)
      obtain ⟨senders,contracts⟩ := List.append_inj same (by simp)
      exact ⟨by rw [toList_injective senders,toList_injective contracts],rest⟩

theorem eventBytes_ne_nil (e : Event) : eventBytes e ≠ [] := by
  cases e <;> simp [eventBytes]

theorem events_injective {l m : List Event} (same : l.flatMap eventBytes = m.flatMap eventBytes) :
    l = m := by
  induction l generalizing m with
  | nil =>
    cases m with
    | nil => rfl
    | cons f m => exact absurd (List.append_eq_nil_iff.mp same.symm).1 (eventBytes_ne_nil f)
  | cons e l ih =>
    cases m with
    | nil => exact absurd (List.append_eq_nil_iff.mp same).1 (eventBytes_ne_nil e)
    | cons f m =>
      rw [List.flatMap_cons,List.flatMap_cons] at same
      obtain ⟨first,rest⟩ := eventBytes_append same
      rw [first,ih rest]

/-- The bytes of a receipt determine it, also where its number of events is past the width of the count. -/
theorem encode_injective {a b : Receipt} (same : a.encode = b.encode) : a = b := by
  obtain ⟨success,gas,events,reason⟩ := a
  obtain ⟨success',gas',events',reason'⟩ := b
  have payload := Encoding.encode_injective same
  simp only [List.cons.injEq] at payload
  obtain ⟨flag,payload⟩ := payload
  obtain ⟨gases,payload⟩ := List.append_inj payload (by simp)
  simp only [List.cons.injEq] at payload
  obtain ⟨reasons,payload⟩ := payload
  obtain ⟨-,listed⟩ := List.append_inj payload (by simp)
  have flags : success = success' := by
    cases success <;> cases success' <;> simp at flag ⊢
  rw [flags,toBeBytes_injective 8 (by decide) gases,reasonByte_injective reasons,events_injective listed]

end Receipt

/-- What is signed for consensus and for transactions, what the replay log hashes, and what the receipts
root is over. A proposal signs its header. -/
inductive Message where
  | vote (height : Height) (round : Round) (kind : VoteKind) (block : VoteBlock)
  | proposal (header : Header)
  | transaction (tx : Tx)
  | receipt (receipt : Receipt)
  | replayKey (signer : ValidatorId) (height : Height) (round : Round) (kind : VoteKind)
  | voteHash (signer : ValidatorId) (height : Height) (round : Round) (kind : VoteKind) (block : VoteBlock)

namespace Message

def bytes : Message → Bytes
  | vote height round kind block => signedMessage height round kind block
  | proposal header => proposalMessage header
  | transaction tx => tx.signedMessage
  | receipt r => r.encode
  | replayKey signer height round kind => replayPreimage signer height round kind []
  | voteHash signer height round kind block => replayPreimage signer height round kind block.encode

def domain : Message → Option DomainTag
  | vote .. => some .vote
  | proposal _ => some .header
  | transaction _ => some .tx
  | receipt _ => none
  | replayKey .. => some .vote
  | voteHash .. => some .vote

theorem bytes_domain {m : Message} {tag : DomainTag} (tagged : m.domain = some tag) :
    ∃ payload, m.bytes = tag.apply payload := by
  cases m <;> cases tagged <;> exact ⟨_,rfl⟩

theorem apply_ne_encode (tag : DomainTag) (payload plain : Bytes) :
    tag.apply payload ≠ Encoding.encode plain := by
  intro same
  have first := congrArg List.head? same
  simp [DomainTag.apply,ascii,Encoding.encode,Encoding.codecVersion] at first

/-- Equal bytes are of one domain. -/
theorem domain_eq {a b : Message} (same : a.bytes = b.bytes) : a.domain = b.domain := by
  cases left : a.domain with
  | none =>
    cases right : b.domain with
    | none => rfl
    | some tag =>
      obtain ⟨payload,tagged⟩ := bytes_domain right
      cases a <;> cases left
      exact absurd (tagged.symm.trans same.symm) (apply_ne_encode tag payload _)
  | some tag =>
    obtain ⟨payload,tagged⟩ := bytes_domain left
    cases right : b.domain with
    | none =>
      cases b <;> cases right
      exact absurd (tagged.symm.trans same) (apply_ne_encode tag payload _)
    | some tag' =>
      obtain ⟨payload',tagged'⟩ := bytes_domain right
      rw [tagged,tagged'] at same
      rw [(DomainTag.apply_injective same).1]

variable {h h' : Height} {r r' : Round} {k k' : VoteKind} {blockId : Bytes}

/-- A replay preimage names its signer, and is too long for a vote. -/
theorem signedMessage_ne_replayPreimage {block : VoteBlock} {signer : ValidatorId} :
    signedMessage h r k block ≠ replayPreimage signer h' r' k' blockId := by
  intro same
  have lengths := congrArg List.length (DomainTag.apply_injective same).2
  cases block <;> simp [VoteBlock.encode] at lengths <;> omega

theorem blockBytes_ne_nil (block : VoteBlock) : block.encode ≠ [] := by
  cases block <;> simp [VoteBlock.encode]

theorem key_eq_iff {s s' : ValidatorId} :
    replayPreimage s h r k [] = replayPreimage s' h' r' k' blockId ↔
      (s = s' ∧ h = h' ∧ r = r' ∧ k = k') ∧ blockId = [] := by
  constructor
  · intro same
    obtain ⟨signers,heights,rounds,kinds,bodies⟩ := replayPreimage_injective same
    exact ⟨⟨signers,heights,rounds,kinds⟩,bodies.symm⟩
  · rintro ⟨⟨rfl,rfl,rfl,rfl⟩,rfl⟩
    rfl

theorem bytes_injective : Function.Injective bytes := by
  intro a b same
  have domains := domain_eq same
  -- only the vote domain holds messages of several kinds
  cases a with
  | vote h r k block => cases b with
    | vote h' r' k' block' =>
      obtain ⟨rfl,rfl,rfl,rfl⟩ := signedMessage_injective same
      rfl
    | replayKey => exact absurd same signedMessage_ne_replayPreimage
    | voteHash => exact absurd same signedMessage_ne_replayPreimage
    | _ => cases domains
  | proposal header => cases b with
    | proposal header' => rw [Header.hashPreimage_injective (DomainTag.apply_injective same).2]
    | _ => cases domains
  | transaction tx => cases b with
    | transaction tx' => rw [Tx.encode_injective (DomainTag.apply_injective same).2]
    | _ => cases domains
  | receipt r => cases b with
    | receipt r' => rw [Receipt.encode_injective same]
    | _ => cases domains
  | replayKey s h r k => cases b with
    | vote => exact absurd same.symm signedMessage_ne_replayPreimage
    | replayKey s' h' r' k' =>
      obtain ⟨⟨rfl,rfl,rfl,rfl⟩,-⟩ := key_eq_iff.mp same
      rfl
    | voteHash s' h' r' k' block => exact absurd (key_eq_iff.mp same).2 (blockBytes_ne_nil block)
    | _ => cases domains
  | voteHash s h r k block => cases b with
    | vote => exact absurd same.symm signedMessage_ne_replayPreimage
    | replayKey s' h' r' k' => exact absurd (key_eq_iff.mp same.symm).2 (blockBytes_ne_nil block)
    | voteHash s' h' r' k' block' =>
      obtain ⟨rfl,rfl,rfl,rfl,blocks⟩ := replayPreimage_injective same
      rw [VoteBlock.encode_injective blocks]
    | _ => cases domains

/-- Tags, votes and receipts are injective; a replay key and the hash of a body have one preimage exactly
if they are of one slot and the body is empty, which that of a vote never is. -/
theorem messages_unambiguous :
    (∀ (s t : DomainTag) (p q : Bytes), s.apply p = t.apply q → s = t ∧ p = q) ∧
    (∀ (h h' : Height) (r r' : Round) (k k' : VoteKind) (b b' : VoteBlock),
      signedMessage h r k b = signedMessage h' r' k' b' → h = h' ∧ r = r' ∧ k = k' ∧ b = b') ∧
    (∀ (s s' : ValidatorId) (h h' : Height) (r r' : Round) (k k' : VoteKind) (blockId : Bytes),
      replayPreimage s h r k [] = replayPreimage s' h' r' k' blockId ↔
        (s = s' ∧ h = h' ∧ r = r' ∧ k = k') ∧ blockId = []) ∧
    (∀ (s s' : ValidatorId) (h h' : Height) (r r' : Round) (k k' : VoteKind) (block : VoteBlock),
      replayPreimage s h r k [] ≠ replayPreimage s' h' r' k' block.encode) ∧
    (∀ a b : Receipt, a.encode = b.encode → a = b) ∧
    Function.Injective bytes :=
  ⟨fun _ _ _ _ => DomainTag.apply_injective,fun _ _ _ _ _ _ _ _ => signedMessage_injective,
    fun _ _ _ _ _ _ _ _ _ => key_eq_iff,
    fun _ _ _ _ _ _ _ _ block same => blockBytes_ne_nil block (key_eq_iff.mp same).2,
    fun _ _ => Receipt.encode_injective,bytes_injective⟩

/-- The hash of an empty body is the replay key of its slot. -/
theorem empty_body_is_key : ¬ ∀ (s s' : ValidatorId) (h h' : Height) (r r' : Round) (k k' : VoteKind)
    (blockId : Bytes), replayPreimage s h r k [] ≠ replayPreimage s' h' r' k' blockId :=
  fun apart => apart (Vector.replicate 48 1) _ 4 _ 2 _ .prevote _ [] rfl

end Message
end L1
