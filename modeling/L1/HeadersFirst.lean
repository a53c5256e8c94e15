import L1.OfferedChains

/-! Headers first. A header is taken for a height that has none; a body is stored under the header that
comes with it, which nothing compares with the one taken before. -/
namespace L1.Sync

open Codec Blocks

section Phases

variable [Blake3]

/-- The header of a height before the bodies come: the stored one, or the first one received. -/
def announced (store : Store) (remoteHeaders : List Header) (h : Height) : Option Header :=
  match getHeader store h with
  | .ok (some header) => some header
  | _ => remoteHeaders.find? fun header => header.fields.height = h

variable {store store' : Store} {remoteHeaders : List Header} {bodies : List BodyOffer}

theorem getHeader_acceptHeaders
    (done : acceptHeaders store remoteHeaders = (.ok (),store')) (h : Height) (header : Header) :
    getHeader store' h = .ok (some header) ↔ announced store remoteHeaders h = some header := by
  induction remoteHeaders generalizing store with
  | nil =>
    cases done
    unfold announced
    rcases getHeader store' h with e | (_ | found) <;> simp
  | cons first rest ih =>
    rw [acceptHeaders] at done
    split at done
    · cases done
    · rename_i known stored
      rw [ih done]
      unfold announced
      by_cases own : first.fields.height = h
      · rw [← own,stored]
      · rw [List.find?_cons_of_neg (by simpa using own)]
    · rename_i stored
      rw [ih done]
      unfold announced
      rw [getHeader_putHeader]
      by_cases own : h = first.fields.height
      · rw [if_pos own,own,stored,List.find?_cons_of_pos (by simp)]
      · rw [if_neg own,List.find?_cons_of_neg (by simpa [eq_comm] using own)]

omit [Blake3] in
theorem announced_stored {h : Height} {header : Header} (remoteHeaders : List Header)
    (held : getHeader store h = .ok (some header)) : announced store remoteHeaders h = some header := by
  rw [announced,held]

theorem getHeader_offerOps (store : Store) (offer : BodyOffer) (h : Height) :
    getHeader (applyBatch store (offerOps offer)) h =
      if h = offer.header.fields.height then .ok (some offer.header) else getHeader store h := by
  have found := get?_header store offer h
  by_cases own : h = offer.header.fields.height
  · rw [if_pos own] at found ⊢
    simp only [getHeader,found,headerFromPreimage_hashPreimage]
  · rw [if_neg own] at found ⊢
    rw [getHeader,getHeader,found]

theorem getHeader_stored
    (matched : ∀ offer ∈ bodies, getHeader store offer.header.fields.height = .ok (some offer.header))
    (h : Height) : getHeader (stored store bodies) h = getHeader store h := by
  induction bodies generalizing store with
  | nil => rfl
  | cons offer rest ih =>
    obtain ⟨here,later⟩ := List.forall_mem_cons.mp matched
    have same (h : Height) : getHeader (applyBatch store (offerOps offer)) h = getHeader store h := by
      rw [getHeader_offerOps]
      split
      · rename_i own
        rw [own,here]
      · rfl
    refine (ih fun other member => ?_).trans (same h)
    rw [same]
    exact later other member

theorem headersThenBodies_steps {top : Option Height}
    (done : headersThenBodies store remoteHeaders bodies = some (.ok top,store')) :
    ∃ middle, acceptHeaders store remoteHeaders = (.ok (),middle) ∧ store' = stored middle bodies := by
  unfold headersThenBodies at done
  split at done
  · cases done
  split at done
  · cases done
  rename_i middle accepted
  split at done
  · cases done
  · cases done
  rename_i last ingested
  split at done
  · cases done
  cases done
  exact ⟨middle,accepted,(acceptBodies_ok_iff.mp ingested).2⟩

/-- Bodies stand under the headers that were there before them, and no stored header is replaced. -/
structure Consistent (store : Store) (remoteHeaders : List Header) (bodies : List BodyOffer)
    (store' : Store) : Prop where
  bodies : ∃ middle, acceptHeaders store remoteHeaders = (.ok (),middle) ∧
    ∀ offer ∈ bodies, getHeader middle offer.header.fields.height = .ok (some offer.header)
  headers : ∀ (h : Height) (header : Header), getHeader store h = .ok (some header) →
    getHeader store' h = .ok (some header)

/-- A sync is consistent exactly if every offer carries the header announced for its height. -/
theorem consistent_iff (store store' : Store) (remoteHeaders : List Header) (bodies : List BodyOffer)
    (top : Option Height)
    (done : headersThenBodies store remoteHeaders bodies = some (.ok top,store')) :
    Consistent store remoteHeaders bodies store' ↔
      ∀ offer ∈ bodies, announced store remoteHeaders offer.header.fields.height = some offer.header := by
  obtain ⟨middle,accepted,rfl⟩ := headersThenBodies_steps done
  constructor
  · rintro ⟨⟨middle',again,matched⟩,-⟩ offer member
    obtain rfl : middle = middle' := congrArg Prod.snd (accepted.symm.trans again)
    exact (getHeader_acceptHeaders accepted _ _).mp (matched offer member)
  · intro carried
    have matched (offer : BodyOffer) (member : offer ∈ bodies) :
        getHeader middle offer.header.fields.height = .ok (some offer.header) :=
      (getHeader_acceptHeaders accepted _ _).mpr (carried offer member)
    refine ⟨⟨middle,accepted,matched⟩,fun h header held => ?_⟩
    rw [getHeader_stored matched]
    exact (getHeader_acceptHeaders accepted h header).mpr (announced_stored remoteHeaders held)

end Phases

namespace Sample

open Holdings.Sample

attribute [local instance] Holdings.Sample.blake3 ed25519 wasm

def matching : Except TopicError (Option Height) × Store :=
  (headersThenBodies ∅ [trusted.header] [trusted]).get (by decide +kernel)

/-- A body under the header that was received for it. -/
theorem announced_body_stored :
    headersThenBodies ∅ [trusted.header] [trusted] = some (.ok (some 0),matching.2) ∧
      Consistent ∅ [trusted.header] [trusted] matching.2 := by
  have whole : headersThenBodies ∅ [trusted.header] [trusted] = some matching := (Option.some_get _).symm
  have accepted : matching.1 = .ok (some 0) := by decide +kernel
  have done : headersThenBodies ∅ [trusted.header] [trusted] = some (.ok (some 0),matching.2) := by
    rw [whole,← accepted]
  exact ⟨done,(consistent_iff _ _ _ _ _ done).mpr (by decide +kernel)⟩

/-- One header is received for height zero and a body is stored under another one; a later sync replaces
the header that is stored. -/
theorem other_body_stored :
    (headersThenBodies ∅ [trusted.header] [other]).map (fun r =>
      (r.1,(getHeader r.2 0).toOption)) = some (.ok (some 0),some (some other.header)) ∧
    (getHeader matching.2 0).toOption = some (some trusted.header) ∧
    (headersThenBodies matching.2 [] [other]).map (fun r =>
      (r.1,(getHeader r.2 0).toOption)) = some (.ok (some 0),some (some other.header)) ∧
    other.header ≠ trusted.header := by
  decide +kernel

end Sample
end L1.Sync
