import L1.MerkleTree
import Mathlib.Data.Set.Function

/-! What a root says about its leaves. Two layers of one length with one root are equal, unless
two of the couples hashed on the way collide. Of two lengths it says less: a layer and its padded
form have one root. -/
namespace L1.MerkleTree

variable {H : Type} (branch : H → H → H)

def couples : List H → List (H × H)
  | left :: right :: rest => (left,right) :: couples rest
  | _ => []

theorem pairs_eq_map : ∀ layer : List H,
    pairs branch layer = (couples layer).map fun p => branch p.1 p.2
  | [] => rfl
  | [_] => rfl
  | _ :: _ :: rest => by rw [pairs,couples,List.map_cons,pairs_eq_map rest]

def joined : Nat → List H → List (H × H)
  | _, [] => []
  | _, [_] => []
  | 0, _ => []
  | rounds + 1, layer => couples (pad layer) ++ joined rounds (nextLayer branch layer)

theorem couples_injective : ∀ a b : List H, a.length = b.length → a.length % 2 = 0 →
    couples a = couples b → a = b
  | [], [], _, _, _ => rfl
  | [_], _, _, even, _ => by simp at even
  | [], _ :: _, size, _, _ => by simp at size
  | _ :: _ :: _, [], size, _, _ => by simp at size
  | _ :: _ :: _, [_], size, _, _ => by simp at size
  | left :: right :: rest, left' :: right' :: rest', size, even, same => by
    simp only [couples,List.cons.injEq,Prod.mk.injEq] at same
    obtain ⟨⟨rfl,rfl⟩,same⟩ := same
    have shorter : rest.length = rest'.length := by simpa using size
    have even : rest.length % 2 = 0 := by
      simp only [List.length_cons] at even
      omega
    rw [couples_injective rest rest' shorter even same]

theorem pad_injective {a b : List H} (size : a.length = b.length) (same : pad a = pad b) : a = b := by
  have head (layer : List H) : ∃ more, pad layer = layer ++ more := by
    unfold pad
    split
    · exact ⟨_,rfl⟩
    · exact ⟨[],(List.append_nil layer).symm⟩
  obtain ⟨more,left⟩ := head a
  obtain ⟨more',right⟩ := head b
  rw [left,right] at same
  exact (List.append_inj same size).1

/-- A map that is injective on the members of two lists tells them apart. -/
theorem map_injective_on {α β : Type} {f : α → β} {s : Set α} (injective : Set.InjOn f s) :
    ∀ {a b : List α}, (∀ x ∈ a, x ∈ s) → (∀ x ∈ b, x ∈ s) → a.map f = b.map f → a = b
  | [], [], _, _, _ => rfl
  | [], _ :: _, _, _, same => by simp at same
  | _ :: _, [], _, _, same => by simp at same
  | x :: a, y :: b, left, right, same => by
    simp only [List.map_cons,List.cons.injEq] at same
    rw [injective (left x List.mem_cons_self) (right y List.mem_cons_self) same.1,
      map_injective_on injective (fun z member => left z (List.mem_cons_of_mem _ member))
        (fun z member => right z (List.mem_cons_of_mem _ member)) same.2]

theorem nextLayer_injective {s : Set (H × H)} (injective : Set.InjOn (fun p => branch p.1 p.2) s)
    {a b : List H} (size : a.length = b.length) (left : ∀ p ∈ couples (pad a), p ∈ s)
    (right : ∀ p ∈ couples (pad b), p ∈ s) (same : nextLayer branch a = nextLayer branch b) : a = b := by
  rw [nextLayer,nextLayer,pairs_eq_map,pairs_eq_map] at same
  have sizes : (pad a).length = (pad b).length := by rw [length_pad,length_pad,size]
  have even : (pad a).length % 2 = 0 := by
    rw [length_pad]
    omega
  exact pad_injective size
    (couples_injective _ _ sizes even (map_injective_on injective left right same))

theorem root_singleton (rounds : Nat) (top : H) : root branch rounds [top] = some top := by
  cases rounds <;> rfl

/-- Among layers of one length the root determines the layer. -/
theorem root_injective {s : Set (H × H)} (injective : Set.InjOn (fun p => branch p.1 p.2) s)
    (rounds : Nat) (a b : List H) (size : a.length = b.length) (enough : a.length ≤ rounds + 1)
    (left : ∀ p ∈ joined branch rounds a, p ∈ s) (right : ∀ p ∈ joined branch rounds b, p ∈ s)
    (same : root branch rounds a = root branch rounds b) : a = b := by
  induction rounds generalizing a b with
  | zero =>
    cases a with
    | nil => exact (List.length_eq_zero_iff.mp size.symm).symm
    | cons x a =>
      obtain rfl : a = [] := by simpa using enough
      obtain ⟨y,rfl⟩ := List.length_eq_one_iff.mp (size.symm.trans rfl)
      rw [root_singleton,root_singleton] at same
      rw [Option.some.inj same]
  | succ rounds ih =>
    cases a with
    | nil => exact (List.length_eq_zero_iff.mp size.symm).symm
    | cons x a => cases a with
      | nil =>
        obtain ⟨y,rfl⟩ := List.length_eq_one_iff.mp (size.symm.trans rfl)
        rw [root_singleton,root_singleton] at same
        rw [Option.some.inj same]
      | cons x' a =>
        obtain ⟨y,y',b,rfl⟩ : ∃ y y' b', b = y :: y' :: b' := by
          rcases b with _ | ⟨y,_ | ⟨y',b⟩⟩
          · simp at size
          · simp at size
          · exact ⟨y,y',b,rfl⟩
        simp only [joined,List.mem_append] at left right
        simp only [root] at same
        refine nextLayer_injective branch injective size (fun p member => left p (.inl member))
          (fun p member => right p (.inl member)) (ih _ _ ?_ ?_ (fun p member => left p (.inr member))
            (fun p member => right p (.inr member)) same)
        · rw [nextLayer,nextLayer,length_pairs,length_pairs,length_pad,length_pad,size]
        · rw [nextLayer,length_pairs,length_pad]
          simp only [List.length_cons] at enough ⊢
          omega

end L1.MerkleTree
