import Mathlib.Algebra.BigOperators.Group.Finset.Basic
import Mathlib.Algebra.Order.BigOperators.Group.Finset
import Mathlib.Tactic.Common

/-! Weighted quorums and voting over rounds with locks. Both parts are about
arbitrary voters and values; a faulty voter may vote for everything. -/
namespace L1.Quorum

variable {V B : Type*}

/-- Voters with weights. The faulty ones hold less than a third of the weight. -/
structure Electorate (V : Type*) where
  members : Finset V
  weight : V → ℕ
  faulty : Finset V
  minority : 3 * ∑ i ∈ faulty, weight i < ∑ i ∈ members, weight i

namespace Electorate

variable (e : Electorate V)

def power (s : Finset V) : ℕ := ∑ i ∈ s, e.weight i

structure IsQuorum (s : Finset V) : Prop where
  sub : s ⊆ e.members
  most : 2 * e.power e.members < 3 * e.power s

def Supported (voted : V → Prop) : Prop :=
  ∃ s, e.IsQuorum s ∧ ∀ i ∈ s, i ∉ e.faulty → voted i

variable {e}

theorem Supported.mono {p q : V → Prop} (supported : e.Supported p) (weaker : ∀ i, p i → q i) :
    e.Supported q := by
  obtain ⟨s,quorum,all⟩ := supported
  exact ⟨s,quorum,fun i inside honest => weaker i (all i inside honest)⟩

variable [DecidableEq V]

/-- Two quorums share an honest voter. -/
theorem IsQuorum.meet {s t : Finset V} (first : e.IsQuorum s) (second : e.IsQuorum t) :
    ∃ i, i ∈ s ∧ i ∈ t ∧ i ∉ e.faulty := by
  by_contra none
  have inside : s ∩ t ⊆ e.faulty := by
    intro i both
    by_contra honest
    exact none ⟨i,Finset.mem_of_mem_inter_left both,Finset.mem_of_mem_inter_right both,honest⟩
  have few : e.power (s ∩ t) ≤ e.power e.faulty := Finset.sum_le_sum_of_subset inside
  have join : e.power (s ∪ t) + e.power (s ∩ t) = e.power s + e.power t :=
    Finset.sum_union_inter
  have all : e.power (s ∪ t) ≤ e.power e.members :=
    Finset.sum_le_sum_of_subset (Finset.union_subset first.sub second.sub)
  have minority : 3 * e.power e.faulty < e.power e.members := e.minority
  have := first.most
  have := second.most
  omega

theorem Supported.meet {p q : V → Prop} (first : e.Supported p) (second : e.Supported q) :
    ∃ i ∈ e.members, i ∉ e.faulty ∧ p i ∧ q i := by
  obtain ⟨s,quorum,all⟩ := first
  obtain ⟨t,quorum',all'⟩ := second
  obtain ⟨i,left,right,honest⟩ := quorum.meet quorum'
  exact ⟨i,quorum.sub left,honest,all i left honest,all' i right honest⟩

end Electorate

/-- Voting in numbered rounds. A voter precommits a value only on a quorum of
prevotes for it, and after a precommit leaves the value only on a later quorum. -/
structure LockedVoting (e : Electorate V) (B : Type*) where
  prevoted : V → ℕ → B → Prop
  precommitted : V → ℕ → B → Prop
  unique : ∀ {i r a b}, i ∈ e.members → i ∉ e.faulty →
    precommitted i r a → precommitted i r b → a = b
  polka : ∀ {i r b}, i ∈ e.members → i ∉ e.faulty →
    precommitted i r b → e.Supported fun j => prevoted j r b
  locked : ∀ {i r a r' b}, i ∈ e.members → i ∉ e.faulty → precommitted i r a →
    prevoted i r' b → r < r' →
    b = a ∨ ∃ q, r < q ∧ q < r' ∧ e.Supported fun j => prevoted j q b

namespace LockedVoting

variable {e : Electorate V} (p : LockedVoting e B)

def Polka (r : ℕ) (b : B) : Prop := e.Supported fun i => p.prevoted i r b

def Decided (r : ℕ) (b : B) : Prop := e.Supported fun i => p.precommitted i r b

variable {p} [DecidableEq V]

/-- A decision fixes the value of every later quorum of prevotes. -/
theorem Decided.polka_eq {r : ℕ} {a : B} (decided : p.Decided r a) :
    ∀ {r' b}, r < r' → p.Polka r' b → b = a := by
  intro r'
  induction r' using Nat.strong_induction_on with
  | _ r' earlier =>
    intro b later polka
    -- an honest voter stands behind the decision and behind this polka
    obtain ⟨i,member,honest,precommit,prevote⟩ := decided.meet polka
    rcases p.locked member honest precommit prevote later with same | ⟨q,above,before,unlock⟩
    · exact same
    · exact earlier q before above unlock

theorem Decided.polka {r : ℕ} {a : B} (decided : p.Decided r a) : p.Polka r a := by
  obtain ⟨i,member,honest,precommit,-⟩ := decided.meet decided
  exact p.polka member honest precommit

theorem Decided.eq {r r' : ℕ} {a b : B} (first : p.Decided r a) (second : p.Decided r' b) :
    a = b := by
  rcases lt_trichotomy r r' with before | rfl | after
  · exact (first.polka_eq before second.polka).symm
  · obtain ⟨i,member,honest,one,other⟩ := first.meet second
    exact p.unique member honest one other
  · exact second.polka_eq after first.polka

end LockedVoting
end L1.Quorum
