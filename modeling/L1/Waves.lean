import L1.Speculation

/-! The waves of the scheduler. Its candidates are the numbers below the count of vertices, whatever the
vertices are called: they are always parted into independent waves, and these are the results of a
block exactly if the results are numbered from zero. -/
namespace L1.Stm

section Conflicts

/-- One transaction writes what another reads or writes. -/
def Conflict (a b : SpecTx) : Prop := ∃ key, key ∈ a.writes ∧ (key ∈ b.reads ∨ key ∈ b.writes)

theorem isEmpty_hit (a b : SpecTx) : (hit a b).isEmpty = false ↔ Conflict a b := by
  rw [← Bool.not_eq_true,Std.ExtTreeSet.isEmpty_iff,Std.ExtTreeSet.eq_empty_iff_forall_not_mem]
  simp only [hit,unionRw,Std.ExtTreeSet.mem_inter_iff,Std.ExtTreeSet.mem_union_iff,Conflict,not_forall,not_not]

def Linked (adj : Map Nat (OrdSet Nat)) (i j : Nat) : Prop := ∃ nbrs, adj[i]? = some nbrs ∧ j ∈ nbrs

structure Grows (adj adj' : Map Nat (OrdSet Nat)) : Prop where
  vertices : ∀ k, k ∈ adj' ↔ k ∈ adj
  edges : ∀ i j, Linked adj i j → Linked adj' i j

theorem Grows.refl (adj : Map Nat (OrdSet Nat)) : Grows adj adj := ⟨fun _ => .rfl,fun _ _ edge => edge⟩

theorem Grows.trans {a b c : Map Nat (OrdSet Nat)} (first : Grows a b) (second : Grows b c) : Grows a c :=
  ⟨fun k => (second.vertices k).trans (first.vertices k),fun i j edge => second.edges i j (first.edges i j edge)⟩

theorem addNeighbor_grows {adj : Map Nat (OrdSet Nat)} {i : Nat} (known : i ∈ adj) (j : Nat) :
    ∃ adj', addNeighbor adj i j = some adj' ∧ Grows adj adj' ∧ Linked adj' i j := by
  obtain ⟨nbrs,held⟩ := Option.isSome_iff_exists.mp (by simpa using known : (adj[i]?).isSome)
  refine ⟨adj.insert i (nbrs.insert j),by simp only [addNeighbor,held],⟨fun k => ?_,?_⟩,?_⟩
  · rw [Std.ExtTreeMap.mem_insert,Std.compare_eq_iff_eq]
    exact or_iff_right_of_imp fun same => same ▸ known
  · rintro a b ⟨old,found,member⟩
    by_cases same : a = i
    · subst same
      obtain rfl := Option.some_inj.mp (held.symm.trans found)
      exact ⟨nbrs.insert j,by simp,Std.ExtTreeSet.mem_insert.mpr (.inr member)⟩
    · exact ⟨old,by rw [Map.get?_insert,if_neg same,found],member⟩
  · exact ⟨nbrs.insert j,by simp,Std.ExtTreeSet.mem_insert_self⟩

def Joined (a b : SpecTx) (g : ConflictGraph) : Prop :=
  a.index ≠ b.index → Conflict a b → Linked g.adj a.index b.index ∧ Linked g.adj b.index a.index

theorem Joined.grows {a b : SpecTx} {g g' : ConflictGraph} (joined : Joined a b g)
    (grows : Grows g.adj g'.adj) : Joined a b g' := by
  intro apart conflict
  obtain ⟨ahead,back⟩ := joined apart conflict
  exact ⟨grows.edges _ _ ahead,grows.edges _ _ back⟩

theorem addConflict_joins {g : ConflictGraph} {a b : SpecTx} (first : a.index ∈ g.adj)
    (second : b.index ∈ g.adj) :
    ∃ g', addConflict g a b = some g' ∧ Grows g.adj g'.adj ∧ Joined a b g' := by
  unfold addConflict
  split
  · rename_i none
    refine ⟨g,rfl,.refl _,fun apart conflict => ?_⟩
    have some_ := (isEmpty_hit a b).mpr conflict
    rcases none with same | empty
    · exact absurd same apart
    · rw [some_] at empty
      cases empty
  obtain ⟨adj,added,grows,ahead⟩ := addNeighbor_grows first b.index
  obtain ⟨adj',added',grows',back⟩ := addNeighbor_grows ((grows.vertices _).mpr second) a.index
  refine ⟨{ adj := adj',directed := g.directed.insert (a.index,b.index) },?_,grows.trans grows',
    fun _ _ => ⟨grows'.edges _ _ ahead,back⟩⟩
  rw [added]
  simp only [added',Option.bind_eq_bind,Option.bind_some]
  rfl

theorem mem_isolated (specs : List SpecTx) (k : Nat) :
    k ∈ (isolated specs).adj ↔ k ∈ specs.map SpecTx.index := by
  have inside (specs : List SpecTx) (adj : Map Nat (OrdSet Nat)) :
      k ∈ specs.foldl (fun adj s => adj.insertIfNew s.index ∅) adj ↔
        k ∈ adj ∨ k ∈ specs.map SpecTx.index := by
    induction specs generalizing adj with
    | nil => simp
    | cons s rest ih =>
      rw [List.foldl_cons,ih,Std.ExtTreeMap.mem_insertIfNew,Std.compare_eq_iff_eq,List.map_cons,List.mem_cons,
        eq_comm]
      tauto
  rw [isolated,inside,or_iff_right Std.ExtTreeMap.not_mem_empty]

/-- The vertices are the indices of the results, and all conflicts are edges. -/
structure Reflects (specs : List SpecTx) (g : ConflictGraph) : Prop where
  vertices : ∀ k, k ∈ g.adj ↔ k ∈ specs.map SpecTx.index
  edges : ∀ a ∈ specs, ∀ b ∈ specs, Joined a b g

theorem conflictGraph_reflects (specs : List SpecTx) :
    ∃ g, conflictGraph specs = some g ∧ Reflects specs g := by
  let Spanned (g : ConflictGraph) : Prop := ∀ k, k ∈ g.adj ↔ k ∈ specs.map SpecTx.index
  have known {g : ConflictGraph} (spanned : Spanned g) {s : SpecTx} (listed : s ∈ specs) : s.index ∈ g.adj :=
    (spanned _).mpr (List.mem_map_of_mem listed)
  -- one transaction against all others
  have row (a : SpecTx) (first : a ∈ specs) (g : ConflictGraph) (spanned : Spanned g) :
      ∃ g', specs.foldlM (fun g b => addConflict g a b) g = some g' ∧ Spanned g' ∧ Grows g.adj g'.adj ∧
        ∀ b ∈ specs, Joined a b g' := by
    refine Folds.foldlM_reaches Spanned (fun g g' => Grows g.adj g'.adj) (Joined a) (fun _ => .refl _)
      (fun _ _ _ => Grows.trans) (fun _ _ _ grows joined => joined.grows grows) ?_ spanned
    intro b second g spanned
    obtain ⟨g',added,grows,joined⟩ := addConflict_joins (known spanned first) (known spanned second)
    exact ⟨g',added,fun k => (grows.vertices k).trans (spanned k),grows,joined⟩
  obtain ⟨g,built,vertices,-,edges⟩ := Folds.foldlM_reaches Spanned (fun g g' => Grows g.adj g'.adj)
    (fun a g => ∀ b ∈ specs, Joined a b g) (fun _ => .refl _) (fun _ _ _ => Grows.trans)
    (fun _ _ _ grows all b listed => (all b listed).grows grows) row (mem_isolated specs)
  exact ⟨g,built,vertices,edges⟩

theorem Reflects.size {specs : List SpecTx} {g : ConflictGraph} (reflects : Reflects specs g)
    (distinct : (specs.map SpecTx.index).Nodup) : g.adj.size = specs.length := by
  have same : g.adj.keys.Perm (specs.map SpecTx.index) :=
    (List.perm_ext_iff_of_nodup Std.ExtTreeMap.nodup_keys distinct).mpr fun k =>
      Std.ExtTreeMap.mem_keys.trans (reflects.vertices k)
  rw [← Std.ExtTreeMap.length_keys,same.length_eq,List.length_map]

end Conflicts

section Waves

variable {graph : ConflictGraph}

theorem pickWave_sublist (graph : ConflictGraph) (blocked : OrdSet Nat) (cand : List Nat) :
    (pickWave graph blocked cand).Sublist cand := by
  induction cand generalizing blocked with
  | nil => exact .slnil
  | cons i cand ih =>
    rw [pickWave]
    split
    · exact (ih blocked).cons i
    · exact (ih _).cons_cons i

theorem not_blocked {blocked : OrdSet Nat} {cand : List Nat} {i : Nat}
    (taken : i ∈ pickWave graph blocked cand) : i ∉ blocked := by
  induction cand generalizing blocked with
  | nil => cases taken
  | cons k cand ih =>
    rw [pickWave] at taken
    split at taken
    · exact ih taken
    · rename_i free
      rcases List.mem_cons.mp taken with rfl | later
      · exact free
      · exact fun inside => ih later (Std.ExtTreeSet.mem_union_iff.mpr (.inl inside))

/-- A candidate is taken only if none of those before it is its neighbour. -/
theorem pickWave_independent (blocked : OrdSet Nat) (cand : List Nat) :
    (pickWave graph blocked cand).Pairwise fun i j => ¬ Linked graph.adj i j := by
  induction cand generalizing blocked with
  | nil => exact .nil
  | cons i cand ih =>
    rw [pickWave]
    split
    · exact ih blocked
    · refine List.pairwise_cons.mpr ⟨?_,ih _⟩
      rintro j later ⟨nbrs,held,member⟩
      refine not_blocked later (Std.ExtTreeSet.mem_union_iff.mpr (.inr ?_))
      rwa [held,Option.getD_some]

theorem perm_wave (graph : ConflictGraph) {remaining : List Nat} (distinct : remaining.Nodup) :
    (pickWave graph ∅ remaining ++ remaining.filter (· ∉ pickWave graph ∅ remaining)).Perm remaining := by
  have sub := pickWave_sublist graph ∅ remaining
  have taken : (remaining.filter (· ∈ pickWave graph ∅ remaining)).Perm (pickWave graph ∅ remaining) := by
    refine (List.perm_ext_iff_of_nodup (distinct.filter _) (sub.nodup distinct)).mpr fun i => ?_
    simp only [List.mem_filter,decide_eq_true_eq]
    exact and_iff_right_of_imp fun inside => sub.subset inside
  have parts := List.filter_append_perm (fun i => decide (i ∈ pickWave graph ∅ remaining)) remaining
  simp only [decide_not]
  exact (taken.symm.append_right _).trans parts

/-- The waves part the candidates, and no wave holds neighbours. -/
theorem pickWaves_parted {fuel : Nat} {remaining : List Nat} {waves : List (List Nat)}
    (picked : pickWaves graph fuel remaining = some waves) (distinct : remaining.Nodup) :
    waves.flatten.Perm remaining ∧ ∀ wave ∈ waves, wave.Pairwise fun i j => ¬ Linked graph.adj i j := by
  induction fuel generalizing remaining waves with
  | zero =>
    rw [pickWaves] at picked
    split at picked
    · rename_i done
      cases picked
      exact ⟨by rw [done]; exact .nil,fun _ listed => by cases listed⟩
    · cases picked
  | succ fuel ih =>
    rw [pickWaves] at picked
    split at picked
    · rename_i done
      cases picked
      exact ⟨by rw [done]; exact .nil,fun _ listed => by cases listed⟩
    · obtain ⟨rest,others,rfl⟩ := Option.map_eq_some_iff.mp picked
      obtain ⟨parted,independent⟩ := ih others (distinct.filter _)
      refine ⟨?_,List.forall_mem_cons.mpr ⟨pickWave_independent ∅ remaining,independent⟩⟩
      rw [List.flatten_cons]
      exact (parted.append_left _).trans (perm_wave graph distinct)

end Waves

/-- Each result of a slice is in one wave, nothing else is in any, and no wave holds a conflict. -/
structure Scheduled (specs : List SpecTx) (sched : Schedule) : Prop where
  parted : sched.waves.flatten.Perm (specs.map SpecTx.index)
  independent : ∀ wave ∈ sched.waves, ∀ a ∈ specs, ∀ b ∈ specs, a.index ∈ wave → b.index ∈ wave →
    a.index ≠ b.index → ¬ Conflict a b

theorem Reflects.independent {specs : List SpecTx} {g : ConflictGraph} (reflects : Reflects specs g)
    {wave : List Nat} (apart : wave.Pairwise fun i j => ¬ Linked g.adj i j) {a b : SpecTx} (first : a ∈ specs)
    (second : b ∈ specs) (left : a.index ∈ wave) (right : b.index ∈ wave) (other : a.index ≠ b.index) :
    ¬ Conflict a b := by
  intro conflict
  obtain ⟨ahead,back⟩ := reflects.edges a first b second other conflict
  have : Std.Symm fun i j => ¬ (Linked g.adj i j ∧ Linked g.adj j i) :=
    ⟨fun _ _ loose edges => loose edges.symm⟩
  have loose : wave.Pairwise fun i j => ¬ (Linked g.adj i j ∧ Linked g.adj j i) :=
    apart.imp fun none edges => none edges.1
  exact loose.forall left right other ⟨ahead,back⟩

/-- The scheduler returns, and parts the numbers below the count of results into waves without
conflicts. -/
theorem schedule_parted (specs : List SpecTx) (distinct : (specs.map SpecTx.index).Nodup) :
    ∃ graph sched, conflictGraph specs = some graph ∧ schedule graph = some sched ∧
      sched.waves.flatten.Perm (List.range specs.length) ∧
      ∀ wave ∈ sched.waves, ∀ a ∈ specs, ∀ b ∈ specs, a.index ∈ wave → b.index ∈ wave →
        a.index ≠ b.index → ¬ Conflict a b := by
  obtain ⟨graph,built,reflects⟩ := conflictGraph_reflects specs
  obtain ⟨sched,scheduled⟩ := schedule_total graph
  obtain ⟨waves,picked,rfl⟩ := Option.map_eq_some_iff.mp scheduled
  rw [reflects.size distinct] at picked
  obtain ⟨parted,apart⟩ := pickWaves_parted picked List.nodup_range
  exact ⟨graph,⟨waves⟩,built,scheduled,parted,fun wave listed a first b second =>
    reflects.independent (apart wave listed) first second⟩

/-- Waves of the numbers below the count are those of the results if these are numbered so. -/
theorem scheduled_iff {specs : List SpecTx} {sched : Schedule} (distinct : (specs.map SpecTx.index).Nodup)
    (parted : sched.waves.flatten.Perm (List.range specs.length))
    (independent : ∀ wave ∈ sched.waves, ∀ a ∈ specs, ∀ b ∈ specs, a.index ∈ wave → b.index ∈ wave →
      a.index ≠ b.index → ¬ Conflict a b) :
    Scheduled specs sched ↔ ∀ s ∈ specs, s.index < specs.length := by
  refine ⟨fun whole s listed => ?_,fun numbered => ⟨?_,independent⟩⟩
  · have named := whole.parted.symm.subset (List.mem_map_of_mem listed)
    exact List.mem_range.mp (parted.subset named)
  · -- distinct numbers below their count are all of these
    have below : specs.map SpecTx.index ⊆ List.range specs.length := by
      intro i named
      obtain ⟨s,listed,rfl⟩ := List.mem_map.mp named
      exact List.mem_range.mpr (numbered s listed)
    have all := (distinct.subperm below).perm_of_length_le (by simp)
    exact parted.trans all.symm

section Suffixes

variable [Blake3] [Ed25519] [Wasm]

variable {pre : World} {slots : VersionedSlots} {txs : List SignedTx} {specs : List SpecTx}

theorem index_speculate {index : Nat} (ran : speculate pre slots index txs = some specs) :
    specs.map SpecTx.index = List.range' index specs.length := by
  induction txs generalizing index specs with
  | nil =>
    cases ran
    rfl
  | cons signed rest ih =>
    rw [speculate] at ran
    obtain ⟨spec,first,ran⟩ := Option.bind_eq_some_iff.mp ran
    obtain ⟨others,later,ran⟩ := Option.bind_eq_some_iff.mp ran
    cases ran
    obtain ⟨observed,-,first⟩ := Option.bind_eq_some_iff.mp first
    obtain ⟨result,-,first⟩ := Option.bind_eq_some_iff.mp first
    obtain ⟨again,-,first⟩ := Option.bind_eq_some_iff.mp first
    cases first
    rw [List.map_cons,ih later,List.length_cons,List.range'_succ]

/-- Of the slices that the pipeline schedules, only the whole one gets its own waves. -/
theorem suffix_scheduled_iff (ran : speculate pre slots 0 txs = some specs) (k : Nat) :
    ∃ graph sched, conflictGraph (specs.drop k) = some graph ∧ schedule graph = some sched ∧
      (Scheduled (specs.drop k) sched ↔ k = 0 ∨ specs.length ≤ k) := by
  have indices : (specs.drop k).map SpecTx.index = List.range' k (specs.length - k) := by
    rw [List.map_drop,index_speculate ran,List.drop_range',Nat.mul_one,Nat.zero_add]
  have distinct : ((specs.drop k).map SpecTx.index).Nodup := indices ▸ List.nodup_range'
  obtain ⟨graph,sched,built,scheduled,parted,independent⟩ := schedule_parted _ distinct
  refine ⟨graph,sched,built,scheduled,
    (scheduled_iff distinct parted independent).trans ⟨fun numbered => ?_,?_⟩⟩
  · by_contra neither
    obtain ⟨later,shorter⟩ := not_or.mp neither
    have last : specs.length - 1 ∈ (specs.drop k).map SpecTx.index := by
      rw [indices,List.mem_range'_1]
      omega
    obtain ⟨s,listed,index⟩ := List.mem_map.mp last
    have small := numbered s listed
    rw [index,List.length_drop] at small
    omega
  · intro either s listed
    have named := List.mem_map_of_mem (f := SpecTx.index) listed
    rw [indices,List.mem_range'_1] at named
    rw [List.length_drop]
    omega

end Suffixes

/-- The waves of a slice are its results exactly if all of them are numbered below their count. -/
theorem schedule_iff (specs : List SpecTx) (distinct : (specs.map SpecTx.index).Nodup) :
    ∃ graph sched, conflictGraph specs = some graph ∧ schedule graph = some sched ∧
      sched.waves.flatten.Perm (List.range specs.length) ∧
      (∀ wave ∈ sched.waves, ∀ a ∈ specs, ∀ b ∈ specs, a.index ∈ wave → b.index ∈ wave →
        a.index ≠ b.index → ¬ Conflict a b) ∧
      (Scheduled specs sched ↔ ∀ s ∈ specs, s.index < specs.length) := by
  obtain ⟨graph,sched,built,scheduled,parted,independent⟩ := schedule_parted specs distinct
  exact ⟨graph,sched,built,scheduled,parted,independent,scheduled_iff distinct parted independent⟩

/-! Two results that write one key, and the second of them alone. -/
namespace Slices

def writer (index : Nat) : SpecTx where
  index
  reads := Std.ExtTreeSet.ofList [[7]] compare
  writes := Std.ExtTreeSet.ofList [[7]] compare
  observed := ∅
  specWorld := { params := ∅ }
  receipt := .fail .gas

theorem whole_slice_scheduled : ([writer 0,writer 1].map SpecTx.index).Nodup ∧
    ∃ graph sched, conflictGraph [writer 0,writer 1] = some graph ∧ schedule graph = some sched ∧
      Scheduled [writer 0,writer 1] sched := by
  have distinct : ([writer 0,writer 1].map SpecTx.index).Nodup := by decide
  obtain ⟨graph,sched,built,scheduled,-,-,exactly⟩ := schedule_iff _ distinct
  exact ⟨distinct,graph,sched,built,scheduled,exactly.mpr (by decide)⟩

/-- The second result alone is waited for under the name of the first. -/
theorem suffix_misnamed : ([writer 1].map SpecTx.index).Nodup ∧
    ((conflictGraph [writer 1]).bind schedule).map Schedule.waves = some [[0]] ∧
    ∀ sched, (conflictGraph [writer 1]).bind schedule = some sched → ¬ Scheduled [writer 1] sched := by
  have waves : ((conflictGraph [writer 1]).bind schedule).map Schedule.waves = some [[0]] := by
    decide +kernel
  refine ⟨by decide,waves,fun sched scheduled whole => ?_⟩
  rw [scheduled,Option.map_some,Option.some_inj] at waves
  have named := whole.parted
  rw [waves] at named
  exact absurd (named.subset List.mem_cons_self) (by decide)

end Slices
end L1.Stm
