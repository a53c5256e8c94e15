import L1.Versioned

/-! Versioned slots as a history per key. Version headers and values share one key space, so the
history of a key is kept as long as no key in use is the key of a value. -/
namespace L1.VersionedSlots

def writes (slots : VersionedSlots) (ws : List (Bytes × Bytes)) : Option VersionedSlots :=
  ws.foldlM (fun slots w => (slots.write w.1 w.2).map Prod.fst) slots

def history (key : Bytes) (ws : List (Bytes × Bytes)) : List Bytes :=
  (ws.filter fun w => w.1 = key).map Prod.snd

/-- The slots show the history of a key: its length is the version that validates, and every version
is read back. -/
def Shows (slots : VersionedSlots) (ws : List (Bytes × Bytes)) (key : Bytes) : Prop :=
  (∀ v : U64, slots.validate key v = some (decide (v.toNat = (history key ws).length))) ∧
  ∀ v : U64, 1 ≤ v.toNat → v.toNat ≤ (history key ws).length →
    slots.read key v = (v,(history key ws)[v.toNat - 1]?)

def version (n : Nat) : U64 := BitVec.ofNat 64 (min n (2^64 - 1))

def Record (keys : List Bytes) (r : Bytes) : Prop :=
  ∃ key n, 0 < n ∧ n ≤ keys.count key ∧ r = versionKey key (version n)

/-- No key is written after a value was stored under it. -/
def Ordered (keys : List Bytes) : Prop :=
  ∀ before key after, keys = before ++ key :: after → ¬ Record before key

theorem toNat_version (n : Nat) : (version n).toNat = min n (2^64 - 1) := by
  rw [version,BitVec.toNat_ofNat,Nat.mod_eq_of_lt (by omega)]

theorem version_succ (n : Nat) : saturatingAdd (version n) 1 = version (n + 1) := by
  have one : (1 : U64).toNat = 1 := rfl
  apply BitVec.eq_of_toNat_eq
  rw [toNat_saturatingAdd,toNat_version,toNat_version,one]
  omega

theorem versionKey_injective {a b : Bytes} {v w : U64} (same : versionKey a v = versionKey b w) :
    a = b ∧ v = w := by
  obtain ⟨key,rest⟩ := List.append_inj' same (by simp)
  exact ⟨key,toBeBytes_injective 8 (by decide) (List.cons.inj rest).2⟩

theorem history_append (key : Bytes) (ws : List (Bytes × Bytes)) (w : Bytes × Bytes) :
    history key (ws ++ [w]) = history key ws ++ if w.1 = key then [w.2] else [] := by
  rw [history,List.filter_append,List.map_append,← history]
  by_cases own : w.1 = key <;> simp [own]

theorem length_history (key : Bytes) (ws : List (Bytes × Bytes)) :
    (history key ws).length = (ws.map Prod.fst).count key := by
  rw [history,List.length_map,List.count,List.countP_map,List.countP_eq_length_filter]
  congr 2
  funext w
  exact (beq_eq_decide w.1 key).symm

variable {key : Bytes} {ws : List (Bytes × Bytes)} {slots : VersionedSlots} {keys : List Bytes}

theorem record_append {r : Bytes} :
    Record (keys ++ [key]) r ↔ Record keys r ∨ r = versionKey key (version (keys.count key + 1)) := by
  constructor
  · rintro ⟨a,n,positive,most,rfl⟩
    rw [List.count_append,List.count_singleton] at most
    by_cases own : key = a
    · subst own
      rcases Nat.lt_or_ge (keys.count key) n with last | earlier
      · obtain rfl : n = keys.count key + 1 := by
          simp at most
          omega
        exact .inr rfl
      · exact .inl ⟨key,n,positive,earlier,rfl⟩
    · rw [if_neg (by simpa using own)] at most
      exact .inl ⟨a,n,positive,most,rfl⟩
  · rintro (⟨a,n,positive,most,rfl⟩ | rfl)
    · exact ⟨a,n,positive,by rw [List.count_append]; omega,rfl⟩
    · exact ⟨key,_,Nat.succ_pos _,by simp [List.count_append],rfl⟩

theorem ordered_append : Ordered (keys ++ [key]) ↔ Ordered keys ∧ ¬ Record keys key := by
  constructor
  · intro ordered
    refine ⟨fun before x after split => ?_,ordered keys key [] rfl⟩
    exact ordered before x (after ++ [key]) (by rw [split]; simp)
  · rintro ⟨ordered,last⟩ before x after split
    rcases List.eq_nil_or_concat after with rfl | ⟨init,y,rfl⟩
    · obtain ⟨rfl,same⟩ := List.append_inj' split rfl
      cases same
      exact last
    · rw [List.concat_eq_append,← List.cons_append,← List.append_assoc] at split
      exact ordered before x init (List.append_inj' split rfl).1

structure Holds (slots : VersionedSlots) (ws : List (Bytes × Bytes)) : Prop where
  headers : ∀ key, ¬ Record (ws.map Prod.fst) key → slots.latest key = some (version (history key ws).length)
  values : ∀ key n v, (history key ws).length < 2^64 → (history key ws)[n]? = some v →
    slots[versionKey key (version (n + 1))]? = some v
  records : ∀ r, Record (ws.map Prod.fst) r → ∃ w ∈ ws, slots[r]? = some w.2

theorem holds_empty : Holds ∅ [] where
  headers key _ := by simp [latest,history,version]
  values key n v _ found := by simp [history] at found
  records r record := by
    obtain ⟨key,n,positive,most,-⟩ := record
    simp at most
    omega

def written (slots : VersionedSlots) (key value : Bytes) (n : Nat) : VersionedSlots :=
  (slots.insert key (toBeBytes 8 (version (n + 1)))).insert (versionKey key (version (n + 1))) value

theorem write_eq {n : Nat} (known : slots.latest key = some (version n)) (value : Bytes) :
    slots.write key value = some (slots.written key value n,version (n + 1)) := by
  simp only [write,known,version_succ,written]

theorem get?_written (slots : VersionedSlots) (key value : Bytes) (n : Nat) (r : Bytes) :
    (slots.written key value n)[r]? = if r = versionKey key (version (n + 1)) then some value
      else if r = key then some (toBeBytes 8 (version (n + 1))) else slots[r]? := by
  rw [written,Map.get?_insert,Map.get?_insert]

theorem latest_written (slots : VersionedSlots) (key value : Bytes) (n : Nat) {other : Bytes}
    (apart : other ≠ versionKey key (version (n + 1))) : (slots.written key value n).latest other =
      if other = key then some (version (n + 1)) else slots.latest other := by
  have header := fromBeBytes_toBeBytes 8 (version (n + 1)) (by decide)
  have found := get?_written slots key value n other
  rw [if_neg apart] at found
  by_cases own : other = key
  · rw [if_pos own] at found ⊢
    simp only [latest,found,length_toBeBytes,if_true,header]
  · rw [if_neg own] at found ⊢
    simp only [latest,found]

theorem record_history {v : Bytes} {n : Nat} (found : (history key ws)[n]? = some v) :
    Record (ws.map Prod.fst) (versionKey key (version (n + 1))) := by
  refine ⟨key,n + 1,Nat.succ_pos n,?_,rfl⟩
  rw [← length_history]
  exact (List.getElem?_eq_some_iff.mp found).1

/-- A write to a key that holds no value adds to its history and to nothing else. -/
theorem Holds.write (held : Holds slots ws)
    {w : Bytes × Bytes} (plain : ¬ Record (ws.map Prod.fst) w.1) :
    Holds (slots.written w.1 w.2 (history w.1 ws).length) (ws ++ [w]) where
  headers key other := by
    rw [List.map_append,List.map_singleton,record_append,← length_history,not_or] at other
    rw [latest_written _ _ _ _ other.2,history_append]
    by_cases own : key = w.1
    · rw [if_pos own,own,if_pos rfl,List.length_append,List.length_singleton]
    · rw [if_neg own,if_neg (Ne.symm own),List.append_nil]
      exact held.headers key other.1
  values key n v short found := by
    rw [history_append] at short found
    rw [get?_written]
    rcases Nat.lt_or_ge n (history key ws).length with old | new
    · rw [List.getElem?_append_left old] at found
      have stored := held.values key n v (by rw [List.length_append] at short; omega) found
      have record := record_history found
      have apart : versionKey key (version (n + 1)) ≠ w.1 := fun same => plain (same ▸ record)
      rw [if_neg ?_,if_neg apart,stored]
      intro same
      obtain ⟨rfl,equal⟩ := versionKey_injective same
      have naturals := congrArg BitVec.toNat equal
      rw [if_pos rfl,List.length_append,List.length_singleton] at short
      rw [toNat_version,toNat_version] at naturals
      omega
    · rw [List.getElem?_append_right new] at found
      by_cases own : w.1 = key
      · subst own
        rw [if_pos rfl,List.getElem?_singleton] at found
        split at found
        · rename_i first
          cases found
          rw [if_pos (by rw [show n = (history w.1 ws).length by omega])]
        · cases found
      · simp [own] at found
  records r record := by
    rw [List.map_append,List.map_singleton,record_append,← length_history] at record
    rw [get?_written]
    by_cases latest : r = versionKey w.1 (version ((history w.1 ws).length + 1))
    · exact ⟨w,by simp,if_pos latest⟩
    · have old := record.resolve_right latest
      have apart : r ≠ w.1 := fun same => plain (same ▸ old)
      obtain ⟨first,member,stored⟩ := held.records r old
      exact ⟨first,List.mem_append_left _ member,by rw [if_neg latest,if_neg apart,stored]⟩

theorem writes_append (ws : List (Bytes × Bytes)) (w : Bytes × Bytes) :
    writes ∅ (ws ++ [w]) = (writes ∅ ws).bind fun slots => (slots.write w.1 w.2).map Prod.fst := by
  simp [writes]

/-- As long as no key is written after a value was stored under it, no write fails. -/
theorem writes_ok (ordered : Ordered (ws.map Prod.fst)) :
    ∃ slots, writes ∅ ws = some slots ∧ Holds slots ws := by
  induction ws using List.reverseRecOn with
  | nil => exact ⟨∅,rfl,holds_empty⟩
  | append_singleton ws w ih =>
    rw [List.map_append,List.map_singleton,ordered_append] at ordered
    obtain ⟨slots,done,held⟩ := ih ordered.1
    refine ⟨_,?_,held.write ordered.2⟩
    rw [writes_append,done,Option.bind_some,write_eq (held.headers _ ordered.2)]
    rfl

/-- With empty values a write to a key that holds one fails. -/
theorem ordered_of_writes
    (blank : ∀ w ∈ ws, w.2 = []) (done : writes ∅ ws = some slots) : Ordered (ws.map Prod.fst) := by
  induction ws using List.reverseRecOn generalizing slots with
  | nil => exact fun before key after split => by simp at split
  | append_singleton ws w ih =>
    rw [writes_append,Option.bind_eq_some_iff] at done
    obtain ⟨before,first,last⟩ := done
    have blank' : ∀ w ∈ ws, w.2 = [] := fun w member => blank w (List.mem_append_left _ member)
    have ordered := ih blank' first
    rw [List.map_append,List.map_singleton,ordered_append]
    refine ⟨ordered,fun record => ?_⟩
    obtain ⟨same,again,held⟩ := writes_ok ordered
    obtain rfl : before = same := Option.some.inj (first.symm.trans again)
    obtain ⟨other,member,stored⟩ := held.records w.1 record
    rw [blank' other member] at stored
    simp [VersionedSlots.write,latest,stored] at last

theorem Holds.latest_blank (held : Holds slots ws)
    (blank : ∀ w ∈ ws, w.2 = []) {r : Bytes} (record : Record (ws.map Prod.fst) r) :
    slots.latest r = none := by
  obtain ⟨w,member,stored⟩ := held.records r record
  rw [blank w member] at stored
  simp [latest,stored]

theorem Holds.shows (held : Holds slots ws)
    (plain : ¬ Record (ws.map Prod.fst) key) (short : (history key ws).length < 2^64) :
    Shows slots ws key := by
  constructor
  · intro v
    rw [validate,held.headers key plain,Option.map_some]
    congr 1
    rw [decide_eq_decide,← BitVec.toNat_inj,toNat_version]
    omega
  · intro v positive most
    have nonzero : v ≠ 0 := by
      rintro rfl
      exact absurd positive (by decide)
    have named : v = version (v.toNat - 1 + 1) := by
      apply BitVec.eq_of_toNat_eq
      rw [toNat_version]
      omega
    obtain ⟨value,found⟩ : ∃ value, (history key ws)[v.toNat - 1]? = some value :=
      ⟨_,List.getElem?_eq_getElem (by omega)⟩
    have stored := held.values key _ value short found
    rw [← named] at stored
    rw [read,if_neg nonzero,stored,found]

/-- Whatever the values, the slots show the history of a key exactly if the key holds no value, no key
was written after one was stored under it, and the versions suffice. -/
theorem history_iff (keys : List Bytes) (key : Bytes) :
    (∀ ws : List (Bytes × Bytes), ws.map Prod.fst = keys →
      ∃ slots, writes ∅ ws = some slots ∧ Shows slots ws key) ↔
    Ordered keys ∧ ¬ Record keys key ∧ keys.count key < 2^64 := by
  constructor
  · intro correct
    have named : (keys.map fun k => (k,([] : Bytes))).map Prod.fst = keys := by simp [Function.comp_def]
    have blank : ∀ w ∈ keys.map fun k => (k,([] : Bytes)), w.2 = [] := by simp
    generalize (keys.map fun k => (k,([] : Bytes))) = ws at named blank
    obtain ⟨slots,done,shown,-⟩ := correct ws named
    have ordered := ordered_of_writes blank done
    obtain ⟨same,again,held⟩ := writes_ok ordered
    obtain rfl : slots = same := Option.some.inj (done.symm.trans again)
    obtain ⟨latest,known⟩ : ∃ v, slots.latest key = some v := by
      have zero := shown 0
      unfold validate at zero
      cases known : slots.latest key with
      | none => simp [known] at zero
      | some v => exact ⟨v,rfl⟩
    rw [← named]
    refine ⟨ordered,fun record => ?_,?_⟩
    · rw [held.latest_blank blank record] at known
      cases known
    · have valid := shown latest
      rw [validate,known,Option.map_some,Option.some.injEq,decide_eq_decide] at valid
      rw [← length_history,← valid.mp rfl]
      exact latest.isLt
  · rintro ⟨ordered,plain,short⟩ ws rfl
    obtain ⟨slots,done,held⟩ := writes_ok ordered
    exact ⟨slots,done,held.shows plain (by rw [length_history]; exact short)⟩

/-- A value is stored under a key. A write to that key fails, and before it a check of its version. -/
theorem value_read_as_header : ∃ slots, writes ∅ [([1],[9])] = some slots ∧
    slots.validate (versionKey [1] 1) 0 = none ∧ slots.write (versionKey [1] 1) [9] = none := by
  refine ⟨_,rfl,?_⟩
  decide +kernel

end L1.VersionedSlots
