import L1.Types

/-! Peer slots. A table caps the peers of one address prefix and their number; rotation evicts the
lowest scores first, among equals from the most crowded bucket. -/
namespace L1.Eclipse

abbrev PeerId := Bytes

inductive IpAddr where
  | v4 (octets : Vector UInt8 4)
  | v6 (octets : Vector UInt8 16)
  deriving DecidableEq

/-- The first three bytes of an IPv4 address, the first six of an IPv6 address. -/
inductive IpPrefix where
  | v4 (octets : Vector UInt8 3)
  | v6 (octets : Vector UInt8 6)
  deriving DecidableEq

namespace IpPrefix

/-- Declaration order, then the bytes. -/
def bytes : IpPrefix → Bytes
  | v4 octets => 0 :: octets.toList
  | v6 octets => 1 :: octets.toList

theorem bytes_injective {a b : IpPrefix} (same : a.bytes = b.bytes) : a = b := by
  cases a <;> cases b <;> obtain ⟨tag,octets⟩ := List.cons.inj same
  · rw [toList_injective octets]
  · exact absurd tag (by decide)
  · exact absurd tag (by decide)
  · rw [toList_injective octets]

instance : Ord IpPrefix := ⟨compareOn bytes⟩

instance : Std.TransOrd IpPrefix := inferInstanceAs (Std.TransCmp (compareOn bytes))

instance : Std.LawfulEqOrd IpPrefix where
  compare_self {a} := by
    change compare a.bytes a.bytes = .eq
    exact Std.ReflCmp.compare_self
  eq_of_compare {a b} same := by
    change compare a.bytes b.bytes = .eq at same
    exact bytes_injective (Std.LawfulEqCmp.eq_of_compare same)

end IpPrefix

def prefixOf : IpAddr → IpPrefix
  | .v4 o => .v4 #v[o[0],o[1],o[2]]
  | .v6 o => .v6 #v[o[0],o[1],o[2],o[3],o[4],o[5]]

def defaultMaxPerPrefix : Nat := 2
def defaultMaxSlots : Nat := 16

structure IpSlotTable where
  maxPerPrefix : Nat
  maxSlots : Nat
  byPrefix : Map IpPrefix Nat
  peers : Map PeerId IpPrefix

namespace IpSlotTable

def new (maxPerPrefix maxSlots : Nat) : IpSlotTable := ⟨maxPerPrefix,maxSlots,∅,∅⟩

def defaultCaps : IpSlotTable := new defaultMaxPerPrefix defaultMaxSlots

def contains (table : IpSlotTable) (peer : PeerId) : Bool := table.peers.contains peer

def len (table : IpSlotTable) : Nat := table.peers.size

def countPrefix (table : IpSlotTable) (pfx : IpPrefix) : Nat := (table.byPrefix[pfx]?).getD 0

/-- A peer that is there stays where it is, whatever its address is now. -/
def admitPeer (table : IpSlotTable) (peer : PeerId) (ip : IpAddr) : Bool × IpSlotTable :=
  if table.contains peer then (true,table)
  else if table.maxSlots ≤ table.len then (false,table)
  else
    let pfx := prefixOf ip
    let n := table.countPrefix pfx
    if table.maxPerPrefix ≤ n then (false,table)
    else (true,{table with
      byPrefix := table.byPrefix.insert pfx (n + 1)
      peers := table.peers.insert peer pfx})

/-- One peer less under a prefix; no counter stays at zero. -/
def release (counts : Map IpPrefix Nat) (pfx : IpPrefix) : Map IpPrefix Nat :=
  match counts[pfx]? with
  | none => counts
  | some n => if n ≤ 1 then counts.erase pfx else counts.insert pfx (n - 1)

def remove (table : IpSlotTable) (peer : PeerId) : Bool × IpSlotTable :=
  match table.peers[peer]? with
  | none => (false,table)
  | some pfx =>
    (true,{table with byPrefix := release table.byPrefix pfx, peers := table.peers.erase peer})

end IpSlotTable

/-- The bits of an IPv4 address that stand for its network. -/
structure AsnCap where
  v4PrefixLen : UInt8 := 24
  deriving DecidableEq

/-- The bytes behind the whole ones are cleared first, and one of them is masked then. -/
def asnBucket (ip : IpAddr) (cap : AsnCap) : IpPrefix :=
  match ip with
  | .v4 octets =>
    let len := min cap.v4PrefixLen.toNat 32
    let full := len / 8
    let rem := len % 8
    let cleared (i : Fin 4) : UInt8 := if i.val < full then octets[i] else 0
    let o (i : Fin 4) : UInt8 :=
      if rem ≠ 0 ∧ i.val = full then cleared i &&& (0xff <<< UInt8.ofNat (8 - rem)) else cleared i
    .v4 #v[o 0,o 1,o 2]
  | .v6 _ => prefixOf ip

structure PeerStats where
  validMsgs : U64 := 0
  invalidMsgs : U64 := 0
  latencyMs : U64 := 0
  deriving DecidableEq

/-- Higher is better; the caps keep it within 32 bits. -/
def score (stats : PeerStats) : Int :=
  3 * (min stats.validMsgs.toNat 1000 : Nat) - 12 * (min stats.invalidMsgs.toNat 1000 : Nat) -
    (min (stats.latencyMs.toNat / 50) 40 : Nat)

structure Row where
  score : Int
  occupancy : Nat
  peer : PeerId
  deriving DecidableEq

namespace Row

/-- Lowest score first, then the most crowded bucket, then the identifier. -/
def order : Row → Row → Ordering :=
  compareLex (compareOn score) (compareLex (fun a b => compareOn occupancy b a) (compareOn peer))

def le (a b : Row) : Bool := (order a b).isLE

end Row

section Rotation

variable (table : IpSlotTable) (peers : List (PeerId × IpAddr)) (stats : Map PeerId PeerStats)
  (cap : AsnCap)

def listed : List (PeerId × IpAddr) := peers.filter fun e => table.contains e.1

def bucketCounts : Map IpPrefix Nat :=
  (listed table peers).foldl (fun counts e =>
    let bucket := asnBucket e.2 cap
    counts.insert bucket ((counts[bucket]?).getD 0 + 1)) ∅

def rows : List Row :=
  (listed table peers).map fun e => {
    score := ((stats[e.1]?).map score).getD 0
    occupancy := ((bucketCounts table peers cap)[asnBucket e.2 cap]?).getD 0
    peer := e.1 }

def rotatePeers (evictCount : Nat) : List PeerId × IpSlotTable :=
  let evicted := (((rows table peers stats cap).mergeSort Row.le).take evictCount).map Row.peer
  (evicted,evicted.foldl (fun table peer => (table.remove peer).2) table)

end Rotation

/-- A network length counts in whole bytes: the byte it ends in is cleared before it is masked. -/
theorem asnBucket_bytes (ip : IpAddr) (cap : AsnCap) :
    asnBucket ip cap = asnBucket ip ⟨UInt8.ofNat (8 * (min cap.v4PrefixLen.toNat 32 / 8))⟩ := by
  cases ip with
  | v6 octets => rfl
  | v4 octets =>
    generalize len : min cap.v4PrefixLen.toNat 32 = n
    have whole : min (UInt8.ofNat (8 * (n / 8))).toNat 32 = 8 * (n / 8) := by
      rw [UInt8.toNat_ofNat',Nat.mod_eq_of_lt (by omega)]
      omega
    -- a masked byte was cleared before
    have masked (full : Nat) (i : Fin 4) (mask : UInt8) (partly : Prop) [Decidable partly] :
        (if partly ∧ i.val = full then (if i.val < full then octets[i] else 0) &&& mask
          else if i.val < full then octets[i] else 0) = if i.val < full then octets[i] else 0 := by
      split
      · rename_i last
        rw [if_neg (by omega),UInt8.zero_and]
      · rfl
    simp only [asnBucket,len,whole,masked,Nat.mul_div_cancel_left _ (show 0 < 8 by decide)]

/-! Networks by their first bits. -/

/-- The bits of an IPv4 address in network order. -/
def addressBit (octets : Vector UInt8 4) (i : Nat) : Bool :=
  (octets.toList.getD (i / 8) 0).toNat.testBit (7 - i % 8)

def SamePrefix (len : Nat) (a b : Vector UInt8 4) : Prop := ∀ i < len, addressBit a i = addressBit b i

instance (len : Nat) (a b : Vector UInt8 4) : Decidable (SamePrefix len a b) :=
  inferInstanceAs (Decidable (∀ i < len, addressBit a i = addressBit b i))

theorem addressBit_octet (octets : Vector UInt8 4) (i : Fin 4) {j : Nat} (small : j < 8) :
    addressBit octets (8 * i + j) = octets[i].toNat.testBit (7 - j) := by
  have octet : (8 * i.val + j) / 8 = i := by omega
  have bit : (8 * i.val + j) % 8 = j := by omega
  rw [addressBit,octet,bit]
  simp

theorem octet_eq_iff (a b : UInt8) :
    a = b ↔ ∀ j < 8, a.toNat.testBit (7 - j) = b.toNat.testBit (7 - j) := by
  refine ⟨fun same _ _ => by rw [same],fun bits => UInt8.toNat_inj.mp (Nat.eq_of_testBit_eq fun i => ?_)⟩
  by_cases small : i < 8
  · have bit := bits (7 - i) (by omega)
    rwa [show 7 - (7 - i) = i by omega] at bit
  · have wide : 2^8 ≤ 2^i := Nat.pow_le_pow_right (by decide) (by omega)
    have left : a.toNat < 2^i := Nat.lt_of_lt_of_le a.toNat_lt wide
    have right : b.toNat < 2^i := Nat.lt_of_lt_of_le b.toNat_lt wide
    rw [Nat.testBit_lt_two_pow left,Nat.testBit_lt_two_pow right]

theorem samePrefix_octets {full : Nat} (inside : full ≤ 4) (a b : Vector UInt8 4) :
    SamePrefix (8 * full) a b ↔ ∀ i : Fin 4, i < full → a[i] = b[i] := by
  constructor
  · intro same i below
    rw [octet_eq_iff]
    intro j small
    rw [← addressBit_octet a i small,← addressBit_octet b i small]
    exact same _ (by omega)
  · intro octets n below
    have split : n = 8 * (n / 8) + n % 8 := by omega
    have small : n % 8 < 8 := by omega
    have octet := octets ⟨n / 8,by omega⟩ (show n / 8 < full by omega)
    rw [split,addressBit_octet a ⟨n / 8,by omega⟩ small,addressBit_octet b ⟨n / 8,by omega⟩ small,octet]

def kept (full : Nat) (octets : Vector UInt8 4) (i : Fin 4) : UInt8 := if i.val < full then octets[i] else 0

theorem asnBucket_kept {len : UInt8} (short : len.toNat ≤ 24) (a : Vector UInt8 4) :
    asnBucket (.v4 a) ⟨len⟩ =
      .v4 #v[kept (len.toNat / 8) a 0,kept (len.toNat / 8) a 1,kept (len.toNat / 8) a 2] := by
  have capped : min len.toNat 32 / 8 = len.toNat / 8 := by omega
  have back : min (UInt8.ofNat (8 * (len.toNat / 8))).toNat 32 = 8 * (len.toNat / 8) := by
    rw [UInt8.toNat_ofNat',Nat.mod_eq_of_lt (by omega)]
    omega
  rw [asnBucket_bytes]
  simp only [asnBucket,capped,back,Nat.mul_mod_right,ne_eq,not_true_eq_false,false_and,if_false,
    Nat.mul_div_cancel_left _ (show 0 < 8 by decide),kept]

theorem kept_eq_iff {full : Nat} (a b : Vector UInt8 4) (i : Fin 4) :
    kept full a i = kept full b i ↔ (i < full → a[i] = b[i]) := by
  unfold kept
  split
  · rename_i below
    exact ⟨fun same _ => same,fun same => same below⟩
  · rename_i beyond
    exact ⟨fun _ below => absurd below beyond,fun _ => rfl⟩

/-- Buckets are the whole bytes that the length covers. -/
theorem asnBucket_eq_iff {len : UInt8} (short : len.toNat ≤ 24) (a b : Vector UInt8 4) :
    asnBucket (.v4 a) ⟨len⟩ = asnBucket (.v4 b) ⟨len⟩ ↔ SamePrefix (8 * (len.toNat / 8)) a b := by
  have parts (x y z x' y' z' : UInt8) :
      IpPrefix.v4 #v[x,y,z] = .v4 #v[x',y',z'] ↔ x = x' ∧ y = y' ∧ z = z' := by simp
  rw [asnBucket_kept short,asnBucket_kept short,samePrefix_octets (by omega),parts,kept_eq_iff,
    kept_eq_iff,kept_eq_iff]
  constructor
  · rintro ⟨first,second,third⟩ i below
    rcases (by omega : i = 0 ∨ i = 1 ∨ i = 2) with rfl | rfl | rfl
    · exact first below
    · exact second below
    · exact third below
  · exact fun octets => ⟨octets 0,octets 1,octets 2⟩

/-- Within the lengths that a bucket holds, addresses share one exactly if their first bits agree up to
the last whole byte; that is what the length says only for whole bytes. -/
theorem bucket_iff (len : UInt8) (short : len.toNat ≤ 24) :
    (∀ a b, asnBucket (.v4 a) ⟨len⟩ = asnBucket (.v4 b) ⟨len⟩ ↔
      SamePrefix (8 * (len.toNat / 8)) a b) ∧
    ((∀ a b, asnBucket (.v4 a) ⟨len⟩ = asnBucket (.v4 b) ⟨len⟩ ↔ SamePrefix len.toNat a b) ↔
      len.toNat % 8 = 0) := by
  refine ⟨asnBucket_eq_iff short,fun exact_ => ?_,fun whole a b => ?_⟩
  · by_contra partly
    -- an address that differs from zero in the first bit behind the whole bytes
    let far : Vector UInt8 4 := Vector.ofFn fun i => if i.val = len.toNat / 8 then 0x80 else 0
    let zero : Vector UInt8 4 := Vector.ofFn fun _ => 0
    have merged : SamePrefix (8 * (len.toNat / 8)) far zero := by
      rw [samePrefix_octets (by omega)]
      intro i below
      have apart : i.val ≠ len.toNat / 8 := by omega
      simp [far,zero,apart]
    have bits := (exact_ far zero).mp ((asnBucket_eq_iff short far zero).mpr merged)
      (8 * (len.toNat / 8)) (by omega)
    have inside : len.toNat / 8 < 4 := by omega
    have first := addressBit_octet far ⟨len.toNat / 8,inside⟩ (show 0 < 8 by decide)
    have second := addressBit_octet zero ⟨len.toNat / 8,inside⟩ (show 0 < 8 by decide)
    rw [Nat.add_zero] at first second
    rw [first,second] at bits
    simp [far,zero] at bits
    exact absurd bits (by decide)
  · have length : 8 * (len.toNat / 8) = len.toNat := by omega
    rw [asnBucket_eq_iff short,length]

/-- Networks of sixteen bits. -/
theorem slash_sixteen_exact : (16 : UInt8).toNat ≤ 24 ∧ ∀ a b,
    asnBucket (.v4 a) ⟨16⟩ = asnBucket (.v4 b) ⟨16⟩ ↔ SamePrefix 16 a b :=
  ⟨by decide,(bucket_iff 16 (by decide)).2.mpr (by decide)⟩

/-- 10.0.0.1 and 10.16.0.1 differ in their first twelve bits and share a bucket. -/
theorem slash_twelve_merged :
    asnBucket (.v4 #v[10,0,0,1]) ⟨12⟩ = asnBucket (.v4 #v[10,16,0,1]) ⟨12⟩ ∧
    ¬ SamePrefix 12 #v[10,0,0,1] #v[10,16,0,1] := by
  decide

/-! Slot accounting. -/

namespace IpSlotTable

def under (table : IpSlotTable) (pfx : IpPrefix) : Nat := table.peers.toList.countP fun e => e.2 = pfx

/-- Every counter is right and within its cap. -/
structure Accounted (table : IpSlotTable) : Prop where
  counted : ∀ pfx, table.countPrefix pfx = table.under pfx
  capped : ∀ pfx, table.under pfx ≤ table.maxPerPrefix
  slots : table.len ≤ table.maxSlots

theorem under_eq_total (table : IpSlotTable) (pfx : IpPrefix) :
    table.under pfx = Map.total (fun _ q => if q = pfx then 1 else 0) table.peers := by
  unfold under Map.total
  induction table.peers.toList with
  | nil => rfl
  | cons e rest ih =>
    rw [List.countP_cons,ih,List.map_cons,List.sum_cons,Nat.add_comm]
    simp

theorem accounted_new (maxPerPrefix maxSlots : Nat) : Accounted (new maxPerPrefix maxSlots) where
  counted pfx := by
    rw [under_eq_total]
    simp [new,countPrefix]
  capped pfx := by
    rw [under_eq_total]
    simp [new]
  slots := by simp [new,len]

variable {table : IpSlotTable} {peer : PeerId} {pfx : IpPrefix}

theorem contains_iff : table.contains peer = true ↔ ∃ pfx, table.peers[peer]? = some pfx := by
  rw [contains,Std.ExtTreeMap.contains_eq_isSome_getElem?,Option.isSome_iff_exists]

theorem under_insert (absent : table.peers[peer]? = none) (counts : Map IpPrefix Nat) (q : IpPrefix) :
    under {table with byPrefix := counts, peers := table.peers.insert peer pfx} q =
      table.under q + if pfx = q then 1 else 0 := by
  have sum := Map.total_insert (fun _ r => if r = q then 1 else 0) table.peers peer pfx
  rw [Map.part,absent] at sum
  rw [under_eq_total,under_eq_total]
  exact sum

theorem under_erase (held : table.peers[peer]? = some pfx) (counts : Map IpPrefix Nat) (q : IpPrefix) :
    under {table with byPrefix := counts, peers := table.peers.erase peer} q +
      (if pfx = q then 1 else 0) = table.under q := by
  have sum := Map.total_erase (fun _ r => if r = q then 1 else 0) table.peers peer
  rw [Map.part,held] at sum
  rw [under_eq_total,under_eq_total]
  exact sum

theorem admitPeer_cases (table : IpSlotTable) (peer : PeerId) (ip : IpAddr) :
    (table.admitPeer peer ip).2 = table ∨
    (table.peers[peer]? = none ∧ table.len < table.maxSlots ∧
      table.countPrefix (prefixOf ip) < table.maxPerPrefix ∧
      (table.admitPeer peer ip).2 = {table with
        byPrefix := table.byPrefix.insert (prefixOf ip) (table.countPrefix (prefixOf ip) + 1)
        peers := table.peers.insert peer (prefixOf ip)}) := by
  unfold admitPeer
  by_cases there : table.contains peer
  · exact .inl (by rw [if_pos there])
  rw [if_neg there]
  by_cases full : table.maxSlots ≤ table.len
  · exact .inl (by rw [if_pos full])
  rw [if_neg full]
  dsimp only
  by_cases crowded : table.maxPerPrefix ≤ table.countPrefix (prefixOf ip)
  · exact .inl (by rw [if_pos crowded])
  rw [if_neg crowded]
  refine .inr ⟨?_,by omega,by omega,rfl⟩
  rw [contains_iff] at there
  exact Option.eq_none_iff_forall_ne_some.mpr fun pfx held => there ⟨pfx,held⟩

theorem Accounted.admitPeer (accounted : Accounted table) (peer : PeerId) (ip : IpAddr) :
    Accounted (table.admitPeer peer ip).2 := by
  rcases admitPeer_cases table peer ip with same | ⟨absent,room,below,added⟩
  · rwa [same]
  rw [added]
  have count := accounted.counted (prefixOf ip)
  refine ⟨fun q => ?_,fun q => ?_,?_⟩
  · rw [under_insert absent,countPrefix,Map.get?_insert]
    by_cases own : prefixOf ip = q
    · rw [if_pos own.symm,if_pos own,Option.getD_some,count,own]
    · rw [if_neg (Ne.symm own),if_neg own]
      exact accounted.counted q
  · rw [under_insert absent]
    have cap := accounted.capped q
    by_cases own : prefixOf ip = q
    · rw [if_pos own]
      rw [own] at below count
      dsimp only
      omega
    · rw [if_neg own]
      exact cap
  · have size := Std.ExtTreeMap.size_insert_le (t := table.peers) (k := peer) (v := prefixOf ip)
    exact size.trans room

theorem getD_release (counts : Map IpPrefix Nat) (pfx q : IpPrefix) :
    ((release counts pfx)[q]?).getD 0 =
      if q = pfx then (counts[pfx]?).getD 0 - 1 else (counts[q]?).getD 0 := by
  unfold release
  cases held : counts[pfx]? with
  | none =>
    dsimp only
    by_cases own : q = pfx
    · rw [if_pos own,own,held]
      rfl
    · rw [if_neg own]
  | some n =>
    dsimp only
    split
    · rw [Map.get?_erase]
      split
      · rw [Option.getD_none,Option.getD_some]
        omega
      · rfl
    · rw [Map.get?_insert]
      split <;> rfl

theorem remove_cases (table : IpSlotTable) (peer : PeerId) :
    (table.peers[peer]? = none ∧ (table.remove peer).2 = table) ∨
    ∃ pfx, table.peers[peer]? = some pfx ∧ (table.remove peer).2 =
      {table with byPrefix := release table.byPrefix pfx, peers := table.peers.erase peer} := by
  unfold IpSlotTable.remove
  cases held : table.peers[peer]? with
  | none => exact .inl ⟨rfl,rfl⟩
  | some pfx => exact .inr ⟨pfx,rfl,rfl⟩

theorem Accounted.remove (accounted : Accounted table) (peer : PeerId) :
    Accounted (table.remove peer).2 := by
  rcases remove_cases table peer with ⟨-,same⟩ | ⟨pfx,held,removed⟩
  · rwa [same]
  rw [removed]
  have left (q : IpPrefix) := under_erase held (release table.byPrefix pfx) q
  refine ⟨fun q => ?_,fun q => ?_,?_⟩
  · have count := accounted.counted q
    have sum := left q
    rw [countPrefix] at count ⊢
    rw [getD_release]
    by_cases own : q = pfx
    · subst own
      rw [if_pos rfl] at sum ⊢
      omega
    · rw [if_neg own]
      rw [if_neg (Ne.symm own)] at sum
      omega
  · exact (Nat.le_of_add_right_le (left q).le).trans (accounted.capped q)
  · have size := Std.ExtTreeMap.size_erase_le (t := table.peers) (k := peer)
    exact size.trans accounted.slots

theorem get?_remove (table : IpSlotTable) (peer other : PeerId) :
    (table.remove peer).2.peers[other]? = if other = peer then none else table.peers[other]? := by
  rcases remove_cases table peer with ⟨absent,same⟩ | ⟨pfx,held,removed⟩
  · rw [same]
    by_cases own : other = peer
    · rw [if_pos own,own,absent]
    · rw [if_neg own]
  · rw [removed]
    exact Map.get?_erase ..

theorem remove_caps (table : IpSlotTable) (peer : PeerId) :
    (table.remove peer).2.maxPerPrefix = table.maxPerPrefix ∧
      (table.remove peer).2.maxSlots = table.maxSlots := by
  rcases remove_cases table peer with ⟨-,same⟩ | ⟨pfx,-,removed⟩
  · rw [same]
    exact ⟨rfl,rfl⟩
  · rw [removed]
    exact ⟨rfl,rfl⟩

def removeAll (table : IpSlotTable) (gone : List PeerId) : IpSlotTable :=
  gone.foldl (fun table peer => (table.remove peer).2) table

theorem get?_removeAll (table : IpSlotTable) (gone : List PeerId) (other : PeerId) :
    (table.removeAll gone).peers[other]? = if other ∈ gone then none else table.peers[other]? := by
  induction gone generalizing table with
  | nil => simp [removeAll]
  | cons peer rest ih =>
    rw [removeAll,List.foldl_cons,← removeAll,ih,get?_remove]
    by_cases own : other = peer <;> by_cases later : other ∈ rest <;> simp [own,later]

theorem Accounted.removeAll (accounted : Accounted table) (gone : List PeerId) :
    Accounted (table.removeAll gone) := by
  induction gone generalizing table with
  | nil => exact accounted
  | cons peer rest ih => exact ih (accounted.remove peer)

theorem removeAll_caps (table : IpSlotTable) (gone : List PeerId) :
    (table.removeAll gone).maxPerPrefix = table.maxPerPrefix ∧
      (table.removeAll gone).maxSlots = table.maxSlots := by
  induction gone generalizing table with
  | nil => exact ⟨rfl,rfl⟩
  | cons peer rest ih =>
    obtain ⟨first,second⟩ := ih (table.remove peer).2
    obtain ⟨own,slots⟩ := remove_caps table peer
    exact ⟨first.trans own,second.trans slots⟩

end IpSlotTable

/-! The order of the rotation. -/

namespace Row

def Before (a b : Row) : Prop :=
  a.score < b.score ∨ (a.score = b.score ∧
    (b.occupancy < a.occupancy ∨ (a.occupancy = b.occupancy ∧ compare a.peer b.peer = .lt)))

theorem order_lt_iff {a b : Row} : order a b = .lt ↔ Before a b := by
  simp only [order,compareLex,compareOn,Ordering.then_eq_lt,compare_lt_iff_lt,compare_eq_iff_eq,Before]
  rw [eq_comm (a := b.occupancy)]

theorem order_eq {a b : Row} (same : order a b = .eq) : a.peer = b.peer := by
  simp only [order,compareLex,Ordering.then_eq_eq,compareOn] at same
  exact Std.LawfulEqCmp.eq_of_compare same.2.2

instance : Std.TransCmp order := by
  unfold order
  infer_instance

theorem before_of_le {a b : Row} (least : le a b = true) (apart : a.peer ≠ b.peer) : Before a b := by
  rw [← order_lt_iff]
  cases compared : order a b with
  | lt => rfl
  | eq => exact absurd (order_eq compared) apart
  | gt =>
    rw [le,compared] at least
    cases least

theorem mergeSort_before {l : List Row} (distinct : (l.map peer).Nodup) :
    (l.mergeSort le).Pairwise Before := by
  have sorted : (l.mergeSort le).Pairwise fun a b => le a b = true := by
    refine List.pairwise_mergeSort (fun a b c first second => ?_) (fun a b => ?_) l
    · exact Std.TransCmp.isLE_trans first second
    · have swapped : order b a = (order a b).swap := Std.OrientedCmp.eq_swap
      rw [le,le,swapped]
      cases order a b <;> rfl
  have apart : (l.mergeSort le).Pairwise fun a b => a.peer ≠ b.peer :=
    List.pairwise_map.mp (((List.mergeSort_perm l le).map peer).nodup_iff.mpr distinct)
  exact (sorted.and apart).imp fun both => before_of_le both.1 both.2

end Row

section Rotation

variable (table : IpSlotTable) (peers : List (PeerId × IpAddr)) (stats : Map PeerId PeerStats)
  (cap : AsnCap)

/-- The counters of a loop over entries. -/
theorem getD_bucketCounts (bucket : IpPrefix) : ((bucketCounts table peers cap)[bucket]?).getD 0 =
    (listed table peers).countP fun e => asnBucket e.2 cap = bucket := by
  have loop (l : List (PeerId × IpAddr)) (counts : Map IpPrefix Nat) :
      ((l.foldl (fun counts e => counts.insert (asnBucket e.2 cap)
        ((counts[asnBucket e.2 cap]?).getD 0 + 1)) counts)[bucket]?).getD 0 =
        (counts[bucket]?).getD 0 + l.countP fun e => asnBucket e.2 cap = bucket := by
    induction l generalizing counts with
    | nil => simp
    | cons e rest ih =>
      rw [List.foldl_cons,ih,Map.get?_insert,List.countP_cons]
      by_cases own : bucket = asnBucket e.2 cap
      · simp [own]
        omega
      · simp [own,Ne.symm own]
  have whole := loop (listed table peers) ∅
  simpa [bucketCounts] using whole

/-- A listed peer as a candidate: its score, and how many listed peers share its bucket. -/
def candidate (e : PeerId × IpAddr) : Row where
  score := ((stats[e.1]?).map score).getD 0
  occupancy := (listed table peers).countP fun other => asnBucket other.2 cap = asnBucket e.2 cap
  peer := e.1

theorem rows_eq : rows table peers stats cap =
    (listed table peers).map (candidate table peers stats cap) := by
  rw [rows]
  congr 1
  funext e
  rw [candidate,getD_bucketCounts]

/-- What a rotation has to do: the candidates in order, the first of them evicted. -/
structure Rotates (evictCount : Nat) (evicted : List PeerId) (table' : IpSlotTable) : Prop where
  ordered : ∃ order : List Row, order.Perm ((listed table peers).map (candidate table peers stats cap)) ∧
    order.Pairwise Row.Before ∧
    evicted = (order.take (min evictCount (listed table peers).length)).map Row.peer
  left : ∀ peer, table'.peers[peer]? = if peer ∈ evicted then none else table.peers[peer]?

theorem rotatePeers_rotates (evictCount : Nat) (distinct : (peers.map Prod.fst).Nodup) :
    Rotates table peers stats cap evictCount (rotatePeers table peers stats cap evictCount).1
      (rotatePeers table peers stats cap evictCount).2 := by
  have candidates : ((rows table peers stats cap).map Row.peer).Nodup := by
    rw [rows_eq,List.map_map]
    exact distinct.sublist (List.filter_sublist.map Prod.fst)
  refine ⟨⟨(rows table peers stats cap).mergeSort Row.le,?_,Row.mergeSort_before candidates,?_⟩,?_⟩
  · rw [← rows_eq]
    exact List.mergeSort_perm _ _
  · have size : ((rows table peers stats cap).mergeSort Row.le).length = (listed table peers).length := by
      rw [List.length_mergeSort,rows,List.length_map]
    rw [← size,← List.take_eq_take_min]
    rfl
  · exact table.get?_removeAll _

end Rotation

/-! Runs. -/

inductive Op where
  | join (peer : PeerId) (ip : IpAddr)
  | leave (peer : PeerId)
  | rotate (peers : List (PeerId × IpAddr)) (stats : Map PeerId PeerStats) (cap : AsnCap) (evictCount : Nat)

def step (table : IpSlotTable) : Op → IpSlotTable
  | .join peer ip => (table.admitPeer peer ip).2
  | .leave peer => (table.remove peer).2
  | .rotate peers stats cap evictCount => (rotatePeers table peers stats cap evictCount).2

def run (table : IpSlotTable) (ops : List Op) : IpSlotTable := ops.foldl step table

open IpSlotTable

theorem step_caps (table : IpSlotTable) (op : Op) :
    (step table op).maxPerPrefix = table.maxPerPrefix ∧ (step table op).maxSlots = table.maxSlots := by
  cases op with
  | join peer ip =>
    rcases admitPeer_cases table peer ip with same | ⟨-,-,-,added⟩
    · rw [step,same]
      exact ⟨rfl,rfl⟩
    · rw [step,added]
      exact ⟨rfl,rfl⟩
  | leave peer => exact remove_caps table peer
  | rotate peers stats cap evictCount => exact removeAll_caps table _

theorem IpSlotTable.Accounted.step {table : IpSlotTable} (accounted : Accounted table) (op : Op) :
    Accounted (step table op) := by
  cases op with
  | join peer ip => exact accounted.admitPeer peer ip
  | leave peer => exact accounted.remove peer
  | rotate peers stats cap evictCount => exact accounted.removeAll _

theorem run_accounted {table : IpSlotTable} (accounted : Accounted table) (ops : List Op) :
    Accounted (run table ops) ∧ (run table ops).maxPerPrefix = table.maxPerPrefix ∧
      (run table ops).maxSlots = table.maxSlots := by
  induction ops generalizing table with
  | nil => exact ⟨accounted,rfl,rfl⟩
  | cons op rest ih =>
    obtain ⟨held,caps,slots⟩ := ih (accounted.step op)
    obtain ⟨own,size⟩ := step_caps table op
    exact ⟨held,caps.trans own,slots.trans size⟩

/-- After any calls every prefix counter is the number of its peers, within its cap, the slots are within
theirs, and a rotation evicts the first candidates. -/
theorem slots_accounted (maxPerPrefix maxSlots : Nat) (ops : List Op) :
    let table := run (new maxPerPrefix maxSlots) ops
    (∀ pfx, table.countPrefix pfx = table.under pfx ∧ table.countPrefix pfx ≤ maxPerPrefix) ∧
    table.len ≤ maxSlots ∧
    ∀ (peers : List (PeerId × IpAddr)) (stats : Map PeerId PeerStats) (cap : AsnCap) (evictCount : Nat),
      (peers.map Prod.fst).Nodup →
        Rotates table peers stats cap evictCount (rotatePeers table peers stats cap evictCount).1
          (rotatePeers table peers stats cap evictCount).2 := by
  obtain ⟨accounted,caps,slots⟩ := run_accounted (accounted_new maxPerPrefix maxSlots) ops
  refine ⟨fun pfx => ?_,?_,fun peers stats cap evictCount distinct =>
    rotatePeers_rotates _ peers stats cap evictCount distinct⟩
  · have capped := accounted.capped pfx
    rw [caps] at capped
    exact ⟨accounted.counted pfx,(accounted.counted pfx).trans_le capped⟩
  · exact accounted.slots.trans_eq slots

namespace Sample

def address (a b c d : UInt8) : IpAddr := .v4 #v[a,b,c,d]

def table : IpSlotTable :=
  run (new 2 8) [.join [1] (address 10 0 0 1),.join [2] (address 10 0 0 2),.join [3] (address 11 1 2 3)]

def peers : List (PeerId × IpAddr) :=
  [([3],address 11 1 2 3),([2],address 10 0 0 2),([1],address 10 0 0 1)]

theorem crowded_evicted : (peers.map Prod.fst).Nodup ∧ table.len ≤ 8 ∧
    Rotates table peers ∅ {} 1 (rotatePeers table peers ∅ {} 1).1 (rotatePeers table peers ∅ {} 1).2 :=
  ⟨by decide,(slots_accounted 2 8 _).2.1,(slots_accounted 2 8 _).2.2 peers ∅ {} 1 (by decide)⟩

end Sample
end L1.Eclipse
