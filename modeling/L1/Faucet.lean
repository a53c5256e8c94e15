import L1.Json
import L1.Types

/-! The rate limits of the faucet. A request is charged to its address and then to its IP before the
faucet is asked, so what is counted are charges and not drips. -/
namespace L1.Faucet

inductive FaucetError where
  | rpc (text : String) | http (text : String)
  deriving DecidableEq, Repr

inductive RateLimitError where
  | throttled | faucet (reason : FaucetError)
  deriving DecidableEq, Repr

inductive Source where
  | address (dest : Address) | ip (text : String)
  deriving DecidableEq

def encodeAddr (a : Address) : String := String.ofList (Hex.encodeDigits a.toList)

def Source.key : Source → String
  | .address dest => "a:" ++ encodeAddr dest
  | .ip text => "ip:" ++ text

structure RateLimitedFaucet where
  maxPerWindow : UInt32
  window : Nat
  hits : Map String (List Nat)

def recent (window now : Nat) (times : List Nat) : List Nat := times.filter fun t => now - t < window

namespace RateLimitedFaucet

def new (maxPerWindow : UInt32) (window : Nat) : RateLimitedFaucet := ⟨maxPerWindow,window,∅⟩

def times (f : RateLimitedFaucet) (key : String) : List Nat := f.hits[key]?.getD []

def put (f : RateLimitedFaucet) (key : String) (e : List Nat) : RateLimitedFaucet :=
  { f with hits := f.hits.insert key e }

def admitKey (f : RateLimitedFaucet) (key : String) (now : Nat) : Bool × RateLimitedFaucet :=
  let e := recent f.window now (f.times key)
  if UInt32.ofNat e.length ≥ f.maxPerWindow then (false,f.put key e) else (true,f.put key (e ++ [now]))

end RateLimitedFaucet

/-- A request, with what the faucet would answer it. -/
structure Request where
  dest : Address
  ip : String
  now : Nat
  outcome : Except FaucetError Hash

def RateLimitedFaucet.drip (f : RateLimitedFaucet) (r : Request) :
    Except RateLimitError Hash × RateLimitedFaucet :=
  match f.admitKey (Source.address r.dest).key r.now with
  | (false,f) => (.error .throttled,f)
  | (true,f) => match f.admitKey (Source.ip r.ip).key r.now with
    | (false,f) => (.error .throttled,f)
    | (true,f) => (r.outcome.mapError .faucet,f)

abbrev Log := List (Request × Except RateLimitError Hash)

def serveNext (s : RateLimitedFaucet × Log) (r : Request) : RateLimitedFaucet × Log :=
  ((s.1.drip r).2,s.2 ++ [(r,(s.1.drip r).1)])

def serve (maxPerWindow : UInt32) (window : Nat) (requests : List Request) : RateLimitedFaucet × Log :=
  requests.foldl serveNext (.new maxPerWindow window,[])

def Request.sources (r : Request) : List Source := [.address r.dest,.ip r.ip]

def successes (window now : Nat) (log : Log) (source : Source) : Nat :=
  (log.filter fun e => e.2.isOk && decide (source ∈ e.1.sources) && decide (now - e.1.now < window)).length

/-- A request is throttled exactly if one of its sources has all the drips of a window. -/
def Exact (maxPerWindow : UInt32) (window : Nat) (before : List Request) (r : Request) : Prop :=
  ((serve maxPerWindow window before).1.drip r).1 = .error .throttled ↔
    ∃ source ∈ r.sources,
      maxPerWindow.toNat ≤ successes window r.now (serve maxPerWindow window before).2 source

theorem encodeAddr_injective {a b : Address} (same : encodeAddr a = encodeAddr b) : a = b := by
  have digits : Hex.encodeDigits a.toList = Hex.encodeDigits b.toList := String.ofList_injective same
  have read := congrArg Hex.decodeDigits digits
  rw [Hex.decodeDigits_encodeDigits,Hex.decodeDigits_encodeDigits] at read
  exact toList_injective (Option.some.inj read)

theorem Source.key_injective {a b : Source} (same : a.key = b.key) : a = b := by
  have letters := congrArg String.toList same
  cases a <;> cases b <;> simp [Source.key] at letters
  · rw [encodeAddr_injective (String.toList_injective letters)]
  · rw [String.toList_injective letters]

/-! What is charged, apart from how the limiter stores it. -/

abbrev Charges := List (Source × Nat)

def timesOf (charges : Charges) (source : Source) : List Nat :=
  (charges.filter fun c => c.1 = source).map (·.2)

def charged (window now : Nat) (charges : Charges) (source : Source) : Nat :=
  (recent window now (timesOf charges source)).length

def charge (maxPerWindow window now : Nat) (charges : Charges) (source : Source) : Bool × Charges :=
  if maxPerWindow ≤ charged window now charges source then (false,charges)
  else (true,charges ++ [(source,now)])

/-- The address first. It stays charged if the IP is refused, and both if the faucet fails. -/
def chargeNext (maxPerWindow window : Nat) (charges : Charges) (r : Request) : Charges :=
  match charge maxPerWindow window r.now charges (.address r.dest) with
  | (false,charges) => charges
  | (true,charges) => (charge maxPerWindow window r.now charges (.ip r.ip)).2

theorem recent_recent {window now later : Nat} (order : now ≤ later) (times : List Nat) :
    recent window later (recent window now times) = recent window later times := by
  rw [recent,recent,recent,List.filter_filter]
  refine List.filter_congr fun t _ => ?_
  rw [Bool.and_eq_left_iff_imp,decide_eq_true_eq,decide_eq_true_eq]
  omega

@[simp] theorem recent_append (window now : Nat) (a b : List Nat) :
    recent window now (a ++ b) = recent window now a ++ recent window now b := by
  simp [recent]

@[simp] theorem timesOf_append (a b : Charges) (source : Source) :
    timesOf (a ++ b) source = timesOf a source ++ timesOf b source := by
  simp [timesOf]

theorem timesOf_singleton (c : Source × Nat) (source : Source) :
    timesOf [c] source = if c.1 = source then [c.2] else [] := by
  by_cases same : c.1 = source <;> simp [timesOf,same]

theorem charged_append (window now : Nat) (charges : Charges) (c : Source × Nat) (source : Source) :
    charged window now (charges ++ [c]) source =
      charged window now charges source + if c.1 = source ∧ now - c.2 < window then 1 else 0 := by
  rw [charged,timesOf_append,recent_append,List.length_append,← charged,timesOf_singleton]
  by_cases same : c.1 = source <;> by_cases inside : now - c.2 < window <;> simp [recent,same,inside]

theorem RateLimitedFaucet.times_put (f : RateLimitedFaucet) (key other : String) (e : List Nat) :
    (f.put key e).times other = if other = key then e else f.times other := by
  rw [times,put,Map.get?_insert]
  split <;> rfl

/-- The limiter holds, for every later time, the charges inside the window. Its lists never outgrow the
quota, so the cast does not cut their lengths. -/
structure Tracks (maxPerWindow : UInt32) (window : Nat) (f : RateLimitedFaucet) (charges : Charges)
    (since : Nat) : Prop where
  quota : f.maxPerWindow = maxPerWindow
  span : f.window = window
  kept : ∀ source now, since ≤ now →
    recent window now (f.times source.key) = recent window now (timesOf charges source)
  small : ∀ key, (f.times key).length ≤ maxPerWindow.toNat

section Limiter

variable {quota : UInt32} {window : Nat} {f : RateLimitedFaucet} {charges : Charges}
  {since now : Nat}

theorem Tracks.new : Tracks quota window (.new quota window) [] 0 where
  quota := rfl
  span := rfl
  kept _ _ _ := by simp [RateLimitedFaucet.times,RateLimitedFaucet.new,timesOf]
  small _ := by simp [RateLimitedFaucet.times,RateLimitedFaucet.new]

theorem Tracks.later (tracks : Tracks quota window f charges since) (order : since ≤ now) :
    Tracks quota window f charges now :=
  { tracks with kept := fun source _ after => tracks.kept source _ (order.trans after) }

theorem Tracks.write (tracks : Tracks quota window f charges since) (order : since ≤ now)
    (source : Source) (extra : Charges) (others : ∀ other, other ≠ source → timesOf extra other = [])
    (fits : (recent window now (f.times source.key) ++ timesOf extra source).length ≤ quota.toNat) :
    Tracks quota window
      (f.put source.key (recent window now (f.times source.key) ++ timesOf extra source))
      (charges ++ extra) now where
  quota := tracks.quota
  span := tracks.span
  kept other after later := by
    rw [f.times_put,timesOf_append,recent_append]
    by_cases same : other = source
    · rw [if_pos (by rw [same]),recent_append,recent_recent later,same,
        tracks.kept source after (order.trans later)]
    · rw [if_neg fun keys => same (Source.key_injective keys),others other same,
        tracks.kept other after (order.trans later)]
      simp [recent]
  small key := by
    rw [f.times_put]
    split
    · exact fits
    · exact tracks.small key

/-- A source is admitted as its charges say, and charged if it is. -/
theorem Tracks.admitKey (tracks : Tracks quota window f charges since) (order : since ≤ now)
    (source : Source) :
    (f.admitKey source.key now).1 = (charge quota.toNat window now charges source).1 ∧
      Tracks quota window (f.admitKey source.key now).2
        (charge quota.toNat window now charges source).2 now := by
  have short : (recent window now (f.times source.key)).length ≤ quota.toNat :=
    (List.length_filter_le _ _).trans (tracks.small source.key)
  have count : (recent window now (f.times source.key)).length = charged window now charges source := by
    rw [tracks.kept source now order,charged]
  have bound := quota.toNat_lt
  have full : UInt32.ofNat (recent window now (f.times source.key)).length ≥ quota ↔
      quota.toNat ≤ charged window now charges source := by
    rw [ge_iff_le,UInt32.le_iff_toNat_le,UInt32.toNat_ofNat_of_lt' (short.trans_lt bound),count]
  rw [RateLimitedFaucet.admitKey,charge,tracks.quota,tracks.span]
  by_cases reached : quota.toNat ≤ charged window now charges source
  · have written := tracks.write order source [] (fun _ _ => rfl) (by simpa [timesOf] using short)
    rw [if_pos (full.mpr reached),if_pos reached]
    exact ⟨rfl,by simpa [timesOf] using written⟩
  · have single : timesOf [(source,now)] source = [now] := by rw [timesOf_singleton,if_pos rfl]
    have written := tracks.write order source [(source,now)]
      (fun other different => by rw [timesOf_singleton,if_neg (Ne.symm different)])
      (by rw [single,List.length_append,count,List.length_singleton]; omega)
    rw [if_neg (mt full.mp reached),if_neg reached]
    rw [single] at written
    exact ⟨rfl,written⟩

theorem charged_ip (r : Request) : charged window now (charges ++ [(.address r.dest,r.now)]) (.ip r.ip) =
    charged window now charges (.ip r.ip) := by
  rw [charged_append,if_neg (by simp),add_zero]

/-- Refused at the address, refused at the IP with the address charged, or left to the faucet with both
charged. -/
theorem Tracks.drip (tracks : Tracks quota window f charges since) (r : Request)
    (order : since ≤ r.now) :
    Tracks quota window (f.drip r).2 (chargeNext quota.toNat window charges r) r.now ∧
      ((quota.toNat ≤ charged window r.now charges (.address r.dest) ∧
          (f.drip r).1 = .error .throttled ∧ chargeNext quota.toNat window charges r = charges) ∨
        (quota.toNat ≤ charged window r.now charges (.ip r.ip) ∧
          (f.drip r).1 = .error .throttled ∧ chargeNext quota.toNat window charges r =
            charges ++ [(.address r.dest,r.now)]) ∨
        (charged window r.now charges (.address r.dest) < quota.toNat ∧
          charged window r.now charges (.ip r.ip) < quota.toNat ∧
          (f.drip r).1 = r.outcome.mapError .faucet ∧ chargeNext quota.toNat window charges r =
            charges ++ [(.address r.dest,r.now)] ++ [(.ip r.ip,r.now)])) := by
  obtain ⟨first,charged₁⟩ := tracks.admitKey order (.address r.dest)
  rcases admitted : f.admitKey (Source.address r.dest).key r.now with ⟨allowed,f₁⟩
  rw [admitted] at first charged₁
  by_cases reached : quota.toNat ≤ charged window r.now charges (.address r.dest)
  · rw [charge,if_pos reached] at first charged₁
    obtain rfl : allowed = false := first
    simp only [RateLimitedFaucet.drip,chargeNext,admitted,charge,if_pos reached]
    exact ⟨charged₁,.inl ⟨reached,trivial,trivial⟩⟩
  rw [charge,if_neg reached] at first charged₁
  obtain rfl : allowed = true := first
  obtain ⟨second,charged₂⟩ := charged₁.admitKey le_rfl (.ip r.ip)
  rcases admitted₂ : f₁.admitKey (Source.ip r.ip).key r.now with ⟨allowed,f₂⟩
  rw [admitted₂] at second charged₂
  by_cases reached₂ : quota.toNat ≤ charged window r.now charges (.ip r.ip)
  · rw [charge,charged_ip,if_pos reached₂] at second charged₂
    obtain rfl : allowed = false := second
    simp only [RateLimitedFaucet.drip,chargeNext,admitted,admitted₂,charge,if_neg reached,charged_ip,
      if_pos reached₂]
    exact ⟨charged₂,.inr (.inl ⟨reached₂,trivial,trivial⟩)⟩
  · rw [charge,charged_ip,if_neg reached₂] at second charged₂
    obtain rfl : allowed = true := second
    simp only [RateLimitedFaucet.drip,chargeNext,admitted,admitted₂,charge,if_neg reached,charged_ip,
      if_neg reached₂]
    exact ⟨charged₂,.inr (.inr ⟨not_le.mp reached,not_le.mp reached₂,trivial,trivial⟩)⟩

theorem Tracks.throttled_iff (tracks : Tracks quota window f charges since) (r : Request)
    (order : since ≤ r.now) : (f.drip r).1 = .error .throttled ↔
      ∃ source ∈ r.sources, quota.toNat ≤ charged window r.now charges source := by
  have sources : (∃ source ∈ r.sources, quota.toNat ≤ charged window r.now charges source) ↔
      quota.toNat ≤ charged window r.now charges (.address r.dest) ∨
        quota.toNat ≤ charged window r.now charges (.ip r.ip) := by simp [Request.sources]
  rw [sources]
  obtain ⟨-,⟨reached,answer,-⟩ | ⟨reached,answer,-⟩ | ⟨address,ip,answer,-⟩⟩ := tracks.drip r order
  · simp [answer,reached]
  · simp [answer,reached]
  · rw [answer]
    cases r.outcome <;> simp [Except.mapError] <;> omega

end Limiter

section Runs

variable {quota : UInt32} {window : Nat}

def chargesOf (maxPerWindow : UInt32) (window : Nat) (requests : List Request) : Charges :=
  requests.foldl (chargeNext maxPerWindow.toNat window) []

def Ordered (requests : List Request) : Prop := requests.Pairwise fun a b => a.now ≤ b.now

theorem serve_append (requests : List Request) (r : Request) :
    serve quota window (requests ++ [r]) = serveNext (serve quota window requests) r := by
  simp [serve]

theorem chargesOf_append (requests : List Request) (r : Request) :
    chargesOf quota window (requests ++ [r]) =
      chargeNext quota.toNat window (chargesOf quota window requests) r := by
  simp [chargesOf]

theorem successes_append (now : Nat) (log : Log) (e : Request × Except RateLimitError Hash)
    (source : Source) : successes window now (log ++ [e]) source = successes window now log source +
      if e.2.isOk ∧ source ∈ e.1.sources ∧ now - e.1.now < window then 1 else 0 := by
  rw [successes,List.filter_append,List.length_append,← successes]
  by_cases answered : e.2.isOk <;> by_cases mine : source ∈ e.1.sources <;>
    by_cases inside : now - e.1.now < window <;> simp [answered,mine,inside]

/-- Along a run in order the limiter holds the charges, and every drip is among them. -/
theorem serve_tracks {requests : List Request} (ordered : Ordered requests) {since : Nat}
    (past : ∀ r ∈ requests, r.now ≤ since) :
    Tracks quota window (serve quota window requests).1 (chargesOf quota window requests)
        since ∧
      ∀ now source, successes window now (serve quota window requests).2 source ≤
        charged window now (chargesOf quota window requests) source := by
  induction requests using List.reverseRecOn generalizing since with
  | nil => exact ⟨Tracks.new.later (Nat.zero_le _),fun _ _ => Nat.le_refl 0⟩
  | append_singleton before r ih =>
    obtain ⟨earlier,-,last⟩ := List.pairwise_append.mp ordered
    have before_now : ∀ e ∈ before, e.now ≤ r.now := fun e member => last e member r (by simp)
    obtain ⟨tracks,counts⟩ := ih earlier before_now
    obtain ⟨tracked,step⟩ := tracks.drip r le_rfl
    rw [serve_append,chargesOf_append]
    refine ⟨tracked.later (past r (by simp)),fun now source => ?_⟩
    have sofar := counts now source
    rw [serveNext,successes_append]
    obtain ⟨-,answer,charges⟩ | ⟨-,answer,charges⟩ | ⟨-,-,answer,charges⟩ := step
    · rw [answer,charges]
      simpa [Except.isOk,Except.toBool] using sofar
    · rw [answer,charges,charged_append]
      simpa [Except.isOk,Except.toBool] using Nat.le_add_right_of_le sofar
    · rw [charges,charged_append,charged_append]
      have either : source ∈ r.sources → Source.address r.dest = source ∨ Source.ip r.ip = source := by
        simp [Request.sources,eq_comm]
      by_cases counted : source ∈ r.sources ∧ now - r.now < window
      · obtain same | same := either counted.1
        · rw [if_pos (show Source.address r.dest = source ∧ _ from ⟨same,counted.2⟩)]
          split_ifs <;> omega
        · rw [if_pos (show Source.ip r.ip = source ∧ _ from ⟨same,counted.2⟩)]
          split_ifs <;> omega
      · rw [if_neg fun all => counted all.2]
        omega

/-- A request is exact unless its sources are charged for more than their drips. -/
theorem exact_iff {before : List Request} {r : Request} (ordered : Ordered (before ++ [r])) :
    Exact quota window before r ↔
      ((∃ source ∈ r.sources,
          quota.toNat ≤ charged window r.now (chargesOf quota window before) source) →
        ∃ source ∈ r.sources,
          quota.toNat ≤ successes window r.now (serve quota window before).2 source) := by
  obtain ⟨earlier,-,last⟩ := List.pairwise_append.mp ordered
  obtain ⟨tracks,counts⟩ := serve_tracks earlier fun e member => last e member r (by simp)
  rw [Exact,tracks.throttled_iff r le_rfl]
  refine ⟨fun exact => exact.mp,fun enough => ⟨enough,?_⟩⟩
  rintro ⟨source,mine,reached⟩
  exact ⟨source,mine,reached.trans (counts r.now source)⟩

def failing : Request := ⟨Vector.replicate _ 0,"",0,.error (.rpc "")⟩

theorem successes_failing (count now : Nat) (source : Source) :
    successes window now (serve quota window (List.replicate count failing)).2 source = 0 := by
  induction count with
  | zero => rfl
  | succ count ih =>
    rw [List.replicate_succ',serve_append,serveNext,successes_append,ih,if_neg]
    rintro ⟨answered,-⟩
    rw [RateLimitedFaucet.drip] at answered
    split at answered
    · cases answered
    · split at answered <;> cases answered

theorem charged_failing (wide : 0 < window) {count : Nat} (room : count ≤ quota.toNat) :
    ∀ source ∈ failing.sources,
      charged window failing.now (chargesOf quota window (List.replicate count failing)) source =
        count := by
  induction count with
  | zero => exact fun _ _ => rfl
  | succ count ih =>
    have counts := ih (by omega)
    have address := counts (.address failing.dest) (by simp [Request.sources])
    have ip := counts (.ip failing.ip) (by simp [Request.sources])
    have below : ¬quota.toNat ≤ count := by omega
    rw [List.replicate_succ',chargesOf_append]
    simp only [chargeNext,charge,address,charged_ip,ip,if_neg below]
    intro source mine
    rw [charged_append,charged_append,counts source mine]
    simp only [Request.sources,List.mem_cons,List.not_mem_nil,or_false] at mine
    obtain rfl | rfl := mine <;> simp [wide.ne']

theorem charged_closed {charges : Charges} {now : Nat} (source : Source) : charged 0 now charges source = 0 := by
  simp [charged,recent]

/-- Throttling is exact for every history only if nothing is ever counted. -/
theorem throttling_exact_iff (maxPerWindow : UInt32) (window : Nat) :
    ((∀ before r, Ordered (before ++ [r]) → Exact maxPerWindow window before r) ↔
      maxPerWindow = 0 ∨ window = 0) ∧
    ∀ before r, Ordered (before ++ [r]) →
      (Exact maxPerWindow window before r ↔
        ((∃ source ∈ r.sources,
            maxPerWindow.toNat ≤ charged window r.now (chargesOf maxPerWindow window before) source) →
          ∃ source ∈ r.sources,
            maxPerWindow.toNat ≤ successes window r.now (serve maxPerWindow window before).2 source)) := by
  refine ⟨⟨fun exact => ?_,fun degenerate before r ordered => ?_⟩,fun _ _ => exact_iff⟩
  · by_contra counting
    have quota : maxPerWindow.toNat ≠ 0 := fun zero => counting (.inl (UInt32.toNat_inj.mp zero))
    have wide : 0 < window := Nat.pos_of_ne_zero fun zero => counting (.inr zero)
    have ordered : Ordered (List.replicate maxPerWindow.toNat failing ++ [failing]) := by
      rw [Ordered,← List.replicate_succ']
      exact List.pairwise_replicate.mpr (.inr le_rfl)
    have address : Source.address failing.dest ∈ failing.sources := by simp [Request.sources]
    have full := charged_failing wide (le_refl maxPerWindow.toNat) _ address
    obtain ⟨source,-,reached⟩ := (exact_iff ordered).mp (exact _ _ ordered) ⟨_,address,full.ge⟩
    rw [successes_failing] at reached
    omega
  · rw [exact_iff ordered]
    rintro ⟨source,mine,reached⟩
    refine ⟨source,mine,?_⟩
    obtain rfl | rfl := degenerate
    · exact Nat.zero_le _
    · rw [charged_closed] at reached
      exact reached.trans (Nat.zero_le _)

end Runs

namespace Sample

def drip (n : UInt8) (ip : String) (now : Nat) : Request :=
  ⟨Vector.replicate _ n,ip,now,.ok (Vector.replicate _ 0)⟩

def crowded : List Request := [drip 1 "10.0.0.1" 0,drip 2 "10.0.0.1" 1]

/-- One drip a minute. A failed drip uses up the quota of its address, and so does a request that is
refused for its IP. -/
theorem charged_without_drip :
    ¬Exact 1 60 [failing] (drip 0 "10.0.0.1" 1) ∧ ¬Exact 1 60 crowded (drip 2 "10.0.0.2" 2) ∧
      (∀ source ∈ (drip 0 "10.0.0.1" 1).sources, successes 60 1 (serve 1 60 [failing]).2 source = 0) ∧
      ∀ source ∈ (drip 2 "10.0.0.2" 2).sources, successes 60 2 (serve 1 60 crowded).2 source = 0 := by
  have failed : ∀ source ∈ (drip 0 "10.0.0.1" 1).sources,
      successes 60 1 (serve 1 60 [failing]).2 source = 0 := by decide +kernel
  have refused : ∀ source ∈ (drip 2 "10.0.0.2" 2).sources,
      successes 60 2 (serve 1 60 crowded).2 source = 0 := by decide +kernel
  refine ⟨fun exact => ?_,fun exact => ?_,failed,refused⟩
  · have ordered : Ordered ([failing] ++ [drip 0 "10.0.0.1" 1]) := by unfold Ordered; decide
    obtain ⟨source,mine,reached⟩ := (exact_iff ordered).mp exact (by decide +kernel)
    rw [show (drip 0 "10.0.0.1" 1).now = 1 from rfl,failed source mine] at reached
    cases reached
  · have ordered : Ordered (crowded ++ [drip 2 "10.0.0.2" 2]) := by unfold Ordered; decide
    obtain ⟨source,mine,reached⟩ := (exact_iff ordered).mp exact (by decide +kernel)
    rw [show (drip 2 "10.0.0.2" 2).now = 2 from rfl,refused source mine] at reached
    cases reached

end Sample

end L1.Faucet
