import Mathlib.Data.List.Infix

/-! Runs of a machine over a list of events, and what can be said of all states on the way. -/
namespace L1.Runs

variable {S E : Type*} (step : S → E → S)

def run (s : S) (events : List E) : S := events.foldl step s

@[simp] theorem run_nil (s : S) : run step s [] = s := rfl

@[simp] theorem run_singleton (s : S) (e : E) : run step s [e] = step s e := rfl

@[simp] theorem run_append_singleton (s : S) (events : List E) (e : E) :
    run step s (events ++ [e]) = step (run step s events) e := by
  simp [run]

variable {step} {s : S} {inv : S → Prop} {ok : S → E → Prop}

/-- What every step keeps whose condition is met, a run keeps whose conditions are met. -/
theorem keep (start : inv s) (keeps : ∀ s e, inv s → ok s e → inv (step s e)) {events : List E}
    (met : ∀ done e, done ++ [e] <+: events → ok (run step s done) e) : inv (run step s events) := by
  induction events using List.reverseRecOn with
  | nil => exact start
  | append_singleton done e ih =>
    rw [run_append_singleton]
    refine keeps _ e (ih fun before e' within => ?_) (met done e List.prefix_rfl)
    exact met before e' (within.trans (List.prefix_append done [e]))

/-- If a condition decides whether a step keeps an invariant, then the conditions of a run decide
whether it holds all the way. -/
theorem always_iff (start : inv s) (exact_ : ∀ s e, inv s → (inv (step s e) ↔ ok s e))
    (events : List E) : (∀ done, done <+: events → inv (run step s done)) ↔
      ∀ done e, done ++ [e] <+: events → ok (run step s done) e := by
  constructor
  · intro always done e within
    have before := always done ((List.prefix_append done [e]).trans within)
    have after := always (done ++ [e]) within
    rw [run_append_singleton] at after
    exact (exact_ _ e before).mp after
  · intro met done within
    refine keep start (fun s e held ok => (exact_ s e held).mpr ok) fun before e inside => ?_
    exact met before e (inside.trans within)

theorem met_singleton {e : E} (met : ok s e) :
    ∀ done e', done ++ [e'] <+: [e] → ok (run step s done) e' := by
  intro done e' within
  have short := within.length_le
  cases done with
  | nil =>
    obtain rfl : e' = e := by simpa using within
    exact met
  | cons _ _ => simp at short

end L1.Runs
