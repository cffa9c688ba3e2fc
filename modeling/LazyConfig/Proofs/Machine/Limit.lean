import LazyConfig.Evaluator
import LazyConfig.Proofs.Machine.Progress
import LazyConfig.Proofs.Machine.Runs

/-!
The limit of levels. Only entering a level looks at it, so that a request that never meets the limit goes
on in the same way under any larger one.
-/

namespace LazyConfig

namespace State

variable {context : Context}

/-- The same state under another limit of levels. -/
def under (state : State) (limit : Nat) : State :=
  { state with meter := { state.meter with limit } }

/-- A step is the same under a larger limit, unless it is refused one more level. -/
theorem step_under {state : State} {limit : Nat} (larger : state.meter.limit ≤ limit) :
    (state.under limit).step context = (state.step context).under limit ∨
      state.step context = { state with control := .fail (.depthExceeded state.meter.limit) } := by
  -- Only a step that asks for one more level looks at the limit.
  cases state.shape context with
  | uniform below _ alone rule =>
    have here : state.step context = _ := (uniform_self rule state.meter).above
    rw [here]
    exact .inl (uniform_self rule { state.meter with limit }).above
  | enters body env asked =>
    obtain ⟨store, meter, control, stack⟩ := state
    obtain rfl : control = .enter body env := asked
    -- Where there is room under the smaller limit, there is room under the larger one.
    by_cases room : meter.current < meter.limit
    · refine .inl ?_
      have more : meter.current < limit := Nat.lt_of_lt_of_le room larger
      simp [step, under, Context.enterStep, DepthMeter.enter?, room, more]
    · refine .inr ?_
      simp [step, Context.enterStep, DepthMeter.enter?, room]
  | leaves rest _ _ stepped =>
    have here : state.step context = _ := step_self stepped state.meter
    rw [here]
    exact .inl (step_self stepped { state.meter with limit })
  | starts id work asked found =>
    obtain ⟨store, meter, control, stack⟩ := state
    obtain rfl : control = .force id := asked
    rw [under, step_force_suspended found, step_force_suspended found]
    cases work <;> exact .inl rfl
  | settles id outcome rest _ _ _ stepped =>
    have here : state.step context = _ := step_self stepped state.meter
    rw [here]
    exact .inl (step_self stepped { state.meter with limit })
  | answers ending _ _ _ stepped =>
    have here : state.step context = _ := stepped state.meter
    rw [here]
    exact .inl (stepped { state.meter with limit })

/-- No step changes the limit. -/
theorem step_limit (state : State) : (state.step context).meter.limit = state.meter.limit := by
  -- Under its own limit a state is itself, and so is what comes next.
  rcases @step_under context state _ (Nat.le_refl _) with same | refused
  · have limits := congrArg (fun after : State => after.meter.limit) same
    exact limits
  · rw [refused]

/-- No run changes the limit. -/
theorem run_limit (state : State) (steps : Nat) :
    (state.run context steps).meter.limit = state.meter.limit := by
  induction steps with
  | zero => rfl
  | succ steps ih => rw [run_last, step_limit, ih]

/-- A run is the same under a larger limit, unless it is refused one more level on the way. -/
theorem run_under {state : State} {limit : Nat} (larger : state.meter.limit ≤ limit) (steps : Nat) :
    (state.under limit).run context steps = (state.run context steps).under limit ∨
      ∃ before, (state.run context before).control =
        .fail (.depthExceeded state.meter.limit) := by
  induction steps with
  | zero => exact .inl rfl
  | succ steps ih =>
    rcases ih with same | refused
    · -- Both runs stand at the same state, which takes the same step or is refused.
      rw [run_last, run_last, same]
      have own := @run_limit context state steps
      rcases @step_under context (state.run context steps) limit (own ▸ larger) with same | refused
      · exact .inl same
      · exact .inr ⟨steps + 1, by rw [run_last, refused, own]⟩
    · exact .inr refused

end State

/-- An end with the failure that there was no room for one more level. -/
def Ending.Overflows (ending : Ending) : Prop :=
  ∃ failure left limit, ending = .upset (.error failure) left ∧ failure.fault = .depthExceeded limit

/-- The code of `{ size = probe 7 }.size`. -/
def probedField : Code where
  exprs := #[.ident 2, .int 7, .apply 0 1, .record [⟨1, none, 2⟩], .field 3 1]

end LazyConfig
