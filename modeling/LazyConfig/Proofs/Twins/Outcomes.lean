import LazyConfig.Proofs.Machine.Progress
import LazyConfig.Proofs.Machine.Outcomes
import LazyConfig.Proofs.Twins.Runs

/-!
What work comes to in two stores of paired computations: values of the same form or the same failure, with
the same calls of host functions on the way.
-/

namespace LazyConfig

/-- Values of the same form, or the same failure. -/
inductive OutcomeTwin (pairs : Pairing) : Outcome → Outcome → Prop
  | ok {value other : Value} (same : ValueTwin pairs value other) :
    OutcomeTwin pairs (.ok value) (.ok other)
  | error (upset : Upset) : OutcomeTwin pairs (.error upset) (.error upset)

/-- The same calls of host functions are noted on the way from one store to another, and in other stores. -/
def SameCalls (before after other later : Store) : Prop :=
  ∃ calls, after.calls = before.calls ++ calls ∧ later.calls = other.calls ++ calls

namespace SameCalls

variable {before middle after other between later : Store}

theorem refl (before other : Store) : SameCalls before before other other :=
  ⟨#[], Array.append_empty.symm, Array.append_empty.symm⟩

theorem trans (first : SameCalls before middle other between)
    (second : SameCalls middle after between later) : SameCalls before after other later := by
  obtain ⟨calls, left, right⟩ := first
  obtain ⟨more, second_left, second_right⟩ := second
  exact ⟨calls ++ more, by rw [second_left, left, Array.append_assoc],
    by rw [second_right, right, Array.append_assoc]⟩

/-- Only the calls that are noted matter. -/
theorem of_calls {before' after' other' later' : Store} (same : SameCalls before after other later)
    (first : before'.calls = before.calls) (second : after'.calls = after.calls)
    (third : other'.calls = other.calls) (fourth : later'.calls = later.calls) :
    SameCalls before' after' other' later' := by
  rw [SameCalls, first, second, third, fourth]
  exact same

end SameCalls

variable {context : Context} {pairs : Pairing} {left right after later : Store} {meter : DepthMeter}
  {work other : Control} {outcome result : Outcome}

/-- Outcomes of the same form fit within the same limits. -/
theorem OutcomeTwin.fits_iff (same : OutcomeTwin pairs outcome result) {limit : Nat} :
    outcome.Fits limit ↔ result.Fits limit := by
  cases same with
  | ok => exact ⟨fun _ => Outcome.fits_ok _ _, fun _ => Outcome.fits_ok _ _⟩
  | error => exact Iff.rfl

/-- What is passed on in both stores are outcomes of the same form. -/
theorem OutcomeTwin.of_control (same : ControlTwin pairs (.passing outcome) other) :
    ∃ result, other = .passing result ∧ OutcomeTwin pairs outcome result := by
  cases outcome with
  | ok value =>
    cases same with
    | give same => exact ⟨.ok _, rfl, .ok same⟩
  | error upset =>
    cases same
    exact ⟨.error upset, rfl, .error upset⟩

/-- Whatever is passed on in the second store is passed on in the first. -/
theorem OutcomeTwin.to_control (same : ControlTwin pairs other (.passing result)) :
    ∃ outcome, other = .passing outcome ∧ OutcomeTwin pairs outcome result := by
  cases result with
  | ok value =>
    cases same with
    | give same => exact ⟨.ok _, rfl, .ok same⟩
  | error upset =>
    cases same
    exact ⟨.error upset, rfl, .error upset⟩

namespace TwinState

variable {state image : State}

/-- The same call is noted in both stores. -/
theorem heard (same : TwinState pairs state image) : state.heard = image.heard := by
  obtain ⟨store, meter, control, stack⟩ := state
  obtain ⟨other, level, next, others⟩ := image
  obtain ⟨twins, -, control, frames⟩ := same
  dsimp only at twins control frames
  -- A call is heard only where a function of the host has been given its argument, which reads the
  -- same.
  cases control with
  | give given =>
    cases frames with
    | nil => rfl
    | cons top rest =>
      cases top with
      | hostArgument function => simp only [State.heard, twins.quoted given]
      | _ => rfl
  | _ => rfl

/-- The same calls are noted on the way in both stores. -/
theorem run_calls (same : TwinState pairs state image) {steps : Nat}
    (unfinished : ¬ (state.run context steps).Ended) :
    SameCalls state.store (state.run context steps).store image.store (image.run context steps).store := by
  induction steps with
  | zero => exact .refl _ _
  | succ steps ih =>
    -- The calls of the run are those of its first steps and, after them, the call of its last step.
    rw [State.run_last] at unfinished
    have going : ¬ (state.run context steps).Ended := fun ended => unfinished <| by
      rw [show (state.run context steps).step context = state.run context steps by
        rw [← State.run_last, State.run_add, ended.run]]
      exact ended
    obtain ⟨more, -, reached⟩ := same.run going
    rw [State.run_last, State.run_last]
    refine (ih going).trans ⟨(state.run context steps).heard, State.step_calls _, ?_⟩
    rw [reached.heard]
    exact State.step_calls _

/-- A run that goes on in the second store goes on in the first. -/
theorem unfinished (same : TwinState pairs state image) {steps : Nat}
    (going : ¬ (image.run context steps).Ended) : ¬ (state.run context steps).Ended := by
  induction steps generalizing pairs state image with
  | zero =>
    -- A state with a twin is not at its end.
    rintro ⟨ending, done⟩
    have control := same.control
    rw [State.run] at done
    rw [done] at control
    cases control
  | succ steps ih =>
    rw [State.run_succ] at going ⊢
    -- The state after one step has not ended either, and the pairing of it is the one of the step.
    have goes : ¬ (image.step context).Ended := fun ended => by
      rw [ended.run] at going
      exact going ended
    obtain ⟨more, -, next⟩ := same.step (same.independent_iff.mpr (State.independent_of_step goes))
    exact ih next going

end TwinState

/-- The outcome of some work in both stores, and how far the computations have come then. -/
structure OutcomesTwin (pairs : Pairing) (left right : Store) (outcome result : Outcome)
    (after later : Store) (more : Pairing) : Prop where
  grows : pairs.Grows right more later
  twins : Twins more after later
  outcomes : OutcomeTwin more outcome result
  calls : SameCalls left after right later

/-- Some work comes to an outcome in the second store as it does in the first. -/
theorem Twins.brings (twins : Twins pairs left right) (same : ControlTwin pairs work other)
    (brings : Brings context meter left work outcome after) :
    ∃ more result later, Brings context meter right other result later ∧
      OutcomesTwin pairs left right outcome result after later more := by
  obtain ⟨steps, reached⟩ := brings
  have start : TwinState pairs ⟨left, meter, work, []⟩ ⟨right, meter, other, []⟩ := ⟨twins, rfl, same, .nil⟩
  -- A run that passes an outcome on has not ended, so the other store has followed it so far.
  have going : ¬ (State.run context steps ⟨left, meter, work, []⟩).Ended := by
    rw [reached]
    exact State.not_ended_of_passing
  obtain ⟨more, grows, last⟩ := start.run going
  have calls := start.run_calls going
  rw [reached] at last calls
  generalize ran : State.run context steps ⟨right, meter, other, []⟩ = final at grows last calls
  obtain ⟨store, level, control, stack⟩ := final
  obtain ⟨between, rfl, controls, frames⟩ := last
  dsimp only at between controls frames grows calls
  cases frames
  obtain ⟨result, rfl, outcomes⟩ := OutcomeTwin.of_control controls
  exact ⟨more, result, store, ⟨steps, ran⟩, grows, between, outcomes, calls⟩

/-- Some work comes to an outcome in the first store as it does in the second. -/
theorem Twins.brings_back (twins : Twins pairs left right) (same : ControlTwin pairs work other)
    (brings : Brings context meter right other result later) :
    ∃ more outcome after, Brings context meter left work outcome after ∧
      OutcomesTwin pairs left right outcome result after later more := by
  obtain ⟨steps, reached⟩ := brings
  have start : TwinState pairs ⟨left, meter, work, []⟩ ⟨right, meter, other, []⟩ := ⟨twins, rfl, same, .nil⟩
  have going : ¬ (State.run context steps ⟨left, meter, work, []⟩).Ended := start.unfinished (by
    rw [reached]
    exact State.not_ended_of_passing)
  obtain ⟨more, grows, last⟩ := start.run going
  have calls := start.run_calls going
  rw [reached] at grows last calls
  generalize ran : State.run context steps ⟨left, meter, work, []⟩ = final at last calls
  obtain ⟨store, level, control, stack⟩ := final
  obtain ⟨between, levels, controls, frames⟩ := last
  dsimp only at between levels controls frames grows calls
  subst levels
  cases frames
  obtain ⟨outcome, rfl, outcomes⟩ := OutcomeTwin.to_control controls
  exact ⟨more, outcome, store, ⟨steps, ran⟩, grows, between, outcomes, calls⟩

end LazyConfig
