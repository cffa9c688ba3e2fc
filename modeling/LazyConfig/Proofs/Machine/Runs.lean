import LazyConfig.Evaluator
import LazyConfig.Proofs.Machine.Frames

/-!
Runs of the evaluator: they end in one way only, a failure passes all frames, and a run that ends
with a value has given a value to each frame that waited.
-/

namespace LazyConfig

/-- What a computation goes wrong for, without the notes on the way. -/
def Upset.cause : Upset → Except String Fault
  | .error failure => .ok failure.fault
  | .panic host => .error host

namespace State

variable {context : Context}

/-- An evaluation that has ended. -/
def Ended (state : State) : Prop :=
  ∃ ending, state.control = .done ending

/-- An evaluation whose end is there has ended. -/
theorem ended_of_ending {state : State} {ending : Ending} (stopped : state.ending? = some ending) :
    state.Ended := by
  obtain ⟨store, meter, control, stack⟩ := state
  cases control with
  | done ending => exact ⟨ending, rfl⟩
  | _ => cases stopped

/-- An evaluation that has something to do next has not ended. -/
theorem not_ended {state : State} (goes : state.ending? = none) : ¬ state.Ended := by
  rintro ⟨ending, done⟩
  simp [ending?, done] at goes

/-- An evaluation that gives a value has not ended. -/
theorem not_ended_of_give {state : State} {value : Value} (gives : state.control = .give value) :
    ¬ state.Ended := by
  rintro ⟨ending, done⟩
  rw [gives] at done
  cases done

/-- An evaluation that passes a failure on has not ended. -/
theorem not_ended_of_raise {state : State} {upset : Upset} (raised : state.control = .raise upset) :
    ¬ state.Ended := by
  rintro ⟨ending, done⟩
  rw [raised] at done
  cases done

/-- An evaluation that has ended stays as it is. -/
theorem Ended.run {state : State} (ended : state.Ended) (steps : Nat) :
    state.run context steps = state := by
  obtain ⟨ending, done⟩ := ended
  cases steps <;> simp [State.run, done]

/-- A run whose first step is taken. -/
theorem run_succ (steps : Nat) (state : State) :
    state.run context (steps + 1) = (state.step context).run context steps := by
  by_cases ended : state.Ended
  · -- A finished evaluation is its own next step.
    have stays : state.step context = state := by
      obtain ⟨store, meter, control, stack⟩ := state
      obtain ⟨ending, done⟩ := ended
      simp only at done
      subst done
      rfl
    rw [ended.run, stays, ended.run]
  · simp only [run]
    split
    · rename_i ending done
      exact absurd ⟨ending, done⟩ ended
    · rfl

/-- Steps add up. -/
theorem run_add (first second : Nat) (state : State) :
    state.run context (first + second) = (state.run context first).run context second := by
  induction first generalizing state with
  | zero => simp [run]
  | succ first ih =>
    rw [Nat.add_right_comm, run_succ, run_succ, ih]

/-- A run whose last step is taken. -/
theorem run_last (steps : Nat) (state : State) :
    state.run context (steps + 1) = (state.run context steps).step context := by
  rw [run_add, run_succ, run]

/-- What is left of a run that has come to a state. -/
theorem run_sub {start middle last : State} {before steps : Nat} (less : before ≤ steps)
    (reached : start.run context before = middle) (ran : start.run context steps = last) :
    middle.run context (steps - before) = last := by
  rw [← ran, ← reached, ← run_add, Nat.add_sub_cancel' less]

/-- A run ends in one way only. -/
theorem Ended.unique {state : State} {first second : Nat}
    (left : (state.run context first).Ended) (right : (state.run context second).Ended) :
    state.run context first = state.run context second := by
  have later : state.run context (first + second) = state.run context first := by
    rw [run_add, left.run]
  rw [← later, Nat.add_comm, run_add, right.run]

/-- A run of some number of steps from one state to another. -/
def GoesTo (context : Context) (first last : State) : Prop :=
  ∃ steps, first.run context steps = last

namespace GoesTo

/-- No step is needed to stay. -/
theorem refl (state : State) : GoesTo context state state :=
  ⟨0, rfl⟩

/-- A run goes on where another one stops. -/
theorem trans {first middle last : State} (before : GoesTo context first middle)
    (after : GoesTo context middle last) : GoesTo context first last := by
  obtain ⟨steps, rfl⟩ := before
  obtain ⟨more, rfl⟩ := after
  exact ⟨steps + more, run_add steps more first⟩

/-- A run that begins with a given step. -/
theorem step {first next last : State} (stepped : first.step context = next)
    (after : GoesTo context next last) : GoesTo context first last := by
  obtain ⟨more, rfl⟩ := after
  exact ⟨more + 1, by rw [run_succ, stepped]⟩

end GoesTo

/-- A failure is passed up past a frame with the same cause, or ends the evaluation. -/
theorem step_raise (store : Store) (meter : DepthMeter) (upset : Upset) (frame : Frame)
    (rest : List Frame) :
    ∃ later : Upset, later.cause = upset.cause ∧
      ((∃ store' meter', State.step context ⟨store, meter, .raise upset, frame :: rest⟩ =
          ⟨store', meter', .raise later, rest⟩) ∨
        ∃ left, (State.step context ⟨store, meter, .raise upset, frame :: rest⟩).control =
          .done (.upset later left)) := by
  -- Two frames do more than pass the failure up: one notes the field on the way, and a walk for a
  -- report ends there.
  cases frame with
  | note name =>
    exact ⟨upset.whileField (context.names.lookup name), by cases upset <;> rfl, .inl ⟨_, _, rfl⟩⟩
  | spine pending consumer =>
    cases consumer with
    | report => exact ⟨upset, rfl, .inr ⟨_, rfl⟩⟩
    | _ => exact ⟨upset, rfl, .inl ⟨_, _, rfl⟩⟩
  | _ => exact ⟨upset, rfl, .inl ⟨_, _, rfl⟩⟩

/-- A failure ends the evaluation, with the same cause. -/
theorem raise_ends {state : State} {upset : Upset} (raised : state.control = .raise upset) :
    ∃ steps later left, (state.run context steps).control = .done (.upset later left) ∧
      later.cause = upset.cause := by
  -- Each frame is passed in one step.
  obtain ⟨store, meter, control, stack⟩ := state
  simp only at raised
  subst raised
  induction stack generalizing store meter upset with
  | nil => exact ⟨1, upset, none, rfl, rfl⟩
  | cons frame rest ih =>
    obtain ⟨passed, cause, ⟨store', meter', stepped⟩ | ⟨left, done⟩⟩ :=
      @step_raise context store meter upset frame rest
    · obtain ⟨steps, later, left, ended, same⟩ := @ih passed store' meter'
      exact ⟨steps + 1, later, left, by rw [run_succ, stepped, ended], same.trans cause⟩
    · exact ⟨1, passed, left, done, cause⟩

/-- A failure does not end the evaluation with a value. -/
theorem raise_not_value {state : State} {upset : Upset} (raised : state.control = .raise upset)
    (steps : Nat) (value : Value) : (state.run context steps).control ≠ .done (.value value) := by
  intro ended
  obtain ⟨others, later, left, ended', -⟩ := @raise_ends context _ _ raised
  have same := Ended.unique ⟨_, ended⟩ ⟨_, ended'⟩
  rw [same, ended'] at ended
  cases ended

/-- A state whose next step does not end goes on without looking at its stack. -/
theorem independent_of_step {state : State} (unfinished : ¬ (state.step context).Ended) :
    state.Independent := by
  obtain ⟨store, meter, control, stack⟩ := state
  -- What looks below its stack gives a value or a failure to the host.
  cases control with
  | give value | raise upset => exact fun alone => unfinished ⟨_, by rw [show stack = [] from alone]; rfl⟩
  | _ => trivial

/-- Up to a state that has not ended, a run does not look below the stack that it started with. -/
theorem run_onto {state : State} {steps : Nat} (unfinished : ¬ (state.run context steps).Ended)
    (stack : List Frame) :
    (state.onto stack).run context steps = (state.run context steps).onto stack := by
  -- By induction on the steps: a state whose run goes on does not look below its own frames.
  induction steps generalizing state with
  | zero => rfl
  | succ steps ih =>
    rw [run_succ] at unfinished
    have independent : state.Independent := independent_of_step fun ended => by
      rw [ended.run] at unfinished
      exact unfinished ended
    rw [run_succ, run_succ, step_onto independent, ih unfinished]

/-- A run to a state that has not ended goes in the same way above other frames. -/
theorem GoesTo.onto {first last : State} (goes : GoesTo context first last) (unfinished : ¬ last.Ended)
    (stack : List Frame) : GoesTo context (first.onto stack) (last.onto stack) := by
  obtain ⟨steps, rfl⟩ := goes
  exact ⟨steps, run_onto unfinished stack⟩

/--
A run that ends with nothing left to wait for has passed a value or a failure to the frames that it
started with.
-/
theorem passes_before_end {rest : List Frame} (waited : rest ≠ []) (steps : Nat) {state : State}
    (unfinished : ¬ state.Ended) (ended : ((state.onto rest).run context steps).Ended)
    (empty : ((state.onto rest).run context steps).stack = []) :
    ∃ before < steps, ∃ store meter control,
      ((∃ value, control = .give value) ∨ ∃ upset, control = .raise upset) ∧
      state.run context before = ⟨store, meter, control, []⟩ ∧
      (state.onto rest).run context before = ⟨store, meter, control, rest⟩ := by
  -- By induction on the steps: either the first step is the same above the frames, or it is the one
  -- that passes something to them.
  induction steps generalizing state with
  | zero => exact absurd ended unfinished
  | succ steps ih =>
    by_cases independent : state.Independent
    · rw [run_succ, step_onto independent] at ended empty
      have unfinished' : ¬ (state.step context).Ended := by
        intro finished
        -- What has ended keeps its stack, in which the frames would still wait.
        have stopped : ((state.step context).onto rest).Ended := finished
        rw [stopped.run] at empty
        exact waited (List.append_eq_nil_iff.mp empty).2
      obtain ⟨before, less, store, meter, control, passes, alone, reached⟩ := ih unfinished' ended empty
      refine ⟨before + 1, by omega, store, meter, control, passes, ?_, ?_⟩
      · rw [run_succ, alone]
      · rw [run_succ, step_onto independent, reached]
    · obtain ⟨store, meter, control, frames⟩ := state
      cases control with
      | give value =>
        obtain rfl : frames = [] := by simpa [Independent] using independent
        exact ⟨0, by omega, store, meter, .give value, .inl ⟨value, rfl⟩, rfl, rfl⟩
      | raise upset =>
        obtain rfl : frames = [] := by simpa [Independent] using independent
        exact ⟨0, by omega, store, meter, .raise upset, .inr ⟨upset, rfl⟩, rfl, rfl⟩
      | _ => exact absurd trivial independent

/--
A run that ends with a value, and with nothing left to wait for, has given a value to the frames
that it started with.
-/
theorem gives_before_end {rest : List Frame} (waited : rest ≠ []) {store : Store}
    {meter : DepthMeter} {value : Value} (steps : Nat) {state : State} (unfinished : ¬ state.Ended)
    (ended : (state.onto rest).run context steps = ⟨store, meter, .done (.value value), []⟩) :
    ∃ before < steps, ∃ store' meter' given,
      (state.onto rest).run context before = ⟨store', meter', .give given, rest⟩ := by
  obtain ⟨before, less, store', meter', control, passes, -, reached⟩ :=
    passes_before_end waited steps unfinished ⟨_, congrArg State.control ended⟩
      (congrArg State.stack ended)
  rcases passes with ⟨given, rfl⟩ | ⟨upset, rfl⟩
  · exact ⟨before, less, store', meter', given, reached⟩
  · -- A failure would have ended the run otherwise.
    have rest := run_sub (Nat.le_of_lt less) reached ended
    exact absurd (congrArg State.control rest) (raise_not_value rfl _ value)

end State

/-! Ends, and the answers that they give. -/

/-- A failure with a given cause ends an evaluation with that cause. -/
theorem ends_with_cause {context : Context} {state : State} {fault : Fault} {notes : List String}
    (raised : state.control = .raise (.error ⟨fault, notes⟩)) :
    ∃ steps failure left, failure.fault = fault ∧
      (state.run context steps).control = .done (.upset (.error failure) left) := by
  obtain ⟨steps, later, left, ended, cause⟩ := @State.raise_ends context _ _ raised
  cases later with
  | error failure => exact ⟨steps, failure, left, by simpa [Upset.cause] using cause, ended⟩
  | panic host => simp [Upset.cause] at cause

/-- An evaluation whose answer is there has ended. -/
theorem ended_of_reply {state : State} {reply : Reply Value}
    (answered : state.reply? = some reply) : state.Ended := by
  obtain ⟨store, meter, control, stack⟩ := state
  cases control with
  | done ending => exact ⟨ending, rfl⟩
  | _ => cases answered

/-- An evaluation whose answer is a value has ended with that value. -/
theorem control_of_reply {state : State} {value : Value} {last : Store}
    (answered : state.reply? = some ⟨.ok value, last⟩) :
    state.control = .done (.value value) ∧ state.store = last := by
  obtain ⟨store, meter, control, stack⟩ := state
  -- Only a value that ends the evaluation is such an answer; the cases that answer otherwise do not
  -- fit.
  cases control with
  | done ending =>
    cases ending with
    | value value =>
      cases answered
      exact ⟨rfl, rfl⟩
    | _ => cases answered
  | _ => cases answered

/-- An evaluation has one answer only. -/
theorem reply_unique {context : Context} {state : State} {first second : Nat} {reply other : Reply Value}
    (left : (state.run context first).reply? = some reply)
    (right : (state.run context second).reply? = some other) : reply = other := by
  have same := State.Ended.unique (ended_of_reply left) (ended_of_reply right)
  rw [same, right] at left
  exact (Option.some.inj left).symm

/-- The answer of an evaluation that has ended with a failure. -/
theorem reply_of_failure {state : State} {upset : Upset} {left : Option Cursor}
    (ended : state.control = .done (.upset upset left)) :
    state.reply? = some ⟨.error upset, state.store⟩ := by
  obtain ⟨store, meter, control, stack⟩ := state
  simp only at ended
  subst ended
  rfl

end LazyConfig
