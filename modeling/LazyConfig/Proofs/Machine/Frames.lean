import LazyConfig.Proofs.Machine.Rules

/-!
What one step of the evaluator can do, on any level and above any frames. What asking for a computation does
depends on how far the computation has come. A step above a stack is the same as the step alone, unless the
evaluation gives its answer there.
-/

namespace LazyConfig

/-- Whether something is passed to the frames that wait. -/
def Control.passes : Control → Bool
  | .give _ | .raise _ => true
  | _ => false

namespace Context

/-- Starting the work of a computation does not look at the stack. -/
theorem resumeStep_onto (store : Store) (meter : DepthMeter) (stack : List Frame) (work : Suspension)
    (frames : List Frame) :
    resumeStep store meter work (frames ++ stack) = (resumeStep store meter work frames).onto stack := by
  cases work <;> rfl

end Context

namespace State

variable {context : Context}

/-! Asking for a computation. -/

section

variable {store : Store} {meter : DepthMeter} {id : ThunkId} {stack : List Frame}

/-- A computation that is put off is begun, and a frame waits to settle it. -/
theorem step_force_suspended {work : Suspension} (found : store.cell id = .suspended work) :
    State.step context ⟨store, meter, .force id, stack⟩ =
      Context.resumeStep (store.set id .inProgress) meter work (.update id :: stack) := by
  simp [step, Context.forceStep, found]

/-- The work of a computation that is put off goes on above the frame that settles it. -/
theorem step_force_onto {work : Suspension} (found : store.cell id = .suspended work) :
    State.step context ⟨store, meter, .force id, stack⟩ =
      (Context.resumeStep (store.set id .inProgress) meter work []).onto (.update id :: stack) := by
  rw [step_force_suspended found, ← Context.resumeStep_onto, List.nil_append]

/-- A computation that is under way needs itself. -/
theorem step_force_inProgress (found : store.cell id = .inProgress) :
    State.step context ⟨store, meter, .force id, stack⟩ =
      ⟨store, meter, .fail .infiniteRecursion, stack⟩ := by
  simp [step, Context.forceStep, found]

/-- A value that is there is given. -/
theorem step_force_forced {value : Value} (found : store.cell id = .forced value) :
    State.step context ⟨store, meter, .force id, stack⟩ = ⟨store, meter, .give value, stack⟩ := by
  simp [step, Context.forceStep, found]

/-- What has failed fails again. -/
theorem step_force_failed {failure : EvalError} (found : store.cell id = .failed failure) :
    State.step context ⟨store, meter, .force id, stack⟩ =
      ⟨store, meter, .raise (.error failure), stack⟩ := by
  simp [step, Context.forceStep, found]

end

/-! One step of any kind. -/

/-- A state that goes on without looking at its stack. -/
def Independent (state : State) : Prop :=
  match state.control with
  | .give _ | .raise _ => state.stack ≠ []
  | _ => True

/-- What a step does, on any level and with any more frames below. -/
inductive Shape (context : Context) (state : State) : Prop
  /-- A rule is taken that is the same everywhere, in place of at most one frame that waited. -/
  | uniform (below : List Frame)
    (base : state.stack = below ∨ ∃ frame, frame.isPlain = true ∧ state.stack = frame :: below)
    (alone : State)
    (rule : ∀ meter more, Uniform state.store (state.store.calls ++ state.heard) meter (below ++ more)
      (((state.metered meter).onto more).step context) alone)
  /-- One more level is asked for. -/
  | enters (body : ExprId) (env : Env) (asked : state.control = .enter body env)
  /-- A level is left. -/
  | leaves (rest : List Frame) (top : state.stack = .leave :: rest) (unheard : state.heard = #[])
    (stepped : ∀ meter more, ((state.metered meter).onto more).step context =
      State.onto ⟨state.store, meter.leave, state.control, rest⟩ more)
  /-- A computation that was put off is started. -/
  | starts (id : ThunkId) (work : Suspension) (asked : state.control = .force id)
    (found : state.store.cell id = .suspended work)
  /-- A computation is settled. -/
  | settles (id : ThunkId) (outcome : Cell) (rest : List Frame) (top : state.stack = .update id :: rest)
    (final : (∃ value, outcome = .forced value) ∨ ∃ failure, outcome = .failed failure)
    (unheard : state.heard = #[])
    (stepped : ∀ meter more, ((state.metered meter).onto more).step context =
      State.onto ⟨state.store.set id outcome, meter, state.control, rest⟩ more)
  /-- The host gets its answer. -/
  | answers (ending : Ending) (empty : state.stack = []) (unheard : state.heard = #[])
    (dependent : ¬ state.Independent)
    (stepped : ∀ meter, (state.metered meter).step context = ⟨state.store, meter, .done ending, []⟩)

/-- Every step is one of these. -/
theorem shape (context : Context) (state : State) : state.Shape context := by
  obtain ⟨store, meter, control, stack⟩ := state
  -- Only a function of the host that gets its argument notes a call.
  have unheard {level : DepthMeter} {below : List Frame} {after alone : State}
      (uniform : Uniform store store.calls level below after alone) :
      Uniform store (store.calls ++ #[]) level below after alone := by
    rwa [Array.append_empty]
  -- Each control has one rule, and the rule is the same on every level and above all frames.
  cases control with
  | eval body env =>
    exact .uniform stack (.inl rfl) _ fun level more =>
      unheard (context.evalStep_uniform store level meter (stack ++ more) body env)
  | enter body env => exact .enters body env rfl
  | force id =>
    -- What a computation that is asked for does depends on how far it has come.
    cases found : store.cell id with
    | suspended work => exact .starts id work rfl found
    | inProgress =>
      refine .uniform stack (.inl rfl) ⟨store, meter, .fail .infiniteRecursion, []⟩ fun level more => unheard ?_
      exact ⟨step_force_inProgress found, rfl, .refl store, rfl⟩
    | forced value =>
      refine .uniform stack (.inl rfl) ⟨store, meter, .give value, []⟩ fun level more => unheard ?_
      exact ⟨step_force_forced found, rfl, .refl store, rfl⟩
    | failed failure =>
      refine .uniform stack (.inl rfl) ⟨store, meter, .raise (.error failure), []⟩ fun level more => unheard ?_
      exact ⟨step_force_failed found, rfl, .refl store, rfl⟩
  | apply func arg =>
    exact .uniform stack (.inl rfl) _ fun level more =>
      unheard (Context.applyStep_uniform store level meter (stack ++ more) func arg)
  | run op args =>
    exact .uniform stack (.inl rfl) _ fun level more =>
      unheard (Context.runStep_uniform store level meter (stack ++ more) op args)
  | operate op left right =>
    exact .uniform stack (.inl rfl) _ fun level more =>
      unheard (Context.operateStep_uniform store level meter (stack ++ more) op left right)
  | advance cursor consumer =>
    exact .uniform stack (.inl rfl) _ fun level more =>
      unheard (Context.advanceStep_uniform _ store level meter (stack ++ more) cursor consumer)
  | deepen work whole =>
    exact .uniform stack (.inl rfl) _ fun level more =>
      unheard (Context.deepenStep_uniform store level meter (stack ++ more) work whole)
  | compare work =>
    exact .uniform stack (.inl rfl) _ fun level more =>
      unheard (Context.compareStep_uniform store level meter (stack ++ more) work)
  | give value =>
    -- A value goes to the frame that waits for it, or to the host if nothing waits.
    cases stack with
    | nil => exact .answers (.value value) rfl rfl (fun waited => waited rfl) fun _ => rfl
    | cons frame rest =>
      cases plain : frame.isPlain with
      | true =>
        exact .uniform rest (.inr ⟨frame, plain, rfl⟩) _ fun level more =>
          context.giveStep_uniform store level meter (rest ++ more) value plain rest
      | false =>
        rcases Frame.eq_of_not_isPlain plain with rfl | ⟨id, rfl⟩
        · exact .leaves rest rfl rfl fun _ _ => rfl
        · exact .settles id (.forced value) rest rfl (.inl ⟨value, rfl⟩) rfl fun _ _ => rfl
  | raise upset =>
    -- A failure goes the same way, and is remembered by computations that are settled with it.
    cases stack with
    | nil => exact .answers (.upset upset none) rfl rfl (fun waited => waited rfl) fun _ => rfl
    | cons frame rest =>
      cases plain : frame.isPlain with
      | true =>
        exact .uniform rest (.inr ⟨frame, plain, rfl⟩) _ fun level more =>
          unheard (context.raiseStep_uniform store level meter (rest ++ more) upset plain)
      | false =>
        rcases Frame.eq_of_not_isPlain plain with rfl | ⟨id, rfl⟩
        · exact .leaves rest rfl rfl fun _ _ => rfl
        · exact .settles id (.failed upset.remembered) rest rfl (.inr ⟨_, rfl⟩) rfl fun _ _ => rfl
  | done ending =>
    exact .uniform stack (.inl rfl) ⟨store, meter, .done ending, []⟩ fun level more =>
      unheard ⟨rfl, rfl, .refl store, rfl⟩

/-- A rule that is the same above all frames is the same above those that are there. -/
theorem uniform_self {state alone : State} {calls : Array HostCall} {below : List Frame}
    (rule : ∀ meter more, Uniform state.store calls meter (below ++ more)
      (((state.metered meter).onto more).step context) alone) (meter : DepthMeter) :
    Uniform state.store calls meter below ((state.metered meter).step context) alone := by
  simpa using rule meter []

/-- A step that is the same above all frames is the same above those that are there. -/
theorem step_self {state : State} {after : DepthMeter → State}
    (stepped : ∀ meter more, ((state.metered meter).onto more).step context = (after meter).onto more)
    (meter : DepthMeter) : (state.metered meter).step context = after meter := by
  simpa using stepped meter []

/-- A step above a stack is the same as the step alone. -/
theorem step_onto {state : State} (independent : state.Independent) (stack : List Frame) :
    (state.onto stack).step context = (state.step context).onto stack := by
  cases state.shape context with
  | uniform below _ alone rule =>
    have here : state.step context = (alone.metered state.meter).onto below :=
      (uniform_self rule state.meter).above
    rw [here, onto_onto]
    exact (rule state.meter stack).above
  | enters body env asked =>
    obtain ⟨store, meter, control, frames⟩ := state
    -- Whether there is room for one more level depends on the meter, not on the frames.
    obtain rfl : control = .enter body env := asked
    simp only [onto, step, Context.enterStep]
    split <;> rfl
  | leaves rest _ _ stepped =>
    have here : state.step context = _ := step_self stepped state.meter
    rw [here]
    exact stepped state.meter stack
  | starts id work asked found =>
    obtain ⟨store, meter, control, frames⟩ := state
    obtain rfl : control = .force id := asked
    rw [onto, step_force_suspended found, step_force_suspended found]
    exact Context.resumeStep_onto _ meter stack work (.update id :: frames)
  | settles id outcome rest _ _ _ stepped =>
    have here : state.step context = _ := step_self stepped state.meter
    rw [here]
    exact stepped state.meter stack
  | answers _ _ _ dependent _ => exact absurd independent dependent

end State

end LazyConfig
