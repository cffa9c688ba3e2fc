import LazyConfig.Proofs.Machine.Additions
import LazyConfig.Proofs.Machine.Progress

/-!
Everything that one step of the evaluator can do. A state within bounds goes on to a state within
bounds, as long as the host may be answered and a computation may need itself.
-/

namespace LazyConfig

/-- What the next step looks at is within bounds. -/
structure State.Ready (bounds : Bounds) (state : State) : Prop where
  control : state.control.Within bounds state.store.cells.size
  top : state.control.passes = true → ∀ frame rest, state.stack = frame :: rest →
    frame.Within bounds state.store.cells.size
  cell : ∀ id, state.control = .force id →
    (state.store.cell id).Within bounds state.store.cells.size

/-- What a step does. -/
inductive State.Moves (bounds : Bounds) (context : Context) (state : State) : Prop
  /-- Something is added to the store and to the stack, in place of at most one frame that waited. -/
  | adds (below : List Frame)
    (base : state.stack = below ∨ ∃ frame, frame.isPlain = true ∧ state.stack = frame :: below)
    (added : Adds bounds state.store state.meter below (state.step context))
  /-- One more level is entered. -/
  | enters (body : ExprId) (env : Env) (deeper : DepthMeter)
    (asked : state.control = .enter body env) (room : state.meter.enter? = some deeper)
    (stepped : state.step context = ⟨state.store, deeper, .eval body env, .leave :: state.stack⟩)
  /-- A level is left, with a value or a failure. -/
  | leaves (rest : List Frame) (top : state.stack = .leave :: rest)
    (stepped : state.step context = ⟨state.store, state.meter.leave, state.control, rest⟩)
    (passes : state.control.passes = true)
  /-- A computation that was put off is started. -/
  | starts (id : ThunkId) (work : Suspension) (asked : state.control = .force id)
    (found : state.store.cell id = .suspended work)
    (added : Adds bounds (state.store.set id .inProgress) state.meter (.update id :: state.stack)
      (state.step context))
  /-- A computation is settled, with a value or a failure. -/
  | settles (id : ThunkId) (outcome : Cell) (rest : List Frame)
    (top : state.stack = .update id :: rest)
    (final : (∃ value, state.control = .give value ∧ outcome = .forced value) ∨
      ∃ upset, state.control = .raise upset ∧ outcome = .failed upset.remembered)
    (stepped : state.step context =
      ⟨state.store.set id outcome, state.meter, state.control, rest⟩)
  /-- A computation under way is asked for. -/
  | circles (id : ThunkId) (asked : state.control = .force id)
    (found : state.store.cell id = .inProgress)
    (stepped : state.step context =
      ⟨state.store, state.meter, .fail .infiniteRecursion, state.stack⟩)
  /-- The host gets its answer, since nothing waits for it. -/
  | answers (ending : Ending) (alone : state.stack = []) (passes : state.control.passes = true)
    (allowed : ending.Within bounds state.store.cells.size)
    (stepped : state.step context = ⟨state.store, state.meter, .done ending, []⟩)

variable {bounds : Bounds} {context : Context}

/-- The new state of a computation may be anything within bounds. -/
theorem Store.Within.set {store : Store} {id : ThunkId} {cell : Cell} (within : store.Within bounds)
    (allowed : cell.Within bounds store.cells.size) : (store.set id cell).Within bounds := by
  intro other inside
  rw [set_size] at inside ⊢
  by_cases same : other = id
  · rw [same, cell_set_self (same ▸ inside)]
    exact allowed
  · rw [cell_set_of_ne same]
    exact within other inside

/-- The next step looks at nothing that is out of bounds in a state within bounds. -/
theorem State.Within.ready {state : State} (within : state.Within bounds) : state.Ready bounds := by
  -- What the next step looks at is the control, the top frame and the computation that is asked
  -- for.
  refine ⟨within.control, fun _ frame rest same => within.stack frame ?_, fun id asked => ?_⟩
  · rw [same]
    exact List.mem_cons_self
  · have wanted := within.control
    rw [asked] at wanted
    exact within.store id wanted

/-- Every step is one of these. -/
theorem State.moves (fits : bounds.Fits context) {state : State} (ready : state.Ready bounds) :
    state.Moves bounds context := by
  obtain ⟨store, meter, control, stack⟩ := state
  obtain ⟨wanted, waited, known⟩ := ready
  dsimp only at wanted waited known
  cases control with
  | eval body env => exact .adds stack (.inl rfl) (context.evalStep_adds fits wanted.1 wanted.2)
  | enter body env =>
    -- There is room for one more level, or the evaluation fails.
    cases room : meter.enter? with
    | some deeper =>
      refine .enters body env deeper rfl room ?_
      simp [step, Context.enterStep, room]
    | none =>
      have stepped : State.step context ⟨store, meter, .enter body env, stack⟩ =
          ⟨store, meter, .fail (.depthExceeded meter.limit), stack⟩ := by
        simp [step, Context.enterStep, room]
      refine .adds stack (.inl rfl) ?_
      rw [stepped]
      exact .fails fits _ rfl
  | force id =>
    have cell_within := known id rfl
    -- What a computation that is asked for does depends on how far it has come.
    cases found : store.cell id with
    | suspended work =>
      rw [found] at cell_within
      refine .starts id work rfl found ?_
      rw [step_force_suspended found]
      refine Context.resumeStep_adds ?_
      rwa [Store.set_size]
    | inProgress =>
      exact .circles id rfl found (step_force_inProgress found)
    | forced value =>
      rw [found] at cell_within
      refine .adds stack (.inl rfl) ?_
      rw [step_force_forced found]
      exact .here cell_within
    | failed failure =>
      rw [found] at cell_within
      refine .adds stack (.inl rfl) ?_
      rw [step_force_failed found]
      exact .here cell_within
  | apply func arg => exact .adds stack (.inl rfl) (Context.applyStep_adds fits wanted.1 wanted.2)
  | run op args => exact .adds stack (.inl rfl) (Context.runStep_adds fits wanted)
  | operate op left right =>
    exact .adds stack (.inl rfl) (Context.operateStep_adds fits wanted.1 wanted.2)
  | advance cursor consumer =>
    exact .adds stack (.inl rfl) (Context.advanceStep_adds fits wanted.1 wanted.2)
  | deepen work whole => exact .adds stack (.inl rfl) (Context.deepenStep_adds wanted.1 wanted.2)
  | compare work => exact .adds stack (.inl rfl) (Context.compareStep_adds fits wanted)
  | give value =>
    -- A value goes to the frame that waits for it, or to the host if nothing waits.
    cases stack with
    | nil => exact .answers (.value value) rfl rfl wanted rfl
    | cons frame rest =>
      cases plain : frame.isPlain with
      | true =>
        exact .adds rest (.inr ⟨frame, plain, rfl⟩)
          (context.giveStep_adds fits plain wanted (waited rfl frame rest rfl))
      | false =>
        rcases Frame.eq_of_not_isPlain plain with rfl | ⟨id, rfl⟩
        · exact .leaves rest rfl rfl rfl
        · exact .settles id (.forced value) rest rfl (.inl ⟨value, rfl, rfl⟩) rfl
  | raise upset =>
    -- A failure goes the same way, and is remembered by computations that are settled with it.
    cases stack with
    | nil => exact .answers (.upset upset none) rfl rfl ⟨wanted, by simp⟩ rfl
    | cons frame rest =>
      cases plain : frame.isPlain with
      | true =>
        exact .adds rest (.inr ⟨frame, plain, rfl⟩)
          (context.raiseStep_adds plain wanted (waited rfl frame rest rfl))
      | false =>
        rcases Frame.eq_of_not_isPlain plain with rfl | ⟨id, rfl⟩
        · exact .leaves rest rfl rfl rfl
        · exact .settles id (.failed upset.remembered) rest rfl (.inr ⟨upset, rfl, rfl⟩) rfl
  | done ending => exact .adds stack (.inl rfl) (.here wanted)

/-- What a rule adds to a state within bounds leads to one. -/
theorem Adds.within {store : Store} {meter : DepthMeter} {stack : List Frame} {after : State}
    (added : Adds bounds store meter stack after) (known : store.Within bounds)
    (waited : ∀ frame ∈ stack, frame.Within bounds store.cells.size) : after.Within bounds := by
  obtain ⟨pushed, stacked, each⟩ := added.frames
  refine ⟨added.grows.within known, added.control, fun frame member => ?_⟩
  -- A frame is new or was there before.
  rw [stacked] at member
  rcases List.mem_append.mp member with new | old
  · exact (each frame new).2
  · exact (waited frame old).grow added.grows.size

/-- A step within bounds stays within bounds. -/
theorem State.Within.step (fits : bounds.Fits context) (recursion : bounds.fault .infiniteRecursion)
    (answered : bounds.answer) {state : State} (within : state.Within bounds) :
    (state.step context).Within bounds := by
  have waited := within.stack
  cases state.moves fits within.ready with
  | adds below base added =>
    -- What has been added lies above what had waited, perhaps without its top frame.
    refine added.within within.store fun frame member => waited frame ?_
    rcases base with same | ⟨_, -, same⟩
    · rwa [same]
    · rw [same]
      exact List.mem_cons_of_mem _ member
  | enters body env deeper asked _ stepped =>
    have wanted := within.control
    rw [asked] at wanted
    rw [stepped]
    refine ⟨within.store, wanted, fun frame member => ?_⟩
    rcases List.mem_cons.mp member with rfl | old
    · trivial
    · exact waited frame old
  | leaves rest top stepped =>
    rw [stepped]
    rw [top] at waited
    exact ⟨within.store, within.control, fun frame member =>
      waited frame (List.mem_cons_of_mem _ member)⟩
  | starts id work asked found added =>
    -- The computation that is started is there, and so is the frame that settles it.
    have inside := Store.lt_size_of_cell found nofun
    refine added.within (within.store.set trivial) fun frame member => ?_
    rw [Store.set_size]
    rcases List.mem_cons.mp member with rfl | old
    · exact inside
    · exact waited frame old
  | settles id outcome rest top final stepped =>
    have wanted := within.control
    rw [top] at waited
    -- The outcome is the value or the failure that is passed, and that was within bounds.
    have allowed : outcome.Within bounds state.store.cells.size := by
      rcases final with ⟨value, given, rfl⟩ | ⟨upset, raised, rfl⟩
      · rwa [given] at wanted
      · rw [raised] at wanted
        -- A computation that was broken off keeps a failure of its own.
        cases upset with
        | error failure => exact wanted
        | panic host => exact fits.of_usual rfl
    rw [stepped]
    refine ⟨within.store.set allowed, ?_, fun frame member => ?_⟩
    · rw [Store.set_size]
      exact wanted
    · rw [Store.set_size]
      exact waited frame (List.mem_cons_of_mem _ member)
  | circles id _ _ stepped =>
    rw [stepped]
    exact ⟨within.store, recursion, waited⟩
  | answers ending _ _ allowed stepped =>
    rw [stepped]
    exact ⟨within.store, ⟨answered, allowed⟩, List.forall_mem_nil _⟩

end LazyConfig
