import LazyConfig.Proofs.Machine.Deepen
import LazyConfig.Proofs.Twins.Rules

/-!
Runs of the evaluator on two stores of paired computations. What gives a value in the one store gives a
value of the same form in the other, in as many steps and above any stack.
-/

namespace LazyConfig

variable {context : Context} {pairs : Pairing} {left right last : Store} {meter lastMeter : DepthMeter}
  {value : Value}

/-- Something is left to be done in both states or in none. -/
theorem TwinState.independent_iff {state other : State} (same : TwinState pairs state other) :
    state.Independent ↔ other.Independent := by
  obtain ⟨store, meter, control, stack⟩ := state
  obtain ⟨image, level, next, others⟩ := other
  obtain ⟨twins, rfl, control, frames⟩ := same
  -- Only an outcome at the end of a stack leaves nothing to be done, and both stacks end together.
  have ends : stack = [] ↔ others = [] := by
    cases frames with
    | nil => exact Iff.rfl
    | cons => exact ⟨nofun, nofun⟩
  cases control with
  | give | raise => exact not_congr ends
  | _ => exact Iff.rfl

/-- What a run comes to it comes to in both stores, as long as the run does not end. -/
theorem TwinState.run {state other : State} (same : TwinState pairs state other) {steps : Nat}
    (unfinished : ¬ (state.run context steps).Ended) :
    TwinStates pairs other.store (state.run context steps) (other.run context steps) := by
  induction steps generalizing pairs state other with
  | zero => exact ⟨pairs, .refl _ _, same⟩
  | succ steps ih =>
    rw [State.run_succ] at unfinished
    -- The state after one step has not ended, since the whole run goes on from there.
    have going : ¬ (state.step context).Ended := fun ended => by
      rw [ended.run] at unfinished
      exact unfinished ended
    obtain ⟨middle, grows, next⟩ := same.step (State.independent_of_step going)
    obtain ⟨more, further, reached⟩ := ih next unfinished
    rw [State.run_succ, State.run_succ]
    exact ⟨more, grows.trans further, reached⟩

/-- A value is given in the second store, as in the first but above any stack. -/
def GivesTwin (context : Context) (pairs : Pairing) (other : State) (steps : Nat) (after : Store)
    (meter : DepthMeter) (given : Value) : Prop :=
  ∃ more later image, pairs.Grows other.store more later ∧ Twins more after later ∧
    ValueTwin more given image ∧
    ∀ others, (other.onto others).run context steps = ⟨later, meter, .give image, others⟩

/-- A run that goes on gives what it gives from where it has come. -/
theorem GivesTwin.of_step {middle : Pairing} {other : State} {steps : Nat} {after : Store}
    {given : Value} (independent : other.Independent)
    (grows : pairs.Grows other.store middle (other.step context).store)
    (gives : GivesTwin context middle (other.step context) steps after meter given) :
    GivesTwin context pairs other (steps + 1) after meter given := by
  obtain ⟨more, later, image, further, twins, same, reached⟩ := gives
  refine ⟨more, later, image, grows.trans further, twins, same, fun others => ?_⟩
  rw [State.run_succ, State.step_onto independent, reached]

/-- A state that gives a value at once. -/
theorem GivesTwin.here {other : State} {store : Store}
    (same : TwinState pairs ⟨store, meter, .give value, []⟩ other) :
    GivesTwin context pairs other 0 store meter value := by
  obtain ⟨image, level, next, others⟩ := other
  obtain ⟨twins, rfl, control, frames⟩ := same
  cases control with
  | give same =>
    cases frames
    exact ⟨pairs, image, _, .refl _ _, twins, same, fun others => rfl⟩

/-- A run that ends with a value gives one to what waited, in both stores at once. -/
theorem TwinState.gives_before_end {rest : List Frame} (steps : Nat) {state other : State}
    (same : TwinState pairs state other)
    (ended : (state.onto rest).run context steps = ⟨last, lastMeter, .done (.value value), []⟩) :
    ∃ before < steps, ∃ store' meter' given,
      (state.onto rest).run context before = ⟨store', meter', .give given, rest⟩ ∧
        GivesTwin context pairs other before store' meter' given := by
  induction steps generalizing pairs state other with
  | zero =>
    -- Nothing has been done yet, and the first state has no twin if it has ended.
    have done : state.control = .done (.value value) := congrArg State.control ended
    have control := same.control
    rw [done] at control
    cases control
  | succ steps ih =>
    -- Either a step is left to be done without what waits, or the value is there to be given.
    by_cases independent : state.Independent
    · rw [State.run_succ, State.step_onto independent] at ended
      obtain ⟨middle, grows, next⟩ : TwinStates pairs other.store (state.step context)
        (other.step context) := same.step independent
      obtain ⟨before, less, store', meter', given, reached, gives⟩ := ih next ended
      refine ⟨before + 1, Nat.succ_lt_succ less, store', meter', given, ?_,
        .of_step (same.independent_iff.mp independent) grows gives⟩
      rw [State.run_succ, State.step_onto independent, reached]
    · -- Nothing is left to be done but to give the value; after a failure a run ends with no value.
      obtain ⟨store, meter, control, frames⟩ := state
      cases control with
      | give given =>
        obtain rfl : frames = [] := by simpa [State.Independent] using independent
        exact ⟨0, Nat.succ_pos steps, store, meter, given, rfl, .here same⟩
      | raise upset =>
        have fails : ((State.mk store meter (.raise upset) frames).onto rest).control = .raise upset := rfl
        exact absurd (congrArg State.control ended) (State.raise_not_value fails (steps + 1) value)
      | _ => exact absurd trivial independent

/-- A computation of the second store gets a value, as its twin does but above any stack. -/
def ReturnsTwin (context : Context) (pairs : Pairing) (right : Store) (start : DepthMeter)
    (id : ThunkId) (steps : Nat) (after : Store) (meter : DepthMeter) (given : Value) : Prop :=
  ∃ more later image, pairs.Grows right more later ∧ Twins more after later ∧
    ValueTwin more given image ∧ later.cell id = .forced image ∧
    ∀ others, State.run context steps ⟨right, start, .force id, others⟩ =
      ⟨later, meter, .give image, others⟩

/--
A computation that is asked for in a run that ends with a value gets a value first, and its twin gets
one of the same form.
-/
theorem Twins.force_returns (twins : Twins pairs left right) {id other : ThunkId}
    (paired : pairs id other) {stack : List Frame} {steps : Nat}
    (ended : State.run context steps ⟨left, meter, .force id, stack⟩ =
      ⟨last, lastMeter, .done (.value value), []⟩) :
    ∃ before ≤ steps, ∃ store' meter' given, 0 < before ∧
      State.run context before ⟨left, meter, .force id, stack⟩ =
        ⟨store', meter', .give given, stack⟩ ∧ store'.cell id = .forced given ∧
      ReturnsTwin context pairs right meter other before store' meter' given := by
  -- The run has not ended before anything was done.
  obtain _ | steps := steps
  · cases congrArg State.control ended
  have cells := twins.cells id other paired
  generalize found : left.cell id = cell at cells
  generalize there : right.cell other = image at cells
  rw [State.run_succ] at ended
  -- A run that goes on after a failure would end with it.
  have fails (failure : EvalError) : (State.step context ⟨left, meter, .force id, stack⟩).control ≠
      .raise (.error failure) :=
    fun raised => State.raise_not_value raised steps value (congrArg State.control ended)
  cases cells with
  -- The value is there already, and is given at once.
  | @forced given image same =>
    refine ⟨1, by omega, left, meter, given, by omega, ?_, found, pairs, right, image, .refl _ _, twins,
      same, there, fun others => ?_⟩
    · rw [State.run_succ, State.step_force_forced found, State.run]
    · rw [State.run_succ, State.step_force_forced there, State.run]
  -- What failed fails again, and what is in progress would need itself.
  | failed failure =>
    exact absurd (congrArg State.control (State.step_force_failed found)) (fails failure)
  | inProgress =>
    exact absurd (congrArg State.control (State.step_force_inProgress found))
      (fails ⟨.infiniteRecursion, []⟩)
  | @suspended work image same =>
    -- The work gives its value to the frame that settles the computation, in both stores.
    obtain ⟨grows, started⟩ := twins.set paired .inProgress
    have resumed : TwinState pairs (Context.resumeStep (left.set id .inProgress) meter work [])
        (Context.resumeStep (right.set other .inProgress) meter image []) :=
      resumeStep_twins started .nil same
    rw [State.step_force_onto found] at ended
    obtain ⟨before, less, store', meter', given, reached, more, later, result, further, after, equal,
      above⟩ := resumed.gives_before_end steps ended
    -- The twins are settled with the values that have been found, which have the same form.
    have still : more id other := further.keeps id other paired
    obtain ⟨last_grows, settled⟩ := after.set still (.forced equal)
    refine ⟨before + 1 + 1, by omega, store'.set id (.forced given), meter', given, by omega, ?_,
      Store.cell_set_self (after.inside id other still).1 _, more, later.set other (.forced result),
      result, ?_, settled, equal, Store.cell_set_self (after.inside id other still).2 _,
      fun others => ?_⟩
    · rw [State.run_last, State.run_succ, State.step_force_onto found, reached]
      rfl
    · refine (grows.trans ?_).trans last_grows
      cases image <;> exact further
    · rw [State.run_last, State.run_succ, State.step_force_onto there, above]
      rfl

/-! Data. -/

/-- A computation that is paired with one that has a value has a value of the same form. -/
theorem Twins.forced (twins : Twins pairs left right) {id other : ThunkId} (paired : pairs id other)
    (found : left.cell id = .forced value) :
    ∃ image, right.cell other = .forced image ∧ ValueTwin pairs value image := by
  have cells := twins.cells id other paired
  rw [found] at cells
  generalize there : right.cell other = cell at cells
  cases cells with
  | forced same => exact ⟨_, rfl, same⟩

mutual

/-- Values of the same form hold the same data. -/
theorem Store.Holds.twin (twins : Twins pairs left right) {value other : Value} {data : Data} :
    left.Holds value data → ValueTwin pairs value other → right.Holds other data
  | .int value, .int _ => .int value
  | .float value, .float _ => .float value
  | .bool value, .bool _ => .bool value
  | .str text, .str _ => .str text
  | .list hold, .list same => .list (hold.twin twins same)
  | .record hold, .record same => .record (hold.twin twins same)
  | .closure _, .closure _ => .closure _
  | .builtin op held, .builtin same => by
    have length := same.length_eq
    rw [Builtin.missing, length]
    exact .builtin op _
  | .host function, .host _ => .host function

/-- Lists of the same form have the same elements. -/
theorem Store.ListHolds.twin (twins : Twins pairs left right) {items others : LazyList}
    {parts : List Data} :
    left.ListHolds items parts → ListTwin pairs items others → right.ListHolds others parts
  | .elems hold, .elems _ paired => .elems (hold.twin twins (List.forall₂_drop _ paired))
  | .rangeEnd passed, .range _ _ => .rangeEnd passed
  | .rangeNext more others, .range _ _ => .rangeNext more (others.twin twins (.range _ _))
  -- The computation of the right part has a value, and so has its twin.
  | .concat front found back, .concat first second => by
    obtain ⟨_, there, same⟩ := twins.forced second found
    cases same with
    | list same => exact .concat (front.twin twins first) there (back.twin twins same)

/-- Paired computations have values of the same form. -/
theorem Store.PartsHold.twin (twins : Twins pairs left right) {ids others : List ThunkId}
    {parts : List Data} :
    left.PartsHold ids parts → List.Forall₂ pairs ids others → right.PartsHold others parts
  | .nil, .nil => .nil
  | .cons found holds hold, .cons here paired => by
    obtain ⟨_, there, same⟩ := twins.forced here found
    exact .cons there (holds.twin twins same) (hold.twin twins paired)

/-- Fields of the same names hold the same data. -/
theorem Store.FieldsHold.twin (twins : Twins pairs left right) {entries others : List Entry}
    {parts : List (String × Data)} :
    left.FieldsHold entries parts → EntriesAgree pairs entries others → right.FieldsHold others parts
  | .nil, .nil => .nil
  | .cons found holds hold, .cons here same => by
    obtain ⟨rfl, paired⟩ := here
    obtain ⟨_, there, equal⟩ := twins.forced paired found
    exact .cons there (holds.twin twins equal) (hold.twin twins same)

end

end LazyConfig
