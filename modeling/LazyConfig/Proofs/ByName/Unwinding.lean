import LazyConfig.Proofs.ByName.Agreement
import LazyConfig.Proofs.Machine.Answers

/-!
Failures on their way to the host. Every computation that is left behind fails as its promise does by
name, so that a store stands for the same promises after a request that has failed.
-/

namespace LazyConfig.ByName

variable {context : Context} {meaning : Meaning}

/-- By name, a failure passes all frames above a stack. -/
theorem Leads.raises {control : Control} {variant : Variant} (frames : List Frame)
    (leads : Leads context control [] (.raise variant) frames) :
    Leads context control [] (.raise variant) [] := by
  -- From the topmost frame downwards, each of which the failure passes by one step.
  induction frames with
  | nil => exact leads
  | cons frame rest ih =>
    exact ih (leads.trans (.of_step ⟨.raise variant, rest⟩ fun _ => rfl))

/-- No frame that waits by name is for the host. -/
theorem Linked.quiet {now : Control} {above : List Frame} {stack : List LazyConfig.Frame}
    {below : List Frame} (linked : Linked context meaning now above stack below) :
    ∀ frame ∈ stack, frame.reports = false := by
  induction linked with
  | nil => exact fun _ member => nomatch member
  | leave _ ih | note _ _ ih | update _ _ _ ih => exact List.forall_mem_cons.mpr ⟨rfl, ih⟩
  | frame mirrors _ ih =>
    refine List.forall_mem_cons.mpr ⟨?_, ih⟩
    cases mirrors with
    | walk op consumes | spine stand consumes => cases consumes <;> rfl
    | _ => rfl

/--
A failure on its way, in a store that stands for promises. The computations that still wait are to fail
as their promises do.
-/
structure Failing (context : Context) (meaning : Meaning) (state : LazyConfig.State)
    (failure : EvalError) : Prop where
  raised : state.control = .raise (.error failure)
  heap : Heap context ⟨underway state.stack, True⟩ meaning state.store
  spoils : ∀ id ∈ underway state.stack, ∃ promise, Stands meaning id promise ∧
    promise.Fails context True failure.fault
  last : ReportsLast state.stack

/--
A state of a request, with where its computations have come by name. A walk for the host is not there by
name, but what it asks for is.
-/
inductive Tracked (context : Context) (meaning : Meaning) : LazyConfig.State → Prop
  | runs {state : LazyConfig.State} {named : State}
    (mirrored : Mirrored context True meaning state named) : Tracked context meaning state
  | fails {state : LazyConfig.State} {failure : EvalError}
    (failing : Failing context meaning state failure) : Tracked context meaning state
  | walks {store : Store} {meter : DepthMeter} {cursor : Cursor} {segments : List Segment}
    (heap : Heap context ⟨[], True⟩ meaning store) (ahead : CursorMirrors meaning cursor segments)
    (ground : meter.current = 0) : Tracked context meaning ⟨store, meter, .advance cursor .report, []⟩
  | waits {state : LazyConfig.State} {named : State} {pending : List ThunkId} {promises : List Promise}
    (mirrored : Mirrored context True meaning state named)
    (stand : AllStand meaning pending promises) :
    Tracked context meaning (state.onto [.spine pending .report])
  | ended {store : Store} {meter : DepthMeter} {ending : Ending}
    (heap : Heap context ⟨[], True⟩ meaning store) :
    Tracked context meaning ⟨store, meter, .done ending, []⟩

/-- The state comes to one that is tracked, with meanings for what is added. -/
def Tracks (context : Context) (before : Meaning) (state : LazyConfig.State) : Prop :=
  ∃ after, Grows before after ∧ Tracked context after state

/-- The host's own frame waits for no computation. -/
theorem underway_onto_spine (stack : List LazyConfig.Frame) (pending : List ThunkId) :
    underway (stack ++ [.spine pending .report]) = underway stack := by
  simp [underway, LazyConfig.Frame.settles?]

namespace Failing

variable {state : LazyConfig.State} {failure : EvalError}

/-- A failure at which no computation waits spoils none. -/
theorem alone (raised : state.control = .raise (.error failure)) (none : underway state.stack = [])
    (heap : Heap context ⟨[], True⟩ meaning state.store) (last : ReportsLast state.stack) :
    Failing context meaning state failure := by
  refine ⟨raised, by rwa [none], fun id waited => ?_, last⟩
  rw [none] at waited
  cases waited

/-- A failure above a frame of the host's, at which no computation waits. -/
theorem onto_spine (failing : Failing context meaning state failure)
    (quiet : ∀ frame ∈ state.stack, frame.reports = false) (pending : List ThunkId) :
    Failing context meaning (state.onto [.spine pending .report]) failure := by
  obtain ⟨raised, heap, spoils, -⟩ := failing
  rw [← underway_onto_spine state.stack pending] at heap spoils
  exact ⟨raised, heap, spoils, ReportsLast.append ⟨fun _ => rfl, trivial⟩ quiet⟩

/-- A failure goes on to the next frame, and a computation that it meets has failed from then on. -/
theorem step (failing : Failing context meaning state failure) :
    Tracks context meaning (state.step context) := by
  refine ⟨meaning, .refl meaning, ?_⟩
  obtain ⟨store, meter, control, stack⟩ := state
  obtain ⟨raised, heap, spoils, last⟩ := failing
  dsimp only at raised heap spoils last
  subst raised
  cases stack with
  | nil => exact .ended heap
  | cons frame rest =>
    -- A frame that settles no computation leaves those below it to fail in their turn.
    have pass {meter : DepthMeter} {later : EvalError} (cause : later.fault = failure.fault)
        (same : underway (frame :: rest) = underway rest) :
        Tracked context meaning ⟨store, meter, .raise (.error later), rest⟩ := by
      rw [same] at heap spoils
      exact .fails ⟨rfl, heap, cause ▸ spoils, last.2⟩
    cases frame with
    | update id =>
      -- The computation was to fail as its promise does, and now it has.
      obtain ⟨promise, stands, fails⟩ := spoils id List.mem_cons_self
      refine .fails ⟨rfl, heap.settle stands fails, fun other waited => ?_, last.2⟩
      exact spoils other (List.mem_cons_of_mem id waited)
    | spine pending consumer =>
      cases consumer with
      | report =>
        -- The host's own frame is the last one, so that the failure has arrived.
        obtain rfl : rest = [] := last.1 rfl
        exact .ended heap
      | _ => exact pass rfl rfl
    | _ => exact pass rfl rfl

end Failing

section

variable {state : LazyConfig.State} {named : State}

/-- A failure of a state that stands for one by name spoils what the state waits for. -/
theorem Mirrored.failing (mirrored : Mirrored context True meaning state named) (failure : EvalError)
    (spoils : ∀ promise frames, Leads context (.force promise) [] named.control frames →
      promise.Fails context True failure.fault) :
    Failing context meaning { state with control := .raise (.error failure) } failure := by
  have last := @ReportsLast.append _ [] trivial mirrored.linked.quiet
  rw [List.append_nil] at last
  refine ⟨rfl, mirrored.heap, fun id waited => ?_, last⟩
  -- The promise of a computation that waits has led to what has failed.
  obtain ⟨promise, stands, frames, leads⟩ := mirrored.linked.waited waited
  exact ⟨promise, stands, spoils promise frames leads⟩

/-- What a step of a state that stands for one by name comes to, with regard to failures. -/
inductive Outlook (context : Context) (meaning : Meaning) (state : LazyConfig.State) : Prop
  /-- The evaluation goes on. -/
  | goes (later : Meaning) (grown : Grows meaning later) (named : State)
    (mirrored : Mirrored context True later (state.step context) named)
  /-- The evaluation has come to its value. -/
  | gives (value : LazyConfig.Value) (named : Value) (given : state.control = .give value)
    (alone : state.stack = []) (mirrors : ValueMirrors meaning value named)
  /-- A failure is on its way. -/
  | failing (failure : EvalError) (failing : Failing context meaning state failure)
  /-- The step fails. -/
  | fails (failure : EvalError)
    (stays : state.step context = { state with control := .raise (.error failure) })
    (failing : Failing context meaning { state with control := .raise (.error failure) } failure)

/-- A state that stands for one by name goes on, has come to its value, or fails as promised. -/
theorem Mirrored.outlook (mirrored : Mirrored context True meaning state named) :
    Outlook context meaning state := by
  cases mirrored.progress with
  | moves later grown steps _ mirrored => exact .goes later grown _ mirrored
  | pauses later grown mirrored => exact .goes later grown _ mirrored
  | ends value result given alone final =>
    have mirrors := mirrored.control
    rw [given, final] at mirrors
    cases mirrors with
    | give same => exact .gives value result given alone same
  -- The failure is one of the program, to which all promises lead that are waited for.
  | fails failure own raised same =>
    refine .failing failure ?_
    have failing := mirrored.failing failure fun promise frames leads =>
      .own own (Leads.raises frames (same ▸ leads))
    rwa [← raised] at failing
  -- A level that was refused says nothing about any promise.
  | refuses failure cause stays =>
    exact .fails failure stays (mirrored.failing failure fun _ _ _ => .refused cause trivial)
  -- What has led to a promise that goes on for ever goes on for ever too.
  | circles failure cause stays promise asked endless =>
    refine .fails failure stays (mirrored.failing failure fun other frames leads => ?_)
    rw [asked] at leads
    exact .circle cause fun stack => (endless (frames ++ stack)).of_reaches (leads.reaches stack)

end

variable {store : Store} {meter : DepthMeter} {state : LazyConfig.State} {named : State}

/-- A step of a state that stands for one by name. -/
theorem Mirrored.track (mirrored : Mirrored context True meaning state named) :
    -- A state by name goes on, gives its value, or fails; a failure unwinds the stack in the steps
    -- after it.
    Tracks context meaning (state.step context) := by
  cases mirrored.outlook with
  | goes later grown named mirrored => exact ⟨later, grown, .runs mirrored⟩
  | gives value named given alone =>
    obtain ⟨store, meter, control, stack⟩ := state
    obtain ⟨heap, -, -, -⟩ := mirrored
    dsimp only at given alone heap
    subst given alone
    exact ⟨meaning, .refl meaning, .ended heap⟩
  | failing failure failing => exact failing.step
  | fails failure stays failing => exact ⟨meaning, .refl meaning, stays ▸ .fails failing⟩

/-- A step above a frame at which the host waits for a right part. -/
theorem Mirrored.track_spine (mirrored : Mirrored context True meaning state named)
    {pending : List ThunkId} {promises : List Promise} (stand : AllStand meaning pending promises) :
    Tracks context meaning ((state.onto [.spine pending .report]).step context) := by
  cases mirrored.outlook with
  | goes later grown named mirrored =>
    rw [LazyConfig.State.step_onto (LazyConfig.State.independent_of_step mirrored.unfinished)]
    exact ⟨later, grown, .waits mirrored (stand.grow grown)⟩
  -- The walk goes on with the list that is given, or the host is told that it is none.
  | gives value named given alone mirrors =>
    obtain ⟨store, meter, control, stack⟩ := state
    obtain ⟨heap, -, -, ground⟩ := mirrored
    dsimp only at given alone heap ground
    subst given alone
    refine ⟨meaning, .refl meaning, ?_⟩
    cases mirrors with
    | list listed => exact .walks heap ⟨_, _, listed, stand, rfl⟩ ground
    | _ => exact .fails (.alone rfl rfl heap ⟨fun _ => rfl, trivial⟩)
  | failing failure failing => exact (failing.onto_spine mirrored.linked.quiet pending).step
  -- The step that fails does not look at the host's frame either.
  | fails failure stays failing =>
    have unfinished : ¬ (state.step context).Ended := by
      rw [stays]
      exact LazyConfig.State.not_ended_of_raise rfl
    rw [LazyConfig.State.step_onto (LazyConfig.State.independent_of_step unfinished), stays]
    exact ⟨meaning, .refl meaning, .fails (failing.onto_spine mirrored.linked.quiet pending)⟩

/-- A step of a walk for the host. -/
theorem advance_report_tracks (heap : Heap context ⟨[], True⟩ meaning store) {cursor : Cursor}
    {segments : List Segment} (ahead : CursorMirrors meaning cursor segments)
    (ground : meter.current = 0) :
    Tracks context meaning
      (LazyConfig.State.step context ⟨store, meter, .advance cursor .report, []⟩) := by
  obtain ⟨front, pending⟩ := cursor
  -- When the front is used up, the walk asks for the next right part, or ends.
  have crosses : Tracks context meaning
      (Context.crossStep context.annotations.graph store meter pending .report []) := by
    obtain ⟨-, promises, -, stand, -⟩ := ahead
    refine ⟨meaning, .refl meaning, ?_⟩
    cases stand with
    | nil => exact .ended heap
    | @cons right promise rest promises stands stand =>
      -- The right part is evaluated as its promise is, above the frame of the host.
      have asked : Mirrored context True meaning ⟨store, meter, .force right, []⟩
          ⟨.force promise, []⟩ := ⟨heap, .force stands, .nil [], ground⟩
      exact .waits asked stand
  cases front with
  | elems items start =>
    simp only [LazyConfig.State.step, Context.advanceStep]
    split
    · exact ⟨meaning, .refl meaning, .ended heap⟩
    · exact crosses
  | range next stop =>
    simp only [LazyConfig.State.step, Context.advanceStep]
    split
    · -- The number that is handed out is there from the start.
      obtain ⟨later, grown, heap, -⟩ := heap.ready (Heap.gives_ready (.int next)) (.int next)
      exact ⟨later, grown, .ended heap⟩
    · exact crosses
  | concat left right => exact ⟨meaning, .refl meaning, .walks heap ahead.join ground⟩

namespace Tracked

/-- Every step of a request leads to a state that is tracked. -/
theorem step (tracked : Tracked context meaning state) :
    Tracks context meaning (state.step context) := by
  cases tracked with
  | runs mirrored => exact mirrored.track
  | fails failing => exact failing.step
  | walks heap ahead ground => exact advance_report_tracks heap ahead ground
  | waits mirrored stand => exact mirrored.track_spine stand
  | ended heap => exact ⟨meaning, .refl meaning, .ended heap⟩

/-- Every run of a request leads to a state that is tracked. -/
theorem run (tracked : Tracked context meaning state) (steps : Nat) :
    Tracks context meaning (state.run context steps) := by
  -- The meanings grow from step to step, and what has a meaning keeps it.
  induction steps generalizing state meaning with
  | zero => exact ⟨meaning, .refl meaning, tracked⟩
  | succ steps ih =>
    rw [LazyConfig.State.run_succ]
    obtain ⟨middle, grown, tracked⟩ := tracked.step
    obtain ⟨later, more, tracked⟩ := ih tracked
    exact ⟨later, grown.trans more, tracked⟩

/-- The store of a tracked state stands for promises, apart from what is under way. -/
theorem heap (tracked : Tracked context meaning state) :
    Heap context ⟨underway state.stack, True⟩ meaning state.store := by
  cases tracked with
  | runs mirrored => exact mirrored.heap
  | fails failing => exact failing.heap
  | walks heap ahead ground => exact heap
  | @waits state _ pending _ mirrored stand =>
    have heap := mirrored.heap
    rwa [← underway_onto_spine state.stack pending] at heap
  | ended heap => exact heap

end Tracked

end LazyConfig.ByName
