import LazyConfig.Evaluator
import LazyConfig.Proofs.Machine.Moves
import LazyConfig.Proofs.Machine.Runs
import LazyConfig.Proofs.Machine.Session

/-!
Requests of the host and their answers. A request starts in a state within bounds, and until the host
gets its answer nothing is for the host but the walk along a list that it asked for, at the bottom of
the stack.
-/

namespace LazyConfig

/-- Bounds that only ask for computations to be in the store. -/
def Bounds.all : Bounds :=
  ⟨fun _ => True, fun _ => True, True⟩

/-- Bounds for what goes on before the host gets its answer. -/
def Bounds.quiet : Bounds :=
  { Bounds.all with answer := False }

/-- What a request is about is within bounds. -/
def Request.Within (bounds : Bounds) (count : Nat) : Request → Prop
  | .evaluate body env => bounds.body body ∧ env.Within count
  | .force id => id < count
  | .apply func arg => func.Within bounds count ∧ arg < count
  | .call func args => func.Within bounds count ∧ Inside count args
  | .deepen value => value.Within bounds count
  | .operate _ left right | .equal left right => left.Within bounds count ∧ right.Within bounds count
  | .next cursor => bounds.answer ∧ cursor.Within count

section

variable {context : Context}

theorem Bounds.all_fits : Bounds.all.Fits context :=
  ⟨fun _ _ _ _ => trivial, fun _ _ _ => trivial, .inl trivial⟩

theorem Bounds.quiet_fits : Bounds.quiet.Fits context :=
  ⟨fun _ _ _ _ => trivial, fun _ _ _ => trivial, .inl trivial⟩

end

/-- A request within bounds starts in a state within bounds. -/
theorem Request.Within.start {bounds : Bounds} {store : Store} {request : Request}
    (evaluator : Evaluator) (known : store.Within bounds)
    (asked : request.Within bounds store.cells.size) :
    (evaluator.start request store).Within bounds := by
  refine ⟨known, ?_, fun frame member => ?_⟩
  · -- A single value is all the work there is at first.
    cases request with
    | deepen value =>
      refine ⟨fun other member => ?_, asked⟩
      rw [List.mem_singleton.mp member]
      exact asked
    | equal left right =>
      intro pair member
      rw [List.mem_singleton.mp member]
      exact asked
    | call func args => exact asked.1
    | next cursor => exact ⟨asked.2, asked.1⟩
    | _ => exact asked
  · -- Only what comes after an evaluation and the arguments of a call are waited for.
    cases request with
    | evaluate body env =>
      simp only [Evaluator.start, Request.frames] at member
      split at member
      · rw [List.mem_singleton.mp member]
        trivial
      · cases member
    | call func args =>
      rw [List.mem_singleton.mp member]
      exact asked.2
    | _ => cases member

/-- What a preparation is about is within bounds. -/
def Preparation.Within (bounds : Bounds) (count : Nat) : Preparation → Prop
  | .ready value | .check _ value _ => value.Within bounds count
  | .suspend body env => bounds.body body ∧ env.Within count
  | .fieldsOf _ => True
  | .mapFields func record => func < count ∧ record.Within count

/-- Whatever an evaluator is asked for by a preparation, the evaluator is an admitted one. -/
def Preparation.Asks (admitted : Evaluator → Prop) : Preparation → Prop
  | .check evaluator _ _ => admitted evaluator
  | _ => True

/-- A preparation within bounds adds computations within bounds. -/
theorem Preparation.Within.apply_grows {bounds : Bounds} {store : Store} {action : Preparation}
    (asked : action.Within bounds store.cells.size)
    (fits : action.Asks fun evaluator => bounds.Fits evaluator.context) :
    store.Grows bounds (action.apply store) := by
  cases action with
  | ready value => exact (Store.ready_grows asked).1
  | suspend body env =>
    have work : Suspension.Within bounds store.cells.size (.expr body env) := asked
    exact (Store.suspend_grows work).1
  | fieldsOf record => exact (Store.fieldsOf_grows record).1
  | mapFields func record => exact (Store.mapFields_grows asked.1 asked.2).1
  | check evaluator value type =>
    rw [apply, Evaluator.check_store]
    exact (Store.check_grows fits type .root asked).1

/-! Which frames and walks are for the host. -/

/-- Whether a walk is a step for the host. -/
def Consumer.isReport : Consumer → Bool
  | .report => true
  | _ => false

/-- Whether a frame waits for a part of a list that the host walks. -/
def Frame.reports : Frame → Bool
  | .walk _ consumer | .spine _ consumer => consumer.isReport
  | _ => false

/-- Whether the host walks a list or has got its answer. -/
def Control.reports : Control → Bool
  | .advance _ consumer => consumer.isReport
  | .done _ => true
  | _ => false

/-- What waits for the host is the last frame. -/
def ReportsLast : List Frame → Prop
  | [] => True
  | frame :: rest => (frame.reports = true → rest = []) ∧ ReportsLast rest

section Quiet

variable {count : Nat}

theorem Consumer.Within.quiet {consumer : Consumer} (within : consumer.Within .all count)
    (other : consumer.isReport = false) : consumer.Within .quiet count := by
  cases consumer with
  | report => cases other
  | _ => exact within

/-- A frame that is not for the host is there before the host gets its answer. -/
theorem Frame.Within.quiet {frame : Frame} (within : frame.Within .all count)
    (other : frame.reports = false) : frame.Within .quiet count := by
  cases frame with
  | walk op consumer => exact Consumer.Within.quiet within other
  | spine pending consumer => exact ⟨within.1, within.2.quiet other⟩
  | _ => exact within

theorem Control.Within.quiet {control : Control} (within : control.Within .all count)
    (other : control.reports = false) : control.Within .quiet count := by
  cases control with
  | advance cursor consumer => exact ⟨within.1, within.2.quiet other⟩
  | done ending => cases other
  | _ => exact within

theorem Consumer.Within.not_report {consumer : Consumer} (within : consumer.Within .quiet count) :
    consumer.isReport = false := by
  cases consumer with
  | report => exact within.elim
  | _ => rfl

theorem Frame.Within.not_reports {frame : Frame} (within : frame.Within .quiet count) :
    frame.reports = false := by
  cases frame with
  | walk op consumer => exact Consumer.Within.not_report within
  | spine pending consumer => exact within.2.not_report
  | _ => rfl

theorem Control.Within.not_reports {control : Control} (within : control.Within .quiet count) :
    control.reports = false := by
  cases control with
  | advance cursor consumer => exact within.2.not_report
  | done ending => exact within.1.elim
  | _ => rfl

/-- Frames that are not for the host may be put above all others. -/
theorem ReportsLast.append {pushed stack : List Frame} (last : ReportsLast stack)
    (quiet : ∀ frame ∈ pushed, frame.reports = false) : ReportsLast (pushed ++ stack) := by
  induction pushed with
  | nil => exact last
  | cons frame rest ih =>
    -- The frame for the host stays the last one, since none of those above is for the host.
    refine ⟨fun reports => ?_, ih fun other member => quiet other (List.mem_cons_of_mem _ member)⟩
    rw [quiet frame List.mem_cons_self] at reports
    cases reports

end Quiet

/-- What waits for the host comes last, and nothing else waits while the host walks a list. -/
structure State.Bottomed (state : State) : Prop where
  last : ReportsLast state.stack
  alone : state.control.reports = true → state.stack = []

section

variable {context : Context} {state : State}

/-- A step that looks at nothing for the host keeps what is for the host at the bottom. -/
theorem State.Bottomed.step_quiet (bottomed : state.Bottomed) (ready : state.Ready .quiet) :
    (state.step context).Bottomed := by
  -- Nothing at which the step looks is for the host.
  have other := ready.control.not_reports
  have last := bottomed.last
  -- A frame for the host can only be the last one, so that each kind of step is looked at for what
  -- it puts above it.
  cases @State.moves _ context Bounds.quiet_fits _ ready with
  | adds below base added =>
    obtain ⟨pushed, stacked, each⟩ := added.frames
    have under : ReportsLast below := by
      rcases base with same | ⟨frame, -, same⟩
      · rwa [same] at last
      · rw [same] at last
        exact last.2
    refine ⟨?_, fun reports => ?_⟩
    · rw [stacked]
      exact under.append fun frame member => (each frame member).2.not_reports
    · rw [added.control.not_reports] at reports
      cases reports
  | enters body env deeper asked room stepped =>
    rw [stepped]
    exact ⟨⟨nofun, last⟩, nofun⟩
  | leaves rest top stepped =>
    rw [top] at last
    rw [stepped]
    exact ⟨last.2, fun reports => nomatch other.symm.trans reports⟩
  | starts id work asked found added =>
    obtain ⟨pushed, stacked, each⟩ := added.frames
    refine ⟨?_, fun reports => ?_⟩
    · rw [stacked]
      exact ReportsLast.append ⟨nofun, last⟩ fun frame member => (each frame member).2.not_reports
    · rw [added.control.not_reports] at reports
      cases reports
  | settles id outcome rest top final stepped =>
    rw [top] at last
    rw [stepped]
    exact ⟨last.2, fun reports => nomatch other.symm.trans reports⟩
  | circles id asked found stepped =>
    rw [stepped]
    exact ⟨last, nofun⟩
  | answers ending alone passes allowed stepped =>
    rw [stepped]
    exact ⟨trivial, fun _ => rfl⟩

/-- A step of a walk for the host, at which nothing else waits. -/
theorem advance_report_bottomed (store : Store) (meter : DepthMeter) (cursor : Cursor) :
    (State.step context ⟨store, meter, .advance cursor .report, []⟩).Bottomed := by
  -- When the front is used up, the walk waits on one frame for the next right part, or ends.
  have crosses (store : Store) (pending : List ThunkId) :
      (Context.crossStep context.annotations.graph store meter pending .report []).Bottomed := by
    cases pending with
    | nil => exact ⟨trivial, fun _ => rfl⟩
    | cons right rest => exact ⟨⟨fun _ => rfl, trivial⟩, nofun⟩
  obtain ⟨front, pending⟩ := cursor
  cases front with
  | elems items start =>
    simp only [State.step, Context.advanceStep]
    split
    · exact ⟨trivial, fun _ => rfl⟩
    · exact crosses store pending
  | range next stop =>
    simp only [State.step, Context.advanceStep]
    split
    · exact ⟨trivial, fun _ => rfl⟩
    · exact crosses store pending
  | concat left right => exact ⟨trivial, fun _ => rfl⟩

/-- A value or a failure that comes to the frame for the host, below which there is none. -/
theorem reports_bottomed {frame : Frame} (reports : frame.reports = true) {control : Control}
    (passes : control.passes = true) (store : Store) (meter : DepthMeter) :
    (State.step context ⟨store, meter, control, [frame]⟩).Bottomed := by
  cases frame with
  -- The walk begins with the list that is given, or the host is told that it is none.
  | walk op consumer =>
    cases consumer with
    | report =>
      cases control with
      | give value => cases value <;> exact ⟨trivial, fun _ => rfl⟩
      | raise upset => exact ⟨trivial, fun _ => rfl⟩
      | _ => cases passes
    | _ => cases reports
  -- The walk goes on with the list that is given, or the host is told that it is none.
  | spine pending consumer =>
    cases consumer with
    | report =>
      cases control with
      | give value =>
        cases value with
        | list items => exact ⟨trivial, fun _ => rfl⟩
        | _ => exact ⟨⟨fun _ => rfl, trivial⟩, nofun⟩
      | raise upset => exact ⟨trivial, fun _ => rfl⟩
      | _ => cases passes
    | _ => cases reports
  | _ => cases reports

/-- What is for the host stays at the bottom. -/
theorem State.Bottomed.step (bottomed : state.Bottomed) (within : state.Within .all) :
    (state.step context).Bottomed := by
  have cells (id : ThunkId) (asked : state.control = .force id) :
      (state.store.cell id).Within .quiet state.store.cells.size := within.ready.cell id asked
  -- The rules are looked at again only where the host walks a list, or the last frame is for it.
  cases reports : state.control.reports with
  | true =>
    obtain ⟨store, meter, control, stack⟩ := state
    obtain rfl : stack = [] := bottomed.alone reports
    cases control with
    | advance cursor consumer =>
      cases consumer with
      | report => exact advance_report_bottomed store meter cursor
      | _ => cases reports
    | done ending => exact bottomed
    | _ => cases reports
  | false =>
    have wanted := within.control.quiet reports
    cases passes : state.control.passes with
    | false =>
      refine bottomed.step_quiet ⟨wanted, fun other => ?_, cells⟩
      exact nomatch passes.symm.trans other
    | true =>
      cases waits : state.stack with
      | nil =>
        refine bottomed.step_quiet ⟨wanted, fun _ _ _ same => ?_, cells⟩
        exact nomatch waits.symm.trans same
      | cons frame rest =>
        -- The last frame is all there is, if it is for the host.
        have last := bottomed.last
        rw [waits] at last
        cases forHost : frame.reports with
        | true =>
          obtain ⟨store, meter, control, stack⟩ := state
          obtain rfl : stack = frame :: rest := waits
          obtain rfl : rest = [] := last.1 forHost
          exact reports_bottomed forHost passes store meter
        | false =>
          refine bottomed.step_quiet ⟨wanted, fun _ top others same => ?_, cells⟩
          obtain ⟨rfl, rfl⟩ := List.cons.inj (waits.symm.trans same)
          exact (within.stack frame (by rw [waits]; exact List.mem_cons_self)).quiet forHost

/-- What is for the host stays at the bottom throughout. -/
theorem State.Bottomed.run (bottomed : state.Bottomed) (within : state.Within .all) (steps : Nat) :
    (state.run context steps).Bottomed := by
  induction steps generalizing state with
  | zero => exact bottomed
  | succ steps ih =>
    rw [State.run_succ]
    exact ih (bottomed.step within) (within.step Bounds.all_fits trivial trivial)

end

/-- A request starts with what is for the host at the bottom. -/
theorem start_bottomed (evaluator : Evaluator) (request : Request) (store : Store) :
    (evaluator.start request store).Bottomed := by
  -- What is not for the host has nothing to show.
  have none {reports : Bool} {stack : List Frame} (quiet : reports = false) (other : reports = true) :
      stack = [] := absurd (quiet.symm.trans other) Bool.false_ne_true
  cases request with
  | evaluate body env =>
    -- Only an evaluation with all parts starts with a frame that waits.
    simp only [Evaluator.start, Request.frames]
    split
    · exact ⟨⟨none rfl, trivial⟩, none rfl⟩
    · exact ⟨trivial, none rfl⟩
  | call func args => exact ⟨⟨none rfl, trivial⟩, none rfl⟩
  | next cursor => exact ⟨trivial, fun _ => rfl⟩
  | _ => exact ⟨trivial, none rfl⟩

/-- A request that is answered with a value has ended with it, and nothing waits for it any more. -/
theorem run_of_perform {evaluator : Evaluator} {request : Request} {store last : Store} {value : Value}
    {fuel : Nat} (known : store.Within .all) (asked : request.Within .all store.cells.size)
    (answered : evaluator.perform fuel request store = some ⟨.ok value, last⟩) :
    ∃ meter, evaluator.run fuel request store = ⟨last, meter, .done (.value value), []⟩ := by
  have bottomed : (evaluator.run fuel request store).Bottomed :=
    (start_bottomed evaluator request store).run (asked.start evaluator known) fuel
  -- The answer is there only in a state that has ended, and in such a state no frame waits.
  obtain ⟨ended, rfl⟩ := control_of_reply answered
  have alone := bottomed.alone (by rw [ended]; rfl)
  exact ⟨(evaluator.run fuel request store).meter, by rw [← ended, ← alone]⟩

end LazyConfig
