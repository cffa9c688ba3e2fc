import LazyConfig.Proofs.Lists.Turns
import LazyConfig.Proofs.Machine.Levels

/-!
Work on its own. What it comes to with nothing below it, it comes to above any frames and on any level with
as many levels left; and a run that ends has come to the outcome of the work that it began with.
-/

namespace LazyConfig

/-- What some work comes to: a value, or something that goes wrong. -/
abbrev Outcome :=
  Except Upset Value

/-- What the evaluator does with an outcome. -/
def Control.passing : Outcome → Control
  | .ok value => .give value
  | .error upset => .raise upset

/-- Where nothing is passed to the frames that wait, there is no outcome yet. -/
theorem Control.busy {control : Control} (goes : control.passes = false) (outcome : Outcome) :
    control ≠ .passing outcome := by
  rintro rfl
  cases outcome <;> cases goes

/-- What is kept of the outcome of a computation. -/
def Cell.ended : Outcome → Cell
  | .ok value => .forced value
  | .error upset => .failed upset.remembered

/-- The outcome of a computation stays. -/
theorem Store.Precedes.ended {before after : Store} (order : before.Precedes after) {id : ThunkId}
    {outcome : Outcome} (found : before.cell id = .ended outcome) : after.cell id = .ended outcome := by
  have settled : ∀ cell : Cell, (Cell.ended outcome).Precedes cell → cell = .ended outcome := by
    cases outcome <;> exact fun _ same => same
  have inside : id < before.cells.size := by
    cases outcome <;> exact Store.lt_size_of_cell found nofun
  exact settled _ (found ▸ order.2 id inside)

/-- A computation that was put off is not taken back when its work begins. -/
theorem Store.begin_precedes {store : Store} {id : ThunkId} {work : Suspension}
    (waits : store.cell id = .suspended work) : store.Precedes (store.set id .inProgress) :=
  Store.set_precedes (by simp [waits, Cell.Precedes])

/-- The failure that a limit of levels was reached. -/
def Upset.Overflows (upset : Upset) (limit : Nat) : Prop :=
  upset.cause = .ok (.depthExceeded limit)

/-- An outcome other than that a limit of levels was reached. -/
def Outcome.Fits (outcome : Outcome) (limit : Nat) : Prop :=
  ∀ upset, outcome = .error upset → ¬ upset.Overflows limit

/-- A value fits within every limit. -/
theorem Outcome.fits_ok (value : Value) (limit : Nat) : Outcome.Fits (.ok value) limit := by
  simp [Fits]

/-- Any other outcome is that the limit was reached. -/
theorem Outcome.overflows_of_not_fits {outcome : Outcome} {limit : Nat} (unfit : ¬ outcome.Fits limit) :
    ∃ upset, outcome = .error upset ∧ upset.Overflows limit := by
  simpa [Outcome.Fits] using unfit

/-- The same limit, some levels deeper. -/
def DepthMeter.below (meter : DepthMeter) (count : Nat) : DepthMeter :=
  ⟨meter.limit, meter.current + count⟩

/-- Some work comes to an outcome, on the level on which it begins. -/
def Brings (context : Context) (meter : DepthMeter) (store : Store) (work : Control) (outcome : Outcome)
    (after : Store) : Prop :=
  State.GoesTo context ⟨store, meter, work, []⟩ ⟨after, meter, .passing outcome, []⟩

variable {context : Context} {meter : DepthMeter} {store after : Store} {work : Control}
  {outcome : Outcome}

namespace State

/-- An outcome with nothing below it is handed to the host. -/
theorem hands_passing : Hands ⟨store, meter, .passing outcome, []⟩ := by
  cases outcome with
  | ok value => exact ⟨rfl, .inl ⟨value, rfl⟩⟩
  | error upset => exact ⟨rfl, .inr ⟨upset, rfl⟩⟩

/-- What is handed to the host is an outcome. -/
theorem Hands.passing {state : State} (hands : state.Hands) :
    ∃ outcome, state = ⟨state.store, state.meter, .passing outcome, []⟩ := by
  obtain ⟨store, meter, control, stack⟩ := state
  obtain ⟨rfl, ⟨value, rfl⟩ | ⟨upset, rfl⟩⟩ := hands
  · exact ⟨.ok value, rfl⟩
  · exact ⟨.error upset, rfl⟩

/-- An outcome is not the end yet. -/
theorem not_ended_of_passing {stack : List Frame} :
    ¬ Ended ⟨store, meter, .passing outcome, stack⟩ := by
  cases outcome with
  | ok value => exact not_ended_of_give rfl
  | error upset => exact not_ended_of_raise rfl

/-- A run that hands over something does so on the level of its beginning. -/
theorem meter_of_empty {start : State} (level : start.based meter = start) {steps : Nat}
    (empty : (start.run context steps).stack = []) : (start.run context steps).meter = meter := by
  have own := @run_based_self context meter start steps
  rw [level] at own
  rw [← own, based, metered, empty]
  rfl

/-- A run above some frames is the run without them, up to where an outcome is passed to the frames. -/
theorem run_onto_or_hands (state : State) (stack : List Frame) (steps : Nat) :
    (state.onto stack).run context steps = (state.run context steps).onto stack ∨
      ∃ before < steps, (state.run context before).Hands ∧
        (state.onto stack).run context before = (state.run context before).onto stack := by
  induction steps with
  | zero => exact .inl rfl
  | succ steps ih =>
    rcases ih with same | ⟨before, less, hands, same⟩
    · by_cases independent : (state.run context steps).Independent
      · exact .inl (by rw [run_last, run_last, same, step_onto independent])
      · -- Only an outcome with nothing below it looks at what is below.
        refine .inr ⟨steps, Nat.lt_succ_self steps, ?_, same⟩
        generalize state.run context steps = now at independent
        obtain ⟨store, meter, control, frames⟩ := now
        cases control with
        | give value =>
          exact ⟨Classical.not_not.mp independent, .inl ⟨value, rfl⟩⟩
        | raise upset =>
          exact ⟨Classical.not_not.mp independent, .inr ⟨upset, rfl⟩⟩
        | _ => exact absurd trivial independent
    · exact .inr ⟨before, Nat.lt_succ_of_lt less, hands, same⟩

/-- A run in which nothing is for the host hands over something before it ends. -/
theorem hands_of_ended {state : State} (within : state.Within .all) (quiet : state.control.reports = false)
    (waits : ∀ frame ∈ state.stack, frame.reports = false) {steps : Nat}
    (ended : (state.run context steps).Ended) : ∃ before < steps, (state.run context before).Hands := by
  -- Above one more frame, nothing would have ended, for the frame would still wait.
  have above : (state.onto [.leave]).Within .all := by
    refine ⟨within.store, within.control, fun frame member => ?_⟩
    rcases List.mem_append.mp member with own | last
    · exact within.stack frame own
    · rw [List.mem_singleton.mp last]
      trivial
  have bottomed : (state.onto [.leave]).Bottomed :=
    ⟨ReportsLast.append ⟨fun _ => rfl, trivial⟩ waits, fun reports => absurd (quiet.symm.trans reports) Bool.false_ne_true⟩
  rcases @run_onto_or_hands context state [.leave] steps with same | ⟨before, less, hands, -⟩
  · have last := @Bottomed.run context _ bottomed above steps
    rw [same] at last
    obtain ⟨ending, done⟩ := ended
    have alone := last.alone (by rw [onto, done]; rfl)
    exact absurd (List.append_eq_nil_iff.mp alone).2 (List.cons_ne_nil _ _)
  · exact ⟨before, less, hands⟩

/-- A failure that a run has come to is the cause of its outcome. -/
theorem cause_of_fail {start : State} {steps before : Nat} {fault : Fault}
    -- A failure unwinds all that waits and ends the run for its cause, and a run has one end.
    (ran : start.run context steps = ⟨after, meter, .passing outcome, []⟩)
    (failed : (start.run context before).control = .fail fault) :
    ∃ upset, outcome = .error upset ∧ upset.cause = .ok fault := by
  obtain ⟨more, failure, left, cause, failed⟩ := ends_with_cause failed
  rw [← run_add] at failed
  -- The run ends with its outcome, and with the failure as well.
  have ended : start.run context (steps + 1) = State.step context ⟨after, meter, .passing outcome, []⟩ := by
    rw [run_last, ran]
  cases outcome with
  | ok value =>
    have unique := Ended.unique ⟨.value value, by rw [ended]; rfl⟩ ⟨_, failed⟩
    rw [← unique, ended] at failed
    cases failed
  | error upset =>
    have unique := Ended.unique ⟨.upset upset none, by rw [ended]; rfl⟩ ⟨_, failed⟩
    rw [← unique, ended] at failed
    obtain ⟨rfl, -⟩ := Ending.upset.inj (Control.done.inj failed)
    exact ⟨_, rfl, congrArg Except.ok cause⟩

/-- Where a level was refused, the outcome says so. -/
theorem not_fits_of_refused {start : State} {steps before limit : Nat}
    (ran : start.run context steps = ⟨after, meter, .passing outcome, []⟩)
    (refused : (start.run context before).control = .fail (.depthExceeded limit)) :
    ¬ outcome.Fits limit := by
  obtain ⟨upset, rfl, cause⟩ := cause_of_fail ran refused
  exact fun fits => fits upset rfl cause

/-- A run that hands something to the host is one to a state that it comes to before, and one from there. -/
theorem GoesTo.splits {start middle last : State} (reached : GoesTo context start middle)
    (unfinished : ¬ middle.Ended) {steps : Nat} (ran : start.run context steps = last) (hands : last.Hands) :
    ∃ before more, before + more = steps ∧ start.run context before = middle ∧
      middle.run context more = last := by
  obtain ⟨before, rfl⟩ := reached
  subst ran
  rcases Nat.lt_or_ge steps before with past | less
  · -- Behind what is handed to the host there is only the end.
    obtain ⟨more, rfl⟩ : ∃ more, before = steps + (more + 1) := ⟨before - steps - 1, by omega⟩
    rw [run_add, run_succ, hands.ends.run] at unfinished
    exact absurd hands.ends unfinished
  · exact ⟨before, steps - before, by omega, rfl, run_sub less rfl rfl⟩

/-- What a run hands to the host, every state that it comes to before hands to the host. -/
theorem GoesTo.rest {start middle last : State} (reached : GoesTo context start middle)
    (unfinished : ¬ middle.Ended) (goes : GoesTo context start last) (hands : last.Hands) :
    GoesTo context middle last := by
  obtain ⟨steps, ran⟩ := goes
  obtain ⟨-, more, -, -, rest⟩ := reached.splits unfinished ran hands
  exact ⟨more, rest⟩

end State

/-- Before an outcome is handed to the host, what goes on above some frames comes to its own outcome. -/
theorem State.passes_of_hands {start : State} (level : start.based meter = start) {stack : List Frame}
    {steps : Nat} (hands : ((start.onto stack).run context steps).Hands) :
    ∃ before ≤ steps, ∃ outcome after,
      start.run context before = ⟨after, meter, .passing outcome, []⟩ ∧
      (start.onto stack).run context before = ⟨after, meter, .passing outcome, stack⟩ := by
  -- Wherever something is handed over without the frames, that is the outcome.
  have passes {before : Nat} (less : before ≤ steps) (hands : (start.run context before).Hands)
      (same : (start.onto stack).run context before = (start.run context before).onto stack) :
      ∃ before ≤ steps, ∃ outcome after,
        start.run context before = ⟨after, meter, .passing outcome, []⟩ ∧
        (start.onto stack).run context before = ⟨after, meter, .passing outcome, stack⟩ := by
    obtain ⟨outcome, reached⟩ := hands.passing
    rw [State.meter_of_empty level hands.1] at reached
    refine ⟨before, less, outcome, _, reached, ?_⟩
    rw [same, reached]
    rfl
  rcases State.run_onto_or_hands start stack steps with same | ⟨before, less, others⟩
  · -- Nothing is left below what is handed over, so there were no frames.
    rw [same] at hands
    exact passes (Nat.le_refl _) ⟨(List.append_eq_nil_iff.mp hands.1).1, hands.2⟩ same
  · exact passes (Nat.le_of_lt less) others.1 others.2

/-- Before an outcome is handed to the host, the work at the top of a stack comes to its own outcome. -/
theorem brings_of_hands {steps : Nat} {stack : List Frame}
    (hands : (State.run context steps ⟨store, meter, work, stack⟩).Hands) :
    ∃ before ≤ steps, ∃ outcome after, Brings context meter store work outcome after ∧
      State.run context before ⟨store, meter, work, stack⟩ = ⟨after, meter, .passing outcome, stack⟩ := by
  obtain ⟨before, less, outcome, after, alone, above⟩ :=
    @State.passes_of_hands context meter ⟨store, meter, work, []⟩ rfl stack steps hands
  exact ⟨before, less, outcome, after, ⟨before, alone⟩, above⟩

/-- A frame gets the outcome of the work above it before an outcome is handed to the host. -/
theorem brings_then {steps : Nat} {frame : Frame} {stack : List Frame}
    (hands : (State.run context steps ⟨store, meter, work, frame :: stack⟩).Hands) :
    ∃ outcome after, Brings context meter store work outcome after ∧ ∃ more < steps,
      State.run context more (State.step context ⟨after, meter, .passing outcome, frame :: stack⟩) =
        State.run context steps ⟨store, meter, work, frame :: stack⟩ := by
  obtain ⟨before, less, outcome, after, brings, reached⟩ := brings_of_hands hands
  have rest := State.run_sub less reached rfl
  obtain none | ⟨more, left⟩ : steps - before = 0 ∨ ∃ more, steps - before = more + 1 := by
    cases steps - before <;> simp
  · -- The frame is still there, so that nothing has been handed to the host.
    rw [none] at rest
    rw [← rest] at hands
    cases hands.1
  · rw [left, State.run_succ] at rest
    exact ⟨outcome, after, brings, more, by omega, rest⟩

namespace Brings

/-- What some work comes to is passed to whatever waits for it. -/
theorem above (brings : Brings context meter store work outcome after) (stack : List Frame) :
    State.GoesTo context ⟨store, meter, work, stack⟩ ⟨after, meter, .passing outcome, stack⟩ :=
  State.GoesTo.onto brings State.not_ended_of_passing stack

/-- Some work comes to one outcome, in one way. -/
theorem unique {other : Outcome} {later : Store} (left : Brings context meter store work outcome after)
    (right : Brings context meter store work other later) : outcome = other ∧ after = later := by
  have same := State.GoesTo.unique left right State.hands_passing State.hands_passing
  have passed := congrArg State.control same
  refine ⟨?_, congrArg State.store same⟩
  cases outcome <;> cases other <;> simp_all [Control.passing]

/-- Some work takes no computation back. -/
theorem precedes (brings : Brings context meter store work outcome after) : store.Precedes after := by
  obtain ⟨steps, reached⟩ := brings
  have order := (WellNested.run context steps ⟨store, meter, work, []⟩ (.nil store)).2
  rwa [reached] at order

/-- Some work comes to the same outcome on any level with as many levels left. -/
theorem shift {low high : DepthMeter} (brings : Brings context low store work outcome after)
    (fits : outcome.Fits low.limit) (room : low.limit + high.current ≤ high.limit + low.current) :
    Brings context high store work outcome after := by
  -- The run is the same on the other level unless a level was refused, which the outcome would
  -- show.
  obtain ⟨steps, reached⟩ := brings
  rcases State.run_based room ⟨store, low, work, []⟩ steps with same | ⟨before, refused⟩
  · refine ⟨steps, Eq.trans same ?_⟩
    have here : (State.based ⟨store, low, work, []⟩ low).run context steps =
        ⟨after, low, .passing outcome, []⟩ := reached
    rw [here]
    rfl
  · exact absurd fits (State.not_fits_of_refused reached refused)

/-- With fewer levels left, some work comes to the same outcome, or to the failure that there are too few. -/
theorem lower {low high : DepthMeter} (within : State.Within .all ⟨store, low, work, []⟩)
    (quiet : work.reports = false) (brings : Brings context high store work outcome after)
    (room : low.limit + high.current ≤ high.limit + low.current) :
    Brings context low store work outcome after ∨
      ∃ upset later, Brings context low store work (.error upset) later ∧ upset.Overflows low.limit := by
  -- Either the run needs no more levels than there are, or it is refused one and fails for that.
  obtain ⟨steps, reached⟩ := brings
  rcases State.run_based room ⟨store, low, work, []⟩ steps with same | ⟨before, refused⟩
  · -- On the lower level the run has the same end, with nothing below it.
    have here : (State.based ⟨store, low, work, []⟩ high).run context steps =
        ⟨after, high, .passing outcome, []⟩ := reached
    have own := @State.run_based_self context low ⟨store, low, work, []⟩ steps
    have low_run : State.run context steps ⟨store, low, work, []⟩ = ⟨after, low, .passing outcome, []⟩ :=
      calc State.run context steps ⟨store, low, work, []⟩
        _ = ((State.run context steps ⟨store, low, work, []⟩).based high).based low := own.symm
        _ = State.based ⟨after, high, .passing outcome, []⟩ low := congrArg (State.based · low) (same.symm.trans here)
        _ = ⟨after, low, .passing outcome, []⟩ := rfl
    exact .inl ⟨steps, low_run⟩
  · obtain ⟨more, failure, left, -, failed⟩ := ends_with_cause refused
    rw [← State.run_add] at failed
    obtain ⟨least, -, hands⟩ :=
      State.hands_of_ended within quiet (fun _ member => nomatch member) ⟨_, failed⟩
    obtain ⟨own, handed⟩ := hands.passing
    have meter := @State.meter_of_empty context low ⟨store, low, work, []⟩ rfl least hands.1
    rw [meter] at handed
    obtain ⟨upset, rfl, overflows⟩ :=
      Outcome.overflows_of_not_fits (State.not_fits_of_refused handed refused)
    exact .inr ⟨upset, _, ⟨least, handed⟩, overflows⟩

/-- Some work that comes to an outcome within a number of levels needs no more of them anywhere. -/
theorem peak {room : Nat} (brings : Brings context ⟨room, 0⟩ store work outcome after)
    (fits : outcome.Fits room) (meter : DepthMeter) (enough : meter.current + room ≤ meter.limit) :
    Brings context meter store work outcome after ∧
      ∀ steps, (State.run context steps ⟨store, meter, work, []⟩).meter.current ≤ meter.current + room := by
  have left : room + meter.current ≤ meter.limit + 0 := by omega
  refine ⟨brings.shift fits left, fun steps => ?_⟩
  obtain ⟨last, reached⟩ := brings
  have same := (@State.run_based context ⟨room, 0⟩ meter left ⟨store, ⟨room, 0⟩, work, []⟩ steps).resolve_right
    fun ⟨before, refused⟩ => State.not_fits_of_refused reached refused fits
  -- The run with no more levels than needed is as far above its beginning, and it keeps to its limit.
  have own := @State.run_based_self context ⟨room, 0⟩ ⟨store, ⟨room, 0⟩, work, []⟩ steps
  have inside := @State.run_current context ⟨store, ⟨room, 0⟩, work, []⟩ (Nat.zero_le _) steps
  have limit := @State.run_limit context ⟨store, ⟨room, 0⟩, work, []⟩ steps
  have here : (State.run context steps ⟨store, meter, work, []⟩) =
      ((State.run context steps ⟨store, ⟨room, 0⟩, work, []⟩).based meter) := same
  have height : (State.run context steps ⟨store, ⟨room, 0⟩, work, []⟩).meter.current =
      levels (State.run context steps ⟨store, ⟨room, 0⟩, work, []⟩).stack := by
    have current := congrArg (fun state : State => state.meter.current) own
    exact (current.symm.trans (Nat.zero_add _))
  rw [here]
  show meter.current + levels _ ≤ meter.current + room
  rw [← height]
  have most : (State.run context steps ⟨store, ⟨room, 0⟩, work, []⟩).meter.limit = room := limit
  omega

/-- An expression is evaluated one level deeper where there is one more level. -/
theorem enter {body : ExprId} {env : Env} (inside : meter.current < meter.limit)
    (brings : Brings context (meter.below 1) store (.eval body env) outcome after) :
    Brings context meter store (.enter body env) outcome after := by
  have entered : State.step context ⟨store, meter, .enter body env, []⟩ =
      ⟨store, meter.below 1, .eval body env, [.leave]⟩ := by
    simp [State.step, Context.enterStep, DepthMeter.enter?, inside, DepthMeter.below]
  refine .step entered ((brings.above [.leave]).trans (.step ?_ (.refl _)))
  -- The frame at the end of the level is taken off with a value and with a failure.
  cases outcome <;> rfl

/-- Work that has not come to its outcome yet goes on with a step. -/
theorem of_step (busy : ∀ outcome, work ≠ .passing outcome)
    (brings : Brings context meter store work outcome after) :
    State.GoesTo context (State.step context ⟨store, meter, work, []⟩)
      ⟨after, meter, .passing outcome, []⟩ := by
  obtain ⟨_ | steps, reached⟩ := brings
  · exact absurd (congrArg State.control reached) (busy outcome)
  · exact ⟨steps, by rwa [State.run_succ] at reached⟩

/-- What is evaluated one level deeper, where there is one more level, is evaluated there. -/
theorem entered {body : ExprId} {env : Env} (inside : meter.current < meter.limit)
    (brings : Brings context meter store (.enter body env) outcome after) :
    Brings context (meter.below 1) store (.eval body env) outcome after := by
  obtain ⟨steps, reached⟩ := brings.of_step (Control.busy rfl)
  have entered : State.step context ⟨store, meter, .enter body env, []⟩ =
      ⟨store, meter.below 1, .eval body env, [.leave]⟩ := by
    simp [State.step, Context.enterStep, DepthMeter.enter?, inside, DepthMeter.below]
  rw [entered] at reached
  obtain ⟨own, between, deeper, -⟩ := brings_then (reached.symm ▸ State.hands_passing)
  -- The level is left with the outcome that the expression comes to.
  obtain ⟨rfl, rfl⟩ := brings.unique (enter inside deeper)
  exact deeper

/-- What is evaluated one level deeper is evaluated there, unless the limit is reached. -/
theorem of_enter {body : ExprId} {env : Env}
    (brings : Brings context meter store (.enter body env) outcome after) (fits : outcome.Fits meter.limit) :
    meter.current < meter.limit ∧ Brings context (meter.below 1) store (.eval body env) outcome after := by
  by_cases inside : meter.current < meter.limit
  · exact ⟨inside, brings.entered inside⟩
  · have refused : State.step context ⟨store, meter, .enter body env, []⟩ =
        ⟨store, meter, .fail (.depthExceeded meter.limit), []⟩ := by
      simp [State.step, Context.enterStep, DepthMeter.enter?, inside]
    have fails : Brings context meter store (.enter body env)
        (.error (.fault (.depthExceeded meter.limit))) store := .step refused (.refl _)
    obtain ⟨rfl, -⟩ := brings.unique fails
    exact absurd rfl (fits _ rfl)

/-! Asking for a computation. -/

section

variable {id : ThunkId} {suspension : Suspension} {between : Store}

/-- A frame that waits for the end of a computation keeps its outcome and passes it on. -/
theorem step_update (stack : List Frame) :
    State.step context ⟨store, meter, .passing outcome, .update id :: stack⟩ =
      ⟨store.set id (.ended outcome), meter, .passing outcome, stack⟩ := by
  cases outcome <;> rfl

/-- What the work of a computation that was put off comes to is kept. -/
theorem of_work (found : store.cell id = .suspended suspension)
    (goes : State.GoesTo context (Context.resumeStep (store.set id .inProgress) meter suspension [])
      ⟨between, meter, .passing outcome, []⟩) :
    Brings context meter store (.force id) outcome (between.set id (.ended outcome)) := by
  refine .step (State.step_force_onto found) ?_
  exact (goes.onto State.not_ended_of_passing _).trans (.step (step_update []) (.refl _))

/-- The outcome of a computation that was put off is that of its work. -/
theorem to_work (found : store.cell id = .suspended suspension)
    (brings : Brings context meter store (.force id) outcome after) :
    ∃ between, State.GoesTo context (Context.resumeStep (store.set id .inProgress) meter suspension [])
        ⟨between, meter, .passing outcome, []⟩ ∧ after = between.set id (.ended outcome) := by
  obtain ⟨steps, reached⟩ := brings.of_step (Control.busy rfl)
  rw [State.step_force_onto found] at reached
  have level : (Context.resumeStep (store.set id .inProgress) meter suspension []).based meter =
      Context.resumeStep (store.set id .inProgress) meter suspension [] := by
    cases suspension <;> rfl
  obtain ⟨before, -, own, between, alone, -⟩ :=
    State.passes_of_hands level (reached.symm ▸ State.hands_passing)
  have whole := of_work found ⟨before, alone⟩
  obtain ⟨rfl, rfl⟩ := brings.unique whole
  exact ⟨between, ⟨before, alone⟩, rfl⟩

/-- While the work of a computation goes on, the computation is under way. -/
theorem busy_of_work (found : store.cell id = .suspended suspension)
    (goes : State.GoesTo context (Context.resumeStep (store.set id .inProgress) meter suspension [])
      ⟨between, meter, .passing outcome, []⟩) :
    id < between.cells.size ∧ between.cell id = .inProgress := by
  have above : State.GoesTo context ⟨store, meter, .force id, []⟩
      ⟨between, meter, .passing outcome, [.update id]⟩ :=
    .step (State.step_force_onto found) (goes.onto State.not_ended_of_passing _)
  obtain ⟨steps, reached⟩ := above
  have nested := (WellNested.run context steps ⟨store, meter, .force id, []⟩ (.nil store)).1
  rw [reached] at nested
  have waits : id ∈ underway [.update id] := by simp [underway, Frame.settles?]
  exact ⟨nested.inside id waits, nested.started id waits⟩

/-- An expression that was put off is evaluated one level deeper, and its outcome is kept. -/
theorem of_entered {body : ExprId} {env : Env} (found : store.cell id = .suspended (.expr body env))
    (inside : meter.current < meter.limit)
    (brings : Brings context (meter.below 1) (store.set id .inProgress) (.eval body env) outcome after) :
    after.Precedes (after.set id (.ended outcome)) ∧
      Brings context meter store (.force id) outcome (after.set id (.ended outcome)) := by
  have entered := brings.enter inside
  refine ⟨Store.set_precedes ?_, .of_work found entered⟩
  have busy := (busy_of_work found entered).2
  cases outcome <;> simp [busy, Cell.Precedes, Cell.ended]

/-- The outcome of an expression that was put off is what it comes to one level deeper. -/
theorem to_entered {body : ExprId} {env : Env} (found : store.cell id = .suspended (.expr body env))
    (inside : meter.current < meter.limit)
    (brings : Brings context meter store (.force id) outcome after) :
    ∃ between, Brings context (meter.below 1) (store.set id .inProgress) (.eval body env) outcome between ∧
      after = between.set id (.ended outcome) := by
  obtain ⟨between, resumed, rfl⟩ := brings.to_work found
  have work : Brings context meter (store.set id .inProgress) (.enter body env) outcome between := resumed
  exact ⟨between, work.entered inside, rfl⟩

/-- The outcome of a computation that is not under way is kept. -/
theorem ended (idle : store.cell id ≠ .inProgress)
    (brings : Brings context meter store (.force id) outcome after) : after.cell id = .ended outcome := by
  cases found : store.cell id with
  | suspended suspension =>
    obtain ⟨between, goes, rfl⟩ := brings.to_work found
    exact Store.cell_set_self (busy_of_work found goes).1 _
  | inProgress => exact absurd found idle
  | forced value =>
    have own : Brings context meter store (.force id) (.ok value) store := ForcesTo.of_forced found
    obtain ⟨rfl, rfl⟩ := brings.unique own
    exact found
  | failed failure =>
    have own : Brings context meter store (.force id) (.error (.error failure)) store :=
      .step (State.step_force_failed found) (.refl _)
    obtain ⟨rfl, rfl⟩ := brings.unique own
    exact found

/-- When a computation has come to something, the store refers to itself only. -/
theorem closed (closed : store.Closed) (inside : id < store.cells.size)
    (brings : Brings context meter store (.force id) outcome after) : after.Closed := by
  obtain ⟨steps, reached⟩ := brings
  have asked : State.Within .all ⟨store, meter, .force id, []⟩ := ⟨closed, inside, fun _ member => nomatch member⟩
  have last := @State.Within.run context _ asked steps
  rw [reached] at last
  exact last.store

/-- A computation that is asked for with nothing under way leaves nothing under way. -/
theorem idle (closed : store.Closed) (idle : store.Idle) (inside : id < store.cells.size)
    (brings : Brings context meter store (.force id) outcome after) : after.Idle := by
  obtain ⟨steps, reached⟩ := brings
  have asked : Request.Within .all store.cells.size (.force id) := inside
  have sane := @State.Sane.run context meter _ (@start_sane ⟨context, {}⟩ _ _ closed idle asked meter) steps
  have last : (State.run context steps { Evaluator.start ⟨context, {}⟩ (.force id) store with meter := meter }) =
      ⟨after, meter, .passing outcome, []⟩ := reached
  rw [last] at sane
  intro other within running
  exact absurd (sane.awaited other within running) List.not_mem_nil

end

end Brings

/-- A computation is evaluated to the same value on any level with as many levels left. -/
theorem ForcesTo.shift {low high : DepthMeter} {id : ThunkId} {value : Value}
    (forces : ForcesTo context low store id value after)
    (room : low.limit + high.current ≤ high.limit + low.current) :
    ForcesTo context high store id value after :=
  @Brings.shift _ _ _ _ (.ok value) _ _ forces (Outcome.fits_ok value _) room

/-- A computation goes wrong in the same way on any level with as many levels left. -/
theorem FailsWith.shift {low high : DepthMeter} {id : ThunkId} {upset : Upset}
    (fails : FailsWith context low store id upset after) (fits : ¬ upset.Overflows low.limit)
    (room : low.limit + high.current ≤ high.limit + low.current) :
    FailsWith context high store id upset after := by
  refine @Brings.shift _ _ _ _ (.error upset) _ _ fails (fun other same => ?_) room
  exact Except.error.inj same ▸ fits

end LazyConfig
