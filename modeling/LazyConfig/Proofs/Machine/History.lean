import LazyConfig.Proofs.Machine.Outcomes

/-!
Where the outcome of a computation comes from. In a session with one program, a computation that was put off
at one moment and has an outcome at a later one was asked for in between, and came to that outcome then.
-/

namespace LazyConfig

namespace Moment

/-- A later moment of a session in which all requests are made of evaluators of one program. -/
def Onward (moment later : Moment) : Prop :=
  Relation.ReflTransGen (fun now next => now.Next next ∧ next.context = now.context) moment later

variable {moment later : Moment} {id : ThunkId}

namespace Onward

/-- The program stays the same. -/
theorem context_eq (onward : moment.Onward later) : later.context = moment.context := by
  induction onward with
  | refl => rfl
  | tail _ next ih => exact next.2.trans ih

/-- The stack stays well nested, and no computation goes back. -/
theorem precedes (onward : moment.Onward later) (nested : WellNested moment.store moment.state.stack) :
    WellNested later.store later.state.stack ∧ moment.store.Precedes later.store := by
  induction onward with
  | refl => exact ⟨nested, .refl _⟩
  | tail _ next ih =>
    have further := next.1.precedes ih.1
    exact ⟨further.1, ih.2.trans further.2⟩

/-- Any number of steps of a request leads to a later moment. -/
theorem run (context : Context) (steps : Nat) (state : State) :
    Onward ⟨context, state⟩ ⟨context, state.run context steps⟩ := by
  induction steps with
  | zero => exact .refl
  | succ steps ih =>
    rw [State.run_last]
    exact .tail ih ⟨.step _, rfl⟩

/-- What a run comes to is a later moment. -/
theorem of_goesTo {context : Context} {first last : State} (goes : State.GoesTo context first last) :
    Onward ⟨context, first⟩ ⟨context, last⟩ := by
  obtain ⟨steps, rfl⟩ := goes
  exact run context steps first

end Onward

/-! Computations that are never settled. -/

/-- A computation that is under way although nothing waits for its end any more. -/
structure Abandons (moment : Moment) (id : ThunkId) : Prop where
  inside : id < moment.store.cells.size
  started : moment.store.cell id = .inProgress
  unwaited : id ∉ underway moment.state.stack ∨ moment.state.Ended

/-- Nothing comes back to a computation for whose end nothing waits. -/
theorem Abandons.next (abandons : moment.Abandons id) (next : moment.Next later) : later.Abandons id := by
  obtain ⟨inside, started, unwaited⟩ := abandons
  -- Between two moments a request begins, the host prepares something, or a step is taken.
  cases next with
  | request _ evaluator request =>
    exact ⟨inside, started, .inl (by rw [start_underway]; exact nofun)⟩
  | prepare ended action =>
    have grown := action.apply_extends moment.store
    exact ⟨Nat.lt_of_lt_of_le inside grown.1, (grown.2 id inside).trans started,
      .inr (@State.ended_of_ending moment.state _ ended)⟩
  | step =>
    by_cases ended : moment.state.Ended
    · have stays : moment.state.step moment.context = moment.state :=
        (State.run_succ 0 moment.state).symm.trans (ended.run 1)
      exact ⟨by rw [store, stays]; exact inside, by rw [store, stays]; exact started,
        .inr (stays.symm ▸ ended)⟩
    have unwaited := unwaited.resolve_right ended
    -- What a step starts was put off, and what it settles is waited for.
    rcases moment.state.effect moment.context with
      ⟨grown, same⟩ | ⟨other, work, -, found, cells, waits⟩ | ⟨other, outcome, rest, top, -, cells, waits⟩
    · exact ⟨Nat.lt_of_lt_of_le inside grown.1, (grown.2 id inside).trans started, .inl (same ▸ unwaited)⟩
    · have different : id ≠ other := by
        rintro rfl
        cases started.symm.trans found
      refine ⟨by rw [store, cells]; simpa [store] using inside, ?_, .inl ?_⟩
      · rw [store, cells, Store.cell_set_of_ne different]
        exact started
      · rw [waits]
        simp [different, unwaited]
    · rw [top] at unwaited
      simp only [underway, List.filterMap_cons, Frame.settles?, List.mem_cons, not_or] at unwaited
      refine ⟨by rw [store, cells]; simpa [store] using inside, ?_, .inl (waits ▸ unwaited.2)⟩
      rw [store, cells, Store.cell_set_of_ne unwaited.1]
      exact started

/-- A computation for whose end nothing waits is under way for the rest of the session. -/
theorem Abandons.onward (abandons : moment.Abandons id) (onward : moment.Onward later) :
    later.Abandons id := by
  induction onward with
  | refl => exact abandons
  | tail _ next ih => exact ih.next next.1

end Moment

/-! Computations that do not go wrong. -/

namespace State

variable {context : Context} {state : State} {id : ThunkId} {work : Suspension}

/-- A failure is on its way up, or it has ended the evaluation. -/
def Failing (state : State) : Prop :=
  (∃ upset, state.control = .raise upset) ∨ ∃ upset left, state.control = .done (.upset upset left)

/-- A failure is not taken back. -/
theorem Failing.step (failing : state.Failing) : (state.step context).Failing := by
  obtain ⟨store, meter, control, stack⟩ := state
  -- A failure that is on its way passes one frame after another, and then it is the answer.
  rcases failing with ⟨upset, raised⟩ | ⟨upset, left, done⟩
  · obtain rfl : control = .raise upset := raised
    cases stack with
    | nil => exact .inr ⟨upset, none, rfl⟩
    | cons frame rest =>
      obtain ⟨later, -, ⟨store', meter', stepped⟩ | ⟨left, done⟩⟩ :=
        @step_raise context store meter upset frame rest
      · exact .inl ⟨later, congrArg State.control stepped⟩
      · exact .inr ⟨later, left, done⟩
  · obtain rfl : control = .done (.upset upset left) := done
    exact .inr ⟨upset, left, rfl⟩

/-- A computation that was put off has not gone wrong, unless a failure is on its way up. -/
def Spotless (id : ThunkId) (work : Suspension) (state : State) : Prop :=
  state.store.cell id = .suspended work ∨ id ∈ underway state.stack ∨
    (∃ value, state.store.cell id = .forced value) ∨ state.Failing

/-- A step that settles a computation takes a value or a failure for it. -/
theorem spotless_of_settled {rest : List Frame} (top : state.stack = .update id :: rest)
    (inside : id < state.store.cells.size) (popped : (state.step context).stack = rest) :
    Spotless id work (state.step context) := by
  obtain ⟨store, meter, control, stack⟩ := state
  obtain rfl : stack = .update id :: rest := top
  by_cases independent : Independent ⟨store, meter, control, []⟩
  · -- Nothing but a value or a failure takes a frame off.
    have whole := congrArg (fun state : State => state.stack.length)
      (@step_onto context _ independent (.update id :: rest))
    have shorter := congrArg List.length popped
    simp only [onto, List.nil_append, List.length_append, List.length_cons] at whole
    omega
  · cases control with
    | give value => exact .inr (.inr (.inl ⟨value, Store.cell_set_self inside _⟩))
    | raise upset => exact .inr (.inr (.inr (Failing.step (.inl ⟨upset, rfl⟩))))
    | _ => exact absurd trivial independent

/-- Where no failure is on its way up, a step brings no computation to a failure. -/
theorem Spotless.step (spotless : Spotless id work state) (nested : WellNested state.store state.stack)
    (inside : id < state.store.cells.size) : Spotless id work (state.step context) := by
  -- The computation waits, is waited for, has a value, or a failure is on its way; each of them is
  -- looked at in turn.
  rcases spotless with found | waited | ⟨value, found⟩ | failing
  · rcases state.effect context with quiet | ⟨other, suspended, -, -, cells, waits⟩ | ⟨other, outcome, rest, top, -, cells, -⟩
    · exact .inl ((quiet.1.2 id inside).trans found)
    · by_cases same : id = other
      · exact .inr (.inl (by rw [waits, same]; exact List.mem_cons_self))
      · exact .inl (by rw [cells, Store.cell_set_of_ne same, found])
    · have other : id ≠ other := by
        rintro rfl
        cases (nested.started id (by simp [top, underway, Frame.settles?])).symm.trans found
      exact .inl (by rw [cells, Store.cell_set_of_ne other, found])
  · rcases state.effect context with quiet | ⟨other, suspended, -, -, -, waits⟩ | ⟨other, outcome, rest, top, -, -, popped⟩
    · exact .inr (.inl (quiet.2 ▸ waited))
    · exact .inr (.inl (by rw [waits]; exact List.mem_cons_of_mem _ waited))
    · by_cases same : id = other
      · subst same
        exact spotless_of_settled top inside popped
      · rw [top] at waited
        simp only [underway, List.filterMap_cons, Frame.settles?, List.mem_cons] at waited
        exact .inr (.inl (popped ▸ waited.resolve_left same))
  · exact .inr (.inr (.inl ⟨value, (nested.step context).2.forced found⟩))
  · exact .inr (.inr (.inr failing.step))

/-- Where no failure is on its way up, a run has brought no computation to a failure. -/
theorem Spotless.run (spotless : Spotless id work state) (nested : WellNested state.store state.stack)
    (inside : id < state.store.cells.size) (steps : Nat) : Spotless id work (state.run context steps) := by
  induction steps with
  | zero => exact spotless
  | succ steps ih =>
    have further := WellNested.run context steps state nested
    rw [run_last]
    exact ih.step further.1 (Nat.lt_of_lt_of_le inside further.2.1)

end State

/-! Computations that are settled. -/

section

variable {context : Context} {meter : DepthMeter} {store : Store} {id : ThunkId} {work : Suspension}

/-- While the work of a computation goes on, its end is waited for. -/
theorem State.underway_of_force (found : store.cell id = .suspended work) (steps : Nat)
    (busy : ∀ before ≤ steps + 1, ¬ (State.run context before ⟨store, meter, .force id, []⟩).Hands) :
    id ∈ underway (State.run context (steps + 1) ⟨store, meter, .force id, []⟩).stack := by
  -- The work goes on above the frame that waits, until it passes its outcome to the frame.
  have begun (steps : Nat) : State.run context (steps + 1) ⟨store, meter, .force id, []⟩ =
      State.run context steps
        ((Context.resumeStep (store.set id .inProgress) meter work []).onto [.update id]) := by
    rw [run_succ, step_force_onto found]
  rw [begun]
  rcases @State.run_onto_or_hands context (Context.resumeStep (store.set id .inProgress) meter work [])
    -- Either nothing has been handed to the frame yet, or it was handed something, which is
    -- excluded.
    [.update id] steps with same | ⟨before, less, hands, same⟩
  · rw [same]
    simp [onto, underway, Frame.settles?]
  · obtain ⟨outcome, passed⟩ := hands.passing
    refine absurd ?_ (busy (before + 2) (by omega))
    rw [run_last, begun, same, passed]
    have settled := @Brings.step_update context
    simp only [onto, List.nil_append, settled]
    exact hands_passing

/-- A computation whose work has begun is under way until it comes to an outcome. -/
theorem State.inProgress_or_hands (found : store.cell id = .suspended work) {stack : List Frame}
    (nested : WellNested store stack) (steps : Nat) :
    let now := State.run context (steps + 1) ⟨store, meter, .force id, stack⟩
    (id < now.store.cells.size ∧ now.store.cell id = .inProgress) ∨
      ∃ before ≤ steps + 1, (State.run context before ⟨store, meter, .force id, []⟩).Hands := by
  intro now
  -- While nothing is handed over, the frame that waits for the computation is on the stack.
  by_cases handed : ∃ before ≤ steps + 1, (State.run context before ⟨store, meter, .force id, []⟩).Hands
  · exact .inr handed
  · have busy : ∀ before ≤ steps + 1, ¬ (State.run context before ⟨store, meter, .force id, []⟩).Hands :=
      fun before less hands => handed ⟨before, less, hands⟩
    have same := (run_onto_or_hands ⟨store, meter, .force id, []⟩ stack (steps + 1)).resolve_right
      fun ⟨before, less, hands, _⟩ => busy before (Nat.le_of_lt less) hands
    have waits : id ∈ underway now.stack := by
      have inner := underway_of_force found steps busy
      have whole : now.stack = (State.run context (steps + 1) ⟨store, meter, .force id, []⟩).stack ++ stack :=
        congrArg State.stack same
      rw [whole, underway, List.filterMap_append]
      exact List.mem_append_left _ inner
    have later := (WellNested.run context (steps + 1) ⟨store, meter, .force id, stack⟩ nested).1
    exact .inl ⟨later.inside id waits, later.started id waits⟩

end

namespace Moment

variable {moment later : Moment} {id : ThunkId}

section

variable {context : Context} {store : Store} {meter : DepthMeter} {work : Suspension} {stack : List Frame}

/-- A computation has come to an outcome and is passed to what waited for it, and the session goes on. -/
def Settles (context : Context) (store : Store) (meter : DepthMeter) (stack : List Frame) (id : ThunkId)
    (later : Moment) : Prop :=
  ∃ outcome after, Brings context meter store (.force id) outcome after ∧
    State.GoesTo context ⟨store, meter, .force id, stack⟩ ⟨after, meter, .passing outcome, stack⟩ ∧
    Onward ⟨context, ⟨after, meter, .passing outcome, stack⟩⟩ later

/-- A computation that has come to an outcome by some step is settled from then on. -/
theorem settles_of_hands {before steps : Nat} (less : before ≤ steps)
    (hands : (State.run context before ⟨store, meter, .force id, []⟩).Hands)
    (onward : Onward ⟨context, State.run context steps ⟨store, meter, .force id, stack⟩⟩ later) :
    Settles context store meter stack id later := by
  -- The outcome has been passed on within the larger stack as well, and what comes later comes
  -- after that.
  obtain ⟨outcome, passed⟩ := hands.passing
  rw [State.meter_of_empty rfl hands.1] at passed
  have above := State.run_onto hands.unfinished stack
  rw [passed] at above
  have reached : State.run context before ⟨store, meter, .force id, stack⟩ = ⟨_, meter, .passing outcome, stack⟩ :=
    above
  refine ⟨outcome, _, ⟨before, passed⟩, ⟨before, reached⟩, ?_⟩
  exact (Onward.of_goesTo ⟨steps - before, State.run_sub less reached rfl⟩).trans onward

/-- A computation whose work has begun is settled later, or it is under way for the rest of the session. -/
theorem Onward.settles_of_begun (onward : moment.Onward later) (found : store.cell id = .suspended work)
    (nested : WellNested store stack) (steps : Nat)
    (here : moment = ⟨context, State.run context (steps + 1) ⟨store, meter, .force id, stack⟩⟩) :
    later.store.cell id = .inProgress ∨ Settles context store meter stack id later := by
  -- The induction is on what comes later; the moment that is looked at moves on with it.
  induction onward using Relation.ReflTransGen.head_induction_on generalizing steps with
  | refl =>
    subst here
    exact (State.inProgress_or_hands found nested steps).imp And.right
      fun ⟨before, less, hands⟩ => settles_of_hands less hands .refl
  | @head moment next follows rest ih =>
    subst here
    rcases @State.inProgress_or_hands context _ _ _ _ found _ nested steps with busy | ⟨before, less, hands⟩
    · by_cases ended : (State.run context (steps + 1) ⟨store, meter, .force id, stack⟩).Ended
      · -- A request that has ended does not come back to the computation.
        have abandons : Abandons ⟨context, _⟩ id := ⟨busy.1, busy.2, .inr ended⟩
        exact .inl ((abandons.next follows.1).onward rest).started
      · cases follows.1 with
        | step => exact ih (steps + 1) (congrArg (Moment.mk context) (State.run_last _ _).symm)
        | request stopped | prepare stopped => exact absurd (State.ended_of_ending stopped) ended
    · exact .inr (settles_of_hands less hands (.head follows rest))

end

/-- What is no longer put off at the next moment is begun at this one. -/
theorem Next.asks (next : moment.Next later) (nested : WellNested moment.store moment.state.stack)
    {work : Suspension} (found : moment.store.cell id = .suspended work)
    (begun : later.store.cell id ≠ .suspended work) :
    moment.state.control = .force id ∧ later = ⟨moment.context, moment.state.step moment.context⟩ := by
  have inside := Store.lt_size_of_cell found (by simp)
  cases next with
  | request _ evaluator request => exact absurd found begun
  | prepare _ action => exact absurd (((action.apply_extends moment.store).2 id inside).trans found) begun
  | step =>
    rcases moment.state.effect moment.context with
      ⟨grown, -⟩ | ⟨other, work, asked, -, cells, -⟩ | ⟨other, outcome, rest, top, -, cells, -⟩
    · exact absurd ((grown.2 id inside).trans found) begun
    · by_cases same : id = other
      · exact ⟨same ▸ asked, rfl⟩
      · refine absurd ?_ begun
        rw [store, cells, Store.cell_set_of_ne same]
        exact found
    · -- What is settled was under way.
      have different : id ≠ other := by
        rintro rfl
        have started := nested.started id (by simp [top, underway, Frame.settles?])
        cases started.symm.trans found
      refine absurd ?_ begun
      rw [store, cells, Store.cell_set_of_ne different]
      exact found

/--
A computation that was put off at one moment of a session with one program is put off still at a later
moment, or under way, or it was asked for in between and came to the outcome that it has.
-/
theorem Onward.history (onward : moment.Onward later)
    (nested : WellNested moment.store moment.state.stack) {work : Suspension}
    (found : moment.store.cell id = .suspended work) :
    later.store.cell id = .suspended work ∨ later.store.cell id = .inProgress ∨
      ∃ before after : Moment, ∃ outcome, moment.Onward before ∧ before.Onward after ∧ after.Onward later ∧
        WellNested before.store before.state.stack ∧ before.store.cell id = .suspended work ∧
        Brings moment.context before.state.meter before.store (.force id) outcome after.store ∧
        WellNested after.store after.state.stack ∧ later.store.cell id = .ended outcome := by
  induction onward using Relation.ReflTransGen.head_induction_on with
  | refl => exact .inl found
  | @head moment next follows rest ih =>
    have further := follows.1.precedes nested
    by_cases waits : next.store.cell id = .suspended work
    · rcases ih further.1 waits with still | busy | ⟨before, after, outcome, ahead, others⟩
      · exact .inl still
      · exact .inr (.inl busy)
      · exact .inr (.inr ⟨before, after, outcome, .head follows ahead, follows.2 ▸ others⟩)
    · -- What is no longer put off has just been begun.
      have asked := follows.1.asks nested found waits
      obtain ⟨context, store, meter, control, stack⟩ := moment
      obtain ⟨rfl, rfl⟩ : control = .force id ∧ next = ⟨context, State.step context ⟨store, meter, control, stack⟩⟩ :=
        asked
      rcases Onward.settles_of_begun rest found nested 0 rfl with busy | ⟨outcome, after, brings, goes, beyond⟩
      · exact .inr (.inl busy)
      · have reaches := Onward.of_goesTo goes
        have nested' := (reaches.precedes nested).1
        have idle : store.cell id ≠ .inProgress := fun busy => nomatch found.symm.trans busy
        have kept := (beyond.precedes nested').2.ended (brings.ended idle)
        exact .inr (.inr ⟨_, _, outcome, .refl, reaches, beyond, nested, found, brings, nested', kept⟩)

end Moment

end LazyConfig
