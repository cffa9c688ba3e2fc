import LazyConfig.Proofs.Machine.History
import LazyConfig.Proofs.Store.Unasked

/-!
Work that does not ask for a computation. It goes on in the same way whatever has become of the computation, as long
as that is no value; so what is put off comes to what its work comes to anywhere else.
-/

namespace LazyConfig

/-- The same state, in a store in which a computation has come to another state. -/
def State.setting (id : ThunkId) (cell : Cell) (state : State) : State :=
  { state with store := state.store.set id cell }

variable {context : Context} {store : Store} {id : ThunkId} {cell : Cell} {meter : DepthMeter} {stack : List Frame}

/-- Two computations are settled in either order. -/
theorem Store.set_comm {other : ThunkId} (different : other ≠ id) (state : Cell) :
    (store.set id cell).set other state = (store.set other state).set id cell := by
  simp only [Store.set, Array.setIfInBounds_comm _ _ different.symm]

namespace Context

open Store

section

variable (inside : id < store.cells.size)
include inside

theorem evalStep_set (body : ExprId) (env : Env) :
    context.evalStep (store.set id cell) meter body env stack =
      (context.evalStep store meter body env stack).setting id cell := by
  -- What is put off gets the same places in both stores, since setting a computation adds none.
  unfold evalStep
  cases context.code.expr body with
  | ident name => dsimp only; split <;> rfl
  | letIn name value body => simp only [bindRecursive_set inside, setIn]; rfl
  | binary op left right => cases op <;> rfl
  | list items => simp only [suspendAll_set inside, setIn]; rfl
  | record fields => simp only [suspendFields_set inside, setIn]; rfl
  | builtin op args =>
    dsimp only
    split
    · rfl
    · rfl
    · split
      · rfl
      · simp only [suspendAll_set inside, setIn]
        split <;> rfl
  | ascribe value type => dsimp only; split <;> rfl
  | _ => rfl

omit inside in
theorem applyStep_set (func : Value) (arg : ThunkId) :
    applyStep (store.set id cell) meter func arg stack = (applyStep store meter func arg stack).setting id cell := by
  unfold applyStep
  split
  · rfl
  · dsimp only; split <;> rfl
  · rfl
  · rfl

omit inside in
theorem runStep_set (op : Builtin) (args : List ThunkId) :
    runStep (store.set id cell) meter op args stack = (runStep store meter op args stack).setting id cell := by
  unfold runStep
  split <;> rfl

theorem operateStep_set (op : BinaryOp) (left right : Value) :
    operateStep (store.set id cell) meter op left right stack =
      (operateStep store meter op left right stack).setting id cell := by
  cases op with
  | append | and | or => simp only [operateStep]; split <;> rfl
  | concat =>
    cases left with
    | list items => simp only [operateStep, ready_set inside, setIn]; rfl
    | _ => rfl
  | _ => rfl

theorem consumeStep_set (graph : TypeGraph) (consumer : Consumer) (item : Option ThunkId) (rest : Cursor) :
    consumeStep graph (store.set id cell) meter consumer item rest stack =
      (consumeStep graph store meter consumer item rest stack).setting id cell := by
  cases consumer with
  | count passed =>
    cases item with
    | none => simp only [consumeStep]; split <;> rfl
    | some id => rfl
  | elemAt list index ahead => cases item <;> cases ahead <;> rfl
  | compareRight left lefts work => cases item <;> cases left <;> rfl
  | checkCell elem path index =>
    cases item with
    | none => rfl
    | some head => simp only [consumeStep, checkCell_set inside, setIn]; rfl
  | _ => cases item <;> rfl

theorem advanceStep_set (graph : TypeGraph) (cursor : Cursor) (consumer : Consumer) :
    advanceStep graph (store.set id cell) meter cursor consumer stack =
      (advanceStep graph store meter cursor consumer stack).setting id cell := by
  -- A front that is used up is left for the right parts that wait.
  have crosses (pending : List ThunkId) : crossStep graph (store.set id cell) meter pending consumer stack =
      (crossStep graph store meter pending consumer stack).setting id cell := by
    cases pending with
    | nil => exact consumeStep_set inside graph consumer none _
    | cons right rest => rfl
  obtain ⟨front, pending⟩ := cursor
  cases front with
  | elems items start =>
    simp only [advanceStep]
    split
    · exact consumeStep_set inside graph consumer _ _
    · exact crosses pending
  | range next stop =>
    have grown := Nat.lt_of_lt_of_le inside (store.ready_extends (.int next)).1
    simp only [advanceStep, ready_set inside, setIn]
    split
    · exact consumeStep_set grown graph consumer _ _
    · exact crosses pending
  | concat left right => rfl

omit inside in
theorem deepenStep_set (work : List Value) (whole : Value) :
    deepenStep (store.set id cell) meter work whole stack = (deepenStep store meter work whole stack).setting id cell := by
  unfold deepenStep
  split <;> rfl

omit inside in
theorem compareStep_set (work : List (Value × Value)) :
    compareStep (store.set id cell) meter work stack = (compareStep store meter work stack).setting id cell := by
  unfold compareStep
  dsimp only
  split
  case h_6 => split <;> rfl
  case h_7 =>
    split
    · rfl
    · split <;> rfl
  all_goals rfl

theorem answerStep_set (function : HostFunction) (value : Value) (shown : String) :
    answerStep (store.set id cell) meter function value shown stack =
      (answerStep store meter function value shown stack).setting id cell := by
  have grown := Nat.lt_of_lt_of_le inside (store.record_extends ⟨function.name, shown⟩).1
  have noted : (store.set id cell).record ⟨function.name, shown⟩ =
      (store.record ⟨function.name, shown⟩).set id cell := rfl
  simp only [answerStep, noted]
  cases function.response with
  | singleton => simp only [ready_set grown, setIn]; rfl
  | _ => rfl

end

section

variable (inside : id < store.cells.size) (waits : ∀ value, store.cell id ≠ .forced value)
  (still : ∀ value, cell ≠ .forced value)
include inside waits still

theorem giveStep_set (value : Value) {frame : Frame} (elsewhere : frame ≠ .update id) :
    context.giveStep (store.set id cell) meter value frame stack =
      (context.giveStep store meter value frame stack).setting id cell := by
  -- A frame that settles another computation does so in either order; texts of values do not show
  -- what is put off.
  cases frame with
  | update other =>
    have different : other ≠ id := fun same => elsewhere (congrArg Frame.update same)
    simp only [giveStep, set_comm different]
    rfl
  | branch whenTrue whenFalse env => cases value <;> rfl
  | operand arg env =>
    simp only [giveStep, suspend_set inside, setIn]
    cases value <;> rfl
  | concatLeft right env =>
    cases value with
    | list items => simp only [giveStep, suspend_set inside, setIn]; rfl
    | _ => rfl
  | logicLeft op right env =>
    cases value with
    | bool left => simp only [giveStep]; split <;> rfl
    | _ => rfl
  | select name =>
    cases value with
    | record fields => simp only [giveStep]; split <;> rfl
    | _ => rfl
  | ascribe type path => simp only [giveStep, check_set inside, setIn]; rfl
  | args rest => cases rest <;> rfl
  | hostArgument function =>
    simp only [giveStep, quoted_set inside waits still]
    exact answerStep_set inside function value _
  | mapOver func =>
    cases value with
    | record fields => simp only [giveStep, mapFields_set inside, setIn]; rfl
    | _ => rfl
  | fieldNames =>
    cases value with
    | record fields => simp only [giveStep, fieldsOf_set inside, setIn]; rfl
    | _ => rfl
  | index list =>
    simp only [giveStep, quoted_set inside waits still]
    split
    · split <;> rfl
    · rfl
  | bound =>
    simp only [giveStep, quoted_set inside waits still]
    split <;> rfl
  | _ => cases value <;> rfl

end

theorem raiseStep_set (upset : Upset) {frame : Frame} (elsewhere : frame ≠ .update id) :
    context.raiseStep (store.set id cell) meter upset frame stack =
      (context.raiseStep store meter upset frame stack).setting id cell := by
  cases frame with
  | update other =>
    have different : other ≠ id := fun same => elsewhere (congrArg Frame.update same)
    simp only [raiseStep, set_comm different]
    rfl
  | spine pending consumer => cases consumer <;> rfl
  | _ => rfl

/-- Asking for another computation. -/
theorem forceStep_set {other : ThunkId} (different : other ≠ id) :
    forceStep (store.set id cell) meter other stack = (forceStep store meter other stack).setting id cell := by
  unfold forceStep
  rw [cell_set_of_ne different]
  cases store.cell other with
  | suspended work =>
    simp only [set_comm different]
    cases work <;> rfl
  | _ => rfl

end Context

namespace State

variable {state : State} {work : Suspension}

/-- A step that does not ask for a computation is the same whatever has become of it, as long as that is no value. -/
theorem step_setting (found : state.store.cell id = .suspended work) (still : ∀ value, cell ≠ .forced value)
    (nested : WellNested state.store state.stack) (other : state.control ≠ .force id) :
    (state.setting id cell).step context = (state.step context).setting id cell := by
  have inside := Store.lt_size_of_suspended found
  have waits : ∀ value, state.store.cell id ≠ .forced value := fun value same => nomatch found.symm.trans same
  -- Nothing waits for the end of a computation that is put off.
  have top {frame : Frame} {rest : List Frame} (listed : state.stack = frame :: rest) : frame ≠ .update id := by
    rintro rfl
    cases found.symm.trans (nested.started id (by simp [listed, underway, Frame.settles?]))
  obtain ⟨store, meter, control, stack⟩ := state
  -- Each rule makes the same of both stores; only the one for the computation itself would tell
  -- them apart.
  cases control with
  | eval body env => exact Context.evalStep_set inside body env
  | enter body env =>
    simp only [setting, step, Context.enterStep]
    split <;> rfl
  | force asked => exact Context.forceStep_set fun same => other (congrArg Control.force same)
  | apply func arg => exact Context.applyStep_set func arg
  | run op args => exact Context.runStep_set op args
  | operate op left right => exact Context.operateStep_set inside op left right
  | advance cursor consumer => exact Context.advanceStep_set inside _ cursor consumer
  | deepen work whole => exact Context.deepenStep_set work whole
  | compare work => exact Context.compareStep_set work
  | give value =>
    cases stack with
    | nil => rfl
    | cons frame rest => exact Context.giveStep_set inside waits still value (top rfl)
  | raise upset =>
    cases stack with
    | nil => rfl
    | cons frame rest => exact Context.raiseStep_set upset (top rfl)
  | done ending => rfl

/--
A run does not see what has become of a computation that was put off, as long as that is no value, until it asks for
the computation.
-/
theorem run_setting (found : state.store.cell id = .suspended work) (still : ∀ value, cell ≠ .forced value)
    (nested : WellNested state.store state.stack) (steps : Nat) :
    (state.run context steps).store.cell id = .suspended work ∧
        (state.setting id cell).run context steps = (state.run context steps).setting id cell ∨
      ∃ before < steps, (state.run context before).control = .force id ∧
        (state.run context before).store.cell id = .suspended work ∧
        (state.setting id cell).run context before = (state.run context before).setting id cell := by
  -- By induction on the steps: until the run asks for the computation, each of its steps is one of
  -- those.
  induction steps with
  | zero => exact .inl ⟨found, rfl⟩
  | succ steps ih =>
    rcases ih with ⟨waits, same⟩ | ⟨before, less, asked⟩
    · have nested := (WellNested.run context steps state nested).1
      by_cases asks : (state.run context steps).control = .force id
      · exact .inr ⟨steps, Nat.lt_succ_self steps, asks, waits, same⟩
      · refine .inl ⟨?_, ?_⟩
        · -- What is no longer put off has just been asked for.
          by_contra begun
          rw [run_last] at begun
          exact asks ((Moment.Next.step ⟨context, state.run context steps⟩).asks nested waits begun).1
        · rw [run_last, run_last, same, step_setting waits still nested asks]
    · exact .inr ⟨before, Nat.lt_succ_of_lt less, asked⟩

end State

/-- What is put off at a later moment was put off before. -/
theorem Store.Precedes.suspended {before after : Store} (order : before.Precedes after) {work : Suspension}
    (inside : id < before.cells.size) (found : after.cell id = .suspended work) :
    before.cell id = .suspended work := by
  have further := order.2 id inside
  rw [found] at further
  cases here : before.cell id <;> simp_all [Cell.Precedes]

/-! Computations that do not ask for themselves. -/

namespace Brings

variable {work : Suspension} {outcome : Outcome} {between after : Store}

/-- The work of a computation begins in the same way whatever has become of the computation. -/
theorem resume_setting (work : Suspension) :
    Context.resumeStep (store.set id cell) meter work stack =
      (Context.resumeStep store meter work stack).setting id cell := by
  cases work <;> rfl

theorem resume_nested (work : Suspension) :
    WellNested (Context.resumeStep store meter work []).store (Context.resumeStep store meter work []).stack := by
  cases work <;> exact ⟨.nil, nofun, nofun⟩

/-- What is put off comes to what its work comes to in the store as it is, if the work does not ask for it. -/
theorem of_unasked (found : store.cell id = .suspended work)
    (goes : State.GoesTo context (Context.resumeStep store meter work []) ⟨between, meter, .passing outcome, []⟩)
    (unasked : between.cell id = .suspended work) :
    Brings context meter store (.force id) outcome (between.set id (.ended outcome)) := by
  obtain ⟨steps, ran⟩ := goes
  have begun : (Context.resumeStep store meter work []).store.cell id = .suspended work := by
    cases work <;> exact found
  have still : ∀ value, Cell.inProgress ≠ .forced value := nofun
  rcases State.run_setting begun still (resume_nested work) steps with ⟨-, same⟩ | ⟨before, less, asks, waits, -⟩
  · rw [ran, ← resume_setting] at same
    have brings := of_work found ⟨steps, same⟩
    rwa [Store.set_set] at brings
  · -- From then on the computation would be under way.
    have nested := (WellNested.run context before (Context.resumeStep store meter work []) (resume_nested work)).1
    obtain ⟨more, rfl⟩ := Nat.exists_eq_add_of_lt less
    rw [Nat.add_right_comm, State.run_add, State.run_last] at ran
    generalize (Context.resumeStep store meter work []).run context before = now at *
    have starts : Moment.Starts ⟨context, now⟩ id := ⟨asks, work, waits⟩
    have order := (WellNested.run context more (now.step context) (nested.step context).1).2
    rw [ran] at order
    have inside := Nat.lt_of_lt_of_le (Store.lt_size_of_suspended waits) (nested.step context).2.1
    exact absurd (order.suspended inside unasked) (starts.not_suspended (.step _) work)

/--
What is put off comes to what its work comes to in the store as it is, unless the work asks for the computation
itself, which then needs itself.
-/
theorem to_unasked (found : store.cell id = .suspended work)
    (brings : Brings context meter store (.force id) outcome after) :
    (∃ between, State.GoesTo context (Context.resumeStep store meter work []) ⟨between, meter, .passing outcome, []⟩ ∧
        between.cell id = .suspended work ∧ after = between.set id (.ended outcome)) ∨
      (∃ asking, State.GoesTo context (Context.resumeStep store meter work []) asking ∧
        asking.control = .force id ∧ asking.store.cell id = .suspended work) ∧
        ∃ upset, outcome = .error upset ∧ upset.cause = .ok .infiniteRecursion := by
  obtain ⟨between, ⟨steps, ran⟩, rfl⟩ := brings.to_work found
  have begun : (Context.resumeStep store meter work []).store.cell id = .suspended work := by
    cases work <;> exact found
  have still : ∀ value, Cell.inProgress ≠ .forced value := nofun
  rw [resume_setting] at ran
  -- Either the work never asked for the computation, or there is a first moment at which it did.
  rcases State.run_setting begun still (resume_nested work) steps with ⟨waits, same⟩ | ⟨before, less, asks, waits, same⟩
  · left
    generalize reached : (Context.resumeStep store meter work []).run context steps = last at waits same
    obtain ⟨between, level, control, stack⟩ := last
    obtain ⟨rfl, rfl, rfl, rfl⟩ := State.mk.inj (ran.symm.trans same)
    exact ⟨between, ⟨steps, reached⟩, waits, Store.set_set ..⟩
  · right
    refine ⟨⟨_, ⟨before, rfl⟩, asks, waits⟩, ?_⟩
    -- At that moment the computation is under way in the run of the outcome, so that it fails.
    have failed : (((Context.resumeStep store meter work []).setting id .inProgress).run context (before + 1)).control =
        .fail .infiniteRecursion := by
      rw [State.run_last, same]
      generalize (Context.resumeStep store meter work []).run context before = now at asks waits
      obtain ⟨store, level, control, stack⟩ := now
      obtain rfl : control = .force id := asks
      have started := Store.cell_set_self (Store.lt_size_of_suspended waits) .inProgress
      exact congrArg State.control (State.step_force_inProgress started)
    exact State.cause_of_fail ran failed

end Brings

end LazyConfig
