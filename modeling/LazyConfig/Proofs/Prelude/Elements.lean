import LazyConfig.Proofs.Machine.History
import LazyConfig.Proofs.Prelude.Calls

/-!
Elements that are put off as calls. Asking for such an element applies the function to arguments that have
not been asked for, which happens at most once, and nothing else is evaluated.
-/

namespace LazyConfig

/-- A computation that was put off with some work, whatever has become of it. -/
def Store.Begun (store : Store) (id : ThunkId) (work : Suspension) : Prop :=
  id < store.cells.size ∧ (Cell.suspended work).Precedes (store.cell id)

namespace Store.Begun

variable {store before after : Store} {id : ThunkId} {work other : Suspension}

/-- What was put off with some work was so for good. -/
theorem later (begun : before.Begun id work) (order : before.Precedes after) : after.Begun id work :=
  ⟨Nat.lt_of_lt_of_le begun.1 order.1, begun.2.trans (order.2 id begun.1)⟩

/-- A computation that is put off was put off with its work. -/
theorem of_suspended (found : store.cell id = .suspended work) : store.Begun id work :=
  ⟨Store.lt_size_of_cell found nofun, by simp [found]⟩

/-- A computation is put off with the work that it was put off with. -/
theorem waits (begun : store.Begun id work) (found : store.cell id = .suspended other) : other = work := by
  have same := begun.2
  rwa [found] at same

end Store.Begun

namespace Context

/-- Work that comes to an element, whatever else has happened before it is asked for. -/
def Fetches (context : Context) (store : Store) : Visible → Suspension → Prop
  | .thunk id, work => ∀ {after : Store} {held : ThunkId} {meter : DepthMeter}, store.Precedes after →
      after.cell held = .suspended work → meter.current < meter.limit → ∀ outcome last,
        Brings context meter after (.force held) outcome last ↔
          ∃ between, Brings context (meter.below 1) (after.set held .inProgress) (.force id) outcome between ∧
            last = between.set held (.ended outcome)
  | .int value, work => ∀ {after : Store} {held : ThunkId} {meter : DepthMeter}, store.Precedes after →
      after.cell held = .suspended work → meter.current < meter.limit →
        ∃ last, ForcesTo context meter after held (.int value) last ∧ after.Spares held last

/-- An element that is the application of a function to arguments when it is asked for. -/
structure Delays (context : Context) (store : Store) (first func : ThunkId) (args : List Operand) :
    Prop where
  begun : ∃ work, store.Begun first work
  /-- Where there are levels enough, it comes to what the application comes to. -/
  brings : ∀ {later : Store} {work : Suspension} {meter : DepthMeter} {room : Nat} {outcome : Outcome}
    {between : Store}, store.Precedes later → later.cell first = .suspended work →
    Applies context ⟨room, 0⟩ func (later.set first .inProgress) args outcome between → outcome.Fits room →
    meter.current + 1 + args.length + room ≤ meter.limit →
    Brings context meter later (.force first) outcome (between.set first (.ended outcome))
  /-- What it comes to, the application comes to, and nothing else happens. -/
  applies : ∀ {later after : Store} {work : Suspension} {meter : DepthMeter} {outcome : Outcome},
    store.Precedes later → later.cell first = .suspended work →
    Brings context meter later (.force first) outcome after → outcome.Fits meter.limit →
    ∃ between, Applies context ⟨meter.limit + 1, 0⟩ func (later.set first .inProgress) args outcome between ∧
      after = between.set first (.ended outcome)

/-- What has become of an element that is the application of a function to arguments. -/
inductive Account (context : Context) (moment later : Moment) (first func : ThunkId)
    (args : List Operand) : Prop
  /-- It has not been asked for. -/
  | waits {work : Suspension} (found : later.store.cell first = .suspended work)
  /-- It is under way. -/
  | busy (found : later.store.cell first = .inProgress)
  /--
  It was asked for at one moment in between, and it has the outcome that the application came to then,
  unless a limit of levels was reached.
  -/
  | settled {before after : Moment} {work : Suspension} {outcome : Outcome}
    (ahead : moment.Onward before) (reaches : before.Onward after) (beyond : after.Onward later)
    (asked : before.store.cell first = .suspended work)
    (applied : outcome.Fits before.state.meter.limit → ∃ between,
      Applies context ⟨before.state.meter.limit + 1, 0⟩ func (before.store.set first .inProgress) args
        outcome between ∧ after.store = between.set first (.ended outcome))
    (kept : later.store.cell first = .ended outcome)

/--
At a later moment of a session, an element stands for the application of a function to elements of other
lists, none of which is asked for but by the function.
-/
def StandsFor (context : Context) (moment later : Moment) (func : ThunkId) (elements : List Visible)
    (first : ThunkId) : Prop :=
  ∃ (start : Moment) (works : List Suspension), moment.Onward start ∧ start.Onward later ∧
    List.Forall₂ (context.Fetches start.store) elements works ∧
    context.Delays start.store first func (works.map .putOff) ∧
    context.Account start later first func (works.map .putOff)

variable {context : Context} {store : Store} {env : Env} {id : ExprId} {first func list : ThunkId}
  {args : List Operand} {cursor rest : Cursor} {element : Visible}

/-- The first element of an evaluated list, put off. -/
theorem Reads.fetches {text : String} (reads : context.Reads (.prim .head (.var text)) id)
    (binds : context.Binds env text list) (found : store.cell list = .forced (.list cursor.rest))
    (sees : store.Sees cursor (some (element, rest))) : context.Fetches store element (.expr id env) := by
  have goes {after : Store} {held : ThunkId} {meter : DepthMeter} (order : store.Precedes after)
      (waits : after.cell held = .suspended (.expr id env)) :
      State.GoesTo context ⟨after.set held .inProgress, meter, .eval id env, []⟩
        ⟨((after.set held .inProgress).reveal element).2, meter,
          .force ((after.set held .inProgress).reveal element).1, []⟩ := by
    have started := order.trans (Store.begin_precedes waits)
    exact reads.goesTo_head binds (started.forced found) (sees.later started) []
  -- An integer of a range gets a place of its own when it is asked for; any other element has one.
  cases element with
  | int value =>
    intro after held meter order waits inside
    let begun := after.set held .inProgress
    have ready : (begun.ready (.int value)).2.cell begun.cells.size = .forced (.int value) := by
      rw [Store.ready, Store.cell_alloc, if_pos rfl]
    have gives : Brings context (meter.below 1) begun (.eval id env) (.ok (.int value))
        (begun.ready (.int value)).2 := (goes order waits).trans (ForcesTo.of_forced ready)
    have brings : Brings context meter after (.force held) (.ok (.int value)) _ :=
      .of_work waits (Brings.enter inside gives)
    have added : begun.Spares held (begun.ready (.int value)).2 := .of_extends (begun.ready_extends _) rfl
    exact ⟨_, brings, ((Store.Spares.set after held _).trans added).trans (Store.Spares.set _ held _)⟩
  | thunk own =>
    intro after held meter order waits inside outcome last
    constructor
    · intro brings
      obtain ⟨between, resumed, rfl⟩ := brings.to_work waits
      have entered : Brings context meter (after.set held .inProgress) (.enter id env) outcome between := resumed
      -- The element is asked for on the way to the outcome.
      exact ⟨between, (goes order waits).rest (State.not_ended rfl) (entered.entered inside) State.hands_passing, rfl⟩
    · rintro ⟨between, brings, rfl⟩
      exact .of_work waits (Brings.enter inside ((goes order waits).trans brings))

/-- A call that is put off is the application of the function when it is asked for. -/
theorem Calls.delays (calls : context.Calls env func id args) (begun : store.Begun first (.expr id env)) :
    context.Delays store first func args := by
  refine ⟨⟨_, begun⟩, fun order waits applies fits enough => ?_, fun order waits brings fits => ?_⟩
  · obtain rfl := (begun.later order).waits waits
    exact calls.forces waits applies fits enough
  · obtain rfl := (begun.later order).waits waits
    exact calls.of_forces waits brings fits (Nat.lt_succ_self _)

/-- At every later moment of a session, an element that was put off has been applied at most once. -/
theorem Delays.account {moment later : Moment} (delays : context.Delays moment.store first func args)
    (same : moment.context = context) {work : Suspension} (found : moment.store.cell first = .suspended work)
    (nested : WellNested moment.store moment.state.stack) (onward : moment.Onward later) :
    context.Account moment later first func args := by
  subst same
  rcases onward.history nested found with still | busy | ⟨before, after, outcome, ahead, reaches, beyond, -,
    asked, brings, -, kept⟩
  · exact .waits still
  · exact .busy busy
  · exact .settled ahead reaches beyond asked
      (fun fits => delays.applies (ahead.precedes nested).2 asked brings fits) kept

end Context

end LazyConfig
