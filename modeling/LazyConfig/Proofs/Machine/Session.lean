import LazyConfig.Evaluator
import LazyConfig.Proofs.Machine.Progress
import Mathlib.Logic.Relation

/-!
Sessions: a host makes requests of any number of evaluators on one store. Every computation is
started at most once, and the outcome of one that has ended stays for the rest of the session.
-/

namespace LazyConfig

/-- How far a computation may have come later: it starts once, ends once, and then stays. -/
def Cell.Precedes : Cell → Cell → Prop
  | .suspended work, .suspended later => later = work
  | .suspended _, _ => True
  | .inProgress, .suspended _ => False
  | .inProgress, _ => True
  | .forced value, later => later = .forced value
  | .failed failure, later => later = .failed failure

namespace Cell.Precedes

/-- A computation may stay where it is. -/
@[simp] theorem refl (cell : Cell) : cell.Precedes cell := by
  cases cell <;> simp [Precedes]

/-- What may come of a later state may come of an earlier one. -/
theorem trans {first middle last : Cell} (left : first.Precedes middle)
    (right : middle.Precedes last) : first.Precedes last := by
  -- Settled states are fixed; the others only exclude going back.
  cases first <;> cases middle <;> cases last <;> simp_all [Precedes]

end Cell.Precedes

namespace Store

/-- A store in which every computation has come at least as far as in an earlier one. -/
def Precedes (before after : Store) : Prop :=
  before.cells.size ≤ after.cells.size ∧
    ∀ id < before.cells.size, (before.cell id).Precedes (after.cell id)

/-- Nothing needs to happen. -/
@[simp] theorem Precedes.refl (store : Store) : store.Precedes store :=
  ⟨Nat.le_refl _, fun _ _ => .refl _⟩

/-- What comes after a later store comes after an earlier one. -/
theorem Precedes.trans {first middle last : Store} (left : first.Precedes middle)
    (right : middle.Precedes last) : first.Precedes last :=
  ⟨Nat.le_trans left.1 right.1, fun id inside =>
    (left.2 id inside).trans (right.2 id (Nat.lt_of_lt_of_le inside left.1))⟩

/-- Adding computations brings none of the others further or back. -/
theorem Extends.precedes {before after : Store} (grown : before.Extends after) :
    before.Precedes after :=
  ⟨grown.1, fun id inside => by simp [grown.2 id inside]⟩

/-- A change of one computation that brings it further. -/
theorem set_precedes {store : Store} {id : ThunkId} {cell : Cell}
    (further : (store.cell id).Precedes cell) : store.Precedes (store.set id cell) := by
  refine ⟨by simp, fun other inside => ?_⟩
  by_cases same : other = id
  · subst same
    rwa [cell_set_self inside]
  · simp [cell_set_of_ne same]

end Store

/--
The frames of a stack wait for different computations, all of which are under way. This is what
keeps a settled computation from being settled again.
-/
structure WellNested (store : Store) (stack : List Frame) : Prop where
  distinct : (underway stack).Nodup
  inside : ∀ id ∈ underway stack, id < store.cells.size
  started : ∀ id ∈ underway stack, store.cell id = .inProgress

/-- Nothing waits in an empty stack. -/
theorem WellNested.nil (store : Store) : WellNested store [] :=
  ⟨.nil, nofun, nofun⟩

/-- A stack that waits for the same computations is as well nested in an extended store. -/
theorem WellNested.extend {before after : Store} {stack later : List Frame}
    (nested : WellNested before stack) (grown : before.Extends after)
    (same : underway later = underway stack) : WellNested after later where
  distinct := same ▸ nested.distinct
  inside id waited := Nat.lt_of_lt_of_le (nested.inside id (same ▸ waited)) grown.1
  started id waited := by
    rw [grown.2 id (nested.inside id (same ▸ waited))]
    exact nested.started id (same ▸ waited)

/-- A step keeps a well nested stack well nested and brings no computation back. -/
theorem WellNested.step {state : State} (context : Context)
    (nested : WellNested state.store state.stack) :
    WellNested (state.step context).store (state.step context).stack ∧
      state.store.Precedes (state.step context).store := by
  -- The three effects: nothing, a start, and an end.
  rcases state.effect context with
    ⟨grown, same⟩ | ⟨id, work, -, found, cells, waits⟩ | ⟨id, outcome, rest, top, final, cells, waits⟩
  · exact ⟨nested.extend grown same, grown.precedes⟩
  · -- A start: the computation was put off, so no frame waits for it yet.
    have inside := Store.lt_size_of_cell found (by simp)
    have unwaited : id ∉ underway state.stack := fun waited => by
      simp [nested.started id waited] at found
    rw [cells]
    refine ⟨⟨?_, ?_, ?_⟩, Store.set_precedes (by simp [found, Cell.Precedes])⟩
    · rw [waits]
      exact List.nodup_cons.mpr ⟨unwaited, nested.distinct⟩
    · intro other waited
      rw [waits, List.mem_cons] at waited
      rcases waited with rfl | waited
      · simpa using inside
      · simpa using nested.inside other waited
    · intro other waited
      rw [waits, List.mem_cons] at waited
      rcases waited with rfl | waited
      · exact Store.cell_set_self inside _
      · rw [Store.cell_set_of_ne (fun same : other = id => unwaited (same ▸ waited))]
        exact nested.started other waited
  · -- An end: the frame on top waits for the computation, and no other frame does.
    have listed : underway state.stack = id :: underway rest := by
      simp [top, underway, Frame.settles?]
    have distinct := listed ▸ nested.distinct
    have unwaited : id ∉ underway rest := (List.nodup_cons.mp distinct).1
    have inProgress : state.store.cell id = .inProgress := nested.started id (by simp [listed])
    rw [cells, waits]
    refine ⟨⟨(List.nodup_cons.mp distinct).2, ?_, ?_⟩, Store.set_precedes ?_⟩
    · intro other waited
      simpa using nested.inside other (by simp [listed, waited])
    · intro other waited
      rw [Store.cell_set_of_ne (fun same : other = id => unwaited (same ▸ waited))]
      exact nested.started other (by simp [listed, waited])
    · rcases final with ⟨value, rfl⟩ | ⟨failure, rfl⟩ <;> simp [inProgress, Cell.Precedes]

/-! Sessions. -/

/-- What a host can do to a store without evaluating anything. -/
inductive Preparation
  /-- A computation that already has a value. -/
  | ready (value : Value)
  /-- An expression that is put off. -/
  | suspend (body : ExprId) (env : Env)
  /-- The list of a record's field names. -/
  | fieldsOf (record : Record)
  /-- A function put off for every field of a record. -/
  | mapFields (func : ThunkId) (record : Record)
  /-- A check of the outermost form of a value. -/
  | check (evaluator : Evaluator) (value : Value) (type : TypeId)

/-- The store after a preparation. -/
def Preparation.apply (store : Store) : Preparation → Store
  | ready value => (store.ready value).2
  | suspend body env => (store.suspend (.expr body env)).2
  | fieldsOf record => (store.fieldsOf record).2
  | mapFields func record => (store.mapFields func record).2
  | check evaluator value type => (evaluator.check value type store).store

/-- A check for the host leaves the store that the check itself leaves. -/
theorem Evaluator.check_store (evaluator : Evaluator) (value : Value) (type : TypeId) (store : Store) :
    (evaluator.check value type store).store =
      (store.check evaluator.context.names evaluator.context.annotations.graph value type .root).2 := by
  simp only [check]
  split <;> simp_all only

/-- Preparations disturb no computation. -/
theorem Preparation.apply_extends (store : Store) (action : Preparation) :
    store.Extends (action.apply store) := by
  cases action with
  | ready value => exact store.ready_extends value
  | suspend body env => exact store.suspend_extends _
  | fieldsOf record => exact store.fieldsOf_extends record
  | mapFields func record => exact store.mapFields_extends func record
  | check evaluator value type =>
    rw [apply, Evaluator.check_store]
    exact store.check_extends _ _ value type .root

/-- A moment of a session: the program that is evaluated and how far its evaluation is. -/
structure Moment where
  context : Context
  state : State

namespace Moment

/-- The computations at a moment. -/
def store (moment : Moment) : Store :=
  moment.state.store

/-- What can come next in a session. Looking at values and computations changes nothing. -/
inductive Next : Moment → Moment → Prop
  /-- The request under way goes on by one step. -/
  | step (moment : Moment) : Next moment ⟨moment.context, moment.state.step moment.context⟩
  /-- After the end of a request, any evaluator is asked for something else. -/
  | request {moment : Moment} {ending : Ending} (ended : moment.state.ending? = some ending)
    (evaluator : Evaluator) (request : Request) :
    Next moment ⟨evaluator.context, evaluator.start request moment.store⟩
  /-- Between requests, the host prepares something. -/
  | prepare {moment : Moment} {ending : Ending} (ended : moment.state.ending? = some ending)
    (action : Preparation) :
    Next moment ⟨moment.context, { moment.state with store := action.apply moment.store }⟩

/-- The moments of all sessions, which begin with a request on any store. -/
inductive Reachable : Moment → Prop
  | first (evaluator : Evaluator) (request : Request) (store : Store) :
    Reachable ⟨evaluator.context, evaluator.start request store⟩
  | next {moment later : Moment} (reached : Reachable moment) (next : moment.Next later) :
    Reachable later

/-- A moment at which the work of a computation is begun. -/
def Starts (moment : Moment) (id : ThunkId) : Prop :=
  moment.state.control = .force id ∧ ∃ work, moment.store.cell id = .suspended work

/-- A new request waits for no computation. -/
theorem start_underway (evaluator : Evaluator) (request : Request) (store : Store) :
    underway (evaluator.start request store).stack = [] := by
  cases request with
  | evaluate body env => simp only [Evaluator.start, Request.frames]; split <;> rfl
  | _ => rfl

/-- The stack of a new request is well nested. -/
theorem start_wellNested (evaluator : Evaluator) (request : Request) (store : Store) :
    WellNested store (evaluator.start request store).stack := by
  have none := start_underway evaluator request store
  exact ⟨by simp [none], by simp [none], by simp [none]⟩

/-- What comes next keeps the stack well nested and brings no computation back. -/
theorem Next.precedes {moment later : Moment} (next : moment.Next later)
    (nested : WellNested moment.store moment.state.stack) :
    WellNested later.store later.state.stack ∧ moment.store.Precedes later.store := by
  cases next with
  | step => exact nested.step moment.context
  -- A request starts with an empty stack and the store as it was left.
  | request _ evaluator request =>
    exact ⟨start_wellNested evaluator request moment.store, .refl _⟩
  -- A preparation only adds computations, and it is made when nothing is under way.
  | prepare _ action =>
    have grown := action.apply_extends moment.store
    exact ⟨nested.extend grown rfl, grown.precedes⟩

/-- At every moment of a session the stack is well nested. -/
theorem Reachable.wellNested {moment : Moment} (reached : moment.Reachable) :
    WellNested moment.store moment.state.stack := by
  induction reached with
  | first evaluator request store => exact start_wellNested evaluator request store
  | next _ next ih => exact (next.precedes ih).1

/-- Over any part of a session, no computation goes back. -/
theorem Reachable.precedes {moment later : Moment} (reached : moment.Reachable)
    (after : Relation.ReflTransGen Next moment later) : moment.store.Precedes later.store := by
  -- The moments on the way have to be moments of the session for their stacks to be well nested.
  suffices both : later.Reachable ∧ moment.store.Precedes later.store from both.2
  induction after with
  | refl => exact ⟨reached, .refl _⟩
  | tail _ next ih => exact ⟨ih.1.next next, ih.2.trans (next.precedes ih.1.wellNested).2⟩

/-- Any number of steps of a request leads to a later moment of the session. -/
theorem reflTransGen_run (context : Context) (steps : Nat) (state : State) :
    Relation.ReflTransGen Next ⟨context, state⟩ ⟨context, state.run context steps⟩ := by
  induction steps generalizing state with
  | zero => exact .refl
  | succ steps ih =>
    simp only [State.run]
    split
    · exact .refl
    · exact .head (.step ⟨context, state⟩) (ih _)

/-- What is reached from a moment of a session is a moment of the session. -/
theorem Reachable.trans {moment later : Moment} (reached : moment.Reachable)
    (after : Relation.ReflTransGen Next moment later) : later.Reachable := by
  induction after with
  | refl => exact reached
  | tail _ next ih => exact ih.next next

/-- A computation that starts has started from then on. -/
theorem Starts.not_suspended {moment next : Moment} {id : ThunkId} (starts : moment.Starts id)
    (follows : moment.Next next) : ∀ work, next.store.cell id ≠ .suspended work := by
  obtain ⟨asked, work, found⟩ := starts
  -- Only a step can follow, since neither a request nor a preparation comes while the computation
  -- is asked for.
  intro later still
  cases follows with
  | step =>
    have inside := Store.lt_size_of_cell found (by simp)
    -- Whatever the work is, beginning it marks the computation before anything else.
    have stepped : (moment.state.step moment.context).store = moment.store.set id .inProgress := by
      obtain ⟨context, store, meter, control, stack⟩ := moment
      simp only at asked
      subst asked
      simp only [Moment.store] at found
      cases work <;> simp [State.step, Context.forceStep, Context.resumeStep, found, Moment.store]
    have started : (moment.state.step moment.context).store.cell id = .inProgress := by
      rw [stepped, Store.cell_set_self inside]
    exact Cell.noConfusion (started.symm.trans still)
  | request ended => simp [State.ending?, asked] at ended
  | prepare ended => simp [State.ending?, asked] at ended

end Moment

end LazyConfig
