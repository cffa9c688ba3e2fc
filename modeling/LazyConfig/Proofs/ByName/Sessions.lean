import LazyConfig.Proofs.ByName.Adequacy
import LazyConfig.Proofs.ByName.Unwinding
import LazyConfig.Proofs.Machine.Exits

/-!
Sessions about one program without functions of the host. Whatever the host asks for, and however it
ends, the computations of the store are where the promises of some meaning lead.
-/

namespace LazyConfig

/-! Sessions without functions of the host. -/

/-- A value that is no function of the host. -/
def Value.HostFree : Value → Prop
  | .host _ => False
  | _ => True

/-- The host hands over none of its functions with a request. -/
def Request.HostFree : Request → Prop
  | .apply func _ | .call func _ => func.HostFree
  | .deepen value => value.HostFree
  | .operate _ left right | .equal left right => left.HostFree ∧ right.HostFree
  | _ => True

/-- The host hands over none of its functions with a preparation. -/
def Preparation.HostFree : Preparation → Prop
  | .ready value | .check _ value _ => value.HostFree
  | _ => True

/--
The moments of sessions about one program without functions of the host. Everything that the host hands
over is made of computations of the session.
-/
inductive Moment.HostFree : Moment → Prop
  | first (evaluator : Evaluator) {request : Request} (asked : request.Within .all 0)
    (free : request.HostFree) : HostFree ⟨evaluator.context, evaluator.start request {}⟩
  | step {moment : Moment} (reached : HostFree moment) :
    HostFree ⟨moment.context, moment.state.step moment.context⟩
  | request {moment : Moment} {ending : Ending} (reached : HostFree moment)
    (ended : moment.state.ending? = some ending) {evaluator : Evaluator}
    (same : evaluator.context = moment.context) {request : Request}
    (asked : request.Within .all moment.store.cells.size) (free : request.HostFree) :
    HostFree ⟨evaluator.context, evaluator.start request moment.store⟩
  | prepare {moment : Moment} {ending : Ending} (reached : HostFree moment)
    (ended : moment.state.ending? = some ending) {action : Preparation}
    (same : action.Asks fun evaluator => evaluator.context = moment.context)
    (asked : action.Within .all moment.store.cells.size) (free : action.HostFree) :
    HostFree ⟨moment.context, { moment.state with store := action.apply moment.store }⟩

/-- Any number of steps leads to a moment of a session without functions of the host. -/
theorem Moment.HostFree.run {moment : Moment} (reached : moment.HostFree) (steps : Nat) :
    HostFree ⟨moment.context, moment.state.run moment.context steps⟩ := by
  induction steps with
  | zero => exact reached
  | succ steps ih =>
    rw [State.run_last]
    exact ih.step

namespace ByName

/-! What is made of computations with meanings stands for something. -/

section Meanings

variable {meaning : Meaning}

/-- A computation that is there has a meaning. -/
theorem Stands.exists {id : ThunkId} (inside : id < meaning.size) :
    ∃ promise, Stands meaning id promise :=
  ⟨meaning[id], Array.getElem?_eq_getElem inside⟩

/-- Computations that are there have meanings. -/
theorem AllStand.exists {ids : List ThunkId} (inside : Inside meaning.size ids) :
    ∃ promises, AllStand meaning ids promises := by
  induction ids with
  | nil => exact ⟨[], .nil⟩
  | cons id rest ih =>
    obtain ⟨first, others⟩ := List.forall_mem_cons.mp inside
    obtain ⟨promise, stands⟩ := Stands.exists first
    obtain ⟨promises, stand⟩ := ih others
    exact ⟨promise :: promises, .cons stands stand⟩

/-- Entries whose computations are there stand for entries. -/
theorem EntriesStand.exists {Key : Type} {entries : List (Key × ThunkId)}
    (inside : ∀ entry ∈ entries, entry.2 < meaning.size) :
    ∃ named, EntriesStand meaning entries named := by
  -- The keys stay, and each computation has a meaning of its own.
  obtain ⟨promises, stand⟩ := AllStand.exists (List.forall_mem_map.mpr inside)
  induction entries generalizing promises with
  | nil => exact ⟨[], .nil⟩
  | cons entry rest ih =>
    obtain _ | ⟨stands, stand⟩ := stand
    obtain ⟨named, agree⟩ := ih (List.forall_mem_cons.mp inside).2 _ stand
    exact ⟨(entry.1, _) :: named, .cons ⟨rfl, stands⟩ agree⟩

/-- A list whose parts are there stands for a sequence of stretches. -/
theorem ListMirrors.exists {list : LazyList} (within : list.Within meaning.size) :
    ∃ segments, ListMirrors meaning list segments := by
  induction list with
  | elems items start =>
    -- Only the elements from the start position on count, and they are among all elements.
    have ahead : Inside meaning.size (items.toList.drop start) :=
      fun id member => within id (List.mem_of_mem_drop member)
    obtain ⟨promises, stand⟩ := AllStand.exists ahead
    exact ⟨_, promises, stand, rfl⟩
  | range next stop => exact ⟨_, rfl⟩
  | concat left right ih =>
    obtain ⟨front, listed⟩ := ih within.1
    obtain ⟨promise, stands⟩ := Stands.exists within.2
    exact ⟨_, front, promise, listed, stands, rfl⟩

/-- A position in a list whose parts are there stands for what comes after it. -/
theorem CursorMirrors.exists {cursor : Cursor} (within : cursor.Within meaning.size) :
    ∃ segments, CursorMirrors meaning cursor segments := by
  obtain ⟨front, listed⟩ := ListMirrors.exists within.1
  obtain ⟨promises, stand⟩ := AllStand.exists within.2
  exact ⟨_, front, promises, listed, stand, rfl⟩

/-- A value whose parts are there stands for a value, unless it is a function of the host. -/
theorem ValueMirrors.exists {value : LazyConfig.Value} (within : value.Within .all meaning.size)
    (free : value.HostFree) : ∃ named, ValueMirrors meaning value named := by
  -- Every computation in the store has a meaning, so each part of the value has one.
  cases value with
  | int value => exact ⟨_, .int value⟩
  | float value => exact ⟨_, .float value⟩
  | bool value => exact ⟨_, .bool value⟩
  | str text => exact ⟨_, .str text⟩
  | list items =>
    obtain ⟨segments, listed⟩ := ListMirrors.exists within
    exact ⟨_, .list listed⟩
  | record record =>
    obtain ⟨fields, entries⟩ := EntriesStand.exists within
    exact ⟨_, .record entries⟩
  | closure function =>
    obtain ⟨named, bound⟩ := EntriesStand.exists within.2
    exact ⟨_, .closure bound⟩
  | builtin op held =>
    obtain ⟨promises, stand⟩ := AllStand.exists within
    exact ⟨_, .builtin stand⟩
  | host function => exact free.elim

end Meanings

section Session

variable {context : Context} {meaning : Meaning} {store : Store}

/-- Where nothing is under way, it does not matter what a stack waits for. -/
theorem Heap.of_idle {busy : Busy} (heap : Heap context busy meaning store) (idle : store.Idle) :
    Heap context ⟨[], busy.refused⟩ meaning store := by
  refine ⟨heap.size, fun {id promise} stands => ?_⟩
  have inside : id < store.cells.size := heap.size ▸ (Array.getElem?_eq_some_iff.mp stands).1
  have mirrors := heap.cells stands
  -- Only of a computation under way does it matter whether something waits for it.
  cases found : store.cell id with
  | inProgress => exact absurd found (idle id inside)
  | _ => rwa [found] at mirrors

/-- A state that stands for one by name begins a request. -/
theorem Mirrored.start {now : LazyConfig.Control} {stack : List LazyConfig.Frame} {control : Control}
    {frames : List Frame} (heap : Heap context ⟨[], True⟩ meaning store)
    (mirrors : ControlMirrors meaning now control) (waits : FramesMirror meaning stack frames)
    (limit : Nat) :
    Mirrored context True meaning ⟨store, ⟨limit, 0⟩, now, stack⟩ ⟨control, frames⟩ := by
  -- The frames of a new request wait for no computation and end no level.
  have none := waits.underway []
  have ground := waits.levels []
  have linked : Linked context meaning control [] (stack ++ []) (frames ++ []) :=
    .push waits (.nil _)
  simp only [List.append_nil] at none ground linked
  exact ⟨by rwa [none], mirrors, linked, ground.symm⟩

/-- A request whose parts are there begins in a state that is tracked. -/
theorem tracked_start (evaluator : Evaluator) {request : Request}
    (heap : Heap evaluator.context ⟨[], True⟩ meaning store)
    (asked : request.Within .all meaning.size) (free : request.HostFree) :
    Tracked evaluator.context meaning (evaluator.start request store) := by
  -- All but a walk for the host begin as they do by name.
  cases request with
  | evaluate body env =>
    obtain ⟨named, bound⟩ := EntriesStand.exists asked.2
    have waits : ∃ frames, FramesMirror meaning (Request.frames evaluator.settings (.evaluate body env))
        frames := by
      simp only [Request.frames]
      split
      · exact ⟨_, .cons .deepen .nil⟩
      · exact ⟨_, .nil⟩
    obtain ⟨frames, waits⟩ := waits
    exact .runs (.start heap (.enter bound) waits _)
  | force id =>
    obtain ⟨promise, stands⟩ := Stands.exists asked
    exact .runs (.start heap (.force stands) .nil _)
  | apply func arg =>
    obtain ⟨named, mirrors⟩ := ValueMirrors.exists asked.1 free
    obtain ⟨promise, stands⟩ := Stands.exists asked.2
    exact .runs (.start heap (.apply mirrors stands) .nil _)
  | call func args =>
    obtain ⟨named, mirrors⟩ := ValueMirrors.exists asked.1 free
    obtain ⟨promises, stand⟩ := AllStand.exists asked.2
    exact .runs (.start heap (.give mirrors) (.cons (.args stand) .nil) _)
  | deepen value =>
    obtain ⟨named, mirrors⟩ := ValueMirrors.exists asked free
    exact .runs (.start heap (.deepen (.cons mirrors .nil) mirrors) .nil _)
  | operate op left right =>
    obtain ⟨named, mirrors⟩ := ValueMirrors.exists asked.1 free.1
    obtain ⟨other, others⟩ := ValueMirrors.exists asked.2 free.2
    exact .runs (.start heap (.operate mirrors others) .nil _)
  | equal left right =>
    obtain ⟨named, mirrors⟩ := ValueMirrors.exists asked.1 free.1
    obtain ⟨other, others⟩ := ValueMirrors.exists asked.2 free.2
    have pairs : PairsMirror meaning [(left, right)] [(named, other)] := .cons ⟨mirrors, others⟩ .nil
    exact .runs (.start heap (.compare pairs) .nil _)
  | next cursor =>
    obtain ⟨segments, ahead⟩ := CursorMirrors.exists asked.2
    exact .walks heap ahead rfl

/-- A preparation whose parts are there adds computations with meanings. -/
theorem Heap.prepare (heap : Heap context ⟨[], True⟩ meaning store) {action : Preparation}
    (same : action.Asks fun evaluator => evaluator.context = context)
    (asked : action.Within .all meaning.size) (free : action.HostFree) :
    Leaves context ⟨[], True⟩ meaning (action.apply store) fun _ => True := by
  -- A meaning is there for everything that the preparation uses, and it adds meanings for what it
  -- makes.
  cases action with
  | ready value =>
    obtain ⟨named, mirrors⟩ := ValueMirrors.exists asked free
    exact (heap.ready (Heap.gives_ready named) mirrors).imp fun _ _ _ => trivial
  | suspend body env =>
    obtain ⟨named, bound⟩ := EntriesStand.exists asked.2
    exact (heap.suspend (.expr bound)).imp fun _ _ _ => trivial
  -- Only the names of the record count, which need no computations.
  | fieldsOf record => exact (heap.readyNames record.names).imp fun _ _ _ => trivial
  | mapFields func record =>
    obtain ⟨promise, stands⟩ := Stands.exists asked.1
    obtain ⟨fields, entries⟩ := EntriesStand.exists asked.2
    exact (heap.mapFields stands entries).imp fun _ _ _ => trivial
  | check evaluator value type =>
    obtain ⟨named, mirrors⟩ := ValueMirrors.exists asked free
    rw [Preparation.apply, Evaluator.check_store, show evaluator.context = context from same]
    exact (heap.check _ _ mirrors type .root).imp fun _ _ _ => trivial

/-- A request that has ended leaves a store that stands for promises, and waits for nothing. -/
theorem Tracked.of_ended {state : LazyConfig.State} (tracked : Tracked context meaning state)
    (ended : state.Ended) :
    ∃ store meter ending, state = ⟨store, meter, .done ending, []⟩ ∧
      Heap context ⟨[], True⟩ meaning store := by
  -- Only a state that is done has ended.
  cases tracked with
  | runs mirrored => exact absurd ended mirrored.unfinished
  | waits mirrored stand => exact absurd ended mirrored.unfinished
  | fails failing => exact absurd ended (LazyConfig.State.not_ended_of_raise failing.raised)
  | walks heap ahead ground =>
    obtain ⟨ending, done⟩ := ended
    cases done
  | @ended store meter ending heap => exact ⟨store, meter, ending, rfl, heap⟩

/-- At every moment of a session the store stands for promises. -/
theorem tracked_of_hostFree {moment : Moment} (reached : moment.HostFree) :
    ∃ meaning, Tracked moment.context meaning moment.state := by
  -- By induction on the session; only the beginning of a request and a preparation need an idle moment.
  induction reached with
  | @first evaluator request asked free =>
    exact ⟨#[], tracked_start evaluator (.empty evaluator.context ⟨[], True⟩) asked free⟩
  | @step moment _ ih =>
    -- The step may add computations, and with them meanings.
    obtain ⟨meaning, tracked⟩ := ih
    obtain ⟨later, -, tracked⟩ := tracked.step
    exact ⟨later, tracked⟩
  | @request moment ending _ stopped evaluator same request asked free ih =>
    -- The next request takes over the store as the one before has left it, failed or not.
    obtain ⟨context, state⟩ := moment
    obtain ⟨meaning, tracked⟩ := ih
    obtain ⟨store, meter, ending, rfl, heap⟩ :=
      tracked.of_ended (LazyConfig.State.ended_of_ending stopped)
    have inside : request.Within .all meaning.size := heap.size ▸ asked
    exact ⟨meaning, tracked_start evaluator (same ▸ heap) inside free⟩
  | @prepare moment ending _ stopped action same asked free ih =>
    obtain ⟨context, state⟩ := moment
    obtain ⟨meaning, tracked⟩ := ih
    obtain ⟨store, meter, ending, rfl, heap⟩ :=
      tracked.of_ended (LazyConfig.State.ended_of_ending stopped)
    obtain ⟨later, -, heap, -⟩ := Heap.prepare heap same (heap.size ▸ asked) free
    exact ⟨later, .ended heap⟩

/-- Where nothing is under way, every computation has come to where its promise leads. -/
theorem heap_of_hostFree {moment : Moment} (reached : moment.HostFree) (idle : moment.store.Idle) :
    ∃ meaning, Heap moment.context ⟨[], True⟩ meaning moment.store := by
  obtain ⟨meaning, tracked⟩ := tracked_of_hostFree reached
  exact ⟨meaning, tracked.heap.of_idle idle⟩

end Session

end ByName

end LazyConfig
