import LazyConfig.Proofs.Lists.Reading
import LazyConfig.Proofs.Lists.Sights
import LazyConfig.Proofs.Machine.Outcomes

/-!
Checked lists on their own. Each cell of a checked list takes one step along the list that is checked, and keeps
what it has come to, so that a host that walks again finds the same.
-/

namespace LazyConfig

/-! Positions of which the same is left. -/

section

variable {context : Context} {meter : DepthMeter} {store after : Store} {stop : Stop}

/-- A step from a position is one along the list of what is left there. -/
theorem Turn.to_rest {front : LazyList} {pending : List ThunkId}
    (turn : Turn context meter store ⟨front, pending⟩ stop after) :
    Turn context meter store ⟨Cursor.rest ⟨front, pending⟩, []⟩ stop after := by
  induction pending generalizing front with
  | nil => exact turn
  -- The first right part is joined to what is in front of it.
  | cons right pending ih => exact ih (.concat turn)

/-- Where the same is left, a step comes to the same. -/
theorem Turn.of_same_rest {cursor position : Cursor} (same : position.rest = cursor.rest)
    (turn : Turn context meter store cursor stop after) : Turn context meter store position stop after := by
  have whole : Turn context meter store ⟨position.rest, []⟩ stop after := same ▸ turn.to_rest
  have back := Turn.of_rest whole
  rwa [List.append_nil] at back

end

/-! The cells of a checked list. -/

variable {context : Context} {meter : DepthMeter} {store after : Store} {tail : ThunkId} {source front : LazyList}
  {elem : TypeId} {path : Path} {index : Nat}

/-- What a cell comes to, and the store then, when the step that it takes has come to something. -/
def Stop.cell (graph : TypeGraph) (elem : TypeId) (path : Path) (index : Nat) (store : Store) :
    Stop → Outcome × Store
  | .item _ id rest =>
    let (value, store) := store.checkCell graph id rest.rest elem path index
    (.ok value, store)
  | .finished => (.ok (.list .empty), store)
  | .upset failure _ => (.error failure, store)

/-- A step for a cell goes on to what the cell comes to. -/
theorem Turn.fills {cursor : Cursor} {stop : Stop} (turn : Turn context meter store cursor stop after) :
    let filled := stop.cell context.annotations.graph elem path index after
    State.GoesTo context ⟨store, meter, .advance cursor (.checkCell elem path index), []⟩
      ⟨filled.2, meter, .passing filled.1, []⟩ := by
  have goes := turn.goesTo (.checkCell elem path index) []
  cases stop with
  | item element id rest => exact goes
  | finished => exact goes
  -- The failure passes the frame of the walk.
  | upset failure left => exact goes.trans (.step rfl (.refl _))

/-- A cell comes to what a step along the list that is checked makes of it, and keeps that. -/
theorem Brings.cell_iff {outcome : Outcome}
    (waits : store.cell tail = .suspended (.checkList source elem path index)) :
    Brings context meter store (.force tail) outcome after ↔
      ∃ stop between, Turn context meter (store.set tail .inProgress) source.cursor stop between ∧
        let filled := stop.cell context.annotations.graph elem path index between
        outcome = filled.1 ∧ after = filled.2.set tail (.ended filled.1) := by
  constructor
  · intro brings
    obtain ⟨middle, resumed, kept⟩ := brings.to_work waits
    obtain ⟨steps, ran⟩ := id resumed
    -- The walk of the cell has come to an end, so that it has taken its step.
    have hands : (State.run context steps
        ⟨store.set tail .inProgress, meter, .advance source.cursor (.checkCell elem path index), []⟩).Hands := by
      rw [show State.run context steps ⟨store.set tail .inProgress, meter,
        .advance source.cursor (.checkCell elem path index), []⟩ = _ from ran]
      exact State.hands_passing
    obtain ⟨stop, between, turn⟩ := Turn.of_hands steps hands
    have whole : Brings context meter store (.force tail) _ _ := .of_work waits turn.fills
    obtain ⟨same, there⟩ := brings.unique whole
    exact ⟨stop, between, turn, same, there⟩
  · rintro ⟨stop, between, turn, rfl, rfl⟩
    exact .of_work waits turn.fills

/-! The checks of elements. -/

/-- What a check makes of an outcome: a value is checked against a type, and a failure stays as it is. -/
def Outcome.checked (context : Context) (type : TypeId) (path : Path) (outcome : Outcome) (store : Store) :
    Outcome × Store :=
  match outcome with
  | .ok value =>
    let (result, store) := store.check context.names context.annotations.graph value type path
    (result.mapError .fault, store)
  | .error failure => (.error failure, store)

/-- A check that is put off forces what it checks, checks what that comes to, and keeps the outcome. -/
theorem Brings.check_iff {given own : ThunkId} {type : TypeId} {path : Path} {outcome : Outcome}
    (waits : store.cell given = .suspended (.check own type path)) :
    Brings context meter store (.force given) outcome after ↔
      ∃ result between, Brings context meter (store.set given .inProgress) (.force own) result between ∧
        let checked := result.checked context type path between
        outcome = checked.1 ∧ after = checked.2.set given (.ended checked.1) := by
  -- The frame of the check takes the outcome of what is checked.
  have passes (result : Outcome) (between : Store) :
      State.step context ⟨between, meter, .passing result, [.ascribe type path]⟩ =
        ⟨(result.checked context type path between).2, meter,
          .passing (result.checked context type path between).1, []⟩ := by
    cases result with
    | ok value =>
      have checks : State.step context ⟨between, meter, .passing (.ok value), [.ascribe type path]⟩ =
          (let (result, store) := between.check context.names context.annotations.graph value type path
          ⟨store, meter, .ofResult result, []⟩) := rfl
      rw [checks]
      simp only [Outcome.checked]
      generalize between.check context.names context.annotations.graph value type path = answer
      obtain ⟨_ | _, _⟩ := answer <;> rfl
    | error failure => rfl
  -- The work of the check is under way inside its frame, so that the outcome of what is checked
  -- comes first.
  constructor
  · intro brings
    obtain ⟨middle, resumed, kept⟩ := brings.to_work waits
    obtain ⟨steps, ran⟩ := id resumed
    have hands : (State.run context steps
        ⟨store.set given .inProgress, meter, .force own, [.ascribe type path]⟩).Hands := by
      rw [show State.run context steps ⟨store.set given .inProgress, meter, .force own,
        [.ascribe type path]⟩ = _ from ran]
      exact State.hands_passing
    obtain ⟨result, between, forces, -⟩ := brings_then hands
    have whole : Brings context meter store (.force given) _ _ :=
      .of_work waits ((forces.above _).trans (.step (passes result between) (.refl _)))
    obtain ⟨same, there⟩ := brings.unique whole
    exact ⟨result, between, forces, same, there⟩
  · rintro ⟨result, between, forces, rfl, rfl⟩
    exact .of_work waits ((forces.above _).trans (.step (passes result between) (.refl _)))
/-! Steps along a checked list. -/

/-- A step along a checked list, for a step along the list that is checked. -/
inductive CellStep (graph : TypeGraph) (elem : TypeId) (path : Path) (index : Nat) (tail : ThunkId)
    (between : Store) : Stop → Stop → Store → Prop
  /-- The element is checked, unless it may be anything, and the cell for the next one is put off. -/
  | item {element : Visible} {id checked next : ThunkId} {rest : Cursor} {middle last : Store}
    (wraps : between.wrap graph id elem (path.index index) = (checked, middle))
    (puts : middle.suspend (.checkList rest.rest elem path (index + 1)) = (next, last)) :
    CellStep graph elem path index tail between (.item element id rest)
      (.item (.thunk checked) checked ⟨.elems #[checked] 1, [next]⟩)
      (last.set tail (.forced (.list (.concat (.ofThunks [checked]) next))))
  | finished :
    CellStep graph elem path index tail between .finished .finished (between.set tail (.forced (.list .empty)))
  /-- Nothing is left behind a cell that has failed. -/
  | upset (failure : Upset) (left : List ThunkId) :
    CellStep graph elem path index tail between (.upset failure left) (.upset failure [])
      (between.set tail (.failed failure.remembered))

/-- For each step along the list that is checked there is one along the checked list. -/
theorem Turn.cell {stop : Stop} {between : Store} (used : front.UsedUp)
    (waits : store.cell tail = .suspended (.checkList source elem path index))
    (turn : Turn context meter (store.set tail .inProgress) source.cursor stop between) :
    ∃ given after, Turn context meter store ⟨front, [tail]⟩ given after ∧
      CellStep context.annotations.graph elem path index tail between stop given after := by
  -- The cell is asked for, and what it has come to is walked along.
  have brings {outcome : Outcome} {after : Store} (same : stop.cell context.annotations.graph elem path index between =
      (outcome, after)) : Brings context meter store (.force tail) outcome (after.set tail (.ended outcome)) := by
    refine (Brings.cell_iff waits).mpr ⟨stop, between, turn, ?_⟩
    rw [same]
    exact ⟨rfl, rfl⟩
  cases stop with
  | item element id rest =>
    have forces : ForcesTo context meter store tail (.list (.concat (.ofThunks [_]) _)) _ := brings rfl
    exact ⟨_, _, .cross used forces (.concat (.elem rfl)), .item rfl rfl⟩
  | finished =>
    have forces : ForcesTo context meter store tail (.list .empty) _ := brings rfl
    exact ⟨_, _, .cross used forces (.finished LazyList.empty_usedUp), .finished⟩
  | upset failure left =>
    have fails : FailsWith context meter store tail failure _ := brings rfl
    exact ⟨_, _, .fails used fails, .upset failure left⟩

/-- For each step along a checked list there is one along the list that is checked. -/
theorem Turn.of_cell {given : Stop} (used : front.UsedUp)
    (waits : store.cell tail = .suspended (.checkList source elem path index))
    (turn : Turn context meter store ⟨front, [tail]⟩ given after) :
    ∃ stop between, Turn context meter (store.set tail .inProgress) source.cursor stop between ∧
      CellStep context.annotations.graph elem path index tail between stop given after := by
  -- However the step goes, the cell has come to something, so that it has taken a step.
  obtain ⟨outcome, middle, brings⟩ : ∃ outcome middle, Brings context meter store (.force tail) outcome middle := by
    cases turn.crosses used with
    | list forces _ => exact ⟨.ok _, _, forces⟩
    | fails fails => exact ⟨.error _, _, fails⟩
    | noList forces _ => exact ⟨.ok _, _, forces⟩
  obtain ⟨stop, between, own, -⟩ := (Brings.cell_iff waits).mp brings
  obtain ⟨other, last, also, cell⟩ := own.cell used waits
  obtain ⟨rfl, rfl⟩ := turn.unique also
  exact ⟨stop, between, own, cell⟩

/-! What is left of a checked list. -/

/-- What is left of a checked list: the cell for the next element, behind elements that are passed, or nothing. -/
inductive Store.Continues (store : Store) (elem : TypeId) (path : Path) (index : Nat) : LazyList → Prop
  | cell {front source : LazyList} {tail : ThunkId} (used : front.UsedUp)
    (waits : store.cell tail = .suspended (.checkList source elem path index)) :
    store.Continues elem path index (.concat front tail)
  | nothing : store.Continues elem path index .empty

/-- What a later walk comes to where a step has come to something. -/
def Stop.again : Stop → Stop
  | .upset failure left => .upset (.error failure.remembered) left
  | stop => stop

namespace CellStep

variable {graph : TypeGraph} {between : Store} {stop given : Stop}

/-- No computation is lost in a step. -/
theorem size_le (cell : CellStep graph elem path index tail between stop given after) :
    between.cells.size ≤ after.cells.size := by
  cases cell with
  | @item _ id checked next rest middle last wraps puts =>
    have wrapped := (between.wrap_extends graph id elem (path.index index)).1
    have put := (middle.suspend_extends (.checkList rest.rest elem path (index + 1))).1
    rw [wraps] at wrapped
    rw [puts] at put
    exact (last.set_size ..).symm ▸ Nat.le_trans wrapped put
  | finished | upset => exact Nat.le_of_eq (Store.set_size ..).symm

/-- Behind a step, the next cell is left, or nothing. -/
theorem continues (cell : CellStep graph elem path index tail between stop given after)
    (inside : tail < between.cells.size) :
    after.Continues elem path (index + 1) (given.reply after).cursor.rest := by
  cases cell with
  | @item _ id checked next rest middle last wraps puts =>
    have size := (between.wrap_extends graph id elem (path.index index)).1
    rw [wraps] at size
    -- The next cell is new, so that it is another one than the cell that is settled.
    obtain ⟨rfl, rfl⟩ : middle.cells.size = next ∧ (middle.suspend _).2 = last := Prod.mk.inj puts
    have apart : middle.cells.size ≠ tail := Nat.ne_of_gt (Nat.lt_of_lt_of_le inside size)
    have used : (LazyList.elems #[checked] 1).UsedUp := rfl
    have waits := middle.suspend_cell (.checkList rest.rest elem path (index + 1))
    exact .cell used ((Store.cell_set_of_ne apart _).trans waits)
  | finished | upset => exact .nothing

/-- What a cell has come to is found there by everyone later. -/
theorem again (cell : CellStep graph elem path index tail between stop given after)
    (inside : tail < between.cells.size) (used : front.UsedUp) {final : Store} (order : after.Precedes final)
    (context : Context) (meter : DepthMeter) : Turn context meter final ⟨front, [tail]⟩ given.again final := by
  have size := cell.size_le
  -- Every cell has come to something, and a later store keeps that.
  cases cell with
  | item wraps puts =>
    rw [Store.set_size] at size
    have found := order.forced (Store.cell_set_self (Nat.lt_of_lt_of_le inside size) _)
    exact .cross used (.of_forced found) (.concat (.elem rfl))
  | finished =>
    have found := order.forced (Store.cell_set_self inside _)
    exact .cross used (.of_forced found) (.finished LazyList.empty_usedUp)
  | upset failure left =>
    have found : final.cell tail = .failed failure.remembered :=
      @Store.Precedes.ended _ _ order tail (.error failure) (Store.cell_set_self inside _)
    exact .fails used (.step (State.step_force_failed found) (.refl _))

end CellStep

/-! Walks of a host. -/

/-- What a later step gives where a step has given something: a failure is seen as it was kept. -/
def recalled (result : Except Upset (Option ThunkId)) : Except Upset (Option ThunkId) :=
  result.mapError fun failure => .error failure.remembered

theorem Stop.again_reply (stop : Stop) (first last : Store) :
    stop.again.reply last = ⟨recalled (stop.reply first).result, (stop.reply first).cursor, last⟩ := by
  cases stop <;> rfl

namespace Evaluator

/-- A host takes steps along a list, whatever they give. -/
inductive Walks (evaluator : Evaluator) :
    Store → Cursor → List (Except Upset (Option ThunkId)) → Cursor → Store → Prop
  | none {store : Store} {cursor : Cursor} : evaluator.Walks store cursor [] cursor store
  | next {store middle after : Store} {cursor rest last : Cursor} {result : Except Upset (Option ThunkId)}
    {results : List (Except Upset (Option ThunkId))} {fuel : Nat}
    (here : evaluator.next fuel cursor store = some ⟨result, rest, middle⟩)
    (others : evaluator.Walks middle rest results last after) :
    evaluator.Walks store cursor (result :: results) last after

variable {evaluator : Evaluator} {middle : Store} {cursor rest last : Cursor} {fuel : Nat}
  {result : Except Upset (Option ThunkId)} {results : List (Except Upset (Option ThunkId))}

/-- The step that a host has got an answer to. -/
theorem turn_of_answer (closed : store.Closed) (within : cursor.Within store.cells.size)
    (replied : evaluator.next fuel cursor store = some ⟨result, rest, middle⟩) :
    ∃ stop, Turn evaluator.context evaluator.ground store cursor stop middle ∧
      stop.reply middle = ⟨result, rest, middle⟩ := by
  obtain ⟨stop, after, turn, reply⟩ := turn_of_next closed within replied
  cases stop <;> cases reply <;> exact ⟨_, turn, rfl⟩

/-- A step along a list is one that a host gets an answer to. -/
theorem answer_of_turn {stop : Stop} (turn : Turn evaluator.context evaluator.ground store cursor stop middle) :
    ∃ fuel, evaluator.next fuel cursor store =
      some ⟨(stop.reply middle).result, (stop.reply middle).cursor, middle⟩ := by
  obtain ⟨fuel, enough⟩ := next_of_turn turn
  refine ⟨fuel, (enough fuel (Nat.le_refl _)).trans ?_⟩
  cases stop <;> rfl

/-- Behind an answer that is no failure, the position is in the store, which refers to itself only. -/
theorem next_within (closed : store.Closed) (within : cursor.Within store.cells.size)
    (replied : evaluator.next fuel cursor store = some ⟨result, rest, middle⟩)
    (left : rest.pending = [] ∨ ∃ item, result = .ok item) :
    middle.Closed ∧ rest.Within middle.cells.size := by
  obtain ⟨stop, turn, reply⟩ := turn_of_answer closed within replied
  obtain ⟨nextClosed, items⟩ := turn.closed closed within
  refine ⟨nextClosed, ?_⟩
  -- The position is behind an element, at the end, or behind a failure with nothing left.
  cases stop with
  | item element id ahead =>
    cases reply
    exact items element id rest rfl
  | finished =>
    cases reply
    exact ⟨trivial, nofun⟩
  | upset failure behind =>
    cases reply
    rcases left with none | ⟨item, same⟩
    · exact ⟨trivial, none ▸ nofun⟩
    · cases same

/-- A step along what is left of a checked list leaves what is left of it, and is found as it was by everyone later. -/
theorem next_continues (closed : store.Closed) (within : cursor.Within store.cells.size)
    (left : store.Continues elem path index cursor.rest)
    (replied : evaluator.next fuel cursor store = some ⟨result, rest, middle⟩) :
    middle.Continues elem path (index + 1) rest.rest ∧ (rest.pending = [] ∨ ∃ item, result = .ok item) ∧
      ∀ (anyone : Evaluator) final, middle.Precedes final → ∀ position, position.rest = cursor.rest →
        ∃ fuel, anyone.next fuel position final = some ⟨recalled result, rest, final⟩ := by
  obtain ⟨given, turn, reply⟩ := turn_of_answer closed within replied
  -- Everyone finds the step again, whatever the position is that has the same left.
  have found (again : Cursor) (same : again.rest = cursor.rest)
      (repeats : ∀ final, middle.Precedes final → ∀ (context : Context) meter,
        Turn context meter final again given.again final) (anyone : Evaluator) (final : Store)
      (order : middle.Precedes final) (position : Cursor) (alike : position.rest = cursor.rest) :
      ∃ fuel, anyone.next fuel position final = some ⟨recalled result, rest, final⟩ := by
    have turn := repeats final order anyone.context anyone.ground
    obtain ⟨fuel, enough⟩ := next_of_turn (turn.of_same_rest (alike.trans same.symm))
    have answer := given.again_reply middle final
    rw [reply] at answer
    exact ⟨fuel, (enough fuel (Nat.le_refl _)).trans (congrArg some answer)⟩
  -- Of a checked list either one cell is left, which waits, or nothing.
  generalize shape : cursor.rest = whole at left
  cases left with
  | @cell front source tail used waits =>
    have here : Turn evaluator.context evaluator.ground store ⟨front, [tail]⟩ given middle :=
      turn.of_same_rest shape.symm
    obtain ⟨stop, between, own, cell⟩ := here.of_cell used waits
    have inside : tail < between.cells.size := by
      have order := own.precedes.1
      rw [Store.set_size] at order
      exact Nat.lt_of_lt_of_le (Store.lt_size_of_cell waits nofun) order
    have continues := cell.continues inside
    rw [reply] at continues
    refine ⟨continues, ?_, shape ▸ found ⟨front, [tail]⟩ shape.symm fun final order context meter =>
      cell.again inside used order context meter⟩
    cases cell with
    | item => exact .inr ⟨_, (congrArg CursorReply.result reply).symm⟩
    | finished | upset => exact .inl (congrArg (fun reply => reply.cursor.pending) reply).symm
  | nothing =>
    have ends : Turn evaluator.context evaluator.ground store ⟨.empty, []⟩ .finished store :=
      .finished LazyList.empty_usedUp
    have here : Turn evaluator.context evaluator.ground store ⟨.empty, []⟩ given middle :=
      turn.of_same_rest shape.symm
    obtain ⟨rfl, rfl⟩ := here.unique ends
    have again := found ⟨.empty, []⟩ shape.symm fun _ _ _ _ => .finished LazyList.empty_usedUp
    cases reply
    exact ⟨.nothing, .inr ⟨_, rfl⟩, shape ▸ again⟩

/-- Steps along a checked list take no computation back, and lead to what is left of it. -/
theorem Walks.continues (walks : evaluator.Walks store cursor results last after) (closed : store.Closed)
    (within : cursor.Within store.cells.size) (left : store.Continues elem path index cursor.rest) :
    store.Precedes after ∧ after.Closed ∧ last.Within after.cells.size ∧
      ∃ index, after.Continues elem path index last.rest := by
  induction walks generalizing index with
  | none => exact ⟨.refl _, closed, within, index, left⟩
  | next here others ih =>
    obtain ⟨remains, goes, -⟩ := next_continues closed within left here
    obtain ⟨nextClosed, nextWithin⟩ := next_within closed within here goes
    obtain ⟨order, lastly⟩ := ih nextClosed nextWithin remains
    obtain ⟨stop, turn, -⟩ := turn_of_answer closed within here
    exact ⟨turn.precedes.trans order, lastly⟩

/-- Nothing is left of a checked list behind a step that fails. -/
theorem nothing_behind_failure {failure : Upset} (closed : store.Closed) (within : cursor.Within store.cells.size)
    (left : store.Continues elem path index cursor.rest)
    (failed : evaluator.next fuel cursor store = some ⟨.error failure, rest, middle⟩) : rest = .before [] := by
  obtain ⟨-, none | ⟨item, same⟩, -⟩ := next_continues closed within left failed
  · obtain ⟨stop, -, reply⟩ := turn_of_answer closed within failed
    cases stop with
    | item | finished => cases reply
    | upset =>
      cases reply
      exact congrArg Cursor.before none
  · cases same

/-- Walking again along what was left of a checked list gives the same, to everyone and without changing anything. -/
theorem Walks.again (walks : evaluator.Walks store cursor results last after) (closed : store.Closed)
    (within : cursor.Within store.cells.size) (left : store.Continues elem path index cursor.rest)
    (anyone : Evaluator) {final : Store} (order : after.Precedes final) {position : Cursor}
    (same : position.rest = cursor.rest) :
    ∃ place, anyone.Walks final position (results.map recalled) place final := by
  induction walks generalizing index position with
  | none => exact ⟨position, .none⟩
  | next here others ih =>
    obtain ⟨remains, goes, repeats⟩ := next_continues closed within left here
    obtain ⟨nextClosed, nextWithin⟩ := next_within closed within here goes
    obtain ⟨place, again⟩ := ih nextClosed nextWithin remains order rfl
    -- The first step is found in the store after all of them.
    obtain ⟨fuel, first⟩ := repeats anyone final
      ((others.continues nextClosed nextWithin remains).1.trans order) position same
    exact ⟨place, .next first again⟩

end Evaluator

end LazyConfig
