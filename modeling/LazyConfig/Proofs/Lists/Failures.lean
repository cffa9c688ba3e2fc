import LazyConfig.Proofs.Lists.Reading
import LazyConfig.Proofs.Machine.Outcomes

/-!
Steps along lists that go wrong. The right part that went wrong is dropped from the position, so that a host that goes on
gets what is behind it; a host that starts again from in front of it finds the same failure.
-/

namespace LazyConfig

section

variable (context : Context) (meter : DepthMeter)

/-- A walk passes no element before it is at a right part, with others behind that. -/
inductive ComesTo : Store → Cursor → ThunkId → List ThunkId → Store → Prop
  | here {store : Store} {front : LazyList} {right : ThunkId} {pending : List ThunkId} (used : front.UsedUp) :
    ComesTo store ⟨front, right :: pending⟩ right pending store
  | concat {store after : Store} {left : LazyList} {other right : ThunkId} {pending rest : List ThunkId}
    (further : ComesTo store ⟨left, other :: pending⟩ right rest after) :
    ComesTo store ⟨.concat left other, pending⟩ right rest after
  | cross {store between after : Store} {front items : LazyList} {other right : ThunkId}
    {pending rest : List ThunkId} (used : front.UsedUp)
    (forces : ForcesTo context meter store other (.list items) between)
    (further : ComesTo between ⟨items, pending⟩ right rest after) :
    ComesTo store ⟨front, other :: pending⟩ right rest after

/-- A right part goes wrong, or it is no list. -/
inductive Breaks (store : Store) (right : ThunkId) : Upset → Store → Prop
  | fails {failure : Upset} {after : Store} (fails : FailsWith context meter store right failure after) :
    Breaks store right failure after
  | noList {value : Value} {after : Store} (forces : ForcesTo context meter store right value after)
    (other : value.kind ≠ .list) : Breaks store right (.fault (.notAList .concatRight value.kind)) after

end

variable {context : Context} {meter : DepthMeter} {store middle after later : Store} {cursor : Cursor}
  {right : ThunkId} {rest left : List ThunkId} {failure : Upset}

/-- A step that goes wrong comes to a right part that does, and leaves those behind it. -/
theorem Turn.breaks (turn : Turn context meter store cursor (.upset failure left) after) :
    ∃ right middle, ComesTo context meter store cursor right left middle ∧
      Breaks context meter middle right failure after := by
  -- The induction is on steps of all sorts, of which only those that go wrong are meant.
  generalize reached : Stop.upset failure left = stop at turn
  induction turn with
  | elem found | int more | finished used => cases reached
  | concat turn ih =>
    obtain ⟨right, middle, comes, breaks⟩ := ih reached
    exact ⟨right, middle, .concat comes, breaks⟩
  | cross used forces turn ih =>
    obtain ⟨right, middle, comes, breaks⟩ := ih reached
    exact ⟨right, middle, .cross used forces comes, breaks⟩
  | fails used fails =>
    cases reached
    exact ⟨_, _, .here used, .fails fails⟩
  | noList used forces other =>
    cases reached
    exact ⟨_, _, .here used, .noList forces other⟩

namespace ComesTo

/-- A walk to a right part takes no computation back. -/
theorem precedes (comes : ComesTo context meter store cursor right rest after) : store.Precedes after := by
  induction comes with
  | here used => exact .refl _
  | concat further ih => exact ih
  | cross used forces further ih => exact forces.forced.2.trans ih

/-- A walk to a right part stays in the store, with the right parts behind it, and leaves nothing under way. -/
theorem restores (comes : ComesTo context meter store cursor right rest after) (closed : store.Closed)
    (inside : cursor.Within store.cells.size) :
    after.Closed ∧ Inside after.cells.size (right :: rest) ∧ (store.Idle → after.Idle) := by
  induction comes with
  | here used => exact ⟨closed, inside.2, id⟩
  | concat further ih =>
    -- The right part of the join is one of those that wait from here on.
    obtain ⟨⟨front, other⟩, pending⟩ := inside
    exact ih closed ⟨front, List.forall_mem_cons.mpr ⟨other, pending⟩⟩
  | @cross store between after front items other right pending rest used forces further ih =>
    have brings : Brings context meter store (.force other) (.ok (.list items)) between := forces
    obtain ⟨found, order⟩ := forces.forced
    obtain ⟨there, others⟩ := List.forall_mem_cons.mp inside.2
    have middle := brings.closed closed there
    -- The list that the right part is evaluated to is kept in the store, which refers to itself only.
    have own := middle other (Store.lt_size_of_cell found nofun)
    rw [found] at own
    obtain ⟨last, members, quiet⟩ := ih middle ⟨own, Inside.grow order.1 others⟩
    exact ⟨last, members, fun idle => quiet (brings.idle closed idle there)⟩

/-- Where a right part goes wrong without delay, a walk that has come to it does so again. -/
theorem again (comes : ComesTo context meter store cursor right rest middle) (order : middle.Precedes later)
    {program : Context} {level : DepthMeter} (breaks : Breaks program level later right failure later) :
    Turn program level later cursor (.upset failure rest) later := by
  induction comes with
  | here used =>
    cases breaks with
    | fails fails => exact .fails used fails
    | noList forces other => exact .noList used forces other
  | concat further ih => exact .concat (ih order breaks)
  | cross used forces further ih =>
    -- The right parts on the way are evaluated already.
    have found := (further.precedes.trans order).forced forces.forced.1
    exact .cross used (.of_forced found) (ih order breaks)

end ComesTo

/-- Behind a right part that goes wrong, no computation is taken back, and the store refers to itself only. -/
theorem Breaks.keeps (breaks : Breaks context meter store right failure after) (closed : store.Closed)
    (inside : right < store.cells.size) : store.Precedes after ∧ after.Closed := by
  -- Both ways of going wrong are found out by one evaluation of the right part.
  have kept {outcome : Outcome} (brings : Brings context meter store (.force right) outcome after) :
      store.Precedes after ∧ after.Closed := ⟨brings.precedes, brings.closed closed inside⟩
  cases breaks with
  | fails fails => exact @kept (.error _) fails
  | noList forces other => exact @kept (.ok _) forces

/-- What has gone wrong does so again without delay, in every later store and for everyone. -/
theorem Breaks.again (breaks : Breaks context meter store right failure after)
    (quiet : store.cell right ≠ .inProgress) (order : after.Precedes later) (program : Context) (level : DepthMeter) :
    Breaks program level later right (.error failure.remembered) later := by
  cases breaks with
  | fails fails =>
    -- The failure was kept when it came up.
    have brings : Brings context meter store (.force right) (.error failure) after := fails
    have kept : later.cell right = .failed failure.remembered := order.ended (brings.ended quiet)
    exact .fails (.step (State.step_force_failed kept) (.refl _))
  | noList forces other =>
    exact .noList (.of_forced (order.forced forces.forced.1)) other

/-- What a step along a list that goes wrong leaves to the host. -/
structure LeavesBehind (evaluator : Evaluator) (store : Store) (cursor : Cursor) (failure : Upset) (left : Cursor)
    (after : Store) : Prop where
  /-- The right part that went wrong is dropped, and all those behind it are left. -/
  drops : ∃ right rest middle, ComesTo evaluator.context evaluator.ground store cursor right rest middle ∧
    Breaks evaluator.context evaluator.ground middle right failure after ∧ left = .before rest
  /-- A further step comes to what is first in the list of what is left. -/
  goesOn : Answers (evaluator.next · left after) fun reply =>
    Follows evaluator.context evaluator.ground after left.rest [] reply.result reply.store
  /-- When nothing is left, the end of the list is reported. -/
  ends : left.pending = [] → ∀ fuel, 1 ≤ fuel → evaluator.next fuel left after = some ⟨.ok none, left, after⟩
  /-- From where it began, the step goes wrong in the same way again, whoever takes it, and nothing else happens. -/
  repeats : store.Idle → ∀ (other : Evaluator) later, after.Precedes later → ∃ enough, ∀ fuel, enough ≤ fuel →
    other.next fuel cursor later = some ⟨.error (.error failure.remembered), left, later⟩

/-- Before no right parts is only the end. -/
theorem Evaluator.next_before_nil (evaluator : Evaluator) (store : Store) {fuel : Nat} (enough : 1 ≤ fuel) :
    evaluator.next fuel (.before []) store = some ⟨.ok none, .before [], store⟩ := by
  obtain ⟨more, rfl⟩ := Nat.exists_eq_add_of_le enough
  -- One step finds that nothing is left, and the host has got its answer then.
  have stepped : State.step evaluator.context (evaluator.start (.next (.before [])) store) =
      ⟨store, evaluator.ground, .done (.stepped none (.before [])), []⟩ := rfl
  rw [next, run, State.run_add, State.run_succ, stepped]
  exact congrArg (State.cursorReply? _) (State.Ended.run ⟨_, rfl⟩ more)

/--
A step along a list that goes wrong loses the right part that went wrong, and nothing else. The position is behind that
part then, so that a host that goes on gets the elements behind it, or the end of the list. From in front of the part, the
list goes wrong in the same way as often as it is tried.
-/
theorem failing_step_drops_branch (evaluator : Evaluator) {store after : Store} {cursor left : Cursor} {failure : Upset}
    {fuel : Nat} (closed : store.Closed) (within : cursor.Within store.cells.size)
    (failed : evaluator.next fuel cursor store = some ⟨.error failure, left, after⟩) :
    LeavesBehind evaluator store cursor failure left after := by
  obtain ⟨stop, last, turn, reply⟩ := Evaluator.turn_of_next closed within failed
  -- Only a right part can go wrong, and the position before it has been come to without failures.
  cases stop with
  | item element id rest | finished => cases reply
  | upset upset rest =>
    cases reply
    obtain ⟨right, middle, comes, breaks⟩ := turn.breaks
    obtain ⟨middleClosed, inside, quiet⟩ := comes.restores closed within
    obtain ⟨there, others⟩ := List.forall_mem_cons.mp inside
    obtain ⟨order, lastClosed⟩ := breaks.keeps middleClosed there
    constructor
    case drops => exact ⟨right, rest, middle, comes, breaks, rfl⟩
    case goesOn =>
      -- What is left is in the store, so that it is read as any other list.
      have left : (Cursor.before rest).Within after.cells.size := ⟨trivial, Inside.grow order.1 others⟩
      exact Evaluator.next_answers lastClosed left
    case ends =>
      rintro none fuel enough
      obtain rfl : rest = [] := none
      exact evaluator.next_before_nil after enough
    case repeats =>
      intro idle other later behind
      have again := breaks.again (quiet idle right there) behind other.context other.ground
      exact Evaluator.next_of_turn (comes.again (order.trans behind) again)

/-- The code of `1 / 0` and of `[0]`. -/
def brokenAndList : Code where
  exprs := #[.int 1, .int 0, .binary .div 0 1, .list [1]]

/-- Two right parts, of which the first goes wrong. -/
def brokenBeforeList : Store where
  cells := #[.suspended (.expr 2 {}), .suspended (.expr 3 {})]

/-- The list `[] @ 1 / 0 @ [0]` fails where it begins, and what is left of it is the element behind the failure. -/
theorem failing_step_drops_branch_brokenBeforeList :
    let evaluator : Evaluator := ⟨⟨{}, brokenAndList, {}⟩, {}⟩
    let cursor : Cursor := ⟨.concat (.concat .empty 0) 1, []⟩
    ∃ failure after, evaluator.next 20 cursor brokenBeforeList = some ⟨.error failure, .before [1], after⟩ ∧
      LeavesBehind evaluator brokenBeforeList cursor failure (.before [1]) after := by
  intro evaluator cursor
  have closed : brokenBeforeList.Closed := by
    intro id inside
    obtain rfl | rfl : id = 0 ∨ id = 1 := by
      have bound : id < 2 := inside
      omega
    · exact ⟨trivial, fun _ member => nomatch member⟩
    · exact ⟨trivial, fun _ member => nomatch member⟩
  have within : cursor.Within brokenBeforeList.cells.size := by
    exact ⟨⟨⟨trivial, by decide⟩, by decide⟩, fun _ member => nomatch member⟩
  obtain ⟨failure, after, failed⟩ : ∃ failure after,
      evaluator.next 20 cursor brokenBeforeList = some ⟨.error failure, .before [1], after⟩ := ⟨_, _, rfl⟩
  exact ⟨failure, after, failed, failing_step_drops_branch evaluator closed within failed⟩

/-- The same, when the failure has come up. -/
def listBehindBroken : Store where
  cells := #[.failed ⟨.divisionByZero, []⟩, .suspended (.expr 3 {})]

/--
When `[] @ 1 / 0 @ [0]` has failed, the position gives the element behind the failure, and so does the list that is left.
Both would fail again if nothing had been lost.
-/
theorem element_behind_failure_given :
    let evaluator : Evaluator := ⟨⟨{}, brokenAndList, {}⟩, {}⟩
    ∃ left, evaluator.next 20 ⟨.concat (.concat .empty 0) 1, []⟩ brokenBeforeList =
        some ⟨.error (.error ⟨.divisionByZero, []⟩), left, listBehindBroken⟩ ∧
      ∀ cursor ∈ [left, left.rest.cursor], ∃ id rest after,
        evaluator.next 20 cursor listBehindBroken = some ⟨.ok (some id), rest, after⟩ := by
  intro evaluator
  refine ⟨.before [1], rfl, fun cursor member => ?_⟩
  simp only [List.mem_cons, List.not_mem_nil, or_false] at member
  rcases member with rfl | rfl
  · exact ⟨2, _, _, rfl⟩
  · exact ⟨2, _, _, rfl⟩

end LazyConfig
