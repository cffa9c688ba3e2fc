import LazyConfig.Proofs.Lists.Sequence

/-!
What a host reads off a list. Every function on lists takes steps along the list, so that its answer is one
about the elements of the list, and it has an answer whenever there is one about them.
-/

namespace LazyConfig

/-! Single steps. -/

/-- The answer to a step along a list that comes to something. -/
def Stop.reply (after : Store) : Stop → CursorReply
  | .item _ id rest => ⟨.ok (some id), rest, after⟩
  | .finished => ⟨.ok none, .before [], after⟩
  | .upset failure left => ⟨.error failure, .before left, after⟩

/-- What is said about all elements, unless a right part goes wrong before. -/
def Closing.result {α : Type} (closing : Closing) (value : α) : Except Upset α :=
  match closing with
  | .upset failure => .error failure
  | _ => .ok value

namespace Evaluator

/-- The level on which every request starts. -/
def ground (evaluator : Evaluator) : DepthMeter :=
  ⟨evaluator.settings.maxDepth, 0⟩

variable {evaluator : Evaluator} {store after : Store} {cursor : Cursor} {fuel : Nat}

/-- Where a step along a list comes to something, the host gets it for an answer. -/
theorem next_of_turn {stop : Stop}
    (turn : Turn evaluator.context evaluator.ground store cursor stop after) :
    ∃ fuel, ∀ more, fuel ≤ more → evaluator.next more cursor store = some (stop.reply after) := by
  -- The walk is for the host, which gets what is found, and nothing waits for it.
  have answered : ∃ final, State.GoesTo evaluator.context
      ⟨store, evaluator.ground, .advance cursor .report, []⟩ final ∧ final.Ended ∧
        final.cursorReply? cursor = some (stop.reply after) := by
    have goes := turn.goesTo .report []
    cases stop with
    | item element id rest => exact ⟨_, goes, ⟨_, rfl⟩, rfl⟩
    | finished => exact ⟨_, goes, ⟨_, rfl⟩, rfl⟩
    | upset failure left => exact ⟨_, goes.trans (.step rfl (.refl _)), ⟨_, rfl⟩, rfl⟩
  obtain ⟨final, ⟨fuel, reached⟩, ended, reply⟩ := answered
  refine ⟨fuel, fun more less => ?_⟩
  obtain ⟨rest, rfl⟩ := Nat.exists_eq_add_of_le less
  show (State.run evaluator.context (fuel + rest) ⟨store, evaluator.ground, .advance cursor .report, []⟩
    ).cursorReply? cursor = _
  rw [State.run_add, reached, ended.run, reply]

/-- A state in which a walk for the host starts. -/
theorem walk_within (closed : store.Closed) (within : cursor.Within store.cells.size)
    (meter : DepthMeter) : State.Within .all ⟨store, meter, .advance cursor .report, []⟩ :=
  ⟨closed, ⟨within, trivial⟩, fun _ member => nomatch member⟩

/-- The run behind an answer has ended. -/
theorem next_ended {reply : CursorReply} (replied : evaluator.next fuel cursor store = some reply) :
    (evaluator.run fuel (.next cursor) store).Ended := by
  rw [next] at replied
  generalize evaluator.run fuel (.next cursor) store = state at replied
  obtain ⟨store, meter, control, stack⟩ := state
  cases control with
  | done ending => exact ⟨ending, rfl⟩
  | _ => cases replied

/-- However much fuel there is, a step along a list has one answer. -/
theorem next_unique {more : Nat} {reply other : CursorReply} (left : evaluator.next fuel cursor store = some reply)
    (right : evaluator.next more cursor store = some other) : reply = other := by
  have same : evaluator.run fuel (.next cursor) store = evaluator.run more (.next cursor) store :=
    State.Ended.unique (next_ended left) (next_ended right)
  rw [next, same, ← next, right] at left
  exact (Option.some.inj left).symm

/-- What the host gets for an answer is what a step along the list comes to. -/
theorem turn_of_next (closed : store.Closed) (within : cursor.Within store.cells.size)
    {reply : CursorReply} (replied : evaluator.next fuel cursor store = some reply) :
    ∃ stop after, Turn evaluator.context evaluator.ground store cursor stop after ∧
      reply = stop.reply after := by
  obtain ⟨stop, after, turn⟩ :=
    Turn.of_ended fuel (walk_within closed within evaluator.ground) (next_ended replied)
  -- The step has an answer of its own, and there is only one.
  obtain ⟨enough, answers⟩ := next_of_turn turn
  exact ⟨stop, after, turn, next_unique replied (answers enough (Nat.le_refl _))⟩

end Evaluator

variable {context : Context} {meter : DepthMeter} {store middle after : Store} {cursor : Cursor}

/-- After a step the store refers to itself only, and the position is there. -/
theorem Turn.closed {stop : Stop} (turn : Turn context meter store cursor stop after)
    (closed : store.Closed) (within : cursor.Within store.cells.size) :
    after.Closed ∧ ∀ element id rest, stop = .item element id rest → rest.Within after.cells.size := by
  -- The step is part of a run of the host's walk, and runs keep everything inside the store.
  obtain ⟨steps, reached⟩ := turn.goesTo .report []
  have last := @State.Within.run context _ (Evaluator.walk_within closed within meter) steps
  rw [reached] at last
  cases stop with
  | item element id rest =>
    refine ⟨last.store, fun _ _ _ same => ?_⟩
    obtain ⟨-, -, rfl⟩ := Stop.item.inj same
    exact last.control.2.2
  | finished | upset failure left => exact ⟨last.store, nofun⟩

/-! Right parts that wait behind what is walked. -/

/-- The same, with right parts behind it. -/
def Stop.before (more : List ThunkId) : Stop → Stop
  | .item element id rest => .item element id ⟨rest.front, rest.pending ++ more⟩
  | .finished => .finished
  | .upset failure left => .upset failure (left ++ more)

/-- A step that does not come to the end is the same whatever right parts wait behind. -/
theorem Turn.before {stop : Stop} (turn : Turn context meter store cursor stop after)
    (within : stop ≠ .finished) (more : List ThunkId) :
    Turn context meter store ⟨cursor.front, cursor.pending ++ more⟩ (stop.before more) after := by
  induction turn with
  | elem found => exact .elem found
  | int further => exact .int further
  | concat turn ih => exact .concat (ih within)
  | finished used => exact absurd rfl within
  | cross used forces turn ih => exact .cross used forces (ih within)
  | fails used fails => exact .fails used fails
  | noList used forces other => exact .noList used forces other

/-- Right parts that wait behind are asked for where everything in front of them is used up. -/
theorem Turn.at_end {last stop : Stop} (turn : Turn context meter store cursor last middle)
    (ended : last = .finished) (more : List ThunkId) :
    Turn context meter store ⟨cursor.front, cursor.pending ++ more⟩ stop after ↔
      Turn context meter middle (.before more) stop after := by
  -- Where the front is not used up, both go the same way until it is; then the parts behind decide.
  induction turn with
  | elem found | int further | fails used fails | noList used forces other => cases ended
  | @concat store after left right pending stop turn ih =>
    refine ⟨fun longer => ?_, fun rest => .concat ((ih ended).mpr rest)⟩
    rw [List.cons_append] at ih
    exact (ih ended).mp longer.of_concat
  | finished used =>
    exact ⟨fun longer => longer.of_usedUp used LazyList.empty_usedUp,
      fun rest => rest.of_usedUp LazyList.empty_usedUp used⟩
  | @cross store between after front items right pending stop used forces turn ih =>
    refine ⟨fun longer => ?_, fun rest => .cross used forces ((ih ended).mpr rest)⟩
    -- The right part gives the same list again.
    cases longer.crosses used with
    | list again longer =>
      obtain ⟨same, rfl⟩ := forces.unique again
      obtain rfl := Value.list.inj same
      exact (ih ended).mp longer
    | fails fails => exact absurd fails forces.not_fails
    | noList again other =>
      obtain ⟨rfl, rfl⟩ := forces.unique again
      exact absurd rfl other

/-! What comes behind some of the elements. -/

section

variable (context : Context) (meter : DepthMeter) (store : Store) (list : LazyList)

/-- What comes behind some elements of a list: the next element, or the end of the list. -/
inductive Follows (passed : List Visible) : Except Upset (Option ThunkId) → Store → Prop
  | item {element : Visible} {id : ThunkId} {after : Store}
    (sequence : Sequence context meter store list (passed ++ [element]) .more after)
    (stands : after.Shows element id) : Follows passed (.ok (some id)) after
  | finished {after : Store} (sequence : Sequence context meter store list passed .finished after) :
    Follows passed (.ok none) after
  | upset {after : Store} {failure : Upset}
    (sequence : Sequence context meter store list passed (.upset failure) after) :
    Follows passed (.error failure) after

/-- In a later store, another list has the elements that come behind some elements of a list. -/
def Remains (passed : List Visible) (later : Store) (rest : LazyList) : Prop :=
  ∀ elements closing after, elements ≠ [] ∨ closing ≠ .more →
    (Sequence context meter later rest elements closing after ↔
      Sequence context meter store list (passed ++ elements) closing after)

end

/-- A step comes to what is first of all that the cursor has left. -/
theorem Turn.follows {stop : Stop} (turn : Turn context meter store cursor stop after) :
    Follows context meter store cursor.rest [] (stop.reply after).result after := by
  cases stop with
  | item element id rest => exact .item turn.reads.1 turn.shows
  | finished => exact .finished turn.reads
  | upset failure left => exact .upset turn.reads

/-- Behind an element, a cursor has left what comes behind that element. -/
theorem Turn.remains {rest : Cursor} {element : Visible} {id : ThunkId}
    (turn : Turn context meter store cursor (.item element id rest) middle) :
    Remains context meter store cursor.rest [element] middle rest.rest :=
  fun _ _ _ proper => (turn.sequence_iff proper).symm

namespace Remains

variable {list rest : LazyList} {passed : List Visible}

/-- Nothing is passed at the start. -/
theorem none : Remains context meter store list [] store list :=
  fun _ _ _ _ => Iff.rfl

/-- What remains of what remains. -/
theorem trans {later : Store} {last : LazyList} {more : List Visible}
    (first : Remains context meter store list passed middle rest)
    (second : Remains context meter middle rest more later last) :
    Remains context meter store list (passed ++ more) later last := by
  intro elements closing after proper
  have longer : more ++ elements ≠ [] ∨ closing ≠ .more :=
    proper.imp_left (List.append_ne_nil_of_right_ne_nil more)
  rw [second _ _ _ proper, first _ _ _ longer, List.append_assoc]

/-- What comes behind some of what remains comes behind these and what is passed. -/
theorem follows_iff {more : List Visible} {result : Except Upset (Option ThunkId)}
    (remains : Remains context meter store list passed middle rest) :
    Follows context meter middle rest more result after ↔
      Follows context meter store list (passed ++ more) result after := by
  -- All three ways to go on are about elements in front, to which what is passed can be added.
  have item (element : Visible) := remains (more ++ [element]) .more after (.inl (by simp))
  simp only [← List.append_assoc] at item
  constructor
  · rintro (⟨sequence, stands⟩ | sequence | sequence)
    · exact .item ((item _).mp sequence) stands
    · exact .finished ((remains more .finished _ (.inr nofun)).mp sequence)
    · exact .upset ((remains more (.upset _) _ (.inr nofun)).mp sequence)
  · rintro (⟨sequence, stands⟩ | sequence | sequence)
    · exact .item ((item _).mpr sequence) stands
    · exact .finished ((remains more .finished _ (.inr nofun)).mpr sequence)
    · exact .upset ((remains more (.upset _) _ (.inr nofun)).mpr sequence)

end Remains

/-- Where something comes first of all that a cursor has left, a step comes to something. -/
theorem Follows.turn {result : Except Upset (Option ThunkId)}
    (follows : Follows context meter store cursor.rest [] result after) :
    ∃ stop, Turn context meter store cursor stop after := by
  have taken {elements : List Visible} {closing : Closing}
      (sequence : Sequence context meter store cursor.rest elements closing after)
      (few : elements.length ≤ 1) (first : elements = [] ∨ closing = .more) :
      ∃ stop, Turn context meter store cursor stop after := by
    obtain ⟨found, rfl, visits⟩ := sequence_rest_iff.mp sequence
    cases visits with
    | last turn | finished turn | upset turn => exact ⟨_, turn⟩
    | next turn others =>
      -- At most one element is passed, and then the look ends there.
      rcases first with none | rfl
      · cases none
      · cases others <;> simp at few
  cases follows with
  | item sequence stands => exact taken sequence (Nat.le_refl 1) (.inr rfl)
  | finished sequence | upset sequence => exact taken sequence (Nat.zero_le 1) (.inl rfl)

/-! The functions of the host. -/

/-- The computations that a walk has come to stand for the elements that it has passed. -/
theorem Visits.stands {found : List (Visible × ThunkId)} {closing : Closing}
    (visits : Visits context meter store cursor found closing after) :
    List.Forall₂ after.Shows (found.map Prod.fst) (found.map Prod.snd) := by
  rw [List.forall₂_map_left_iff, List.forall₂_map_right_iff, List.forall₂_same]
  exact visits.shows

/--
What is asked for is answered with enough fuel whenever there is an answer as described, and every answer
is as described.
-/
structure Answers {α : Type} (ask : Nat → Option α) (described : α → Prop) : Prop where
  sound : ∀ fuel reply, ask fuel = some reply → described reply
  complete : ∀ reply, described reply →
    ∃ enough, ∀ fuel, enough ≤ fuel → ∃ answer, ask fuel = some answer

namespace Evaluator

variable {evaluator : Evaluator} {fuel : Nat} {list : LazyList}

/-- A host takes steps along a list that all come to elements. -/
inductive Steps (evaluator : Evaluator) : Store → Cursor → List ThunkId → Cursor → Store → Prop
  | none {store : Store} {cursor : Cursor} : Steps evaluator store cursor [] cursor store
  | next {store middle after : Store} {cursor rest last : Cursor} {id : ThunkId} {ids : List ThunkId}
    {fuel : Nat} (here : evaluator.next fuel cursor store = some ⟨.ok (some id), rest, middle⟩)
    (others : Steps evaluator middle rest ids last after) :
    Steps evaluator store cursor (id :: ids) last after

/-- A step that comes to an element, as one of the evaluator. -/
theorem turn_of_item {id : ThunkId} {rest : Cursor} (closed : store.Closed)
    (within : cursor.Within store.cells.size)
    (replied : evaluator.next fuel cursor store = some ⟨.ok (some id), rest, after⟩) :
    ∃ element,
      Turn evaluator.context evaluator.ground store cursor (.item element id rest) after := by
  obtain ⟨stop, after, turn, reply⟩ := turn_of_next closed within replied
  cases stop with
  | item element id rest =>
    cases reply
    exact ⟨element, turn⟩
  | finished | upset failure left => cases reply

/-- Behind the steps that a host has taken, the cursor has the remaining elements left. -/
theorem Steps.remains {ids : List ThunkId} {last : Cursor}
    (steps : evaluator.Steps store cursor ids last after) (closed : store.Closed)
    (within : cursor.Within store.cells.size) :
    (after.Closed ∧ last.Within after.cells.size) ∧ store.Precedes after ∧
      ∃ passed, List.Forall₂ after.Shows passed ids ∧
        Remains evaluator.context evaluator.ground store cursor.rest passed after last.rest := by
  -- By induction on the steps taken; each is one from a position inside the store to another one.
  induction steps with
  | none => exact ⟨⟨closed, within⟩, .refl _, [], .nil, .none⟩
  | next here others ih =>
    obtain ⟨element, turn⟩ := turn_of_item closed within here
    obtain ⟨closed, rest⟩ := turn.closed closed within
    obtain ⟨still, order, passed, stand, remains⟩ := ih closed (rest _ _ _ rfl)
    exact ⟨still, turn.precedes.trans order, element :: passed, .cons (turn.shows.later order) stand,
      turn.remains.trans remains⟩

/-- A step of the host comes to what is first of all that the cursor has left. -/
theorem next_answers (closed : store.Closed) (within : cursor.Within store.cells.size) :
    Answers (evaluator.next · cursor store) fun reply =>
      Follows evaluator.context evaluator.ground store cursor.rest [] reply.result reply.store where
  sound fuel reply replied := by
    obtain ⟨stop, after, turn, rfl⟩ := turn_of_next closed within replied
    cases stop <;> exact turn.follows
  complete reply follows := by
    obtain ⟨stop, turn⟩ := follows.turn
    obtain ⟨enough, answers⟩ := next_of_turn turn
    exact ⟨enough, fun fuel more => ⟨_, answers fuel more⟩⟩

/-- What is collected are the computations that a walk to the end comes to. -/
theorem collect_tells {passed : Array ThunkId} {reply : Reply (Array ThunkId)} (closed : store.Closed)
    (within : cursor.Within store.cells.size)
    (replied : evaluator.collect fuel cursor passed store = some reply) :
    ∃ found closing, closing ≠ .more ∧
      Visits evaluator.context evaluator.ground store cursor found closing reply.store ∧
      reply.result = closing.result (passed ++ (found.map Prod.snd).toArray) := by
  induction fuel generalizing store cursor passed with
  | zero => cases replied
  | succ fuel ih =>
    unfold collect at replied
    split at replied
    · cases replied
    · -- A right part goes wrong, and nothing is collected.
      next upset last after here =>
      cases replied
      obtain ⟨stop, after, turn, same⟩ := turn_of_next closed within here
      cases stop with
      | upset failure left =>
        cases same
        exact ⟨[], .upset upset, nofun, .upset turn, rfl⟩
      | item element id rest | finished => cases same
    · -- At the end, what has been passed before is all that there is.
      next last after here =>
      cases replied
      obtain ⟨stop, after, turn, same⟩ := turn_of_next closed within here
      cases stop with
      | finished =>
        cases same
        exact ⟨[], .finished, nofun, .finished turn, by simp [Closing.result]⟩
      | item element id rest | upset failure left => cases same
    · -- The element is collected, and the others are collected from the position behind it.
      next id rest middle here =>
      obtain ⟨element, turn⟩ := turn_of_item closed within here
      obtain ⟨closed, rest⟩ := turn.closed closed within
      obtain ⟨found, closing, ends, visits, result⟩ := ih closed (rest _ _ _ rfl) replied
      exact ⟨(element, id) :: found, closing, ends, .next turn visits, by simp [result]⟩

/-- Where a walk comes to the end of a list, all elements are collected. -/
theorem collect_answers {found : List (Visible × ThunkId)} {closing : Closing}
    (visits : Visits evaluator.context evaluator.ground store cursor found closing after)
    (ends : closing ≠ .more) :
    ∃ enough, ∀ fuel, enough ≤ fuel → ∀ passed, evaluator.collect fuel cursor passed store =
      some ⟨closing.result (passed ++ (found.map Prod.snd).toArray), after⟩ := by
  induction visits with
  | last turn => exact absurd rfl ends
  | next turn others ih =>
    obtain ⟨few, here⟩ := next_of_turn turn
    obtain ⟨many, rest⟩ := ih ends
    -- The fuel has to be enough for the step and for all steps behind it.
    refine ⟨few + many + 1, fun fuel more passed => ?_⟩
    obtain ⟨fuel, rfl⟩ : ∃ less, fuel = less + 1 := ⟨fuel - 1, by omega⟩
    rw [collect, here fuel (by omega)]
    exact (rest fuel (by omega) _).trans (by simp)
  | finished turn | upset turn =>
    obtain ⟨few, here⟩ := next_of_turn turn
    refine ⟨few + 1, fun fuel more passed => ?_⟩
    obtain ⟨fuel, rfl⟩ : ∃ less, fuel = less + 1 := ⟨fuel - 1, by omega⟩
    rw [collect, here fuel (by omega)]
    simp [Stop.reply, Closing.result]

/-- What comes behind a number of elements, or the end of a list that has no more of them. -/
def FoundAt (context : Context) (meter : DepthMeter) (store : Store) (list : LazyList) (index : Nat)
    (reply : Reply (Option ThunkId)) : Prop :=
  ∃ passed, Follows context meter store list passed reply.result reply.store ∧
    (passed.length = index ∨ passed.length < index ∧ ∀ id, reply.result ≠ .ok (some id))

/-- Behind the first element, one less has to be passed. -/
theorem FoundAt.next {rest : Cursor} {element : Visible} {id : ThunkId} {index : Nat}
    {reply : Reply (Option ThunkId)}
    (turn : Turn context meter store cursor (.item element id rest) middle)
    (found : FoundAt context meter middle rest.rest index reply) :
    FoundAt context meter store cursor.rest (index + 1) reply := by
  obtain ⟨passed, follows, far⟩ := found
  exact ⟨element :: passed, turn.remains.follows_iff.mp follows, by simpa using far⟩

/-- What is found at a position comes behind the elements in front of it. -/
theorem elementAfter_tells {index : Nat} {reply : Reply (Option ThunkId)} (closed : store.Closed)
    (within : cursor.Within store.cells.size)
    (replied : evaluator.elementAfter fuel index cursor store = some reply) :
    FoundAt evaluator.context evaluator.ground store cursor.rest index reply := by
  -- Where a step comes to no element, the list ends there.
  have ends {cursor last : Cursor} {store after : Store} {result : Except Upset (Option ThunkId)}
      (closed : store.Closed) (within : cursor.Within store.cells.size)
      (here : evaluator.next fuel cursor store = some ⟨result, last, after⟩)
      (noItem : ∀ id, result ≠ .ok (some id)) (index : Nat) :
      FoundAt evaluator.context evaluator.ground store cursor.rest index ⟨result, after⟩ :=
    ⟨[], (next_answers closed within).sound fuel _ here,
      (Nat.eq_zero_or_pos index).imp Eq.symm fun positive => ⟨positive, noItem⟩⟩
  -- By induction on the index: each step to an element makes it smaller by one.
  induction index generalizing store cursor with
  | zero =>
    unfold elementAfter at replied
    split at replied
    · cases replied
    · next upset last after here =>
      cases replied
      exact ends closed within here nofun 0
    · next last after here =>
      cases replied
      exact ends closed within here nofun 0
    · next id last after here =>
      cases replied
      exact ⟨[], (next_answers closed within).sound fuel _ here, .inl rfl⟩
  | succ index ih =>
    unfold elementAfter at replied
    split at replied
    · cases replied
    · next upset last after here =>
      cases replied
      exact ends closed within here nofun _
    · next last after here =>
      cases replied
      exact ends closed within here nofun _
    · next id last after here =>
      obtain ⟨element, turn⟩ := turn_of_item closed within here
      obtain ⟨closed, rest⟩ := turn.closed closed within
      exact .next turn (ih closed (rest _ _ _ rfl) replied)

/-- Where a walk passes the position or comes to the end of a list, there is an answer. -/
theorem elementAfter_answers {found : List (Visible × ThunkId)} {closing : Closing} {index : Nat}
    (visits : Visits evaluator.context evaluator.ground store cursor found closing after)
    (far : closing = .more → index < found.length) :
    ∃ enough, ∀ fuel, enough ≤ fuel → ∃ reply,
      evaluator.elementAfter fuel index cursor store = some reply := by
  induction visits generalizing index with
  | last turn =>
    -- Only one element is known, so that it is the one that is looked for.
    obtain rfl := Nat.lt_one_iff.mp (far rfl)
    obtain ⟨few, here⟩ := next_of_turn turn
    refine ⟨few, fun fuel more => ?_⟩
    rw [elementAfter, here fuel more]
    exact ⟨_, rfl⟩
  | next turn others ih =>
    obtain ⟨few, here⟩ := next_of_turn turn
    cases index with
    | zero =>
      refine ⟨few, fun fuel more => ?_⟩
      rw [elementAfter, here fuel more]
      exact ⟨_, rfl⟩
    | succ index =>
      -- One element less has to be passed behind the first one.
      obtain ⟨many, rest⟩ := ih fun more => Nat.lt_of_succ_lt_succ (far more)
      refine ⟨few + many, fun fuel more => ?_⟩
      rw [elementAfter, here fuel (by omega)]
      exact rest fuel (by omega)
  | finished turn | upset turn =>
    obtain ⟨few, here⟩ := next_of_turn turn
    refine ⟨few, fun fuel more => ?_⟩
    cases index <;> rw [elementAfter, here fuel more] <;> exact ⟨_, rfl⟩

end Evaluator

end LazyConfig
