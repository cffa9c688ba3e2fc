import LazyConfig.Proofs.Lists.Primitives

/-!
Lists as sequences of elements. What a host and what a program can find out about a list is what is said by
its sequence of elements, and nothing is evaluated for it but right parts whose turn has come.
-/

namespace LazyConfig

section

variable (evaluator : Evaluator) (store : Store) (list : LazyList)

/--
Right parts that wait behind a position are asked for where everything in front of them is used up. A
step that comes to something before does the same without them, and otherwise the walk goes on before
them in the store that it has come to.
-/
structure Evaluator.PutsOff (cursor : Cursor) (more : List ThunkId) : Prop where
  before : ∀ fuel reply, evaluator.next fuel cursor store = some reply → reply.result ≠ .ok none →
    ∃ enough, ∀ fuel, enough ≤ fuel →
      evaluator.next fuel ⟨cursor.front, cursor.pending ++ more⟩ store =
        some ⟨reply.result, ⟨reply.cursor.front, reply.cursor.pending ++ more⟩, reply.store⟩
  after : ∀ fuel reply, evaluator.next fuel cursor store = some reply → reply.result = .ok none →
    ∀ other, (∃ fuel, evaluator.next fuel ⟨cursor.front, cursor.pending ++ more⟩ store = some other) ↔
      ∃ fuel, evaluator.next fuel (.before more) reply.store = some other

/-- What a host finds out about a list is what the elements of the list say. -/
structure Evaluator.ReadsInOrder : Prop where
  /--
  After any number of steps, the cursor has the remaining elements left, and the next step comes to the
  first of them, to the end, or to what goes wrong there.
  -/
  next : ∀ ids cursor middle, evaluator.Steps store list.cursor ids cursor middle →
    ∃ passed, List.Forall₂ middle.Shows passed ids ∧
      Remains evaluator.context evaluator.ground store list passed middle cursor.rest ∧
      Answers (evaluator.next · cursor middle) fun reply =>
        Follows evaluator.context evaluator.ground store list passed reply.result reply.store
  /-- No step asks for right parts that wait behind what is not used up. -/
  lazy : ∀ ids cursor middle, evaluator.Steps store list.cursor ids cursor middle →
    ∀ more, Inside middle.cells.size more → evaluator.PutsOff middle cursor more
  uncons : Answers (evaluator.uncons · list store) fun reply =>
    Follows evaluator.context evaluator.ground store list []
      (reply.result.map fun item => item.map Prod.fst) reply.store ∧
    ∀ id rest, reply.result = .ok (some (id, rest)) → ∃ first, reply.store.Shows first id ∧
      Remains evaluator.context evaluator.ground store list [first] reply.store rest
  length : Answers (evaluator.length · list store) fun reply => ∃ elements closing, closing ≠ .more ∧
    Sequence evaluator.context evaluator.ground store list elements closing reply.store ∧
    reply.result = closing.result elements.length
  toThunks : Answers (evaluator.toThunks · list store) fun reply => ∃ elements ids closing,
    closing ≠ .more ∧
    Sequence evaluator.context evaluator.ground store list elements closing reply.store ∧
    List.Forall₂ reply.store.Shows elements ids ∧ reply.result = closing.result ids
  elemAt : ∀ index, Answers (evaluator.elemAt · list index store)
    (FoundAt evaluator.context evaluator.ground store list index)

end

section

variable (context : Context) (meter : DepthMeter) (store : Store) (list : LazyList)

/-- What the primitives make of a list is what the elements of the list say. -/
structure PrimitivesRead : Prop where
  /-- The list is evaluated first, and then walked. -/
  walks : ∀ op consumer,
    (op, consumer) ∈ [(Builtin.head, Consumer.head), (.tail, .tail), (.length, .count 0)] →
    ∀ before id, ForcesTo context meter before id (.list list) store → ∀ stack,
      State.GoesTo context ⟨before, meter, .run op [id], stack⟩
        ⟨store, meter, .give (.list list), .walk op consumer :: stack⟩
  /-- The list is evaluated first, then the index, and then the list is walked. -/
  indexes : ∀ before middle id index value, ForcesTo context meter before id (.list list) middle →
    ForcesTo context meter middle index value store → ∀ stack,
      State.GoesTo context ⟨before, meter, .run .elemAt [id, index], stack⟩
        ⟨store, meter, .give value, .index list :: stack⟩
  head : ∀ element after, Sequence context meter store list [element] .more after →
    ∃ id, after.Shows element id ∧ ∀ stack,
      State.GoesTo context ⟨store, meter, .give (.list list), .walk .head .head :: stack⟩
        ⟨after, meter, .force id, stack⟩
  tail : ∀ element after, Sequence context meter store list [element] .more after →
    ∃ rest, Remains context meter store list [element] after rest ∧ ∀ stack,
      State.GoesTo context ⟨store, meter, .give (.list list), .walk .tail .tail :: stack⟩
        ⟨after, meter, .give (.list rest), stack⟩
  /-- Without elements there is no first one, and there are no others. -/
  empty : ∀ after, Sequence context meter store list [] .finished after → ∀ stack,
    State.GoesTo context ⟨store, meter, .give (.list list), .walk .head .head :: stack⟩
      ⟨after, meter, .fail (.emptyList .head), stack⟩ ∧
    State.GoesTo context ⟨store, meter, .give (.list list), .walk .tail .tail :: stack⟩
      ⟨after, meter, .fail (.emptyList .tail), stack⟩
  length : ∀ elements after, Sequence context meter store list elements .finished after → ∀ stack,
    State.GoesTo context ⟨store, meter, .give (.list list), .walk .length (.count 0) :: stack⟩
      ⟨after, meter, match fit? elements.length with
        | some length => .give (.int length)
        | none => .fail (.lengthOverflow elements.length), stack⟩
  /-- At a position within the list, `elemAt` is `head` of the repeated `tail`. -/
  elemAt : ∀ passed element after index (n : Int64),
    Sequence context meter store list (passed ++ [element]) .more after → index.asInteger? = some n →
    n.toInt = passed.length →
    ∃ id rest middle, after.Shows element id ∧ Tails context meter store list passed.length rest middle ∧
      ∀ stack,
        State.GoesTo context ⟨store, meter, .give index, .index list :: stack⟩
          ⟨after, meter, .force id, stack⟩ ∧
        State.GoesTo context ⟨middle, meter, .give (.list rest), .walk .head .head :: stack⟩
          ⟨after, meter, .force id, stack⟩
  /-- Anywhere else `elemAt` fails with the length of the list. -/
  outOfBounds : ∀ elements after index (n : Int64),
    Sequence context meter store list elements .finished after →
    index.asInteger? = some n → n.toInt < 0 ∨ elements.length ≤ n.toInt →
    ∃ last, ∀ stack, State.GoesTo context ⟨store, meter, .give index, .index list :: stack⟩
      ⟨last, meter, .fail (.indexOutOfBounds n elements.length), stack⟩
  /-- What goes wrong behind the elements is what the primitives go wrong with that get there. -/
  upset : ∀ elements failure after, Sequence context meter store list elements (.upset failure) after →
    ∀ stack, State.GoesTo context
        ⟨store, meter, .give (.list list), .walk .length (.count 0) :: stack⟩
        ⟨after, meter, .raise failure, stack⟩ ∧
      ∀ index (n : Int64), index.asInteger? = some n → n.toInt < 0 ∨ elements.length ≤ n.toInt →
        State.GoesTo context ⟨store, meter, .give index, .index list :: stack⟩
          ⟨after, meter, .raise failure, stack⟩

end

variable {evaluator : Evaluator} {context : Context} {meter : DepthMeter} {store : Store}
  {list : LazyList} {cursor : Cursor}

/-- Right parts that wait behind a position are put off until their turn. -/
theorem Evaluator.putsOff (closed : store.Closed) (within : cursor.Within store.cells.size)
    {more : List ThunkId} (inside : Inside store.cells.size more) :
    evaluator.PutsOff store cursor more where
  before fuel reply replied comes := by
    obtain ⟨stop, after, turn, rfl⟩ := turn_of_next closed within replied
    -- The step has come to something in front of the right parts, which it comes to with them as well.
    have found : stop ≠ .finished := by
      rintro rfl
      exact comes rfl
    obtain ⟨enough, answers⟩ := next_of_turn (turn.before found more)
    refine ⟨enough, fun fuel less => (answers fuel less).trans ?_⟩
    cases stop with
    | finished => exact absurd rfl found
    | item element id rest | upset failure left => rfl
  after fuel reply replied ended other := by
    obtain ⟨stop, middle, turn, rfl⟩ := turn_of_next closed within replied
    cases stop with
    | item element id rest | upset failure left => cases ended
    | finished =>
      -- Everything in front is used up, and a step with the right parts is one at the first of them.
      have order := turn.precedes
      have known : middle.Closed := (turn.closed closed within).1
      constructor
      · rintro ⟨fuel, replied⟩
        have longer : Cursor.Within store.cells.size ⟨cursor.front, cursor.pending ++ more⟩ :=
          ⟨within.1, fun id member => (List.mem_append.mp member).elim (within.2 id) (inside id)⟩
        obtain ⟨stop, last, turn', rfl⟩ := turn_of_next closed longer replied
        obtain ⟨enough, answers⟩ := next_of_turn ((turn.at_end rfl more).mp turn')
        exact ⟨enough, answers enough (Nat.le_refl _)⟩
      · rintro ⟨fuel, replied⟩
        have behind : Cursor.Within middle.cells.size (.before more) :=
          ⟨trivial, Inside.grow order.1 inside⟩
        obtain ⟨stop, last, turn', rfl⟩ := turn_of_next known behind replied
        obtain ⟨enough, answers⟩ := next_of_turn ((turn.at_end rfl more).mpr turn')
        exact ⟨enough, answers enough (Nat.le_refl _)⟩

/-- What is said about all elements is answered where a walk comes to the end, and as it is there. -/
theorem Evaluator.collects {α : Type} (closed : store.Closed) (within : list.Within store.cells.size)
    (summary : Array ThunkId → α) :
    Answers (fun fuel => (evaluator.collect fuel list.cursor #[] store).map (Reply.map summary))
      fun reply => ∃ found closing, closing ≠ .more ∧
        Visits evaluator.context evaluator.ground store list.cursor found closing reply.store ∧
        reply.result = closing.result (summary (found.map Prod.snd).toArray) where
  sound fuel reply replied := by
    obtain ⟨collected, answered, rfl⟩ := Option.map_eq_some_iff.mp replied
    obtain ⟨found, closing, ends, visits, result⟩ := collect_tells closed within.cursor answered
    refine ⟨found, closing, ends, visits, ?_⟩
    rw [Reply.map, result, Array.empty_append]
    cases closing <;> rfl
  complete reply described := by
    obtain ⟨found, closing, ends, visits, -⟩ := described
    obtain ⟨enough, answers⟩ := collect_answers visits ends
    exact ⟨enough, fun fuel less => ⟨_, by rw [answers fuel less #[]]; rfl⟩⟩

/-- What a host finds out about a list is what the elements of the list say. -/
theorem Evaluator.readsInOrder (closed : store.Closed) (within : list.Within store.cells.size) :
    evaluator.ReadsInOrder store list where
  next ids cursor middle steps := by
    obtain ⟨⟨closed, within⟩, -, passed, stand, remains⟩ := steps.remains closed within.cursor
    refine ⟨passed, stand, remains, ?_⟩
    have answers := @next_answers middle cursor evaluator closed within
    simp only [remains.follows_iff, List.append_nil] at answers
    exact answers
  lazy ids cursor middle steps more inside := by
    obtain ⟨⟨closed, within⟩, -⟩ := steps.remains closed within.cursor
    exact putsOff closed within inside
  uncons := by
    refine ⟨fun fuel reply replied => ?_, fun reply described => ?_⟩
    · obtain ⟨taken, answered, rfl⟩ := Option.map_eq_some_iff.mp replied
      obtain ⟨stop, after, turn, rfl⟩ := turn_of_next closed within.cursor answered
      have follows := turn.follows
      cases stop with
      | item element id rest =>
        refine ⟨follows, fun id rest same => ?_⟩
        cases same
        exact ⟨element, turn.shows, turn.remains⟩
      | finished | upset failure left => exact ⟨follows, nofun⟩
    · obtain ⟨stop, turn⟩ := @Follows.turn _ _ _ _ list.cursor _ described.1
      obtain ⟨enough, answers⟩ := next_of_turn turn
      refine ⟨enough, fun fuel less => ?_⟩
      rw [uncons, answers fuel less]
      exact ⟨_, rfl⟩
  length := by
    -- Counting collects the elements, and all that is read off them is how many they are.
    have collects := @collects evaluator store list Nat closed within Array.size
    refine ⟨fun fuel reply replied => ?_, fun reply described => ?_⟩
    · obtain ⟨found, closing, ends, visits, result⟩ := collects.sound fuel reply replied
      exact ⟨_, closing, ends, .of_visits visits, by simpa using result⟩
    · obtain ⟨elements, closing, ends, sequence, result⟩ := described
      obtain ⟨found, rfl, visits⟩ := sequence_iff.mp sequence
      exact collects.complete reply ⟨found, closing, ends, visits, by simpa using result⟩
  toThunks := by
    -- So does reading the elements one after the other.
    have collects := @collects evaluator store list _ closed within Array.toList
    refine ⟨fun fuel reply replied => ?_, fun reply described => ?_⟩
    · obtain ⟨found, closing, ends, visits, result⟩ := collects.sound fuel reply replied
      exact ⟨_, _, closing, ends, .of_visits visits, visits.stands, result⟩
    · obtain ⟨elements, ids, closing, ends, sequence, -⟩ := described
      obtain ⟨found, rfl, visits⟩ := sequence_iff.mp sequence
      exact collects.complete ⟨closing.result _, reply.store⟩ ⟨found, closing, ends, visits, rfl⟩
  elemAt index := by
    refine ⟨fun fuel reply replied => elementAfter_tells closed within.cursor replied,
      fun reply described => ?_⟩
    obtain ⟨passed, follows, far⟩ := described
    -- The walk has to get to the position only if the list goes on so far.
    have answers {elements : List Visible} {closing : Closing} {after : Store}
        (sequence : Sequence evaluator.context evaluator.ground store list elements closing after)
        (far : closing = .more → index < elements.length) :
        ∃ enough, ∀ fuel, enough ≤ fuel → ∃ answer, evaluator.elemAt fuel list index store = some answer := by
      obtain ⟨found, rfl, visits⟩ := sequence_iff.mp sequence
      exact elementAfter_answers visits fun more => by simpa using far more
    obtain ⟨result, after⟩ := reply
    cases follows with
    | finished sequence | upset sequence => exact answers sequence nofun
    | @item element id after sequence stands =>
      have here : passed.length = index := far.resolve_right fun ends => ends.2 id rfl
      exact answers sequence fun _ => by simp [here]

/-- What the primitives make of a list is what the elements of the list say. -/
theorem primitivesRead (context : Context) (meter : DepthMeter) (store : Store) (list : LazyList) :
    PrimitivesRead context meter store list where
  walks op consumer member before id forces stack := by
    simp only [List.mem_cons, List.not_mem_nil, Prod.mk.injEq, or_false] at member
    rcases member with ⟨rfl, rfl⟩ | ⟨rfl, rfl⟩ | ⟨rfl, rfl⟩ <;> exact .step rfl (forces.above _)
  indexes before middle id index value forces also stack :=
    .step rfl ((forces.above _).trans (.step rfl (also.above _)))
  -- The first step of a walk decides about the head and the tail.
  head element after sequence := by
    obtain ⟨id, rest, turn⟩ := @Sequence.item _ _ _ _ list.cursor _ sequence
    exact ⟨id, turn.shows, turn.head⟩
  tail element after sequence := by
    obtain ⟨id, rest, turn⟩ := @Sequence.item _ _ _ _ list.cursor _ sequence
    exact ⟨rest.rest, turn.remains, fun stack =>
      (walk_goesTo list.cursor .tail .tail stack).trans (turn.goesTo .tail stack)⟩
  empty after sequence stack := by
    have turn := @Sequence.finished _ _ _ _ list.cursor sequence
    exact ⟨(walk_goesTo list.cursor .head .head stack).trans (turn.goesTo .head stack),
      (walk_goesTo list.cursor .tail .tail stack).trans (turn.goesTo .tail stack)⟩
  length elements after sequence stack := by
    have counted := sequence.goesTo_end (goesOn_count context.annotations.graph elements.length)
      (Nat.le_refl _) stack
    refine (walk_goesTo list.cursor .length (.count 0) stack).trans ?_
    unfold Context.consumeStep at counted
    dsimp only at counted
    split at counted <;> simp_all
  elemAt passed element after index n sequence integer here := sequence.elemAt integer here
  outOfBounds elements after index n sequence integer outside :=
    sequence.elemAt_outOfBounds integer outside
  upset elements failure after sequence stack := by
    refine ⟨(walk_goesTo list.cursor .length (.count 0) stack).trans ?_, fun index n integer outside =>
      sequence.elemAt_upset integer outside stack⟩
    exact sequence.goesTo_upset (goesOn_count context.annotations.graph elements.length) (Nat.le_refl _)
      nofun stack

/--
A list stands for its sequence of elements. Everything that a host or a program can find out about it is
what the sequence says; nothing is evaluated for it but right parts whose left parts are used up, and what
has been looked at is the same for every later look.
-/
theorem list_semantics (evaluator : Evaluator) {store : Store} {list : LazyList} (closed : store.Closed)
    (within : list.Within store.cells.size) :
    evaluator.ReadsInOrder store list ∧
    ∀ meter, PrimitivesRead evaluator.context meter store list ∧
      ∀ elements closing after, Sequence evaluator.context meter store list elements closing after →
        closing = .more ∨ closing = .finished → ∀ level later, after.Precedes later →
          ∃ last, Sequence evaluator.context level later list elements closing last :=
  ⟨Evaluator.readsInOrder closed within, fun meter => ⟨primitivesRead _ meter store list,
    fun _ _ _ sequence good level _ order => sequence.again good level order⟩⟩

/-- The code of `%range% 2`. -/
def rangeOfTwo : Code where
  exprs := #[.int 2, .builtin .range [0]]

/-- An integer, and a right part that is put off. -/
def joinedRange : Store where
  cells := #[.forced (.int 5), .suspended (.expr 1 {})]

/-- The list `[5] @ %range% 2` has three elements, of which the last is found both ways. -/
theorem list_semantics_joinedRange :
    let evaluator : Evaluator := ⟨⟨{}, rangeOfTwo, {}⟩, {}⟩
    let list : LazyList := .concat (.ofThunks [0]) 1
    (∃ fuel reply, evaluator.length fuel list joinedRange = some reply ∧ reply.result = .ok 3) ∧
    (∃ id rest middle after,
      Tails evaluator.context evaluator.ground joinedRange list 2 rest middle ∧
      after.cell id = .forced (.int 1) ∧
      State.GoesTo evaluator.context ⟨joinedRange, evaluator.ground, .give (.int 2), [.index list]⟩
        ⟨after, evaluator.ground, .force id, []⟩ ∧
      State.GoesTo evaluator.context ⟨middle, evaluator.ground, .give (.list rest), [.walk .head .head]⟩
        ⟨after, evaluator.ground, .force id, []⟩) ∧
    ∃ last, State.GoesTo evaluator.context
      ⟨joinedRange, evaluator.ground, .give (.int 7), [.index list]⟩
      ⟨last, evaluator.ground, .fail (.indexOutOfBounds 7 3), []⟩ := by
  intro evaluator list
  have closed : joinedRange.Closed := by
    intro id inside
    obtain rfl | rfl : id = 0 ∨ id = 1 := by
      have bound : id < 2 := inside
      omega
    · trivial
    · exact ⟨trivial, fun _ member => nomatch member⟩
  have within : list.Within joinedRange.cells.size := 
    ⟨List.forall_mem_singleton.mpr (by decide), by decide⟩
  obtain ⟨between, forces⟩ : ∃ between, ForcesTo evaluator.context evaluator.ground joinedRange 1
    (.list (.range 0 2)) between := ⟨_, 8, rfl⟩
  have front : Sequence evaluator.context evaluator.ground joinedRange (.ofThunks [0]) [.thunk 0] .finished
    joinedRange := .elemNext rfl (.elemEnd rfl)
  -- The integers of the range come behind the only element of the left part.
  have zero : (0 : Int64) < 2 := by decide
  have one : (0 + 1 : Int64) < 2 := by decide
  have two : ¬ (0 + 1 + 1 : Int64) < 2 := by decide
  have some := Sequence.right front forces (.rangeNext zero (.rangeLast one))
  have all := Sequence.right front forces (.rangeNext zero (.rangeNext one (.rangeEnd two)))
  obtain ⟨reads, primitives⟩ := list_semantics evaluator closed within
  obtain ⟨reading, -⟩ := primitives evaluator.ground
  refine ⟨?_, ?_, ?_⟩
  · obtain ⟨enough, answers⟩ := reads.length.complete ⟨.ok 3, _⟩ ⟨_, .finished, nofun, all, rfl⟩
    obtain ⟨reply, replied⟩ := answers enough (Nat.le_refl _)
    obtain ⟨elements, closing, ends, sequence, result⟩ := reads.length.sound enough reply replied
    obtain ⟨rfl, rfl, -⟩ := all.unique sequence nofun ends
    exact ⟨enough, reply, replied, result⟩
  · obtain ⟨id, rest, middle, stands, tails, goes⟩ := 
      reading.elemAt [.thunk 0, .int 0] (.int 1) _ (.int 2) 2 some rfl rfl
    exact ⟨id, rest, middle, _, tails, stands, goes []⟩
  · obtain ⟨last, goes⟩ := reading.outOfBounds _ _ (.int 7) 7 all rfl (.inr (by decide))
    exact ⟨last, goes []⟩

end LazyConfig
