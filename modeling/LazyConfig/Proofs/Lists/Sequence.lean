import LazyConfig.Proofs.Lists.Turns

/-!
The elements of a list, read off the list as a tree: those of the left part of a join, and then those of
the list that its right part is evaluated to. The steps along the list come to exactly these elements.
-/

namespace LazyConfig

/-- How a look at the elements of a list ends. -/
inductive Closing
  /-- Behind the last element that was looked at; there may be more. -/
  | more
  /-- At the end of the list. -/
  | finished
  /-- At a right part that goes wrong or is no list. -/
  | upset (upset : Upset)
  deriving DecidableEq

/--
The elements of a list from its front on, how the look at them ends, and the store after it. A list
holds its computations from its start position on, or integers, each of which gets a computation of its
own; a join has the elements of its left part and then those of the list that its right part is
evaluated to. Any positive number of elements may be looked at, and nothing is evaluated for what comes
behind them.
-/
inductive Sequence (context : Context) (meter : DepthMeter) :
    Store → LazyList → List Visible → Closing → Store → Prop
  | elemEnd {store : Store} {items : Array ThunkId} {start : Nat} (none : items[start]? = none) :
    Sequence context meter store (.elems items start) [] .finished store
  | elemLast {store : Store} {items : Array ThunkId} {start : Nat} {id : ThunkId}
    (found : items[start]? = some id) :
    Sequence context meter store (.elems items start) [.thunk id] .more store
  | elemNext {store after : Store} {items : Array ThunkId} {start : Nat} {id : ThunkId}
    {others : List Visible} {closing : Closing} (found : items[start]? = some id)
    (rest : Sequence context meter store (.elems items (start + 1)) others closing after) :
    Sequence context meter store (.elems items start) (.thunk id :: others) closing after
  | rangeEnd {store : Store} {next stop : Int64} (passed : ¬ next < stop) :
    Sequence context meter store (.range next stop) [] .finished store
  | rangeLast {store : Store} {next stop : Int64} (more : next < stop) :
    Sequence context meter store (.range next stop) [.int next] .more (store.ready (.int next)).2
  | rangeNext {store after : Store} {next stop : Int64} {others : List Visible} {closing : Closing}
    (more : next < stop)
    (rest : Sequence context meter (store.ready (.int next)).2 (.range (next + 1) stop) others closing
      after) :
    Sequence context meter store (.range next stop) (.int next :: others) closing after
  /-- A look that ends within the left part does not evaluate the right part. -/
  | left {store after : Store} {left : LazyList} {right : ThunkId} {elements : List Visible}
    {closing : Closing} (front : Sequence context meter store left elements closing after)
    (within : closing ≠ .finished) :
    Sequence context meter store (.concat left right) elements closing after
  | right {store middle between after : Store} {left items : LazyList} {right : ThunkId}
    {first second : List Visible} {closing : Closing}
    (front : Sequence context meter store left first .finished middle)
    (forces : ForcesTo context meter middle right (.list items) between)
    (back : Sequence context meter between items second closing after) :
    Sequence context meter store (.concat left right) (first ++ second) closing after
  | fails {store middle after : Store} {left : LazyList} {right : ThunkId} {first : List Visible}
    {upset : Upset} (front : Sequence context meter store left first .finished middle)
    (fails : FailsWith context meter middle right upset after) :
    Sequence context meter store (.concat left right) first (.upset upset) after
  | noList {store middle after : Store} {left : LazyList} {right : ThunkId} {first : List Visible}
    {value : Value} (front : Sequence context meter store left first .finished middle)
    (forces : ForcesTo context meter middle right value after) (other : value.kind ≠ .list) :
    Sequence context meter store (.concat left right) first
      (.upset (.fault (.notAList .concatRight value.kind))) after

/-- The steps of a walk from a position on, with the elements that it passes and how it ends. -/
inductive Visits (context : Context) (meter : DepthMeter) :
    Store → Cursor → List (Visible × ThunkId) → Closing → Store → Prop
  | last {store after : Store} {cursor rest : Cursor} {element : Visible} {id : ThunkId}
    (turn : Turn context meter store cursor (.item element id rest) after) :
    Visits context meter store cursor [(element, id)] .more after
  | next {store middle after : Store} {cursor rest : Cursor} {element : Visible} {id : ThunkId}
    {found : List (Visible × ThunkId)} {closing : Closing}
    (turn : Turn context meter store cursor (.item element id rest) middle)
    (others : Visits context meter middle rest found closing after) :
    Visits context meter store cursor ((element, id) :: found) closing after
  | finished {store after : Store} {cursor : Cursor}
    (turn : Turn context meter store cursor .finished after) :
    Visits context meter store cursor [] .finished after
  | upset {store after : Store} {cursor : Cursor} {upset : Upset} {left : List ThunkId}
    (turn : Turn context meter store cursor (.upset upset left) after) :
    Visits context meter store cursor [] (.upset upset) after

variable {context : Context} {meter : DepthMeter} {store middle after : Store}
  {found : List (Visible × ThunkId)} {closing : Closing}

/-! The elements of a list are those that a walk comes to. -/

namespace Visits

variable {cursor : Cursor}

/-- Steps that come to the same things from two positions are the first steps of the same walks. -/
theorem of_turns {before : Store} {earlier : Cursor}
    (same : ∀ stop after, Turn context meter store cursor stop after →
      Turn context meter before earlier stop after)
    (visits : Visits context meter store cursor found closing after) :
    Visits context meter before earlier found closing after := by
  cases visits with
  | last turn => exact .last (same _ _ turn)
  | next turn others => exact .next (same _ _ turn) others
  | finished turn => exact .finished (same _ _ turn)
  | upset turn => exact .upset (same _ _ turn)

/-- What is used up in front of a walk does not matter. -/
theorem of_usedUp {front other : LazyList} {pending : List ThunkId} (used : front.UsedUp)
    (also : other.UsedUp) (visits : Visits context meter store ⟨front, pending⟩ found closing after) :
    Visits context meter store ⟨other, pending⟩ found closing after := by
  exact visits.of_turns fun _ _ turn => turn.of_usedUp used also

/-- A walk takes no computation back. -/
theorem precedes (visits : Visits context meter store cursor found closing after) :
    store.Precedes after := by
  induction visits with
  | last turn | finished turn | upset turn => exact turn.precedes
  | next turn others ih => exact turn.precedes.trans ih

end Visits

/-- A list that is used up has no elements. -/
theorem LazyList.UsedUp.sequence {front : LazyList} (used : front.UsedUp) :
    Sequence context meter store front [] .finished store := by
  cases front with
  | elems items start => exact .elemEnd used
  | range next stop => exact .rangeEnd used
  | concat left right => exact used.elim

/--
The walk to the elements of a list that is in front. When the list is finished the walk goes on with the
right parts that wait, and before that they do not matter.
-/
structure InFront (context : Context) (meter : DepthMeter) (store : Store) (list : LazyList)
    (elements : List Visible) (closing : Closing) (after : Store) : Prop where
  within : closing ≠ .finished → ∀ pending, ∃ found, found.map Prod.fst = elements ∧
    Visits context meter store ⟨list, pending⟩ found closing after
  beyond : closing = .finished → ∀ pending more ending last,
    Visits context meter after ⟨.empty, pending⟩ more ending last →
    ∃ found, found.map Prod.fst = elements ∧
      Visits context meter store ⟨list, pending⟩ (found ++ more) ending last

namespace InFront

variable {list other left items : LazyList} {right : ThunkId} {element : Visible} {id : ThunkId}
  {elements first second : List Visible} {between : Store}

/-- A list that is used up is passed without a step. -/
theorem of_usedUp (used : list.UsedUp) : InFront context meter store list [] .finished store := by
  refine ⟨fun other => absurd rfl other, fun _ pending more ending last others => ⟨[], rfl, ?_⟩⟩
  exact others.of_usedUp LazyList.empty_usedUp used

/-- A look at one element takes one step. -/
theorem last (turn : ∀ pending, Turn context meter store ⟨list, pending⟩
      (.item element id ⟨other, pending⟩) after) :
    InFront context meter store list [element] .more after :=
  ⟨fun _ pending => ⟨[(element, id)], rfl, .last (turn pending)⟩, by simp⟩

/-- The first element is passed by a step, and the others are passed behind it. -/
theorem next (turn : ∀ pending, Turn context meter store ⟨list, pending⟩
      (.item element id ⟨other, pending⟩) middle)
    (others : InFront context meter middle other elements closing after) :
    InFront context meter store list (element :: elements) closing after := by
  constructor
  · intro within pending
    obtain ⟨found, same, visits⟩ := others.within within pending
    exact ⟨(element, id) :: found, congrArg _ same, .next (turn pending) visits⟩
  · intro finished pending more ending last beyond
    obtain ⟨found, same, visits⟩ := others.beyond finished pending more ending last beyond
    exact ⟨(element, id) :: found, congrArg _ same, .next (turn pending) visits⟩

/-- A look that ends within the left part of a join is one at the left part. -/
theorem of_left (front : InFront context meter store left elements closing after)
    (within : closing ≠ .finished) :
    InFront context meter store (.concat left right) elements closing after := by
  refine ⟨fun _ pending => ?_, fun finished => absurd finished within⟩
  obtain ⟨found, same, visits⟩ := front.within within (right :: pending)
  exact ⟨found, same, visits.of_turns fun _ _ turn => .concat turn⟩

/-- Behind the left part of a join, the walk is at the right part. -/
theorem crosses (front : InFront context meter store left first .finished middle)
    {pending : List ThunkId} {ending : Closing} {last : Store}
    (visits : Visits context meter middle ⟨.empty, right :: pending⟩ found ending last) :
    ∃ firsts, firsts.map Prod.fst = first ∧
      Visits context meter store ⟨.concat left right, pending⟩ (firsts ++ found) ending last := by
  obtain ⟨firsts, same, visits⟩ := front.beyond rfl (right :: pending) found ending last visits
  exact ⟨firsts, same, visits.of_turns fun _ _ turn => .concat turn⟩

/-- The elements of a join are those of the left part and then those of the right one. -/
theorem join (front : InFront context meter store left first .finished middle)
    (forces : ForcesTo context meter middle right (.list items) between)
    (back : InFront context meter between items second closing after) :
    InFront context meter store (.concat left right) (first ++ second) closing after := by
  have crosses (pending : List ThunkId) {found : List (Visible × ThunkId)} {ending : Closing}
      {last : Store} (visits : Visits context meter between ⟨items, pending⟩ found ending last) :=
    front.crosses (visits.of_turns fun _ _ turn => .cross LazyList.empty_usedUp forces turn)
  -- Both for the join alone and in front of other parts, the right part follows where the left one
  -- ends.
  constructor
  · intro within pending
    obtain ⟨found, same, visits⟩ := back.within within pending
    obtain ⟨firsts, also, visits⟩ := crosses pending visits
    exact ⟨firsts ++ found, by rw [List.map_append, also, same], visits⟩
  · intro finished pending more ending last others
    obtain ⟨found, same, visits⟩ := back.beyond finished pending more ending last others
    obtain ⟨firsts, also, visits⟩ := crosses pending visits
    exact ⟨firsts ++ found, by rw [List.map_append, also, same], List.append_assoc .. ▸ visits⟩

/-- A right part that goes wrong or is no list ends the look behind the left part. -/
theorem upset {upset : Upset} (front : InFront context meter store left first .finished middle)
    (turn : ∀ pending, Turn context meter middle ⟨.empty, right :: pending⟩ (.upset upset pending) after) :
    InFront context meter store (.concat left right) first (.upset upset) after := by
  refine ⟨fun _ pending => ?_, by simp⟩
  obtain ⟨firsts, same, visits⟩ := front.crosses (.upset (turn pending))
  exact ⟨firsts, same, List.append_nil firsts ▸ visits⟩

end InFront

/-- The elements of a list are passed by a walk with the list in front. -/
theorem Sequence.inFront {list : LazyList} {elements : List Visible}
    (sequence : Sequence context meter store list elements closing after) :
    InFront context meter store list elements closing after := by
  induction sequence with
  | elemEnd none => exact .of_usedUp none
  | elemLast found => exact .last fun _ => .elem found
  | elemNext found _ ih => exact .next (fun _ => .elem found) ih
  | rangeEnd passed => exact .of_usedUp passed
  | rangeLast more => exact .last fun _ => .int more
  | rangeNext more _ ih => exact .next (fun _ => .int more) ih
  | left _ within ih => exact ih.of_left within
  | right _ forces _ front back => exact front.join forces back
  | fails _ fails ih => exact ih.upset fun _ => .fails LazyList.empty_usedUp fails
  | noList _ forces other ih => exact ih.upset fun _ => .noList LazyList.empty_usedUp forces other

/-- A list whose elements are those of another one with some in front stays so before right parts. -/
theorem Sequence.rest {list other : LazyList} (ahead : List Visible)
    (longer : ∀ elements closing last, Sequence context meter middle other elements closing last →
      Sequence context meter store list (ahead ++ elements) closing last)
    (pending : List ThunkId) (elements : List Visible) (closing : Closing) (last : Store)
    (sequence : Sequence context meter middle (Cursor.rest ⟨other, pending⟩) elements closing last) :
    Sequence context meter store (Cursor.rest ⟨list, pending⟩) (ahead ++ elements) closing last := by
  -- Each right part joins both lists, and a join has what its left part has in front.
  induction pending generalizing list other with
  | nil => exact longer elements closing last sequence
  | cons right pending ih =>
    refine @ih (.concat list right) (.concat other right) ?_ sequence
    intro elements closing last joined
    cases joined with
    | left front within => exact .left (longer _ _ _ front) within
    | right front forces back =>
      rw [← List.append_assoc]
      exact .right (longer _ _ _ front) forces back
    | fails front fails => exact .fails (longer _ _ _ front) fails
    | noList front forces other => exact .noList (longer _ _ _ front) forces other

/-- A look that ends within a list ends in the same way with right parts behind it. -/
theorem Sequence.within {list : LazyList} {elements : List Visible}
    (sequence : Sequence context meter store list elements closing after)
    (within : closing ≠ .finished) (pending : List ThunkId) :
    Sequence context meter store (Cursor.rest ⟨list, pending⟩) elements closing after := by
  induction pending generalizing list with
  | nil => exact sequence
  | cons right pending ih => exact ih (.left sequence within)

/-- What a step along a list says about the elements of what the cursor has left. -/
def Stop.Reads (context : Context) (meter : DepthMeter) (store : Store) (list : LazyList)
    (after : Store) : Stop → Prop
  | .item element _ rest =>
    Sequence context meter store list [element] .more after ∧
      ∀ elements closing last, Sequence context meter after rest.rest elements closing last →
        Sequence context meter store list (element :: elements) closing last
  | .finished => Sequence context meter store list [] .finished after
  | .upset failure _ => Sequence context meter store list [] (.upset failure) after

/-- A step comes to the first of the elements, or to the end of them. -/
theorem Turn.reads {cursor : Cursor} {stop : Stop}
    (turn : Turn context meter store cursor stop after) :
    stop.Reads context meter store cursor.rest after := by
  -- By induction on the step; what is said about the front is carried over to the whole each time.
  induction turn with
  | @elem store items start id pending found =>
    exact ⟨(Sequence.elemLast found).within nofun pending,
      Sequence.rest [.thunk id] (fun _ _ _ rest => .elemNext found rest) pending⟩
  | @int store next stop pending more =>
    exact ⟨(Sequence.rangeLast more).within nofun pending,
      Sequence.rest [.int next] (fun _ _ _ rest => .rangeNext more rest) pending⟩
  | concat turn ih => exact ih
  | @finished store front used => exact used.sequence
  | @cross store between after front items right pending stop used forces turn ih =>
    -- The elements of the right part are those of the join, since nothing is in front of them.
    have joined := @Sequence.rest context meter store between (.concat front right) items []
      (fun _ _ _ back => .right used.sequence forces back) pending
    cases stop with
    | item element id rest =>
      exact ⟨joined _ _ _ ih.1, fun elements closing last sequence =>
        joined _ _ _ (ih.2 elements closing last sequence)⟩
    | finished => exact joined _ _ _ ih
    | upset upset left => exact joined _ _ _ ih
  | fails used fails => exact (Sequence.fails used.sequence fails).within nofun _
  | noList used forces other => exact (Sequence.noList used.sequence forces other).within nofun _

/-- What a walk from a position on passes are the elements of what the cursor has left. -/
theorem Sequence.of_visits {cursor : Cursor}
    (visits : Visits context meter store cursor found closing after) :
    Sequence context meter store cursor.rest (found.map Prod.fst) closing after := by
  induction visits with
  | last turn => exact turn.reads.1
  | next turn others ih => exact turn.reads.2 _ _ _ ih
  | finished turn | upset turn => exact turn.reads

/-- A step along what a cursor has left is a step from the cursor. -/
theorem Turn.of_rest {front : LazyList} {pending more : List ThunkId} {stop : Stop}
    (turn : Turn context meter store ⟨Cursor.rest ⟨front, pending⟩, more⟩ stop after) :
    Turn context meter store ⟨front, pending ++ more⟩ stop after := by
  induction pending generalizing front with
  | nil => exact turn
  | cons right pending ih =>
    -- The cursor has taken the join apart already.
    have joined := @ih (.concat front right) turn
    rw [List.cons_append]
    exact joined.of_concat

/-- The elements of what a cursor has left are those that a walk from it passes. -/
theorem sequence_rest_iff {cursor : Cursor} {elements : List Visible} :
    Sequence context meter store cursor.rest elements closing after ↔
      ∃ found, found.map Prod.fst = elements ∧ Visits context meter store cursor found closing after := by
  constructor
  · intro sequence
    obtain ⟨found, same, visits⟩ : ∃ found, found.map Prod.fst = elements ∧
        Visits context meter store ⟨cursor.rest, []⟩ found closing after := by
      by_cases done : closing = .finished
      · -- No right parts wait behind the list, so that its end is the end of the walk.
        subst done
        obtain ⟨found, same, visits⟩ := sequence.inFront.beyond rfl [] [] .finished after
          (.finished (.finished LazyList.empty_usedUp))
        exact ⟨found, same, List.append_nil found ▸ visits⟩
      · exact sequence.inFront.within done []
    refine ⟨found, same, visits.of_turns fun stop after turn => ?_⟩
    have turn := Turn.of_rest turn
    rwa [List.append_nil] at turn
  · rintro ⟨found, rfl, visits⟩
    exact .of_visits visits

/-- The elements of a list are those that a walk from its front passes. -/
theorem sequence_iff {list : LazyList} {elements : List Visible} :
    Sequence context meter store list elements closing after ↔ ∃ found, found.map Prod.fst = elements ∧
      Visits context meter store list.cursor found closing after :=
  @sequence_rest_iff _ _ _ _ _ list.cursor _

/-- A look at the elements takes no computation back. -/
theorem Sequence.precedes {list : LazyList} {elements : List Visible}
    (sequence : Sequence context meter store list elements closing after) : store.Precedes after := by
  obtain ⟨found, -, visits⟩ := sequence_iff.mp sequence
  exact visits.precedes

/-- A walk to the end of a list passes the same elements and ends in the same way each time. -/
theorem Visits.unique {cursor : Cursor} {others : List (Visible × ThunkId)} {ending : Closing}
    {last : Store} (left : Visits context meter store cursor found closing after)
    (right : Visits context meter store cursor others ending last) (ends : closing ≠ .more)
    (also : ending ≠ .more) : found = others ∧ closing = ending ∧ after = last := by
  -- By induction on one of the walks; a step from the same position is the same in the other one.
  induction left generalizing others ending last with
  | last turn => exact absurd rfl ends
  | next turn rest ih =>
    cases right with
    | last other => exact absurd rfl also
    | next other more =>
      obtain ⟨here, rfl⟩ := turn.unique other
      obtain ⟨rfl, rfl, rfl⟩ := Stop.item.inj here
      obtain ⟨rfl, same⟩ := ih more ends also
      exact ⟨rfl, same⟩
    | finished other | upset other => cases (turn.unique other).1
  | finished turn =>
    cases right with
    | finished other => exact ⟨rfl, rfl, (turn.unique other).2⟩
    | last other | next other rest | upset other => cases (turn.unique other).1
  | upset turn =>
    cases right with
    | upset other =>
      obtain ⟨here, rfl⟩ := turn.unique other
      exact ⟨rfl, congrArg Closing.upset (Stop.upset.inj here).1, rfl⟩
    | last other | next other rest | finished other => cases (turn.unique other).1

/-- A list has one sequence of elements, and one end. -/
theorem Sequence.unique {list : LazyList} {elements others : List Visible} {ending : Closing} {last : Store}
    (left : Sequence context meter store list elements closing after)
    (right : Sequence context meter store list others ending last) (ends : closing ≠ .more)
    (also : ending ≠ .more) : elements = others ∧ closing = ending ∧ after = last := by
  obtain ⟨found, rfl, visits⟩ := sequence_iff.mp left
  obtain ⟨more, rfl, again⟩ := sequence_iff.mp right
  obtain ⟨rfl, same⟩ := visits.unique again ends also
  exact ⟨rfl, same⟩

/-- Behind an element come the other elements of the list, and nothing else. -/
theorem Turn.sequence_iff {cursor rest : Cursor} {element : Visible} {id : ThunkId}
    (turn : Turn context meter store cursor (.item element id rest) middle) {elements : List Visible}
    (proper : elements ≠ [] ∨ closing ≠ .more) :
    Sequence context meter store cursor.rest (element :: elements) closing after ↔
      Sequence context meter middle rest.rest elements closing after := by
  refine ⟨fun sequence => ?_, turn.reads.2 elements closing after⟩
  obtain ⟨found, same, visits⟩ := sequence_rest_iff.mp sequence
  cases visits with
  | last other =>
    -- Nothing is left to look at behind the last element.
    obtain ⟨-, rfl⟩ := List.cons.inj same
    rcases proper with some | ended
    · exact absurd rfl some
    · exact absurd rfl ended
  | next other others =>
    obtain ⟨-, rfl⟩ := List.cons.inj same
    obtain ⟨here, rfl⟩ := turn.unique other
    obtain ⟨rfl, rfl, rfl⟩ := Stop.item.inj here
    exact .of_visits others
  | finished other | upset other => cases same

/-! Elements that stand for what they show. -/

/-- A computation stands for an element: it is the element, or it has its integer as its value. -/
def Store.Shows (store : Store) : Visible → ThunkId → Prop
  | .thunk own, id => id = own
  | .int value, id => store.cell id = .forced (.int value)

/-- What stands for an element goes on to do so. -/
theorem Store.Shows.later {before : Store} {element : Visible} {id : ThunkId}
    (order : before.Precedes after) (stands : before.Shows element id) : after.Shows element id := by
  cases element with
  | thunk own => exact stands
  | int value => exact order.forced stands

/-- The computation that a step comes to stands for the element. -/
theorem Turn.shows {cursor rest : Cursor} {element : Visible} {id : ThunkId}
    (turn : Turn context meter store cursor (.item element id rest) after) :
    after.Shows element id := by
  -- The induction is on steps of all sorts, of which only those to elements are meant.
  generalize reached : Stop.item element id rest = stop at turn
  induction turn with
  | elem found =>
    obtain ⟨rfl, rfl, rfl⟩ := Stop.item.inj reached
    rfl
  | @int store next stop pending more =>
    obtain ⟨rfl, rfl, rfl⟩ := Stop.item.inj reached
    show (store.ready (.int next)).2.cell store.cells.size = _
    rw [Store.ready, Store.cell_alloc, if_pos rfl]
  | concat turn ih => exact ih reached
  | cross used forces turn ih => exact ih reached
  | finished used | fails used fails | noList used forces other => cases reached

/-- The computations that a walk comes to stand for the elements that it passes. -/
theorem Visits.shows {cursor : Cursor} (visits : Visits context meter store cursor found closing after) :
    ∀ pair ∈ found, after.Shows pair.1 pair.2 := by
  induction visits with
  | last turn => exact List.forall_mem_singleton.mpr turn.shows
  | next turn others ih => exact List.forall_mem_cons.mpr ⟨turn.shows.later others.precedes, ih⟩
  | finished turn | upset turn => exact fun _ member => nomatch member

end LazyConfig
