import LazyConfig.Proofs.Lists.Reading

/-!
The primitives on lists. Each is a walk along its list that comes to the elements in order; where it has
passed enough of them it asks for one, gives the rest or a number, or fails.
-/

namespace LazyConfig

variable {context : Context} {meter : DepthMeter} {store middle after : Store} {list : LazyList}
  {passed more : List Visible} {closing : Closing} {cursor last : Cursor} {count : Nat}

/-! Walks. -/

/-- A number of steps that all come to elements. -/
inductive Walk (context : Context) (meter : DepthMeter) : Store → Cursor → Nat → Cursor → Store → Prop
  | none {store : Store} {cursor : Cursor} : Walk context meter store cursor 0 cursor store
  | next {store middle after : Store} {cursor rest last : Cursor} {element : Visible} {id : ThunkId}
    {count : Nat} (turn : Turn context meter store cursor (.item element id rest) middle)
    (others : Walk context meter middle rest count last after) :
    Walk context meter store cursor (count + 1) last after

/-- A purpose of a walk that is the same with one more element passed, as long as not all are. -/
def GoesOn (graph : TypeGraph) (purpose : Nat → Consumer) (limit : Nat) : Prop :=
  ∀ passed < limit, ∀ store meter id rest stack,
    Context.consumeStep graph store meter (purpose passed) (some id) rest stack =
      ⟨store, meter, .advance rest (purpose (passed + 1)), stack⟩

/-- The evaluator walks on while the purpose of the walk is to pass elements. -/
theorem Walk.goesTo (walk : Walk context meter store cursor count last after)
    {purpose : Nat → Consumer} {limit : Nat} (further : GoesOn context.annotations.graph purpose limit)
    (before : Nat) (enough : before + count ≤ limit) (stack : List Frame) :
    State.GoesTo context ⟨store, meter, .advance cursor (purpose before), stack⟩
      ⟨after, meter, .advance last (purpose (before + count)), stack⟩ := by
  induction walk generalizing before with
  | none => exact .refl _
  | @next store middle after cursor rest last element id count turn others ih =>
    -- One step comes to an element, and the walk is at the position behind it.
    have here := turn.goesTo (purpose before) stack
    rw [Context.stopStep, further before (by omega)] at here
    have beyond := ih (before + 1) (by omega)
    rw [show before + 1 + count = before + (count + 1) by omega] at beyond
    exact here.trans beyond

/-- Where there are elements, steps come to them. -/
theorem Sequence.walk (sequence : Sequence context meter store cursor.rest (passed ++ more) closing after)
    (proper : more ≠ [] ∨ closing ≠ .more) :
    ∃ last middle, Walk context meter store cursor passed.length last middle ∧
      Sequence context meter middle last.rest more closing after := by
  induction passed generalizing store cursor with
  | nil => exact ⟨cursor, store, .none, sequence⟩
  | cons element passed ih =>
    have longer : passed ++ more ≠ [] ∨ closing ≠ .more :=
      proper.imp_left (List.append_ne_nil_of_right_ne_nil passed)
    obtain ⟨found, same, visits⟩ := sequence_rest_iff.mp sequence
    cases visits with
    | last turn =>
      -- A walk that stops here has nothing behind the element, but more is to come.
      obtain ⟨-, none⟩ := List.cons.inj same
      exact absurd rfl (longer.resolve_left fun some => some none.symm)
    | next turn others =>
      obtain ⟨-, rest⟩ := List.cons.inj same
      obtain ⟨last, middle, walk, behind⟩ := ih (sequence_rest_iff.mpr ⟨_, rest, others⟩)
      exact ⟨last, middle, .next turn walk, behind⟩
    | finished turn | upset turn => cases same

/-- The first element is what a step comes to. -/
theorem Sequence.item {element : Visible}
    (sequence : Sequence context meter store cursor.rest [element] .more after) :
    ∃ id rest, Turn context meter store cursor (.item element id rest) after := by
  obtain ⟨found, same, visits⟩ := sequence_rest_iff.mp sequence
  cases visits with
  | last turn =>
    obtain ⟨rfl, -⟩ := List.cons.inj same
    exact ⟨_, _, turn⟩
  | next turn others =>
    obtain ⟨-, none⟩ := List.cons.inj same
    cases others <;> cases none

/-- At the end of a list a step comes to the end. -/
theorem Sequence.finished (sequence : Sequence context meter store cursor.rest [] .finished after) :
    Turn context meter store cursor .finished after := by
  obtain ⟨found, same, visits⟩ := sequence_rest_iff.mp sequence
  cases visits with
  | finished turn => exact turn
  | next turn others => cases same

/-- At a right part that goes wrong a step goes wrong. -/
theorem Sequence.upset {failure : Upset}
    (sequence : Sequence context meter store cursor.rest [] (.upset failure) after) :
    ∃ left, Turn context meter store cursor (.upset failure left) after := by
  obtain ⟨found, same, visits⟩ := sequence_rest_iff.mp sequence
  cases visits with
  | upset turn => exact ⟨_, turn⟩
  | next turn others => cases same

/-- What has been looked at is there for every later look, on any level. -/
theorem Sequence.again {elements : List Visible}
    (sequence : Sequence context meter store list elements closing after)
    (good : closing = .more ∨ closing = .finished) (level : DepthMeter) {later : Store}
    (order : after.Precedes later) :
    ∃ last, Sequence context level later list elements closing last := by
  -- The look is taken again branch by branch; only the numbers of ranges get new computations.
  induction sequence generalizing later with
  | elemEnd none => exact ⟨later, .elemEnd none⟩
  | elemLast found => exact ⟨later, .elemLast found⟩
  | elemNext found rest ih =>
    obtain ⟨last, rest⟩ := ih good order
    exact ⟨last, .elemNext found rest⟩
  | rangeEnd passed => exact ⟨later, .rangeEnd passed⟩
  | rangeLast more => exact ⟨_, .rangeLast more⟩
  | rangeNext more rest ih =>
    obtain ⟨last, rest⟩ := ih good (order.trans (Store.ready_extends ..).precedes)
    exact ⟨last, .rangeNext more rest⟩
  | left front within ih =>
    obtain ⟨last, front⟩ := ih good order
    exact ⟨last, .left front within⟩
  | right front forces back ihl ihr =>
    -- The right part has its value by now, and so it has at the end of the left one.
    obtain ⟨found, before⟩ := forces.forced
    have beyond := back.precedes.trans order
    obtain ⟨between, front⟩ := ihl (.inr rfl) (before.trans beyond)
    have known := front.precedes
    obtain ⟨last, back⟩ := ihr good (order.trans known)
    exact ⟨last, .right front (.of_forced (known.forced (beyond.forced found))) back⟩
  -- A look that went wrong is not one of those that are repeated.
  | fails front fails | noList front forces other => rcases good with other | other <;> cases other

/-! Primitives on an evaluated list. -/

section

variable (context : Context) (meter : DepthMeter)

/-- The rest of the rest and so on of a list, as `tail` gives it. -/
inductive Tails : Store → LazyList → Nat → LazyList → Store → Prop
  | none {store : Store} {list : LazyList} : Tails store list 0 list store
  | tail {store middle after : Store} {list rest last : LazyList} {count : Nat}
    (taken : ∀ stack, State.GoesTo context ⟨store, meter, .give (.list list), .walk .tail .tail :: stack⟩
      ⟨middle, meter, .give (.list rest), stack⟩)
    (others : Tails middle rest count last after) : Tails store list (count + 1) last after

end

/-- A primitive on what a cursor has left does what a walk from the cursor does. -/
theorem walk_goesTo (cursor : Cursor) (op : Builtin) (consumer : Consumer) (stack : List Frame) :
    State.GoesTo context ⟨store, meter, .give (.list cursor.rest), .walk op consumer :: stack⟩
      ⟨store, meter, .advance cursor consumer, stack⟩ := by
  refine .step rfl ⟨cursor.pending.length, ?_⟩
  have back := @run_rest context store meter consumer stack cursor.pending [] cursor.front
  rwa [List.append_nil] at back

/-- Steps along a list are what the repeated use of `tail` takes. -/
theorem Walk.tails (walk : Walk context meter store cursor count last after) :
    Tails context meter store cursor.rest count last.rest after := by
  induction walk with
  | none => exact .none
  | next turn others ih =>
    exact .tail (fun stack => (walk_goesTo _ _ _ stack).trans (turn.goesTo .tail stack)) ih

/-- `head` asks for the first element. -/
theorem Turn.head {element : Visible} {id : ThunkId} {rest : Cursor}
    (turn : Turn context meter store cursor (.item element id rest) after) (stack : List Frame) :
    State.GoesTo context ⟨store, meter, .give (.list cursor.rest), .walk .head .head :: stack⟩
      ⟨after, meter, .force id, stack⟩ :=
  (walk_goesTo _ _ _ stack).trans (turn.goesTo .head stack)

/-- A walk goes wrong where a right part does, whatever it is for. -/
theorem Turn.raises {failure : Upset} {left : List ThunkId}
    (turn : Turn context meter store cursor (.upset failure left) after) {consumer : Consumer}
    (inside : consumer ≠ .report) (stack : List Frame) :
    State.GoesTo context ⟨store, meter, .advance cursor consumer, stack⟩
      ⟨after, meter, .raise failure, stack⟩ := by
  refine (turn.goesTo consumer stack).trans (.step ?_ (.refl _))
  cases consumer with
  | report => exact absurd rfl inside
  | _ => rfl

/-- Counting passes any number of elements. -/
theorem goesOn_count (graph : TypeGraph) (limit : Nat) : GoesOn graph .count limit :=
  fun _ _ _ _ _ _ _ => rfl

/-- Counting for a failure passes any number of elements. -/
theorem goesOn_outOfBounds (graph : TypeGraph) (index : Int64) (limit : Nat) :
    GoesOn graph (.outOfBounds index) limit :=
  fun _ _ _ _ _ _ _ => rfl

/-- Looking for a position passes the elements in front of it. -/
theorem goesOn_elemAt (graph : TypeGraph) (list : LazyList) (index : Int64) (ahead : Nat) :
    GoesOn graph (fun passed => .elemAt list index (ahead - passed)) ahead := by
  intro passed less store meter id rest stack
  -- With something left to pass, the purpose is a successor, which the rule counts down.
  obtain ⟨more, rfl⟩ : ∃ more, ahead = passed + 1 + more := ⟨ahead - (passed + 1), by omega⟩
  have here : passed + 1 + more - passed = more + 1 := by omega
  have next : passed + 1 + more - (passed + 1) = more := by omega
  simp only [here, next]
  rfl

/-- A walk that passes all elements comes to the end. -/
theorem Sequence.goesTo_end
    (sequence : Sequence context meter store list passed .finished after) {purpose : Nat → Consumer}
    {limit : Nat} (further : GoesOn context.annotations.graph purpose limit)
    (enough : passed.length ≤ limit) (stack : List Frame) :
    State.GoesTo context ⟨store, meter, .advance list.cursor (purpose 0), stack⟩
      (Context.consumeStep context.annotations.graph after meter (purpose passed.length) none
        (.before []) stack) := by
  -- The walk passes all elements, and nothing but the end is behind them.
  have whole : Sequence context meter store list.cursor.rest (passed ++ []) .finished after :=
    (List.append_nil passed).symm ▸ sequence
  obtain ⟨last, middle, walk, behind⟩ := whole.walk (.inr nofun)
  have passes := walk.goesTo further 0 (by omega) stack
  rw [Nat.zero_add] at passes
  exact passes.trans (behind.finished.goesTo _ stack)

/-- A walk that passes elements goes wrong where a right part does. -/
theorem Sequence.goesTo_upset {failure : Upset}
    (sequence : Sequence context meter store list passed (.upset failure) after)
    {purpose : Nat → Consumer} {limit : Nat}
    (further : GoesOn context.annotations.graph purpose limit) (enough : passed.length ≤ limit)
    (inside : ∀ count, purpose count ≠ .report) (stack : List Frame) :
    State.GoesTo context ⟨store, meter, .advance list.cursor (purpose 0), stack⟩
      ⟨after, meter, .raise failure, stack⟩ := by
  have whole : Sequence context meter store list.cursor.rest (passed ++ []) (.upset failure) after :=
    (List.append_nil passed).symm ▸ sequence
  obtain ⟨last, middle, walk, behind⟩ := whole.walk (.inr nofun)
  obtain ⟨left, turn⟩ := behind.upset
  have passes := walk.goesTo further 0 (by omega) stack
  rw [Nat.zero_add] at passes
  exact passes.trans (turn.raises (inside _) stack)

section

variable {index : Value} {n : Int64}

/-- A number that is not negative starts a walk to the position. -/
theorem index_goesTo (integer : index.asInteger? = some n) (positive : 0 ≤ n.toInt)
    (stack : List Frame) :
    State.GoesTo context ⟨store, meter, .give index, .index list :: stack⟩
      ⟨store, meter, .advance list.cursor (.elemAt list n n.toInt.toNat), stack⟩ := by
  have least : ¬ n < 0 := by
    rw [Int64.lt_iff_toInt_lt]
    exact Int.not_lt.mpr positive
  refine .step ?_ (.refl _)
  simp [State.step, Context.giveStep, integer, least]

/-- A negative number starts a walk that finds the length. -/
theorem index_goesTo_outOfBounds (integer : index.asInteger? = some n) (negative : n.toInt < 0)
    (stack : List Frame) :
    State.GoesTo context ⟨store, meter, .give index, .index list :: stack⟩
      ⟨store, meter, .advance list.cursor (.outOfBounds n 0), stack⟩ := by
  have less : n < 0 := Int64.lt_iff_toInt_lt.mpr negative
  refine .step ?_ (.refl _)
  simp [State.step, Context.giveStep, integer, less]

/--
At a position within the list, `elemAt` asks for the element, and so does `head` of what is left when
`tail` was used as often as there are elements in front of it.
-/
theorem Sequence.elemAt {element : Visible}
    (sequence : Sequence context meter store list (passed ++ [element]) .more after)
    (integer : index.asInteger? = some n) (here : n.toInt = passed.length) :
    ∃ id rest middle, after.Shows element id ∧ Tails context meter store list passed.length rest middle ∧
      ∀ stack,
        State.GoesTo context ⟨store, meter, .give index, .index list :: stack⟩
          ⟨after, meter, .force id, stack⟩ ∧
        State.GoesTo context ⟨middle, meter, .give (.list rest), .walk .head .head :: stack⟩
          ⟨after, meter, .force id, stack⟩ := by
  obtain ⟨last, middle, walk, behind⟩ :=
    @Sequence.walk _ _ _ _ passed [element] .more list.cursor sequence (.inl (List.cons_ne_nil _ _))
  obtain ⟨id, rest, turn⟩ := behind.item
  refine ⟨id, last.rest, middle, turn.shows, walk.tails, fun stack => ⟨?_, turn.head stack⟩⟩
  -- The walk passes the elements in front, and then it is at the one that is looked for.
  have far : n.toInt.toNat = passed.length := by omega
  have passes := walk.goesTo (goesOn_elemAt _ list n passed.length) 0 (by omega) stack
  simp only [Nat.sub_zero, Nat.zero_add, Nat.sub_self] at passes
  have starts := @index_goesTo context meter store list index n integer (by omega) stack
  rw [far] at starts
  exact (starts.trans passes).trans (turn.goesTo _ stack)

/-- Anywhere else in a list that comes to an end, `elemAt` fails and names the length. -/
theorem Sequence.elemAt_outOfBounds
    (sequence : Sequence context meter store list passed .finished after)
    (integer : index.asInteger? = some n) (outside : n.toInt < 0 ∨ passed.length ≤ n.toInt) :
    ∃ last, ∀ stack, State.GoesTo context ⟨store, meter, .give index, .index list :: stack⟩
      ⟨last, meter, .fail (.indexOutOfBounds n passed.length), stack⟩ := by
  rcases outside with negative | beyond
  · -- The list is walked once, for its length alone.
    refine ⟨after, fun stack => ?_⟩
    exact (index_goesTo_outOfBounds integer negative stack).trans
      (sequence.goesTo_end (goesOn_outOfBounds _ n passed.length) (Nat.le_refl _) stack)
  · -- The list is walked twice, and the second time it has the same elements.
    obtain ⟨last, again⟩ := sequence.again (.inr rfl) meter (.refl after)
    refine ⟨last, fun stack => ?_⟩
    have first := sequence.goesTo_end (goesOn_elemAt _ list n n.toInt.toNat) (by omega) stack
    have second := again.goesTo_end (goesOn_outOfBounds _ n passed.length) (Nat.le_refl _) stack
    have short : Context.consumeStep context.annotations.graph after meter
        (.elemAt list n (n.toInt.toNat - passed.length)) none (.before []) stack =
          ⟨after, meter, .advance list.cursor (.outOfBounds n 0), stack⟩ := by
      cases n.toInt.toNat - passed.length <;> rfl
    rw [short] at first
    exact ((index_goesTo integer (by omega) stack).trans first).trans second

/-- Where a right part goes wrong behind too few elements, `elemAt` goes wrong. -/
theorem Sequence.elemAt_upset {failure : Upset}
    (sequence : Sequence context meter store list passed (.upset failure) after)
    (integer : index.asInteger? = some n) (outside : n.toInt < 0 ∨ passed.length ≤ n.toInt)
    (stack : List Frame) :
    State.GoesTo context ⟨store, meter, .give index, .index list :: stack⟩
      ⟨after, meter, .raise failure, stack⟩ := by
  rcases outside with negative | beyond
  · exact (index_goesTo_outOfBounds integer negative stack).trans
      (sequence.goesTo_upset (goesOn_outOfBounds _ n passed.length) (Nat.le_refl _) nofun stack)
  · exact (index_goesTo integer (by omega) stack).trans
      (sequence.goesTo_upset (goesOn_elemAt _ list n n.toInt.toNat) (by omega) nofun stack)

end

end LazyConfig
