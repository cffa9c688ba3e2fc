import LazyConfig.Proofs.Lists.Semantics
import LazyConfig.Proofs.Lists.Spreads
import LazyConfig.Proofs.Prelude.Map

/-!
The list function `generate`, which maps a function over the integers below a bound. The list has as many
elements as the bound says, and nothing is evaluated to walk it.
-/

namespace LazyConfig.Lists

open Term

variable {context : Context} {meter : DepthMeter} {store middle between after : Store} {env : Env}
  {lists func number first others held : ThunkId} {id : ExprId} {next stop : Int64} {element : Visible}
  {rest : Cursor}

/-! Ranges. -/

/-- The first element of a range is its first integer. -/
theorem sees_range (sees : store.Sees ⟨.range next stop, []⟩ (some (element, rest))) :
    next < stop ∧ element = .int next ∧ rest = ⟨.range (next + 1) stop, []⟩ := by
  cases sees with
  | int more => exact ⟨more, rfl, rfl⟩

/-- A range is at its end where its first integer is not below its bound. -/
theorem passed_of_sees (sees : store.Sees ⟨.range next stop, []⟩ none) : ¬ next < stop := by
  cases sees with
  | finished used => exact used

/-- What a step along a range comes to, which calls no function of the host. -/
theorem turn_range (store : Store) (next stop : Int64) :
    ∃ step after, Turn context meter store ⟨.range next stop, []⟩ step after ∧ store.Extends after ∧
      after.calls = store.calls ∧ (if next < stop
        then step = .item (.int next) store.cells.size ⟨.range (next + 1) stop, []⟩ else step = .finished) := by
  by_cases more : next < stop
  · exact ⟨_, _, .int more, store.ready_extends _, rfl, by rw [if_pos more]⟩
  · exact ⟨_, _, .finished more, .refl store, rfl, by rw [if_neg more]⟩

/-- The elements that are made from a range are made from its integers, one after the other. -/
theorem indices_of_image {items : LazyList} {place : (mapping context lists func).Position}
    {pairs : List ((mapping context lists func).Element × ThunkId)}
    {extent : Source.Extent (mapping context lists func).Position}
    (image : (mapping context lists func).Image context store items place pairs extent)
    (here : place = (⟨.range next stop, []⟩ : Cursor)) (ordered : next.toInt ≤ stop.toInt) :
    next.toInt + pairs.length ≤ stop.toInt ∧
      (extent = .whole → next.toInt + pairs.length = stop.toInt) ∧
      ∀ (index : Nat) (inside : index < pairs.length), ∃ value, (pairs[index]).1 = Visible.int value ∧
        value.toInt = next.toInt + index := by
  -- By induction on the evaluated part: each cell takes the next integer, and the first that is
  -- passed ends it.
  induction image generalizing next with
  | nil ends =>
    subst here
    have passed : ¬ next < stop := passed_of_sees ends
    rw [Int64.lt_iff_toInt_lt] at passed
    exact ⟨by simpa using ordered, fun _ => by simp; omega, nofun⟩
  | last cell =>
    subst here
    obtain ⟨more, rfl, rfl⟩ := sees_range (MapCell.sees cell)
    have less := Int64.lt_iff_toInt_lt.mp more
    refine ⟨by simp; omega, nofun, fun index inside => ?_⟩
    obtain rfl : index = 0 := by simpa using inside
    exact ⟨next, rfl, by simp⟩
  | next cell found image ih =>
    subst here
    obtain ⟨more, rfl, rfl⟩ := sees_range (MapCell.sees cell)
    have less := Int64.lt_iff_toInt_lt.mp more
    have behind := toInt_succ more
    obtain ⟨most, all, each⟩ := ih rfl (by omega)
    refine ⟨by simp; omega, fun whole => by simp; have := all whole; omega, fun index inside => ?_⟩
    cases index with
    | zero => exact ⟨next, rfl, by simp⟩
    | succ index =>
      obtain ⟨value, same, place⟩ := each index (by simpa using inside)
      exact ⟨value, by simpa using same, by omega⟩

/-- All integers of a range are visible. -/
theorem passes_of_range (store : Store) (count : Nat) {next : Int64} (left : next.toInt + count = stop.toInt) :
    ∃ elements last, elements.length = count ∧ store.Passes ⟨.range next stop, []⟩ elements last ∧
      store.Sees last none := by
  -- By induction on the number of integers that are left.
  induction count generalizing next with
  | zero =>
    have passed : ¬ next < stop := by
      rw [Int64.lt_iff_toInt_lt]
      omega
    exact ⟨[], _, rfl, .here, .finished passed⟩
  | succ count ih =>
    have more : next < stop := by
      rw [Int64.lt_iff_toInt_lt]
      omega
    have behind := toInt_succ more
    obtain ⟨elements, last, same, passes, ends⟩ := @ih (next + 1) (by omega)
    exact ⟨_ :: elements, last, congrArg Nat.succ same, .next (.int more) passes, ends⟩

/-- A walk from a cell over a range on comes to as many elements as there are integers in the range. -/
theorem walk_from_cell {store : Store} {first others : ThunkId} {next : Int64}
    (cell : MapCell context lists func store ⟨.range next stop, []⟩ (.int next) ⟨.range (next + 1) stop, []⟩
      first others) {work : Suspension} (waits : store.cell others = .suspended work) (more : next < stop)
    (room : meter.current + 4 ≤ meter.limit) :
    ∃ (ids : List ThunkId) (last : Store), Sequence context meter store (.concat (.ofThunks [first]) others)
        ((first :: ids).map .thunk) .finished last ∧
      next.toInt + (first :: ids).length = stop.toInt ∧ store.Spares others last ∧
      ∀ id ∈ ids, ∃ work, last.cell id = .suspended work := by
  have less := Int64.lt_iff_toInt_lt.mp more
  have behind := toInt_succ more
  obtain ⟨elements, end', count, passes, ends⟩ :=
    passes_of_range store (stop.toInt - (next + 1).toInt).toNat
      (show (next + 1).toInt + _ = stop.toInt by omega)
  obtain ⟨ids, last, sequence, same, spares, idle⟩ := cell.walk waits passes ends room
  exact ⟨ids, last, sequence, by simp; omega, spares, idle⟩

/-- A walk along the list goes on to its end where what is behind the evaluated part is put off. -/
theorem walk_of_image {items : LazyList} {place : (mapping context lists func).Position}
    {pairs : List ((mapping context lists func).Element × ThunkId)}
    {extent : Source.Extent (mapping context lists func).Position}
    (image : (mapping context lists func).Image context store items place pairs extent)
    (here : place = (⟨.range next stop, []⟩ : Cursor)) (ordered : next.toInt ≤ stop.toInt)
    (waiting : extent.Open store) (room : meter.current + 4 ≤ meter.limit) :
    ∃ (ids : List ThunkId) (last : Store) (own : ThunkId),
      Sequence context meter store items (ids.map .thunk) .finished last ∧
      next.toInt + ids.length = stop.toInt ∧ store.Spares own last ∧
      ∀ id ∈ ids, store.cells.size ≤ id → ∃ work, last.cell id = .suspended work := by
  -- By induction on the evaluated part: its cells are there, and behind the last one the walk goes
  -- on by itself.
  induction image generalizing next with
  | nil ends =>
    subst here
    have passed : ¬ next < stop := passed_of_sees ends
    rw [Int64.lt_iff_toInt_lt] at passed
    exact ⟨[], store, 0, .elemEnd rfl, by simp; omega, .refl _ _, nofun⟩
  | @last position rest element first others cell =>
    subst here
    obtain ⟨more, rfl, rfl⟩ := sees_range (MapCell.sees cell)
    obtain ⟨work, waits⟩ := waiting
    obtain ⟨ids, last, sequence, count, spares, idle⟩ := walk_from_cell cell waits more room
    -- An element whose place is new has just been put off by the walk; those of the evaluated part
    -- are older.
    exact ⟨first :: ids, last, others, sequence, count, spares, List.forall_mem_cons.mpr
      ⟨fun new => absurd (MapCell.inside cell) (Nat.not_lt.mpr new), fun id member _ => idle id member⟩⟩
  | @next position rest element first others items pairs extent cell found image ih =>
    subst here
    obtain ⟨more, rfl, rfl⟩ := sees_range (MapCell.sees cell)
    have less := Int64.lt_iff_toInt_lt.mp more
    have behind := toInt_succ more
    obtain ⟨ids, last, own, sequence, count, spares, idle⟩ := ih rfl (by omega) waiting
    refine ⟨first :: ids, last, own, ?_, by simp; omega, spares, List.forall_mem_cons.mpr
      ⟨fun new => absurd (MapCell.inside cell) (Nat.not_lt.mpr new), idle⟩⟩
    exact .right (.elemNext rfl (.elemEnd rfl)) (.of_forced found) sequence

/-! Bounds. -/

/-- What `range` comes to when its argument has come to something. -/
def rangeOutcome (store : Store) : Outcome → Outcome
  | .ok value =>
    match value.asInteger?.filter fun bound => 0 ≤ bound with
    | some bound => .ok (.list (.upTo bound))
    | none => .error (.fault (.badBound (store.quoted value)))
  | .error upset => .error upset

/-- A range asks for its bound. -/
theorem brings_range (reads : context.Reads (.prim .range (.var "n")) id)
    (binds : context.Binds env "n" number) {found : Outcome}
    (brings : Brings context meter store (.force number) found middle) :
    Brings context meter store (.eval id env) (rangeOutcome middle found) middle := by
  have asked : State.step context ⟨store, meter, .run .range [number], []⟩ =
      ⟨store, meter, .force number, [.bound]⟩ := rfl
  refine .step (reads.step_prim binds rfl []) (.step asked ((brings.above [.bound]).trans (.step ?_ (.refl _))))
  cases found with
  | error upset => rfl
  | ok value =>
    simp only [State.step, Control.passing, Context.giveStep, rangeOutcome]
    cases value.asInteger?.filter fun bound => 0 ≤ bound <;> rfl

/-- A list that has been made for the integers below a bound: the end, or a new cell for the first one. -/
def Generated (context : Context) (lists func : ThunkId) (stop : Int64) (items : LazyList) (store : Store) :
    Prop :=
  (¬ 0 < stop ∧ items = .ofThunks []) ∨ 0 < stop ∧ ∃ first others,
    items = .concat (.ofThunks [first]) others ∧ first ≠ others ∧
    (mapping context lists func).Fresh store (⟨.upTo stop, []⟩ : Cursor) (Visible.int 0)
      (⟨.range (0 + 1) stop, []⟩ : Cursor) first others

/-- The body of `generate` asks for the number, and then makes the first cell of the list. -/
theorem Scope.generates {body : ExprId}
    (scope : Scope context generateBody [("n", number), ("f", func), ("lists", lists)] body env)
    (evaluated : Evaluated context store lists) (room : meter.current + 4 ≤ meter.limit) :
    ∃ own begun, store.Extends begun ∧ begun.calls = store.calls ∧ store.cells.size ≤ own ∧
      ∀ found middle, Brings context (meter.below 3) begun (.force number) found middle →
        (∀ failure, rangeOutcome middle found = .error failure → ∃ after,
          Brings context meter store (.eval body env) (.error failure) after ∧ middle.Spares own after) ∧
        ∀ stop, rangeOutcome middle found = .ok (.list (.upTo stop)) → ∃ items after,
          Brings context meter store (.eval body env) (.ok (.list items)) after ∧
          Generated context lists func stop items after ∧ middle.Spares own after := by
  obtain ⟨arg, start, inside, ready, reads, grown, calls, held, inner, goes⟩ :=
    goesTo_map scope.reads evaluated (scope.binds ("lists", lists) (by simp))
      (scope.binds ("f", func) (by simp)) (show meter.current + 2 < meter.limit by omega)
  have bound := scope.binds ("n", number) (by simp)
  -- The range of the number gets the next place and is asked for before the first cell is made.
  refine ⟨store.cells.size, ready.set store.cells.size .inProgress,
    (Store.Spares.set ready _ _).extends grown (Nat.le_refl _), calls, Nat.le_refl _, fun found middle brings => ?_⟩
  have deeper : (meter.below 2).current < (meter.below 2).limit := by
    simp only [DepthMeter.below]
    omega
  have room' : meter.current + 2 ≤ meter.limit := by omega
  have list : Brings context (meter.below 2) ready (.force store.cells.size) (rangeOutcome middle found)
      (middle.set store.cells.size (.ended (rangeOutcome middle found))) :=
    .of_work held (Brings.enter deeper (brings_range reads bound brings))
  -- Whatever the range comes to decides: a failure is passed on, and the integers of a range are
  -- mapped.
  generalize rangeOutcome middle found = outcome at list
  refine ⟨fun failure same => ?_, fun stop same => ?_⟩
  · subst same
    exact ⟨_, goes.trans (inner.map_fails room' list), Store.Spares.set _ _ _⟩
  · subst same
    obtain ⟨step, between, turn, added, silent, decided⟩ := @turn_range context (meter.below 1)
      (middle.set store.cells.size (.ended (.ok (.list (.upTo stop))))) 0 stop
    have forces : ForcesTo context (meter.below 2) ready store.cells.size
        (.list (Cursor.rest ⟨.upTo stop, []⟩)) (middle.set store.cells.size (.ended (.ok (.list (.upTo stop))))) :=
      list
    obtain ⟨outcome, after, made, whole⟩ :=
      inner.brings_map (evaluated.later grown.precedes) room' forces turn
    obtain ⟨grown', calls'⟩ := made.grown
    have spares : middle.Spares store.cells.size after :=
      (Store.Spares.set middle _ _).trans (.of_extends (added.trans grown') (calls'.trans silent))
    -- Of a range that is not empty the first cell is made; the list of an empty one is empty.
    by_cases more : 0 < stop
    · rw [if_pos more] at decided
      subst decided
      obtain ⟨first, others, rfl, makes⟩ := Source.Step.of_item made
      exact ⟨_, after, goes.trans whole, .inr ⟨more, first, others, rfl, makes.apart, makes.fresh⟩, spares⟩
    · rw [if_neg more] at decided
      subst decided
      obtain ⟨rfl, rfl⟩ := Source.Step.of_finished made
      exact ⟨_, _, goes.trans whole, .inl ⟨more, rfl⟩, spares⟩

/--
A walk along a list goes to its end and comes to as many elements as a bound says, which is the length. It
evaluates nothing but one right part that was there; elements of a given kind are still put off behind it.
-/
def Walks (context : Context) (store : Store) (items : LazyList) (bound : Int64) (idle : ThunkId → Prop) :
    Prop :=
  ∀ meter : DepthMeter, meter.current + 4 ≤ meter.limit →
    ∃ (ids : List ThunkId) (last : Store) (own : ThunkId),
      Sequence context meter store items (ids.map .thunk) .finished last ∧
      (ids.length : Int) = bound.toInt ∧ store.Spares own last ∧
      (∀ id ∈ ids, idle id → ∃ work, last.cell id = .suspended work) ∧
      ∀ stack, State.GoesTo context ⟨store, meter, .give (.list items), .walk .length (.count 0) :: stack⟩
        ⟨last, meter, .give (.int bound), stack⟩

/-- The number of elements of a list for the integers below a bound is the bound. -/
theorem fit_of_count {count : Nat} {bound : Int64} (same : (count : Int) = bound.toInt) :
    fit? count = some bound := by
  have low := Int64.minValue_le_toInt bound
  have high := Int64.toInt_le bound
  rw [same, fit?, if_pos ⟨low, high⟩, Int64.ofInt_toInt]

/-- The length of a list is the number of elements that a walk comes to. -/
theorem goesTo_length {items : LazyList} {ids : List ThunkId} {last : Store}
    (sequence : Sequence context meter store items (ids.map .thunk) .finished last)
    (count : (ids.length : Int) = stop.toInt) (stack : List Frame) :
    State.GoesTo context ⟨store, meter, .give (.list items), .walk .length (.count 0) :: stack⟩
      ⟨last, meter, .give (.int stop), stack⟩ := by
  have length := (primitivesRead context meter store items).length _ last sequence stack
  rw [List.length_map, fit_of_count count] at length
  exact length

/-- A walk along a list that has just been made evaluates no element. -/
theorem Generated.walks {items : LazyList} (generated : Generated context lists func stop items store)
    (ordered : 0 ≤ stop) : Walks context store items stop fun _ => True := by
  have low : (0 : Int64).toInt ≤ stop.toInt := Int64.le_iff_toInt_le.mp ordered
  have zero : (0 : Int64).toInt = 0 := rfl
  intro meter room
  -- The list is empty, or its first cell is there and what is behind it is put off.
  rcases generated with ⟨passed, rfl⟩ | ⟨more, first, others, rfl, apart, fresh⟩
  · have sequence : Sequence context meter store (.ofThunks []) ([].map .thunk) .finished store := .elemEnd rfl
    have count : ((0 : Nat) : Int) = stop.toInt := by
      rw [Int64.lt_iff_toInt_lt] at passed
      omega
    exact ⟨[], store, 0, sequence, count, .refl _ _, nofun, goesTo_length sequence count⟩
  · obtain ⟨work, waits⟩ := fresh.others
    obtain ⟨work', own⟩ := fresh.first
    obtain ⟨ids, last, sequence, count, spares, idle⟩ := walk_from_cell fresh.cell waits more room
    have number : ((first :: ids).length : Int) = stop.toInt := by omega
    refine ⟨_, last, others, sequence, number, spares, List.forall_mem_cons.mpr ⟨fun _ => ⟨work', ?_⟩,
      fun id member _ => idle id member⟩, goesTo_length sequence number⟩
    rw [spares.cells first (Store.lt_size_of_cell own nofun) apart, own]

/-- What is said about a list for the integers below a bound at a later moment of a session. -/
structure Enumerates (context : Context) (moment later : Moment) (lists func : ThunkId) (bound : Int64)
    (items : LazyList) (pairs : List (Visible × ThunkId)) (extent : Source.Extent Cursor) : Prop where
  image : (mapping context lists func).Image context later.store items (⟨.upTo bound, []⟩ : Cursor) pairs extent
  /-- The elements in the evaluated part are found without evaluating anything. -/
  found : ∀ meter, Sequence context meter later.store items (pairs.map fun pair => .thunk pair.2)
    extent.closing later.store
  most : (pairs.length : Int) ≤ bound.toInt
  all : extent = .whole → (pairs.length : Int) = bound.toInt
  /-- Each element stands for the application of the function to its index. -/
  stands : ∀ (index : Nat) (inside : index < pairs.length), ∃ value : Int64, value.toInt = index ∧
    context.StandsFor moment later func [.int value] (pairs[index]).2
  /-- Where what is behind the evaluated part has not been asked for, a walk puts off what it adds. -/
  walk : extent.Open later.store →
    Walks context later.store items bound fun id => later.store.cells.size ≤ id

/-- What a use of `generate` comes to, for the computations of its operands. -/
structure Generates (context : Context) (meter : DepthMeter) (store : Store) (env : Env) (id : ExprId)
    (lists func number own : ThunkId) (begun : Store) : Prop where
  /-- A number that goes wrong is what the use goes wrong with. -/
  fails : ∀ {failure middle}, FailsWith context (meter.below 3) begun number failure middle →
    ∃ after, Brings context meter store (.eval id env) (.error failure) after ∧ middle.Spares own after
  /-- What is no whole number, and a negative one, is refused by `range`. -/
  refused : ∀ {value middle}, ForcesTo context (meter.below 3) begun number value middle →
    (∀ bound, value.asInteger? = some bound → bound < 0) → ∃ after,
      Brings context meter store (.eval id env) (.error (.fault (.badBound (middle.quoted value)))) after ∧
      middle.Spares own after
  /-- Of any other number a list is made, as is said about it at every later moment of a session. -/
  made : ∀ {value middle bound}, ForcesTo context (meter.below 3) begun number value middle →
    value.asInteger? = some bound → 0 ≤ bound → ∃ items after,
      Brings context meter store (.eval id env) (.ok (.list items)) after ∧ middle.Spares own after ∧
      Walks context after items bound (fun _ => True) ∧ ∀ moment later : Moment, moment.context = context → moment.store = after →
        WellNested moment.store moment.state.stack → moment.Onward later →
        ∃ pairs extent, Enumerates context moment later lists func bound items pairs extent

/-- A list that has just been made for the integers below a bound is as said from then on. -/
theorem Generated.enumerates {items : LazyList} {moment later : Moment}
    (generated : Generated context lists func stop items moment.store) (ordered : 0 ≤ stop)
    (same : moment.context = context) (nested : WellNested moment.store moment.state.stack)
    (onward : moment.Onward later) :
    ∃ pairs extent, Enumerates context moment later lists func stop items pairs extent := by
  have low : (0 : Int64).toInt ≤ stop.toInt := Int64.le_iff_toInt_le.mp ordered
  obtain ⟨pairs, extent, image, stands⟩ : ∃ (pairs : List (Visible × ThunkId)) (extent : Source.Extent Cursor),
      (mapping context lists func).Image context later.store items (⟨.upTo stop, []⟩ : Cursor) pairs extent ∧
      ∀ pair ∈ pairs, context.StandsFor moment later func [pair.1] pair.2 := by
    -- An empty list stays as it is, and a first cell begins a list that is mapped.
    rcases generated with ⟨passed, rfl⟩ | ⟨more, first, others, rfl, -, fresh⟩
    · have ends : later.store.Sees ⟨.upTo stop, []⟩ none := .finished passed
      exact ⟨[], .whole, .nil ends, nofun⟩
    · obtain ⟨pairs, extent, -, image, -, -, -, -, stands⟩ := (mapped context lists func).session same nested onward fresh
      exact ⟨pairs, extent, image, stands⟩
  have counted := indices_of_image image rfl low
  have zero : (0 : Int64).toInt = 0 := rfl
  have most : (0 : Int64).toInt + (pairs.length : Int) ≤ stop.toInt := counted.1
  refine ⟨pairs, extent, image, fun meter => image.sequence, by omega, fun whole => ?_,
    fun index inside => ?_, fun waiting meter room => ?_⟩
  · have all : (0 : Int64).toInt + (pairs.length : Int) = stop.toInt := counted.2.1 whole
    omega
  · obtain ⟨value, shown, place⟩ := counted.2.2 index inside
    exact ⟨value, by omega, shown ▸ stands _ (List.getElem_mem inside)⟩
  · obtain ⟨ids, last, own, sequence, count, spares, idle⟩ := walk_of_image image rfl low waiting room
    have number : (ids.length : Int) = stop.toInt := by omega
    exact ⟨ids, last, own, sequence, number, spares, idle, goesTo_length sequence number⟩

/-- A use of `generate` puts off its operands and asks for the number. -/
theorem InScope.generates (scope : InScope context store lists) (binds : context.Binds env "lists" lists)
    {first second : ExprId} (uses : UsesTwo context "generate" first second id)
    (room : meter.current + 4 ≤ meter.limit) :
    ∃ func number ready own begun, PlacesTwo context lists env first second store func number ready ∧
      ready.Extends begun ∧ begun.calls = ready.calls ∧ ready.cells.size ≤ own ∧
      Generates context meter store env id lists func number own begun := by
  have member : ("generate", fn "f" (fn "n" generateBody)) ∈ members := by simp [members]
  obtain ⟨func, number, ready, start, inner, places, evaluated, body, goes⟩ :=
    scope.goesTo_use binds member (by decide) (by decide) (by decide) uses room
  obtain ⟨own, begun, grown, calls, added, comes⟩ := body.generates evaluated room
  refine ⟨func, number, ready, own, begun, places, grown, calls, added, fun {failure middle} fails => ?_,
    fun {value middle} forces refused => ?_, fun {value middle bound} forces shown ordered => ?_⟩
  · -- The number fails; it is no number that a range takes; or the range is mapped.
    have found : Brings context (meter.below 3) begun (.force number) (.error failure) middle := fails
    obtain ⟨after, brings, spares⟩ := (comes _ _ found).1 failure rfl
    exact ⟨after, (goes []).trans brings, spares⟩
  · have found : Brings context (meter.below 3) begun (.force number) (.ok value) middle := forces
    have none : (value.asInteger?.filter fun bound => 0 ≤ bound) = none := by
      rw [Option.filter_eq_none_iff]
      intro bound shown
      simpa using Int64.not_le.mpr (refused bound shown)
    obtain ⟨after, brings, spares⟩ := (comes _ _ found).1 (.fault (.badBound (middle.quoted value)))
      (by simp [rangeOutcome, none])
    exact ⟨after, (goes []).trans brings, spares⟩
  · have found : Brings context (meter.below 3) begun (.force number) (.ok value) middle := forces
    obtain ⟨items, after, brings, generated, spares⟩ := (comes _ _ found).2 bound
      (by simp [rangeOutcome, shown, Option.filter, ordered])
    refine ⟨items, after, (goes []).trans brings, spares, generated.walks ordered,
      fun moment later same here nested onward => ?_⟩
    subst here
    exact generated.enumerates ordered same nested onward

end LazyConfig.Lists
