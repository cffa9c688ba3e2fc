import LazyConfig.Proofs.Lists.Productions
import LazyConfig.Proofs.Prelude.Around
import LazyConfig.Proofs.Prelude.Cells
import LazyConfig.Proofs.Prelude.Elements
import LazyConfig.Proofs.Prelude.Walks

/-!
The list function `map`. A call takes one step along its list and gives the end of the list or a cell; what
is behind the cell is another such call. So the given list is made one cell at a time from the other one.
-/

namespace LazyConfig

/-- What a step along a list comes to, as a look at the position. -/
def Stop.look : Stop → Look Visible Cursor
  | .item element _ rest => .item element rest
  | .finished => .finished
  | .upset failure _ => .upset failure

namespace Lists

open Term

/-- The calls that `map` puts off for a cell: one for the element and one for what is behind it. -/
structure MapCode (context : Context) (lists func list : ThunkId) (env : Env) (call again : ExprId) :
    Prop where
  call : context.Reads (app (var "f") (prim .head (var "l"))) call
  again : context.Reads (app (app (memberTerm "map") (var "f")) (prim .tail (var "l"))) again
  binds : ∀ var ∈ [("l", list), ("f", func), ("lists", lists)], context.Binds env var.1 var.2

/-- A cell of a mapped list, for a position of the other list that shows its element. -/
structure MapCell (context : Context) (lists func : ThunkId) (store : Store) (position : Cursor)
    (element : Visible) (rest : Cursor) (first others : ThunkId) : Prop where
  evaluated : Evaluated context store lists
  sees : store.Sees position (some (element, rest))
  work : ∃ list env call again, MapCode context lists func list env call again ∧
    store.cell list = .forced (.list position.rest) ∧ store.Begun first (.expr call env) ∧
    store.Begun others (.expr again env)

/-- What a mapped list is made from: the positions of the other list. -/
def mapping (context : Context) (lists func : ThunkId) : Source where
  Position := Cursor
  Element := Visible
  Looks context meter before position look after :=
    ∃ stop, Turn context meter before position stop after ∧ look = stop.look
  Ends store position := store.Sees position none
  Cell := MapCell context lists func
  looks_precedes looks := by
    obtain ⟨stop, turn, -⟩ := looks
    exact turn.precedes
  ends_of_looks looks := by
    obtain ⟨stop, turn, same⟩ := looks
    cases stop with
    | finished => exact turn.sees_finished
    | item | upset => cases same
  ends_later order ends := ends.later order
  cell_later order cell := by
    obtain ⟨evaluated, sees, list, env, call, again, code, found, first, others⟩ := cell
    exact ⟨evaluated.later order, sees.later order, list, env, call, again, code, order.forced found,
      first.later order, others.later order⟩

variable {context : Context} {meter : DepthMeter} {store middle between : Store} {env : Env}
  {lists func list first others : ThunkId} {body id : ExprId} {position rest : Cursor} {element : Visible}
  {stop : Stop}

/-- The values for the variables of the body of `map`. -/
def mapVars (lists func list : ThunkId) : List (String × ThunkId) :=
  [("l", list), ("f", func), ("lists", lists)]

/-- The body of `map` takes one step along its list. -/
theorem Scope.brings_map (scope : Scope context mapBody (mapVars lists func list) body env)
    (evaluated : Evaluated context store lists) (room : meter.current + 2 ≤ meter.limit)
    (forces : ForcesTo context (meter.below 2) store list (.list position.rest) middle)
    (turn : Turn context (meter.below 1) middle position stop between) :
    ∃ outcome after, (mapping context lists func).Step between position stop.look outcome after ∧
      Brings context meter store (.eval body env) outcome after := by
  obtain ⟨decide, item, behind, code⟩ := cellCode_of_reads (mapBody_eq ▸ scope.reads)
  have putItem (store : Store) : context.suspend store item env = store.suspend (.expr item env) := by
    obtain ⟨left, right, node, -⟩ := code.call
    exact suspend_apply node store env
  have putBehind (store : Store) :
      context.suspend store behind env = store.suspend (.expr behind env) := by
    obtain ⟨left, right, node, -⟩ := code.again
    exact suspend_apply node store env
  have bound : context.Binds env "l" list := scope.binds ("l", list) (by simp [mapVars])
  have decides : Brings context (meter.below 1) store (.eval decide env) stop.emptiness between :=
    code.test.brings_isNil bound (by simp only [DepthMeter.below]; omega) forces turn
  have whole := code.brings putItem putBehind (by omega) decides
  -- What the test comes to decides between the empty list, a failure and one more cell.
  cases stop with
  | finished => exact ⟨_, _, .finished, whole⟩
  | upset failure left => exact ⟨_, _, .upset, whole⟩
  | item element id rest =>
    -- The two calls take the next two places.
    obtain ⟨grown, own, behind'⟩ := suspend_two between (.expr item env) (.expr behind env)
    have order := turn.precedes.trans grown.precedes
    have shown := evaluated.later (forces.forced.2.trans order)
    have cell : MapCell context lists func _ position element rest between.cells.size
        (between.cells.size + 1) :=
      ⟨shown, turn.sees.later grown.precedes, list, env, item, behind, ⟨code.call, code.again, scope.binds⟩,
        order.forced forces.forced.1, .of_suspended own, .of_suspended behind'⟩
    exact ⟨_, _, .item ⟨⟨cell, ⟨_, own⟩, ⟨_, behind'⟩⟩, grown, rfl,
      Nat.ne_of_lt (Nat.lt_succ_self _), Nat.le_refl _, Nat.le_succ _⟩, whole⟩

/-- When the body of `map` comes to something, a step along its list has come to something. -/
theorem Scope.map_turns (scope : Scope context mapBody (mapVars lists func list) body env)
    (room : meter.current + 2 ≤ meter.limit)
    (forces : ForcesTo context (meter.below 2) store list (.list position.rest) middle) {outcome : Outcome}
    {after : Store} (brings : Brings context meter store (.eval body env) outcome after) :
    ∃ stop between, Turn context (meter.below 1) middle position stop between := by
  obtain ⟨decide, item, behind, code⟩ := cellCode_of_reads (mapBody_eq ▸ scope.reads)
  have bound : context.Binds env "l" list := scope.binds ("l", list) (by simp [mapVars])
  obtain ⟨found, last, decides⟩ := code.decides (by omega) brings
  exact code.test.isNil_turns bound (by simp only [DepthMeter.below]; omega) forces decides

/-- The body of `map` fails where its list does. -/
theorem Scope.map_fails (scope : Scope context mapBody (mapVars lists func list) body env)
    (room : meter.current + 2 ≤ meter.limit) {failure : Upset} {after : Store}
    (fails : FailsWith context (meter.below 2) store list failure after) :
    Brings context meter store (.eval body env) (.error failure) after := by
  obtain ⟨decide, item, behind, code⟩ := cellCode_of_reads (mapBody_eq ▸ scope.reads)
  have bound : context.Binds env "l" list := scope.binds ("l", list) (by simp [mapVars])
  obtain ⟨empty, joined, front, node, -⟩ := code.node
  exact cond_fails node (by omega)
    (code.test.isNil_fails bound (by simp only [DepthMeter.below]; omega) fails)

/-- What a use of `map` comes to, for the computations of its operands. -/
structure Maps (context : Context) (meter : DepthMeter) (store : Store) (env : Env) (id : ExprId)
    (lists func list : ThunkId) (ready : Store) : Prop where
  /-- The list is asked for and one step is taken along it; a cell is made without the function. -/
  front : ∀ {position middle stop between},
    ForcesTo context (meter.below 2) ready list (.list (Cursor.rest position)) middle →
    Turn context (meter.below 1) middle position stop between →
    ∃ outcome after, (mapping context lists func).Step between position stop.look outcome after ∧
      Brings context meter store (.eval id env) outcome after
  /-- A list that goes wrong is what the use goes wrong with. -/
  fails : ∀ {failure after}, FailsWith context (meter.below 2) ready list failure after →
    Brings context meter store (.eval id env) (.error failure) after

/-- A use of `map` puts off its operands and comes to what the step along the list comes to. -/
theorem InScope.maps (scope : InScope context store lists) (binds : context.Binds env "lists" lists)
    {first second : ExprId} (uses : UsesTwo context "map" first second id)
    (room : meter.current + 4 ≤ meter.limit) :
    ∃ func list ready, PlacesTwo context lists env first second store func list ready ∧
      Maps context meter store env id lists func list ready := by
  have own : ("map", fn "f" (fn "l" mapBody)) ∈ members := List.mem_cons_self
  obtain ⟨func, list, ready, start, inner, places, evaluated, body, goes⟩ :=
    scope.goesTo_use binds own (by decide) (by decide) (by decide) uses room
  refine ⟨func, list, ready, places, fun forces turn => ?_, fun fails => ?_⟩
  · obtain ⟨outcome, after, step, brings⟩ := body.brings_map evaluated (by omega) forces turn
    exact ⟨outcome, after, step, (goes []).trans brings⟩
  · exact (goes []).trans (body.map_fails (by omega) fails)

/-- A call of `map` whose list is put off as a primitive of a variable. -/
theorem goesTo_map {op : Builtin} {text : String}
    (reads : context.Reads (app (app (memberTerm "map") (var "f")) (prim op (var text))) id)
    (evaluated : Evaluated context store lists) (bindsLists : context.Binds env "lists" lists)
    (bindsFunc : context.Binds env "f" func) (room : meter.current + 2 < meter.limit) :
    ∃ arg body inside ready, context.Reads (prim op (var text)) arg ∧ store.Extends ready ∧
      ready.calls = store.calls ∧ ready.cell store.cells.size = .suspended (.expr arg env) ∧
      Scope context mapBody (mapVars lists func store.cells.size) body inside ∧
      State.GoesTo context ⟨store, meter, .eval id env, []⟩ ⟨ready, meter, .eval body inside, []⟩ := by
  obtain ⟨partly, arg, outer, ⟨use, passed, inner, mem, var⟩, last⟩ := reads
  have own : ("map", fn "f" (fn "l" mapBody)) ∈ members := List.mem_cons_self
  obtain ⟨function, holds, closes⟩ := evaluated.holds own
  have uses := holds.brings_own mem bindsLists (show (meter.below 2).current < (meter.below 2).limit from room)
  -- The function is shared, and the list is put off.
  obtain ⟨shown, node, named⟩ := last
  obtain ⟨ready, put, off⟩ := suspend_primitive node store env
  obtain ⟨body, inside, scope, goes⟩ := closes.goesTo_body₂ (by simp) (by simp) outer inner (by omega) uses
    (var.suspend_var bindsFunc store) put
  exact ⟨arg, body, inside, ready, ⟨shown, node, named⟩, off.grown, off.calls, off.held, scope, goes []⟩

namespace MapCell

/-- What is behind a cell is a call of `map` for the list behind the element. -/
theorem goesTo_body (cell : MapCell context lists func store position element rest first others)
    {work : Suspension} (waits : store.cell others = .suspended work)
    (room : meter.current + 2 < meter.limit) :
    ∃ again outer tail body env begun ready, work = .expr again outer ∧
      State.GoesTo context ⟨store.set others .inProgress, meter, .eval again outer, []⟩
        ⟨begun, meter, .eval body env, []⟩ ∧
      Scope context mapBody (mapVars lists func tail) body env ∧ Evaluated context begun lists ∧
      ForcesTo context (meter.below 2) begun tail (.list rest.rest) ready ∧
      (store.set others .inProgress).Extends ready ∧ ready.calls = store.calls := by
  obtain ⟨evaluated, sees, list, env, call, again, code, found, -, begun⟩ := cell
  obtain rfl := begun.waits waits
  have started : store.Precedes (store.set others .inProgress) := Store.begin_precedes waits
  -- The function is the one of the cell, and the list is the rest of the one that the cell was made
  -- for.
  obtain ⟨arg, body, inside, middle, reads, grown, calls, held, scope, goes⟩ :=
    goesTo_map code.again (evaluated.later started) (code.binds ("lists", lists) (by simp))
      (code.binds ("f", func) (by simp)) room
  have order := started.trans grown.precedes
  obtain ⟨ready, forces, spares⟩ := forces_tail reads (code.binds ("l", list) (by simp))
    (order.forced found) (sees.later order) held
    (show (meter.below 2).current < (meter.below 2).limit from room)
  exact ⟨again, env, _, body, inside, middle, ready, rfl, goes, scope, evaluated.later order, forces,
    spares.extends grown (Nat.le_refl _), spares.calls.trans calls⟩

/-- Asking for what is behind a cell takes one step along the other list, and evaluates nothing else. -/
theorem advances (cell : MapCell context lists func store position element rest first others)
    {work : Suspension} (waits : store.cell others = .suspended work)
    (room : meter.current + 4 ≤ meter.limit) :
    ∃ ready, (mapping context lists func).Advances context meter store others rest ready
      fun look between => ∃ stop, Turn context (meter.below 2) ready rest stop between ∧ look = stop.look := by
  have deeper : (meter.below 1).current + 2 < (meter.below 1).limit := by
    simp only [DepthMeter.below]
    omega
  obtain ⟨again, outer, tail, body, env, begun, ready, rfl, goes, scope, evaluated, forces, grown, calls⟩ :=
    cell.goesTo_body waits deeper
  refine ⟨ready, .of_entered waits (by omega) grown calls (fun {look between} looks => ?_)
    fun {outcome after} inner => ?_⟩
  · -- A step along the other list gives an outcome of what is behind the cell, and an outcome comes
    -- from such a step.
    obtain ⟨stop, turn, rfl⟩ := looks
    obtain ⟨outcome, after, step, brings⟩ := scope.brings_map evaluated (Nat.le_of_lt deeper) forces turn
    exact ⟨outcome, after, step, goes.trans brings⟩
  · obtain ⟨stop, between, turn⟩ := scope.map_turns (Nat.le_of_lt deeper) forces
      (goes.rest (State.not_ended rfl) inner State.hands_passing)
    exact ⟨_, between, stop, turn, rfl⟩

end MapCell

/-- What a step along the other list comes to, on the level where a cell takes it. -/
def mappingLooks (context : Context) (meter : DepthMeter) (lists func : ThunkId) (_ before : Store)
    (position : (mapping context lists func).Position)
    (look : Look (mapping context lists func).Element (mapping context lists func).Position) (after : Store) :
    Prop :=
  ∃ stop, Turn context (meter.below 2) before position stop after ∧ look = stop.look

/-- Such a step takes no computation back. -/
theorem mappingLooks_precedes {ready : Store} {position : (mapping context lists func).Position}
    {look : Look (mapping context lists func).Element (mapping context lists func).Position} {after : Store}
    (looks : mappingLooks context meter lists func store ready position look after) : ready.Precedes after := by
  obtain ⟨stop, turn, -⟩ := looks
  exact turn.precedes

/-- What is behind a cell takes one step along the other list. -/
theorem mapping_takes (room : meter.current + 4 ≤ meter.limit) :
    (mapping context lists func).TakesLooks context meter (mappingLooks context meter lists func) := by
  intro store position element rest first others work cell waits
  obtain ⟨ready, advances⟩ := MapCell.advances cell waits room
  exact ⟨ready, _, advances, fun _ _ looks => looks⟩

/-- Giving an element a computation of its own calls no function of the host. -/
theorem reveal_calls (store : Store) (element : Visible) : (store.reveal element).2.calls = store.calls := by
  cases element <;> rfl

/-- A step to what is visible evaluates nothing. -/
theorem mapping_peeks (room : meter.current + 4 ≤ meter.limit) :
    (mapping context lists func).Peeks context meter fun store => store.Sees where
  later order sees := Store.Sees.later sees order
  look {store _ _ _ _ others _ sight} cell waits sees := by
    obtain ⟨ready, advances⟩ := MapCell.advances cell waits room
    have visible := Store.Sees.later sees ((Store.begin_precedes waits).trans advances.grown.precedes)
    cases sight with
    | none => exact ⟨ready, _, ready, advances, ⟨_, visible.turn_finished, rfl⟩, advances.spares⟩
    | some sight =>
      obtain ⟨other, behind⟩ := sight
      exact ⟨ready, _, _, advances, ⟨_, Store.Sees.turn visible, rfl⟩,
        advances.spares.trans (.of_extends (ready.reveal_extends other) (reveal_calls ready other))⟩

/-- Elements of the other list that are visible up to its end. -/
theorem mapping_seen {elements : List Visible} {last : Cursor} (passes : store.Passes position elements last)
    (ends : store.Sees last none) :
    (mapping context lists func).Seen (fun store => store.Sees) store position elements := by
  induction passes with
  | here => exact .finished ends
  | next sees others ih => exact .item sees (ih ends)

namespace MapCell

/-- Where all of the other list is visible, a walk from a cell on comes to as many elements. -/
theorem walk {elements : List Visible} {last : Cursor}
    (cell : MapCell context lists func store position element rest first others) {work : Suspension}
    (waits : store.cell others = .suspended work) (passes : store.Passes rest elements last)
    (ends : store.Sees last none) (room : meter.current + 4 ≤ meter.limit) :
    ∃ (ids : List ThunkId) (after : Store), Sequence context meter store (.concat (.ofThunks [first]) others)
        ((first :: ids).map .thunk) .finished after ∧
      ids.length = elements.length ∧ store.Spares others after ∧
      ∀ id ∈ ids, ∃ work, after.cell id = .suspended work :=
  Source.Seen.walk (mapping_peeks room) cell waits (mapping_seen passes ends)

/-- A step along a mapped list takes four levels more than the step along the list that it is mapped from. -/
theorem turn (cell : MapCell context lists func store position element rest first others)
    {work : Suspension} (waits : store.cell others = .suspended work) (room : Nat) :
    ∃ ready, (store.set others .inProgress).Extends ready ∧ ready.calls = store.calls ∧
      ∀ {stop between}, Turn context ⟨room, 0⟩ ready rest stop between → stop.Fits room →
        ∃ next after, Turn context ⟨room + 4, 0⟩ store ⟨.elems #[first] 1, [others]⟩ next after ∧
          next.emptiness = stop.emptiness := by
  obtain ⟨ready, advances⟩ := cell.advances waits
    (show (⟨room + 4, 0⟩ : DepthMeter).current + 4 ≤ (⟨room + 4, 0⟩ : DepthMeter).limit by simp only; omega)
  refine ⟨ready, advances.grown, advances.calls, fun {stop between} turn fits => ?_⟩
  have deeper : Turn context (DepthMeter.below ⟨room + 4, 0⟩ 2) ready rest stop between :=
    turn.shift fits (by simp only [DepthMeter.below]; omega)
  obtain ⟨outcome, after, step, -, brings⟩ := advances.brings ⟨stop, deeper, rfl⟩
  -- Behind an element is one more cell, behind the end the empty list, and a failure is the same
  -- failure.
  cases stop with
  | item element own rest =>
    obtain ⟨first', others', rfl, -⟩ := Source.Step.of_item step
    exact ⟨_, _, .cross rfl brings (.concat (.elem rfl)), rfl⟩
  | finished =>
    obtain ⟨rfl, -⟩ := Source.Step.of_finished step
    exact ⟨_, _, .cross rfl brings (.finished rfl), rfl⟩
  | upset failure left =>
    obtain rfl := Source.Step.of_upset step
    exact ⟨_, _, .fails rfl brings, rfl⟩

end MapCell

/-- The element of a cell is one of the computations of the store. -/
theorem MapCell.inside (cell : MapCell context lists func store position element rest first others) :
    first < store.cells.size := by
  obtain ⟨-, -, list, env, call, again, -, -, begun, -⟩ := cell
  exact begun.1

/-- The element of a cell applies the function to what comes to the element of the other list. -/
theorem MapCell.delays (cell : MapCell context lists func store position element rest first others) :
    ∃ work, context.Fetches store element work ∧ context.Delays store first func [.putOff work] := by
  obtain ⟨-, sees, list, env, call, again, code, found, begun, -⟩ := cell
  obtain ⟨left, right, node, var, head⟩ := code.call
  have put (store : Store) : context.suspend store right env = (Operand.putOff (.expr right env)).place store := by
    obtain ⟨inner, node, -⟩ := head
    exact suspend_builtin node store env
  have calls : context.Calls env func call ([] ++ [.putOff (.expr right env)]) :=
    .apply node (.func var (code.binds ("f", func) (by simp))) put
  exact ⟨_, head.fetches (code.binds ("l", list) (by simp)) found sees, calls.delays begun⟩

/-- The program makes mapped lists from the lists that they are mapped from. -/
theorem mapping_made (context : Context) (lists func : ThunkId) :
    (mapping context lists func).MadeBy context := by
  refine Source.madeBy_of_advances 4 fun {store _ _ _ _ others _ meter} cell waits room => ?_
  obtain ⟨ready, advances⟩ := MapCell.advances cell waits room
  exact ⟨_, ready, _, fun _ _ looks => looks, advances⟩

/-- The elements that an image is made from are the first ones of the other list. -/
theorem passes_of_mapped {items : LazyList} {place : (mapping context lists func).Position}
    {pairs : List ((mapping context lists func).Element × ThunkId)}
    {extent : Source.Extent (mapping context lists func).Position}
    (image : (mapping context lists func).Image context store items place pairs extent) :
    ∃ last, store.Passes place (pairs.map Prod.fst) last ∧ (mapping context lists func).Reaches store last extent := by
  induction image with
  | nil ends => exact ⟨_, .here, ends⟩
  | last cell => exact ⟨_, .next (MapCell.sees cell) .here, rfl⟩
  | next cell found image ih =>
    obtain ⟨last, passes, reaches⟩ := ih
    exact ⟨last, .next (MapCell.sees cell) passes, reaches⟩

/-- What is said about every cell of a mapped list, whatever else happens in a session. -/
structure Mapped (context : Context) (lists func : ThunkId) : Prop where
  /-- Asking for what is behind a cell takes one step along the other list, and evaluates nothing else. -/
  next : ∀ {store position element rest first others work meter},
    MapCell context lists func store position element rest first others →
    store.cell others = .suspended work → meter.current + 4 ≤ meter.limit →
    ∃ ready, (mapping context lists func).Advances context meter store others rest ready
      fun look between => ∃ stop, Turn context (meter.below 2) ready rest stop between ∧ look = stop.look
  /-- A walk from a new cell on takes one step after the other along the other list, and nothing else is evaluated. -/
  steps : ∀ {store after position element rest first others entries closing meter},
    (mapping context lists func).Fresh store position element rest first others →
    Sequence context meter store (.concat (.ofThunks [first]) others) entries closing after →
    meter.current + 4 ≤ meter.limit → ∃ (ids : List ThunkId) (elements : List Visible),
      entries = (first :: ids).map .thunk ∧ ids.length = elements.length ∧
      (mapping context lists func).Along (mappingLooks context meter lists func) others store rest elements
        closing after
  /--
  Where all of the other list is visible, a walk along the mapped list comes to as many elements, puts off
  each of them and evaluates nothing but the list itself.
  -/
  walk : ∀ {store position element rest first others work elements last meter},
    MapCell context lists func store position element rest first others →
    store.cell others = .suspended work → store.Passes position (element :: elements) last →
    store.Sees last none → meter.current + 4 ≤ meter.limit → ∃ (ids : List ThunkId) (after : Store),
      Sequence context meter store (.concat (.ofThunks [first]) others) ((first :: ids).map .thunk) .finished
        after ∧
      (first :: ids).length = (element :: elements).length ∧ store.Spares others after ∧
      ∀ id ∈ ids, ∃ work, after.cell id = .suspended work
  /--
  At every later moment, the part of a mapped list that is evaluated is made from as many elements of the
  other list, and it is at its end only where the other one is. Each of its elements stands for the
  application of the function to the element at its place.
  -/
  session : ∀ {moment later : Moment} {position element rest first others}, moment.context = context →
    WellNested moment.store moment.state.stack → moment.Onward later →
    (mapping context lists func).Fresh moment.store position element rest first others →
    ∃ pairs extent last,
      (mapping context lists func).Image context later.store (.concat (.ofThunks [first]) others) position
        pairs extent ∧
      later.store.Passes position (pairs.map Prod.fst) last ∧
      (mapping context lists func).Reaches later.store last extent ∧
      (∀ meter, Sequence context meter later.store (.concat (.ofThunks [first]) others)
        (pairs.map fun pair => .thunk pair.2) extent.closing later.store) ∧
      (extent = .whole → ∀ meter, ∃ after,
        Sequence context meter later.store (Cursor.rest position) (pairs.map Prod.fst) .finished after) ∧
      ∀ pair ∈ pairs, context.StandsFor moment later func [pair.1] pair.2

/-- Elements that were put off in new cells stand for applications of the function. -/
theorem standsFor_of_putOff {moment later : Moment} (same : moment.context = context) {element : Visible}
    (put : (mapping context lists func).PutOff moment later element first) :
    context.StandsFor moment later func [element] first := by
  obtain ⟨start, position, rest, others, ahead, beyond, nested, fresh⟩ := put
  obtain ⟨work, fetches, delays⟩ := MapCell.delays fresh.cell
  obtain ⟨held, waits⟩ := fresh.first
  exact ⟨start, [work], ahead, beyond, .cons fetches .nil, delays,
    delays.account (ahead.context_eq.trans same) waits nested beyond⟩

/-- Cells of mapped lists are as said. -/
theorem mapped (context : Context) (lists func : ThunkId) : Mapped context lists func where
  next cell waits room := cell.advances waits room
  steps fresh walk room := Source.Along.of_walk (mapping_takes room) mappingLooks_precedes fresh walk
  walk cell waits passes ends room := by
    obtain ⟨behind, sees, others⟩ := passes.uncons
    obtain ⟨-, rfl⟩ := Prod.mk.inj (Option.some.inj (sees.unique cell.sees))
    obtain ⟨ids, after, sequence, count, rest⟩ := cell.walk waits others ends room
    exact ⟨ids, after, sequence, congrArg Nat.succ count, rest⟩
  session same nested onward fresh := by
    obtain ⟨pairs, extent, image, each⟩ := Source.image_of_fresh (mapping_made context lists func) _ same
      onward nested fresh (Nat.le_add_left _ _)
    obtain ⟨last, passes, reaches⟩ := passes_of_mapped image
    refine ⟨pairs, extent, last, image, passes, reaches, fun meter => image.sequence, ?_,
      fun pair member => standsFor_of_putOff same (each pair member)⟩
    rintro rfl meter
    exact passes.sequence reaches (.refl _)

end Lists

end LazyConfig
