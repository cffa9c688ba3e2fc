import LazyConfig.Proofs.Prelude.Map

/-!
The list function `map2`. A call takes one step along its first list and, when there is an element, one step
along its second list. What is behind a cell is another such call for what is behind both elements.
-/

namespace LazyConfig

/-! Steps along the two lists. -/

/--
A look at the first elements of two lists. The second list is asked for only where the first one has an
element.
-/
inductive LooksAtBoth (context : Context) (meter : DepthMeter) (second : ThunkId) (left right : Cursor)
    (store : Store) : Look (Visible × Visible) (Cursor × Cursor) → Store → Prop
  | leftEnds {after : Store} (turn : Turn context meter store left .finished after) :
    LooksAtBoth context meter second left right store .finished after
  | leftFails {after : Store} {failure : Upset} {pending : List ThunkId}
    (turn : Turn context meter store left (.upset failure pending) after) :
    LooksAtBoth context meter second left right store (.upset failure) after
  | secondFails {between after : Store} {element : Visible} {own : ThunkId} {rest : Cursor} {failure : Upset}
    (item : Turn context meter store left (.item element own rest) between)
    (fails : FailsWith context (meter.below 1) between second failure after) :
    LooksAtBoth context meter second left right store (.upset failure) after
  | rightEnds {between middle after : Store} {element : Visible} {own : ThunkId} {rest : Cursor}
    (item : Turn context meter store left (.item element own rest) between)
    (forces : ForcesTo context (meter.below 1) between second (.list right.rest) middle)
    (turn : Turn context meter middle right .finished after) :
    LooksAtBoth context meter second left right store .finished after
  | rightFails {between middle after : Store} {element : Visible} {own : ThunkId} {rest : Cursor}
    {failure : Upset} {pending : List ThunkId}
    (item : Turn context meter store left (.item element own rest) between)
    (forces : ForcesTo context (meter.below 1) between second (.list right.rest) middle)
    (turn : Turn context meter middle right (.upset failure pending) after) :
    LooksAtBoth context meter second left right store (.upset failure) after
  | both {between middle after : Store} {element other : Visible} {own own' : ThunkId} {rest behind : Cursor}
    (item : Turn context meter store left (.item element own rest) between)
    (forces : ForcesTo context (meter.below 1) between second (.list right.rest) middle)
    (turn : Turn context meter middle right (.item other own' behind) after) :
    LooksAtBoth context meter second left right store (.item (element, other) (rest, behind)) after

variable {context : Context} {meter : DepthMeter} {store middle between after : Store} {env : Env} {id : ExprId}
  {cursor rest left right behind : Cursor} {element other : Visible} {own list held first second : ThunkId}
  {work : Suspension}

/-- A step to an element brings no computation that is put off to a failure. -/
theorem Turn.settles (turn : Turn context meter store cursor (.item element own rest) after)
    (waits : store.cell held = .suspended work) :
    after.cell held = .suspended work ∨ ∃ value, after.cell held = .forced value := by
  obtain ⟨steps, reached⟩ := turn.goesTo .head []
  have spotless := @State.Spotless.run context ⟨store, meter, .advance cursor .head, []⟩ held work
    (.inl waits) (.nil store) (Store.lt_size_of_suspended waits) steps
  rw [reached] at spotless
  rcases spotless with still | awaited | ended | ⟨upset, raised⟩ | ⟨upset, left, done⟩
  · exact .inl still
  · cases awaited
  · exact .inr ended
  · cases raised
  · cases done

/-- The rest of a list that was put off before a step along another list comes to the same behind the step. -/
theorem forces_tail_behind {text : String} (reads : context.Reads (.prim .tail (.var text)) id)
    (binds : context.Binds env text list) (found : store.cell list = .forced (.list right.rest))
    (sees : store.Sees right (some (other, behind))) (waits : store.cell held = .suspended (.expr id env))
    (turn : Turn context meter store left (.item element own rest) after) {level : DepthMeter}
    (inside : level.current < level.limit) :
    ∃ last, ForcesTo context level after held (.list behind.rest) last ∧ after.Spares held last := by
  rcases turn.settles waits with still | ⟨value, ended⟩
  · exact Lists.forces_tail reads binds (turn.precedes.forced found) (sees.later turn.precedes) still inside
  · -- If it was asked for on the way, it came to the rest of the list then.
    have onward := Moment.Onward.of_goesTo (turn.goesTo .head [])
    rcases onward.history (.nil store) waits with still | busy | ⟨before, now, outcome, ahead, -, -, -, asked,
      brings, -, kept⟩
    · -- It cannot be put off still, nor under way, since it has been settled by now.
      cases ended.symm.trans still
    · cases ended.symm.trans busy
    · have kept : after.cell held = .ended outcome := kept
      cases outcome with
      | error failure => cases ended.symm.trans kept
      | ok given =>
        obtain rfl : value = given := Cell.forced.inj (ended.symm.trans kept)
        -- The outcome that it came to then is brought by the tail of the list, on a level that is
        -- high enough.
        let high : DepthMeter := ⟨before.state.meter.limit + before.state.meter.current + 1, before.state.meter.current⟩
        have higher : ForcesTo context high before.store held value now.store :=
          ForcesTo.shift brings (by simp only [high]; omega)
        have order := (ahead.precedes (.nil store)).2
        obtain ⟨last, forces, -⟩ := Lists.forces_tail reads binds (order.forced found) (sees.later order) asked
          (show high.current < high.limit by simp only [high]; omega)
        obtain ⟨rfl, -⟩ := higher.unique forces
        exact ⟨after, .of_forced ended, .refl _ _⟩

/-- A look at two lists takes no computation back. -/
theorem LooksAtBoth.precedes {look : Look (Visible × Visible) (Cursor × Cursor)}
    (looks : LooksAtBoth context meter second left right store look after) : store.Precedes after := by
  cases looks with
  | leftEnds turn | leftFails turn => exact turn.precedes
  | secondFails item fails => exact item.precedes.trans fails.precedes
  | rightEnds item forces turn | rightFails item forces turn | both item forces turn =>
    exact item.precedes.trans (forces.forced.2.trans turn.precedes)

/-- Whether a look has come to the end, as the outcome of a test. -/
def Look.emptiness {Element Position : Type} : Look Element Position → Outcome
  | .item _ _ => .ok (.bool false)
  | .finished => .ok (.bool true)
  | .upset failure => .error failure

section

variable {look : Look (Visible × Visible) (Cursor × Cursor)}

/-- The test whether one of two lists is empty takes a look at both. -/
theorem brings_eitherNil
    (reads : context.Reads (.binary .or (Lists.isNilTerm "l1") (Lists.isNilTerm "l2")) id)
    (binds : context.Binds env "l1" first) (binds' : context.Binds env "l2" second)
    (room : meter.current + 2 ≤ meter.limit)
    (forces : ForcesTo context (meter.below 2) store first (.list left.rest) middle)
    (looks : LooksAtBoth context (meter.below 1) second left right middle look after) :
    Brings context meter store (.eval id env) look.emptiness after := by
  obtain ⟨one, two, node, test, test'⟩ := reads
  have inside : (meter.below 1).current < (meter.below 1).limit := room
  have front {stop : Stop} {between : Store} (turn : Turn context (meter.below 1) middle left stop between) :=
    test.brings_isNil binds inside forces turn
  -- The second list is looked at only where the first one has an element.
  cases looks with
  | leftEnds turn => exact brings_or_left node (by omega) (front turn) (.inl rfl)
  | leftFails turn => exact brings_or_left node (by omega) (front turn) (.inr ⟨_, rfl⟩)
  | secondFails item fails =>
    exact brings_or_right node (by omega) (front item) (test'.isNil_fails binds' inside fails) (.inr ⟨_, rfl⟩)
  | rightEnds item forces turn | both item forces turn =>
    exact brings_or_right node (by omega) (front item) (test'.brings_isNil binds' inside forces turn)
      (.inl ⟨_, rfl⟩)
  | rightFails item forces turn =>
    exact brings_or_right node (by omega) (front item) (test'.brings_isNil binds' inside forces turn)
      (.inr ⟨_, rfl⟩)

/-- When the test has come to something, so has a look at both lists. -/
theorem eitherNil_looks
    (reads : context.Reads (.binary .or (Lists.isNilTerm "l1") (Lists.isNilTerm "l2")) id)
    (binds : context.Binds env "l1" first) (binds' : context.Binds env "l2" second)
    (room : meter.current + 2 ≤ meter.limit)
    (forces : ForcesTo context (meter.below 2) store first (.list left.rest) middle)
    (comes : ∀ element own rest between,
      Turn context (meter.below 1) middle left (.item element own rest) between →
      ∃ last, ForcesTo context (meter.below 2) between second (.list right.rest) last)
    {outcome : Outcome} (brings : Brings context meter store (.eval id env) outcome after) :
    ∃ look between, LooksAtBoth context (meter.below 1) second left right middle look between := by
  obtain ⟨one, two, node, test, test'⟩ := reads
  have inside : (meter.below 1).current < (meter.below 1).limit := room
  obtain ⟨found, last, front, back⟩ := or_decides node (by omega) brings
  obtain ⟨stop, between, turn⟩ := test.isNil_turns binds inside forces front
  have own := test.brings_isNil binds inside forces turn
  obtain ⟨rfl, rfl⟩ := front.unique own
  -- The test on the left decides whether the one on the right is evaluated at all.
  cases stop with
  | finished => exact ⟨_, _, .leftEnds turn⟩
  | upset failure pending => exact ⟨_, _, .leftFails turn⟩
  | item element own rest =>
    obtain ⟨other, later, behind⟩ := back rfl
    obtain ⟨ready, forces'⟩ := comes _ _ _ _ turn
    obtain ⟨stop, last, turn'⟩ := test'.isNil_turns binds' inside forces' behind
    cases stop with
    | finished => exact ⟨_, _, .rightEnds turn forces' turn'⟩
    | upset failure pending => exact ⟨_, _, .rightFails turn forces' turn'⟩
    | item element' own' rest' => exact ⟨_, _, .both turn forces' turn'⟩

end

namespace Lists

open Term

/-! Cells. -/

/-- The calls that `map2` puts off for a cell: one for the element and one for what is behind it. -/
structure Map2Code (context : Context) (lists func first second : ThunkId) (env : Env) (call again : ExprId) :
    Prop where
  call : context.Reads (app (app (var "f") (prim .head (var "l1"))) (prim .head (var "l2"))) call
  again : context.Reads
    (app (app (app (memberTerm "map2") (var "f")) (prim .tail (var "l1"))) (prim .tail (var "l2"))) again
  binds : ∀ var ∈ [("l2", second), ("l1", first), ("f", func), ("lists", lists)],
    context.Binds env var.1 var.2

/-- A cell of a list that is mapped from two lists, for positions that show the two elements. -/
structure Map2Cell (context : Context) (lists func : ThunkId) (store : Store) (position : Cursor × Cursor)
    (elements : Visible × Visible) (rest : Cursor × Cursor) (first others : ThunkId) : Prop where
  evaluated : Evaluated context store lists
  left : store.Sees position.1 (some (elements.1, rest.1))
  right : store.Sees position.2 (some (elements.2, rest.2))
  work : ∃ one two env call again, Map2Code context lists func one two env call again ∧
    store.cell one = .forced (.list position.1.rest) ∧ store.cell two = .forced (.list position.2.rest) ∧
    store.Begun first (.expr call env) ∧ store.Begun others (.expr again env)

/-- What a list mapped from two lists is made from: positions of both. -/
def pairing (context : Context) (lists func : ThunkId) : Source where
  Position := Cursor × Cursor
  Element := Visible × Visible
  Looks context meter before position look after :=
    ∃ second, LooksAtBoth context meter second position.1 position.2 before look after
  Ends store position := store.Sees position.1 none ∨
    (∃ sight, store.Sees position.1 (some sight)) ∧ store.Sees position.2 none
  Cell := Map2Cell context lists func
  looks_precedes looks := by
    obtain ⟨second, looks⟩ := looks
    exact looks.precedes
  ends_of_looks looks := by
    obtain ⟨second, looks⟩ := looks
    cases looks with
    | leftEnds turn => exact .inl turn.sees_finished
    | rightEnds item forces turn =>
      exact .inr ⟨⟨_, item.sees.later (forces.forced.2.trans turn.precedes)⟩, turn.sees_finished⟩
  ends_later order ends := by
    rcases ends with left | ⟨⟨sight, left⟩, right⟩
    · exact .inl (left.later order)
    · exact .inr ⟨⟨sight, left.later order⟩, right.later order⟩
  cell_later order cell := by
    obtain ⟨evaluated, left, right, one, two, env, call, again, code, found, found', first, others⟩ := cell
    exact ⟨evaluated.later order, left.later order, right.later order, one, two, env, call, again, code,
      order.forced found, order.forced found', first.later order, others.later order⟩

/-- The values for the variables of the body of `map2`. -/
def map2Vars (lists func first second : ThunkId) : List (String × ThunkId) :=
  [("l2", second), ("l1", first), ("f", func), ("lists", lists)]

variable {lists func others : ThunkId} {body : ExprId} {look : Look (Visible × Visible) (Cursor × Cursor)}
  {position behind' : Cursor × Cursor} {elements : Visible × Visible}

section

variable (scope : Scope context map2Body (map2Vars lists func first second) body env)
  (room : meter.current + 3 ≤ meter.limit)
  (forces : ForcesTo context (meter.below 3) store first (.list left.rest) middle)

include scope room forces

/-- The body of `map2` takes a look at both lists. -/
theorem Scope.brings_map2 (evaluated : Evaluated context store lists)
    (looks : LooksAtBoth context (meter.below 2) second left right middle look between) :
    ∃ outcome after, (pairing context lists func).Step between (left, right) look outcome after ∧
      Brings context meter store (.eval body env) outcome after := by
  obtain ⟨decide, item, again, code⟩ := cellCode_of_reads (map2Body_eq ▸ scope.reads)
  have putItem (store : Store) : context.suspend store item env = store.suspend (.expr item env) := by
    obtain ⟨left, right, node, -⟩ := code.call
    exact suspend_apply node store env
  have putBehind (store : Store) : context.suspend store again env = store.suspend (.expr again env) := by
    obtain ⟨left, right, node, -⟩ := code.again
    exact suspend_apply node store env
  have decides : Brings context (meter.below 1) store (.eval decide env) look.emptiness between :=
    brings_eitherNil code.test (scope.binds ("l1", first) (by simp [map2Vars]))
      (scope.binds ("l2", second) (by simp [map2Vars])) (by simp only [DepthMeter.below]; omega) forces looks
  have whole := code.brings putItem putBehind (by omega) decides
  -- What the look at both lists has shown decides what the body comes to.
  cases looks with
  | leftEnds | rightEnds => exact ⟨_, _, .finished, whole⟩
  | leftFails | secondFails | rightFails => exact ⟨_, _, .upset, whole⟩
  | both turn forces' turn' =>
    obtain ⟨grown, own, behind'⟩ := suspend_two between (.expr item env) (.expr again env)
    have late := turn'.precedes.trans grown.precedes
    have order := turn.precedes.trans (forces'.forced.2.trans late)
    have cell : Map2Cell context lists func _ (left, right) (_, _) (_, _) between.cells.size
        (between.cells.size + 1) :=
      ⟨evaluated.later (forces.forced.2.trans order), turn.sees.later (forces'.forced.2.trans late),
        turn'.sees.later grown.precedes, first, second, env, item, again, ⟨code.call, code.again, scope.binds⟩,
        order.forced forces.forced.1, late.forced forces'.forced.1, .of_suspended own, .of_suspended behind'⟩
    exact ⟨_, _, .item ⟨⟨cell, ⟨_, own⟩, ⟨_, behind'⟩⟩, grown, rfl,
      Nat.ne_of_lt (Nat.lt_succ_self _), Nat.le_refl _, Nat.le_succ _⟩, whole⟩

/-- When the body of `map2` comes to something, a look at both lists has come to something. -/
theorem Scope.map2_looks
    (comes : ∀ element own rest between,
      Turn context (meter.below 2) middle left (.item element own rest) between →
      ∃ last, ForcesTo context (meter.below 3) between second (.list right.rest) last)
    {outcome : Outcome} {after : Store} (brings : Brings context meter store (.eval body env) outcome after) :
    ∃ look between, LooksAtBoth context (meter.below 2) second left right middle look between := by
  obtain ⟨decide, item, again, code⟩ := cellCode_of_reads (map2Body_eq ▸ scope.reads)
  obtain ⟨found, last, decides⟩ := code.decides (by omega) brings
  exact eitherNil_looks code.test (scope.binds ("l1", first) (by simp [map2Vars]))
    (scope.binds ("l2", second) (by simp [map2Vars])) (by simp only [DepthMeter.below]; omega) forces comes
    decides

end

/-- The body of `map2` fails where its first list does. -/
theorem Scope.map2_fails (scope : Scope context map2Body (map2Vars lists func first second) body env)
    (room : meter.current + 3 ≤ meter.limit) {failure : Upset}
    (fails : FailsWith context (meter.below 3) store first failure after) :
    Brings context meter store (.eval body env) (.error failure) after := by
  obtain ⟨decide, item, again, code⟩ := cellCode_of_reads (map2Body_eq ▸ scope.reads)
  obtain ⟨one, two, either, test, -⟩ := code.test
  have bound := scope.binds ("l1", first) (by simp [map2Vars])
  have nil : Brings context (meter.below 2) store (.eval one env) (.error failure) after :=
    test.isNil_fails bound (by simp only [DepthMeter.below]; omega) fails
  obtain ⟨empty, joined, front, node, -⟩ := code.node
  exact cond_fails node (by omega)
    (brings_or_left either (by simp only [DepthMeter.below]; omega) nil (.inr ⟨failure, rfl⟩))

namespace Map2Cell

/-- What is behind a cell is a call of `map2` for the lists behind the two elements. -/
theorem goesTo_body (cell : Map2Cell context lists func store position elements behind' held others)
    (waits : store.cell others = .suspended work) (room : meter.current + 3 < meter.limit) :
    ∃ again outer one two body env begun ready, work = .expr again outer ∧
      State.GoesTo context ⟨store.set others .inProgress, meter, .eval again outer, []⟩
        ⟨begun, meter, .eval body env, []⟩ ∧
      Scope context map2Body (map2Vars lists func one two) body env ∧ Evaluated context begun lists ∧
      ForcesTo context (meter.below 3) begun one (.list behind'.1.rest) ready ∧
      (∀ {element own rest between},
        Turn context (meter.below 2) ready behind'.1 (.item element own rest) between →
        ∃ last, ForcesTo context (meter.below 3) between two (.list behind'.2.rest) last ∧
          between.Spares two last) ∧
      (store.set others .inProgress).Extends ready ∧ ready.calls = store.calls ∧ store.cells.size ≤ two := by
  obtain ⟨evaluated, left, right, one, two, env, call, again, code, found, found', -, begun⟩ := cell
  obtain rfl := begun.waits waits
  have started : store.Precedes (store.set others .inProgress) := Store.begin_precedes waits
  have noCall : (store.set others .inProgress).calls = store.calls := rfl
  have size : (store.set others .inProgress).cells.size = store.cells.size := store.set_size _ _
  generalize store.set others .inProgress = before at started noCall size
  obtain ⟨twice, late, outer, ⟨once, early, inner, ⟨use, passed, deepest, mem, var⟩, tail⟩, tail'⟩ := code.again
  have bind := code.binds ("l1", one) (by simp)
  have bind' := code.binds ("l2", two) (by simp)
  obtain ⟨shown, node, named⟩ := tail
  obtain ⟨shown', node', named'⟩ := tail'
  have member : ("map2", fn "f" (fn "l1" (fn "l2" map2Body))) ∈ members := by simp [members]
  -- The function is shared, and the rests of the two lists are put off.
  obtain ⟨halfway, put, off⟩ := suspend_primitive node before env
  obtain ⟨begun, put', off'⟩ := suspend_primitive node' halfway env
  obtain ⟨body, inside, scope, goes⟩ := (evaluated.later started).goesTo_use₃
    (code.binds ("lists", lists) (by simp)) member (by decide) (by decide) (by decide)
    ⟨twice, outer, once, use, inner, deepest, mem⟩ room
    (var.suspend_var (code.binds ("f", func) (by simp)) before) put put'
  -- The rest of the first list is asked for at once, and that of the second one stays put off
  -- meanwhile.
  have within : (meter.below 3).current < (meter.below 3).limit := room
  have grown := off.grown.trans off'.grown
  have order := started.trans grown.precedes
  have place := Store.lt_size_of_suspended off.held
  obtain ⟨ready, forces, spares⟩ := forces_tail ⟨shown, node, named⟩ bind (order.forced found)
    (left.later order) ((off'.grown.2 _ place).trans off.held) within
  have waits' : ready.cell halfway.cells.size = .suspended (.expr late env) :=
    (spares.cells _ (Store.lt_size_of_suspended off'.held) (Nat.ne_of_gt place)).trans off'.held
  have order' := order.trans forces.forced.2
  exact ⟨again, env, _, _, body, inside, begun, ready, rfl, goes [], scope, evaluated.later order, forces,
    fun turn => forces_tail_behind ⟨shown', node', named'⟩ bind' (order'.forced found')
      (right.later order') waits' turn within,
    spares.extends grown (Nat.le_refl _), spares.calls.trans (off'.calls.trans (off.calls.trans noCall)),
    size ▸ off.grown.1⟩

/-- Asking for what is behind a cell takes a look at both lists, and evaluates nothing else. -/
theorem advances (cell : Map2Cell context lists func store position elements behind' held others)
    (waits : store.cell others = .suspended work) (room : meter.current + 5 ≤ meter.limit) :
    ∃ ready two, ((pairing context lists func).Advances context meter store others behind' ready fun look between =>
        LooksAtBoth context (meter.below 3) two behind'.1 behind'.2 ready look between) ∧
      store.cells.size ≤ two ∧ ∀ {element own rest between},
        Turn context (meter.below 3) ready behind'.1 (.item element own rest) between →
        ∃ last, ForcesTo context (meter.below 4) between two (.list behind'.2.rest) last ∧
          between.Spares two last := by
  have deeper : (meter.below 1).current + 3 < (meter.below 1).limit := by
    simp only [DepthMeter.below]
    omega
  obtain ⟨again, outer, one, two, body, env, begun, ready, rfl, goes, scope, evaluated, forces, comes, grown,
    calls, added⟩ := cell.goesTo_body waits deeper
  refine ⟨ready, two, .of_entered waits (by omega) grown calls (fun {look between} looks => ?_)
    fun {outcome after} inner => ?_, added, comes⟩
  · -- A look at both lists gives an outcome of what is behind the cell, and an outcome comes from
    -- such a look.
    obtain ⟨outcome, after, step, brings⟩ := scope.brings_map2 (Nat.le_of_lt deeper) forces evaluated looks
    exact ⟨outcome, after, step, goes.trans brings⟩
  · refine scope.map2_looks (Nat.le_of_lt deeper) forces (fun element own rest between turn => ?_)
      (goes.rest (State.not_ended rfl) inner State.hands_passing)
    obtain ⟨last, forces', -⟩ := comes turn
    exact ⟨last, forces'⟩

/-- The element of a cell applies the function to what comes to the elements of the two lists. -/
theorem delays (cell : Map2Cell context lists func store position elements behind' held others) :
    ∃ works, List.Forall₂ (context.Fetches store) [elements.1, elements.2] works ∧
      context.Delays store held func (works.map .putOff) := by
  obtain ⟨-, left, right, one, two, env, call, again, code, found, found', begun, -⟩ := cell
  obtain ⟨once, late, outer, ⟨called, early, inner, var, head⟩, head'⟩ := code.call
  have put {text : String} {arg : ExprId} (reads : context.Reads (.prim .head (.var text)) arg) (store : Store) :
      context.suspend store arg env = (Operand.putOff (.expr arg env)).place store := by
    obtain ⟨shown, node, -⟩ := reads
    exact suspend_builtin node store env
  have calls : context.Calls env func call ([] ++ [.putOff (.expr early env)] ++ [.putOff (.expr late env)]) :=
    .apply outer (.apply inner (.func var (code.binds ("f", func) (by simp))) (put head)) (put head')
  exact ⟨[_, _], .cons (head.fetches (code.binds ("l1", one) (by simp)) found left)
    (.cons (head'.fetches (code.binds ("l2", two) (by simp)) found' right) .nil), calls.delays begun⟩

end Map2Cell

/-- The program makes lists from the two lists that they are mapped from. -/
theorem pairing_made (context : Context) (lists func : ThunkId) :
    (pairing context lists func).MadeBy context := by
  refine Source.madeBy_of_advances 5 fun {store _ _ _ _ others _ meter} cell waits room => ?_
  obtain ⟨ready, two, advances, -, -⟩ := Map2Cell.advances cell waits room
  exact ⟨_, ready, _, fun _ _ looks => ⟨two, looks⟩, advances⟩

/--
A look at both lists, on the level where a cell takes it. The computation for the second list is new, and it is
there without evaluating anything where the first list has an element.
-/
def pairingLooks (context : Context) (meter : DepthMeter) (lists func : ThunkId) (store before : Store)
    (position : (pairing context lists func).Position)
    (look : Look (pairing context lists func).Element (pairing context lists func).Position) (after : Store) :
    Prop :=
  ∃ second, LooksAtBoth context (meter.below 3) second (Prod.fst position) (Prod.snd position) before look
      after ∧
    store.cells.size ≤ second ∧ ∀ {element own behind between},
      Turn context (meter.below 3) before (Prod.fst position) (.item element own behind) between →
      ∃ last, ForcesTo context (meter.below 4) between second (.list (Cursor.rest (Prod.snd position))) last ∧
        between.Spares second last

/-- Such a look takes no computation back. -/
theorem pairingLooks_precedes {ready : Store} {place : (pairing context lists func).Position}
    {look : Look (pairing context lists func).Element (pairing context lists func).Position}
    (looks : pairingLooks context meter lists func store ready place look after) : ready.Precedes after := by
  obtain ⟨second, looks, -⟩ := looks
  exact looks.precedes

/-- What is behind a cell takes a look at both lists. -/
theorem pairing_takes (room : meter.current + 5 ≤ meter.limit) :
    (pairing context lists func).TakesLooks context meter (pairingLooks context meter lists func) := by
  intro store position element rest first others work cell waits
  obtain ⟨ready, two, advances, added, comes⟩ := Map2Cell.advances cell waits room
  exact ⟨ready, _, advances, fun look between looks => ⟨two, looks, added, comes⟩⟩

/-- What is visible of two lists: both elements, the end of the first list, or that of the second one. -/
def SeesBoth (store : Store) (position : Cursor × Cursor) :
    Option ((Visible × Visible) × Cursor × Cursor) → Prop
  | some ((left, right), rest, behind) =>
    store.Sees position.1 (some (left, rest)) ∧ store.Sees position.2 (some (right, behind))
  | none => store.Sees position.1 none ∨
    (∃ sight, store.Sees position.1 (some sight)) ∧ store.Sees position.2 none

/-- What is visible of both lists stays so. -/
theorem SeesBoth.later {before after : Store} {position : Cursor × Cursor}
    {sight : Option ((Visible × Visible) × Cursor × Cursor)} (sees : SeesBoth before position sight)
    (order : before.Precedes after) : SeesBoth after position sight := by
  rcases sight with - | ⟨⟨left, right⟩, rest, behind⟩
  · rcases sees with ends | ⟨⟨sight, here⟩, ends⟩
    · exact .inl (ends.later order)
    · exact .inr ⟨⟨sight, here.later order⟩, ends.later order⟩
  · exact ⟨sees.1.later order, sees.2.later order⟩

/-- A look at what is visible of both lists evaluates nothing but the new computation for the second one. -/
theorem pairing_peeks (room : meter.current + 5 ≤ meter.limit) :
    (pairing context lists func).Peeks context meter SeesBoth where
  later order sees := SeesBoth.later sees order
  look {store position element rest first others work sight} cell waits sees := by
    obtain ⟨ready, two, advances, added, comes⟩ := Map2Cell.advances cell waits room
    have visible := SeesBoth.later sees ((Store.begin_precedes waits).trans advances.grown.precedes)
    -- Where the first list has an element, the second one is asked for and is there.
    have front {element : Visible} {behind : Cursor} (here : ready.Sees rest.1 (some (element, behind))) :
        ∃ own between last, Turn context (meter.below 3) ready rest.1 (.item element own behind) between ∧
          ForcesTo context (meter.below 4) between two (.list rest.2.rest) last ∧ ready.Precedes last ∧
          store.Spares others last := by
      have turn := @Store.Sees.turn context (meter.below 3) _ _ _ _ here
      obtain ⟨last, forces, spares⟩ := comes turn
      have shown := ready.reveal_extends element
      exact ⟨_, _, last, turn, forces, turn.precedes.trans forces.forced.2, (advances.spares.trans
        (.of_extends shown (reveal_calls ready element))).trans_added spares added⟩
    -- Either one of the lists ends here, or both have an element.
    rcases sight with - | ⟨⟨left, right⟩, behind, behind'⟩
    · rcases visible with ends | ⟨⟨⟨left, behind⟩, here⟩, ends⟩
      · exact ⟨ready, _, ready, advances, .leftEnds ends.turn_finished, advances.spares⟩
      · obtain ⟨own, between, last, turn, forces, order, spares⟩ := front here
        exact ⟨ready, _, last, advances, .rightEnds turn forces (ends.later order).turn_finished, spares⟩
    · obtain ⟨own, between, last, turn, forces, order, spares⟩ := front visible.1
      exact ⟨ready, _, _, advances, .both turn forces (visible.2.later order).turn,
        spares.trans (.of_extends (last.reveal_extends right) (reveal_calls last right))⟩

/-- The pairs of elements of two lists that are visible up to the end of the shorter one. -/
theorem pairing_seen {left right last last' : Cursor} {lefts rights : List Visible}
    (ahead : store.Passes left lefts last) (ahead' : store.Passes right rights last')
    (same : lefts.length = rights.length) (ends : (pairing context lists func).Ends store (last, last')) :
    (pairing context lists func).Seen SeesBoth store (left, right) (lefts.zip rights) := by
  induction ahead generalizing right rights with
  | here =>
    obtain rfl := List.eq_nil_of_length_eq_zero same.symm
    cases ahead'
    exact .finished ends
  | next sees others ih =>
    obtain ⟨other, rights, rfl⟩ := List.exists_cons_of_length_eq_add_one same.symm
    obtain ⟨behind, sees', others'⟩ := ahead'.uncons
    exact .item ⟨sees, sees'⟩ (ih others' (Nat.succ.inj same) ends)

/-- The pairs that an image is made from are the first elements of the two lists. -/
theorem passes_of_paired {items : LazyList} {place : (pairing context lists func).Position}
    {pairs : List ((pairing context lists func).Element × ThunkId)}
    {extent : Source.Extent (pairing context lists func).Position}
    (image : (pairing context lists func).Image context store items place pairs extent) :
    ∃ last : Cursor × Cursor, store.Passes (Prod.fst place) (pairs.map fun pair => (Prod.fst pair.1)) last.1 ∧
      store.Passes (Prod.snd place) (pairs.map fun pair => (Prod.snd pair.1)) last.2 ∧
      (pairing context lists func).Reaches store last extent := by
  induction image with
  | nil ends => exact ⟨_, .here, .here, ends⟩
  | last cell => exact ⟨_, .next (Map2Cell.left cell) .here, .next (Map2Cell.right cell) .here, rfl⟩
  | next cell found image ih =>
    obtain ⟨last, lefts, rights, reaches⟩ := ih
    exact ⟨last, .next (Map2Cell.left cell) lefts, .next (Map2Cell.right cell) rights, reaches⟩

/-- Elements that were put off in new cells stand for applications of the function to two elements. -/
theorem standsFor_of_pairPutOff {moment later : Moment} (same : moment.context = context)
    {elements : Visible × Visible} {first : ThunkId}
    (put : (pairing context lists func).PutOff moment later elements first) :
    context.StandsFor moment later func [elements.1, elements.2] first := by
  obtain ⟨start, position, rest, others, ahead, beyond, nested, fresh⟩ := put
  obtain ⟨works, fetches, delays⟩ := Map2Cell.delays fresh.cell
  obtain ⟨held, waits⟩ := fresh.first
  exact ⟨start, works, ahead, beyond, fetches, delays,
    delays.account (ahead.context_eq.trans same) waits nested beyond⟩

/-- What is said about every cell of a list mapped from two lists, whatever else happens in a session. -/
structure MappedPairs (context : Context) (lists func : ThunkId) : Prop where
  /--
  Asking for what is behind a cell takes one step along the first list, and one along the second list where
  the first one has an element; the computation for the second one is new, and it is there. Nothing else is
  evaluated.
  -/
  next : ∀ {store position elements rest first others work meter},
    Map2Cell context lists func store position elements rest first others →
    store.cell others = .suspended work → meter.current + 5 ≤ meter.limit →
    ∃ ready second,
      ((pairing context lists func).Advances context meter store others rest ready fun look between =>
        LooksAtBoth context (meter.below 3) second rest.1 rest.2 ready look between) ∧
      store.cells.size ≤ second ∧ ∀ {element own behind between},
        Turn context (meter.below 3) ready rest.1 (.item element own behind) between →
        ∃ last, ForcesTo context (meter.below 4) between second (.list rest.2.rest) last ∧
          between.Spares second last
  /--
  A walk from a new cell on takes one look after the other at both lists: with each element it goes one element
  on in both. The second list is looked at only where the first one has an element there, and the walk is at its
  end with the first of the two lists that is at its end.
  -/
  looks : ∀ {store after position elements rest first others entries closing meter},
    (pairing context lists func).Fresh store position elements rest first others →
    Sequence context meter store (.concat (.ofThunks [first]) others) entries closing after →
    meter.current + 5 ≤ meter.limit → ∃ (ids : List ThunkId) (elements : List (Visible × Visible)),
      entries = (first :: ids).map .thunk ∧ ids.length = elements.length ∧
      (pairing context lists func).Along (pairingLooks context meter lists func) others store rest elements
        closing after
  /--
  Where the two lists are visible up to the end of the shorter one, a walk comes to its end. It comes to as many
  elements, puts off each of them and evaluates nothing but the list itself.
  -/
  walk : ∀ {store position elements rest first others work lefts rights last meter},
    Map2Cell context lists func store position elements rest first others →
    store.cell others = .suspended work → store.Passes (Prod.fst rest) lefts (Prod.fst last) →
    store.Passes (Prod.snd rest) rights (Prod.snd last) → lefts.length = rights.length →
    (pairing context lists func).Ends store last → meter.current + 5 ≤ meter.limit →
    ∃ (ids : List ThunkId) (after : Store),
      Sequence context meter store (.concat (.ofThunks [first]) others) ((first :: ids).map .thunk) .finished
        after ∧
      ids.length = lefts.length ∧ store.Spares others after ∧
      ∀ id ∈ ids, ∃ work, after.cell id = .suspended work
  /--
  At every later moment, the part of such a list that is evaluated is made from as many elements of each of
  the two lists; what is behind it is made from what is behind these elements. It is at its end only where
  one of the lists is, so that it is as long as the shorter one. Each of its elements stands for the
  application of the function to the elements at its place.
  -/
  session : ∀ {moment later : Moment} {position elements rest first others}, moment.context = context →
    WellNested moment.store moment.state.stack → moment.Onward later →
    (pairing context lists func).Fresh moment.store position elements rest first others →
    ∃ (pairs : List ((Visible × Visible) × ThunkId)) (extent : Source.Extent (Cursor × Cursor))
      (last : Cursor × Cursor),
      (pairing context lists func).Image context later.store (.concat (.ofThunks [first]) others) position
        pairs extent ∧
      later.store.Passes (Prod.fst position) (pairs.map fun pair => pair.1.1) last.1 ∧
      later.store.Passes (Prod.snd position) (pairs.map fun pair => pair.1.2) last.2 ∧
      (pairing context lists func).Reaches later.store last extent ∧
      (∀ meter, Sequence context meter later.store (.concat (.ofThunks [first]) others)
        (pairs.map fun pair => .thunk pair.2) extent.closing later.store) ∧
      (extent = .whole → ∀ meter lefts rights after after',
        Sequence context meter later.store (Cursor.rest (Prod.fst position)) lefts .finished after →
        Sequence context meter later.store (Cursor.rest (Prod.snd position)) rights .finished after' →
        pairs.length = min lefts.length rights.length) ∧
      ∀ pair ∈ pairs, context.StandsFor moment later func [pair.1.1, pair.1.2] pair.2

/-- Cells of lists mapped from two lists are as said. -/
theorem mappedPairs (context : Context) (lists func : ThunkId) : MappedPairs context lists func where
  next cell waits room := cell.advances waits room
  looks fresh walk room := Source.Along.of_walk (pairing_takes room) pairingLooks_precedes fresh walk
  walk {_ _ _ _ _ _ _ lefts rights _ _} cell waits left right same ends room := by
    obtain ⟨ids, after, sequence, count, rest⟩ :=
      Source.Seen.walk (pairing_peeks room) cell waits (pairing_seen left right same ends)
    have pairs : (List.zip lefts rights).length = lefts.length := by rw [List.length_zip, same, Nat.min_self]
    exact ⟨ids, after, sequence, count.trans pairs, rest⟩
  session same nested onward fresh := by
    obtain ⟨(pairs : List ((Visible × Visible) × ThunkId)), extent, image, each⟩ :=
      Source.image_of_fresh (pairing_made context lists func) _ same onward nested fresh (Nat.le_add_left _ _)
    obtain ⟨last, lefts, rights, reaches⟩ := passes_of_paired image
    refine ⟨pairs, extent, last, image, lefts, rights, reaches, fun meter => image.sequence, ?_,
      fun pair member => standsFor_of_pairPutOff same (each pair member)⟩
    rintro rfl meter all all' after after' left right
    -- The walk that made the pairs stopped at the end of one of the lists, and that is the shorter
    -- one.
    rcases reaches with ends | ⟨⟨sight, sees⟩, ends⟩
    · have one : all.length = pairs.length := (lefts.length_eq ends (.refl _) left).trans (List.length_map _)
      have two : pairs.length ≤ all'.length :=
        Nat.le_trans (Nat.le_of_eq (List.length_map _).symm) (rights.length_le (.refl _) right)
      omega
    · have one : pairs.length < all.length :=
        Nat.lt_of_le_of_lt (Nat.le_of_eq (List.length_map _).symm) (lefts.length_lt sees (.refl _) left)
      have two : all'.length = pairs.length :=
        (rights.length_eq ends (.refl _) right).trans (List.length_map _)
      omega

/-- What a use of `map2` comes to, for the computations of its operands. -/
structure MapsPairs (context : Context) (meter : DepthMeter) (store : Store) (env : Env) (id : ExprId)
    (lists func first second : ThunkId) (ready : Store) : Prop where
  /-- The first list is asked for, and a look is taken at both; a cell is made without the function. -/
  front : ∀ {left right : Cursor} {middle look between},
    ForcesTo context (meter.below 3) ready first (.list left.rest) middle →
    LooksAtBoth context (meter.below 2) second left right middle look between →
    ∃ outcome after, (pairing context lists func).Step between (left, right) look outcome after ∧
      Brings context meter store (.eval id env) outcome after
  /-- A first list that goes wrong is what the use goes wrong with. -/
  fails : ∀ {failure after}, FailsWith context (meter.below 3) ready first failure after →
    Brings context meter store (.eval id env) (.error failure) after

/-- A use of `map2` puts off its operands and comes to what the look at both lists comes to. -/
theorem InScope.mapsPairs (scope : InScope context store lists) (binds : context.Binds env "lists" lists)
    {one two three : ExprId} (uses : UsesThree context "map2" one two three id)
    (room : meter.current + 5 ≤ meter.limit) :
    ∃ func first second ready, PlacesThree context lists env one two three store func first second ready ∧
      MapsPairs context meter store env id lists func first second ready := by
  have member : ("map2", fn "f" (fn "l1" (fn "l2" map2Body))) ∈ members := by simp [members]
  obtain ⟨func, first, second, ready, start, inner, places, evaluated, body, goes⟩ :=
    scope.goesTo_use₃ binds member (by decide) (by decide) (by decide) uses room
  have enough : meter.current + 3 ≤ meter.limit := by omega
  refine ⟨func, first, second, ready, places, fun forces looks => ?_, fun fails => ?_⟩
  · obtain ⟨outcome, after, step, brings⟩ := body.brings_map2 enough forces evaluated looks
    exact ⟨outcome, after, step, (goes []).trans brings⟩
  · exact (goes []).trans (body.map2_fails enough fails)

end Lists

end LazyConfig
