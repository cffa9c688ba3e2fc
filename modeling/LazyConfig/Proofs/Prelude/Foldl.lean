import LazyConfig.Proofs.Prelude.Generate

/-!
The list function `foldl`. It goes along its list on one level of nesting: each accumulator is evaluated
before the next step along the list, so that no chain of computations that wait for each other is built.
-/

namespace LazyConfig

/-- What is put off at the next place and begun at once is under way there. -/
theorem Store.suspend_set (store : Store) (work : Suspension) :
    (store.suspend work).2.set store.cells.size .inProgress = (store.alloc .inProgress).2 := by
  simp [Store.suspend, Store.alloc, Store.set, Array.setIfInBounds, Array.set_push]

/--
The store after a fold has gone on to the next step: two functions for the arguments that were left were
made, and the rest of the list is at the next place.
-/
def Store.stepped (store : Store) (element : Visible) (rest : Cursor) : Store :=
  (store.afterFunction.afterFunction.alloc .inProgress).2.keepRest store.cells.size element rest

/-- Going on to the next step adds computations. -/
theorem Store.stepped_extends (store : Store) (element : Visible) (rest : Cursor) :
    store.Extends (store.stepped element rest) := by
  have added : store.Extends (store.afterFunction.afterFunction.alloc .inProgress).2 :=
    store.afterFunction_extends.trans (store.afterFunction.afterFunction_extends.trans (Store.alloc_extends _ _))
  have shown := Store.reveal_extends (store.afterFunction.afterFunction.alloc .inProgress).2 element
  exact Store.Spares.extends (added.trans shown) (.set _ store.cells.size _) (Nat.le_refl _)

/--
A fold along a list from one position, with an accumulator: the elements that the function was applied to,
and what the fold comes to. No part of it goes deeper than a number of levels above its beginning. Each
step takes one step along the list and then applies the function to the accumulator and the element; only
when that has come to a value, the rest of the list is looked at.
-/
inductive Folds (context : Context) (room : Nat) (func : ThunkId)
    (argument : ThunkId → ThunkId → ThunkId → Suspension) :
    Store → ThunkId → ThunkId → Cursor → List Visible → Outcome → Store → Prop
  /-- At the end of the list the accumulator is asked for. -/
  | finished {store between after : Store} {list acc : ThunkId} {position : Cursor} {outcome : Outcome}
    (turn : Turn context ⟨room, 0⟩ store position .finished between)
    (brings : Brings context ⟨room, 0⟩ between (.force acc) outcome after) :
    Folds context room func argument store list acc position [] outcome after
  /-- Where the list goes wrong, so does the fold. -/
  | listFails {store after : Store} {list acc : ThunkId} {position : Cursor} {failure : Upset}
    {pending : List ThunkId} (turn : Turn context ⟨room, 0⟩ store position (.upset failure pending) after) :
    Folds context room func argument store list acc position [] (.error failure) after
  /-- A failed application is what the fold fails with, and nothing is looked at any more. -/
  | stepFails {store between after : Store} {list acc own : ThunkId} {position rest : Cursor}
    {element : Visible} {failure : Upset}
    (turn : Turn context ⟨room, 0⟩ store position (.item element own rest) between)
    (applies : Applies context ⟨room, 0⟩ func (between.alloc .inProgress).2
      [.shared acc, .putOff (argument list acc between.cells.size)] (.error failure) after) :
    Folds context room func argument store list acc position [element] (.error failure)
      (after.set between.cells.size (.failed failure.remembered))
  /-- The value of the application is the accumulator for what is behind the element. -/
  | step {store between middle after : Store} {list acc own : ThunkId} {position rest : Cursor}
    {element : Visible} {elements : List Visible} {value : Value} {outcome : Outcome}
    (turn : Turn context ⟨room, 0⟩ store position (.item element own rest) between)
    (applies : Applies context ⟨room, 0⟩ func (between.alloc .inProgress).2
      [.shared acc, .putOff (argument list acc between.cells.size)] (.ok value) middle)
    (others : Folds context room func argument ((middle.set between.cells.size (.forced value)).stepped element rest) middle.cells.size
      between.cells.size rest elements outcome after) :
    Folds context room func argument store list acc position (element :: elements) outcome after

namespace Lists

open Term

/-- The code of a function that reads as `foldl`. -/
structure FoldCode (context : Context) (lists : ThunkId) (function : Closure) where
  acc : Name
  list : Name
  next : Name
  start : ExprId
  decide : ExprId
  result : ExprId
  iterate : ExprId
  call : ExprId
  element : ExprId
  strict : ExprId
  opens : function.Opens context acc list start
  binds : ∀ func soFar others, ∀ var ∈ [("l", others), ("acc", soFar), ("f", func), ("lists", lists)],
    context.Binds (function.bind₃ acc list func soFar others) var.1 var.2
  named : context.Named "next" next
  choice : context.code.expr start = .cond decide result iterate
  test : context.Reads (isNilTerm "l") decide
  ends : context.Reads (var "acc") result
  binding : context.code.expr iterate = .letIn next call strict
  applies : ∃ partly, context.code.expr call = .apply partly element ∧
    context.Reads (app (var "f") (var "acc")) partly
  first : context.Reads (prim .head (var "l")) element
  rest : context.Reads (prim₂ .seq (var "next")
    (app (app (app (memberTerm "foldl") (var "f")) (var "next")) (prim .tail (var "l")))) strict

variable {context : Context} {meter : DepthMeter} {store middle between after : Store} {function : Closure}
  {lists func soFar list next : ThunkId} {position rest : Cursor} {element : Visible} {room : Nat}

/-- A function that reads as `foldl` has such code. -/
theorem Closes.foldCode
    (closes : Closes context [("lists", lists)] (fn "f" (fn "acc" (fn "l" foldlBody))) function) :
    Nonempty (FoldCode context lists function) := by
  obtain ⟨acc, list, start, opens, -, -, whole⟩ :=
    closes.opens (by simp) (by decide) (by decide)
  obtain ⟨decide, result, iterate, choice, test, ends, next, call, strict, binding, named,
    ⟨partly, element, node, func, first⟩, rest⟩ := (whole 0 0 0).reads
  exact ⟨⟨acc, list, next, start, decide, result, iterate, call, element, strict, opens,
    fun func soFar others => (whole func soFar others).binds, named, choice, test, ends, binding,
    ⟨partly, node, func⟩, first, rest⟩⟩

namespace FoldCode

variable (code : FoldCode context lists function)

/-- What the body is evaluated in, for a function, an accumulator and a list. -/
def env (func soFar list : ThunkId) : Env :=
  function.bind₃ code.acc code.list func soFar list

/-- What the application of the function is evaluated in. -/
def inside (func soFar list next : ThunkId) : Env :=
  (code.env func soFar list).bind code.next next

/-- The second argument of the application, which is the first element of the list when it is asked for. -/
def argument (func list soFar next : ThunkId) : Suspension :=
  .expr code.element (code.inside func soFar list next)

/-- The variables of the body are there where the new accumulator is in scope. -/
theorem inside_binds {text : String} {bound : ThunkId}
    (member : (text, bound) ∈ [("l", list), ("acc", soFar), ("f", func), ("lists", lists)]) :
    context.Binds (code.inside func soFar list next) text bound := by
  refine (code.binds func soFar list _ member).bind code.named ?_ next
  simp only [List.mem_cons, Prod.mk.injEq, List.not_mem_nil, or_false] at member
  rcases member with ⟨rfl, -⟩ | ⟨rfl, -⟩ | ⟨rfl, -⟩ | ⟨rfl, -⟩ <;> simp

/-- The new accumulator is the application of the function to the old one and the element. -/
theorem calls : context.Calls (code.inside func soFar list next) func code.call
    [.shared soFar, .putOff (code.argument func list soFar next)] := by
  obtain ⟨partly, node, one, two, inner, var, old⟩ := code.applies
  obtain ⟨shown, first, -⟩ := code.first
  have called : context.Calls (code.inside func soFar list next) func partly ([] ++ [.shared soFar]) :=
    .apply inner (.func var (code.inside_binds (by simp)))
      fun store => old.suspend_var (code.inside_binds (by simp)) store
  exact .apply node called fun store => suspend_builtin first store _

/-- A list that goes wrong is what the body goes wrong with. -/
theorem fails {failure : Upset} {begun : Store} (inside : meter.current + 2 ≤ meter.limit)
    (fails : FailsWith context (meter.below 2) begun list failure after) :
    Brings context meter begun (.eval code.start (code.env func soFar list)) (.error failure) after :=
  cond_fails code.choice (by omega) (code.test.isNil_fails (code.binds func soFar list ("l", list) (by simp))
    (show (meter.below 1).current < (meter.below 1).limit from inside) fails)

section

variable (forces : ForcesTo context (meter.below 2) store list (.list position.rest) middle)
  (enough : meter.current + 2 ≤ meter.limit)

include forces enough

/-- At the end of the list the accumulator is asked for. -/
theorem goesTo_result (turn : Turn context (meter.below 1) middle position .finished between) :
    State.GoesTo context ⟨store, meter, .eval code.start (code.env func soFar list), []⟩
      ⟨between, meter, .force soFar, []⟩ := by
  have decides := code.test.brings_isNil (code.binds func soFar list ("l", list) (by simp))
    (show (meter.below 1).current < (meter.below 1).limit from enough) forces turn
  refine (goesTo_cond code.choice (by omega) decides []).trans ?_
  exact .step (code.ends.step_var (code.binds func soFar list ("acc", soFar) (by simp)) []) (.refl _)

/-- Where the list goes wrong, so does the body. -/
theorem list_fails {failure : Upset} {pending : List ThunkId}
    (turn : Turn context (meter.below 1) middle position (.upset failure pending) between) :
    Brings context meter store (.eval code.start (code.env func soFar list)) (.error failure) between := by
  have decides := code.test.brings_isNil (code.binds func soFar list ("l", list) (by simp))
    (show (meter.below 1).current < (meter.below 1).limit from enough) forces turn
  exact cond_fails code.choice (by omega) decides

/-- For an element the application of the function is put off as the new accumulator. -/
theorem goesTo_strict {own : ThunkId}
    (turn : Turn context (meter.below 1) middle position (.item element own rest) between) :
    State.GoesTo context ⟨store, meter, .eval code.start (code.env func soFar list), []⟩
      ⟨(between.suspend (.expr code.call (code.inside func soFar list between.cells.size))).2, meter,
        .eval code.strict (code.inside func soFar list between.cells.size), []⟩ := by
  have decides := code.test.brings_isNil (code.binds func soFar list ("l", list) (by simp))
    (show (meter.below 1).current < (meter.below 1).limit from enough) forces turn
  refine (goesTo_cond code.choice (by omega) decides []).trans (.step ?_ (.refl _))
  simp [State.step, Context.evalStep, code.binding, Context.bindRecursive_eq, inside, env]

end

section

variable {value : Value} {failure : Upset}

/-- A failed application is what the body fails with. -/
theorem step_fails (inside : meter.current < meter.limit)
    (brings : Brings context (meter.below 1) store (.force next) (.error failure) after) :
    Brings context meter store (.eval code.strict (code.inside func soFar list next)) (.error failure) after := by
  obtain ⟨forced, again, node, var, -⟩ := code.rest
  have asked : State.step context ⟨store, meter, .eval code.strict (code.inside func soFar list next), []⟩ =
      ⟨store, meter, .enter forced (code.inside func soFar list next),
        [.thenEval again (code.inside func soFar list next)]⟩ := by
    simp [State.step, Context.evalStep, node]
  exact .step asked ((var.goesTo_var (.self code.named _ _) inside brings _).trans (.step rfl (.refl _)))

/-- When the application has come to a value, the body goes on as the body for what is behind the element. -/
theorem goesTo_next (holds : Holds after lists "foldl" function) (room : meter.current + 3 < meter.limit)
    (brings : Brings context (meter.below 1) store (.force next) (.ok value) after)
    (found : after.cell list = .forced (.list position.rest))
    (sees : after.Sees position (some (element, rest))) :
    ∃ begun, after.Extends begun ∧
      State.GoesTo context ⟨store, meter, .eval code.strict (code.inside func soFar list next), []⟩
        ⟨begun, meter, .eval code.start (code.env func next after.cells.size), []⟩ ∧
      ForcesTo context (meter.below 2) begun after.cells.size (.list rest.rest) (after.stepped element rest) := by
  obtain ⟨forced, again, node, var, twice, tail, outer, ⟨once, passed, halfway, ⟨use, shared, inner, mem, fn⟩,
    next'⟩, ⟨shown, prim, named⟩⟩ := code.rest
  have bindsList : context.Binds (code.inside func soFar list next) "l" list := code.inside_binds (by simp)
  have bindsFunc : context.Binds (code.inside func soFar list next) "f" func := code.inside_binds (by simp)
  have bindsLists : context.Binds (code.inside func soFar list next) "lists" lists :=
    code.inside_binds (by simp)
  have own : context.Binds (code.inside func soFar list next) "next" next := .self code.named _ _
  generalize code.inside func soFar list next = env at bindsList bindsFunc bindsLists own
  have asked : State.step context ⟨store, meter, .eval code.strict env, []⟩ =
      ⟨store, meter, .enter forced env, [.thenEval again env]⟩ := by
    simp [State.step, Context.evalStep, node]
  -- The function and the accumulator are shared, and the rest of the list is put off.
  have uses := @Holds.brings_own _ (meter.below 3) _ _ _ _ _ _ holds mem bindsLists room
  have goes := code.opens.goesTo outer halfway inner (by omega) uses (fn.suspend_var bindsFunc after)
    (next'.suspend_var own after.afterFunction)
    (suspend_builtin prim after.afterFunction.afterFunction env) []
  have grown := after.afterFunction_extends.trans (after.afterFunction.afterFunction_extends.trans
    (after.afterFunction.afterFunction.suspend_extends (.expr tail env)))
  refine ⟨_, grown, .step asked ((var.goesTo_var own (by omega) brings _).trans (.step rfl goes)), ?_⟩
  have waits := after.afterFunction.afterFunction.cell_alloc (.suspended (.expr tail env)) after.cells.size
  have forces := forces_rest ⟨shown, prim, named⟩ bindsList (grown.precedes.forced found)
    (sees.later grown.precedes) (waits.trans (if_pos rfl))
    (show (meter.below 2).current < (meter.below 2).limit by simp only [DepthMeter.below]; omega)
  rw [Store.stepped, ← after.afterFunction.afterFunction.suspend_set (.expr tail env)]
  exact forces

end

/-- The new accumulator, which is asked for at once, comes to what the application comes to. -/
theorem forces_next {acc : ThunkId} {outcome : Outcome}
    (applies : Applies context ⟨room, 0⟩ func (between.alloc .inProgress).2
      [.shared acc, .putOff (code.argument func list acc between.cells.size)] outcome after)
    (fits : outcome.Fits room) (enough : meter.current + room + 4 ≤ meter.limit) :
    Brings context (meter.below 1)
      (between.suspend (.expr code.call (code.inside func acc list between.cells.size))).2
      (.force between.cells.size) outcome (after.set between.cells.size (.ended outcome)) := by
  have waits := between.cell_alloc
    (.suspended (.expr code.call (code.inside func acc list between.cells.size))) between.cells.size
  have begun := between.suspend_set (.expr code.call (code.inside func acc list between.cells.size))
  refine code.calls.forces (waits.trans (if_pos rfl)) (begun ▸ applies) fits ?_
  simp only [DepthMeter.below, List.length_cons, List.length_nil]
  omega

/-- The body comes to what the fold comes to, on one level, and the elements are all elements of the list. -/
theorem brings {acc : ThunkId} {elements : List Visible} {outcome : Outcome}
    (folds : Folds context room func (code.argument func) store list acc position elements outcome after)
    (fits : outcome.Fits room) {begun : Store} (holds : Holds begun lists "foldl" function)
    (forces : ForcesTo context (meter.below 2) begun list (.list position.rest) store)
    (enough : meter.current + room + 4 ≤ meter.limit) :
    Brings context meter begun (.eval code.start (code.env func acc list)) outcome after ∧
      ∀ value, outcome = .ok value → ∃ last, after.Passes position elements last ∧ after.Sees last none := by
  have deeper : room + (meter.below 1).current ≤ (meter.below 1).limit + 0 := by
    simp only [DepthMeter.below]
    omega
  have inside : meter.current + 2 ≤ meter.limit := by omega
  -- One step of the induction is one iteration, which begins with the evaluated rest of the list.
  induction folds generalizing begun with
  | finished turn brings =>
    have level : room + meter.current ≤ meter.limit + 0 := by omega
    exact ⟨(code.goesTo_result forces inside (turn.shift (Stop.finished_fits _) deeper)).trans (brings.shift fits level),
      fun value given => ⟨_, .here, turn.sees_finished.later brings.precedes⟩⟩
  | listFails turn =>
    refine ⟨code.list_fails forces inside (turn.shift (fun upset left same => ?_) deeper), fun value given => by simp at given⟩
    obtain ⟨rfl, -⟩ := Stop.upset.inj same
    exact fits _ rfl
  | @stepFails store between after list acc own position rest element failure turn applies =>
    have goes : State.GoesTo context ⟨begun, meter, .eval code.start (code.env func acc list), []⟩ _ :=
      code.goesTo_strict forces inside (turn.shift (Stop.item_fits _ _ _ _) deeper)
    exact ⟨goes.trans (code.step_fails (by omega) (code.forces_next applies fits enough)),
      fun value given => by simp at given⟩
  | @step store between middle after list acc own position rest element elements value outcome turn applies
      others ih =>
    have goes : State.GoesTo context ⟨begun, meter, .eval code.start (code.env func acc list), []⟩ _ :=
      code.goesTo_strict forces inside (turn.shift (Stop.item_fits _ _ _ _) deeper)
    have gives : Brings context (meter.below 1) _ _ (.ok value)
        (middle.set between.cells.size (.forced value)) :=
      code.forces_next applies (Outcome.fits_ok value room) enough
    have order := (between.suspend_extends _).precedes.trans gives.precedes
    have order' := turn.precedes.trans order
    obtain ⟨next, grown, goes', forces'⟩ := code.goesTo_next (holds.later (forces.forced.2.trans order'))
      (by omega) gives (order'.forced forces.forced.1) (turn.sees.later order)
    rw [Store.set_size] at goes' forces'
    obtain ⟨rest, all⟩ := ih fits (holds.later ((forces.forced.2.trans order').trans grown.precedes)) forces'
    refine ⟨goes.trans (goes'.trans rest), fun result given => ?_⟩
    obtain ⟨last, passes, ends⟩ := all result given
    exact ⟨last, .next (turn.sees.later ((order.trans grown.precedes).trans rest.precedes)) passes, ends⟩

/-- When the body comes to something, its test has taken a step along the list. -/
theorem turns {acc : ThunkId} {outcome : Outcome} {begun : Store}
    (forces : ForcesTo context (meter.below 2) begun list (.list position.rest) store)
    (enough : meter.current + 2 ≤ meter.limit)
    (brings : Brings context meter begun (.eval code.start (code.env func acc list)) outcome after) :
    ∃ stop between, Turn context (meter.below 1) store position stop between := by
  obtain ⟨steps, reached⟩ := brings.of_step (Control.busy rfl)
  have asked : State.step context ⟨begun, meter, .eval code.start (code.env func acc list), []⟩ =
      ⟨begun, meter, .enter code.decide (code.env func acc list),
        [.branch code.result code.iterate (code.env func acc list)]⟩ := by
    simp [State.step, Context.evalStep, code.choice]
  rw [asked] at reached
  obtain ⟨found, middle, entered, -⟩ := brings_then (reached.symm ▸ State.hands_passing)
  exact code.test.isNil_turns (code.binds func acc list ("l", list) (by simp))
    (show (meter.below 1).current < (meter.below 1).limit from enough) forces
    (entered.entered (by omega))

/-- When the rest of the body comes to something, the new accumulator has come to something before. -/
theorem asks {outcome : Outcome} (inside : meter.current < meter.limit)
    (brings : Brings context meter store (.eval code.strict (code.inside func soFar list next)) outcome after) :
    ∃ found middle, Brings context (meter.below 1) store (.force next) found middle := by
  -- The new accumulator is asked for on a level of its own before the next iteration.
  obtain ⟨forced, again, node, var, -⟩ := code.rest
  obtain ⟨steps, reached⟩ := brings.of_step (Control.busy rfl)
  have asked : State.step context ⟨store, meter, .eval code.strict (code.inside func soFar list next), []⟩ =
      ⟨store, meter, .enter forced (code.inside func soFar list next),
        [.thenEval again (code.inside func soFar list next)]⟩ := by
    simp [State.step, Context.evalStep, node]
  rw [asked] at reached
  obtain ⟨found, middle, entered, -⟩ := brings_then (reached.symm ▸ State.hands_passing)
  refine ⟨found, middle, ?_⟩
  have own : context.Binds (code.inside func soFar list next) "next" next := .self code.named _ _
  have goes := (entered.entered inside).of_step (Control.busy rfl)
  rwa [var.step_var own] at goes

/-- The body of the loop is not the part of it that asks for the new accumulator. -/
theorem start_ne_strict : code.start ≠ code.strict := by
  intro same
  obtain ⟨forced, again, node, -⟩ := code.rest
  cases (same ▸ code.choice).symm.trans node

/-- Whatever the body comes to, a fold comes to. -/
theorem folds {acc : ThunkId} {outcome : Outcome} (steps : Nat) {begun : Store}
    (ran : State.run context steps ⟨begun, meter, .eval code.start (code.env func acc list), []⟩ =
      ⟨after, meter, .passing outcome, []⟩) (fits : outcome.Fits meter.limit)
    (holds : Holds begun lists "foldl" function)
    (forces : ForcesTo context (meter.below 2) begun list (.list position.rest) store)
    (enough : meter.current + 4 ≤ meter.limit) (deep : meter.limit < room) :
    ∃ elements, Folds context room func (code.argument func) store list acc position elements outcome after := by
  -- Each iteration takes steps of its own, so that fewer are left for the others.
  induction steps using Nat.strongRecOn generalizing begun store acc list position with
  | _ steps ih =>
    have whole : Brings context meter begun (.eval code.start (code.env func acc list)) outcome after :=
      ⟨steps, ran⟩
    have inside : meter.current + 2 ≤ meter.limit := by omega
    have level : meter.limit + 0 ≤ room + (meter.below 1).current := by omega
    obtain ⟨stop, between, turn⟩ := code.turns forces inside whole
    -- A step along the list decides the iteration: the end, a right part that goes wrong, or an
    -- element.
    cases stop with
    | finished =>
      have asked : State.GoesTo context ⟨begun, meter, .eval code.start (code.env func acc list), []⟩ _ :=
        code.goesTo_result forces inside turn
      have brings : Brings context meter between (.force acc) outcome after :=
        asked.rest (State.not_ended rfl) whole State.hands_passing
      have shallow : meter.limit + 0 ≤ room + meter.current := by omega
      exact ⟨[], .finished (turn.shift (Stop.finished_fits _) level) (brings.shift fits shallow)⟩
    | upset failure pending =>
      obtain ⟨rfl, rfl⟩ := whole.unique (code.list_fails forces inside turn)
      refine ⟨[], .listFails (turn.shift (fun upset left same => ?_) level)⟩
      obtain ⟨rfl, -⟩ := Stop.upset.inj same
      exact fits _ rfl
    | item element own rest =>
      -- The way to the strict part takes at least one step, so that the rest of the run is shorter.
      have strict : State.GoesTo context ⟨begun, meter, .eval code.start (code.env func acc list), []⟩ _ :=
        code.goesTo_strict forces inside turn
      obtain ⟨before, more, rfl, went, left⟩ := strict.splits (State.not_ended rfl) ran State.hands_passing
      have moved : before ≠ 0 := by
        rintro rfl
        exact code.start_ne_strict (Control.eval.inj (congrArg State.control went)).1
      have own : Brings context meter _ (.eval code.strict (code.inside func acc list between.cells.size))
        outcome after := ⟨more, left⟩
      obtain ⟨found, settled, brings⟩ := code.asks (by omega) own
      have waits := (between.cell_alloc
        (.suspended (.expr code.call (code.inside func acc list between.cells.size))) between.cells.size).trans
        (if_pos rfl)
      have begin := between.suspend_set (.expr code.call (code.inside func acc list between.cells.size))
      -- The new accumulator fails, and the fold with it, or the next iteration begins.
      cases found with
      | error failure =>
        have fails : Brings context meter _
            (.eval code.strict (code.inside func acc list between.cells.size)) (.error failure) settled :=
          code.step_fails (by omega) brings
        obtain ⟨rfl, rfl⟩ := own.unique fails
        obtain ⟨last, applies, rfl⟩ :=
          (@FoldCode.calls _ _ _ func acc list between.cells.size code).of_forces waits brings fits deep
        exact ⟨[element], .stepFails (turn.shift (Stop.item_fits _ _ _ _) level) (begin ▸ applies)⟩
      | ok value =>
        obtain ⟨last, applies, rfl⟩ := (@FoldCode.calls _ _ _ func acc list between.cells.size code).of_forces
          waits brings (Outcome.fits_ok value _) deep
        have order := (between.suspend_extends _).precedes.trans brings.precedes
        have order' := turn.precedes.trans order
        obtain ⟨next, grown, goes, forces'⟩ := @goesTo_next _ meter _ _ _ _ func acc _ _ _ _ _ code _
          (holds.later (forces.forced.2.trans order')) (by omega) brings (order'.forced forces.forced.1)
          (turn.sees.later order)
        rw [Store.set_size] at goes forces'
        obtain ⟨passed, fewer, rfl, -, ran'⟩ := goes.splits (State.not_ended rfl) left State.hands_passing
        obtain ⟨elements, folds⟩ := ih fewer (by omega) ran'
          (holds.later ((forces.forced.2.trans order').trans grown.precedes)) forces'
        exact ⟨element :: elements, .step (turn.shift (Stop.item_fits _ _ _ _) level) (begin ▸ applies) folds⟩

end FoldCode

/--
Work that comes to an outcome on every level with a number of levels left, and goes no deeper than that.
-/
def BringsWithin (context : Context) (room : Nat) (store : Store) (work : Control) (outcome : Outcome)
    (after : Store) : Prop :=
  ∀ meter : DepthMeter, meter.current + room ≤ meter.limit →
    Brings context meter store work outcome after ∧
      ∀ steps, (State.run context steps ⟨store, meter, work, []⟩).meter.current ≤ meter.current + room

/-- What a use of `foldl` comes to, for the computations of its operands. -/
structure FoldsLeft (context : Context) (room : Nat) (store : Store) (env : Env) (id : ExprId)
    (func acc list : ThunkId) (argument : ThunkId → ThunkId → ThunkId → Suspension) (ready : Store) : Prop where
  /-- The second argument of an application is the first element of the list when it is asked for. -/
  fetches : ∀ {now position element behind others soFar next},
    now.cell others = .forced (.list (Cursor.rest position)) → now.Sees position (some (element, behind)) →
    context.Fetches now element (argument others soFar next)
  /--
  The use comes to what the fold comes to, and goes no more than five levels deeper than the parts of the
  fold, however long the list is. A fold that comes to a value has gone along the whole list.
  -/
  folds : ∀ {position begun elements outcome after},
    ForcesTo context ⟨room, 0⟩ ready list (.list (Cursor.rest position)) begun →
    Folds context room func argument begun list acc position elements outcome after →
    (∀ limit, outcome.Fits limit) → BringsWithin context (room + 5) store (.eval id env) outcome after ∧
      ∀ value, outcome = .ok value → ∃ last, after.Passes position elements last ∧ after.Sees last none
  /-- A list that goes wrong is what the use goes wrong with. -/
  fails : ∀ {failure after}, FailsWith context ⟨room, 0⟩ ready list failure after →
    (∀ limit, ¬ failure.Overflows limit) → BringsWithin context (room + 5) store (.eval id env) (.error failure) after
  /-- Whatever the use comes to, a fold comes to. -/
  only : ∀ {position begun outcome after} {meter : DepthMeter},
    ForcesTo context ⟨room, 0⟩ ready list (.list (Cursor.rest position)) begun → meter.limit ≤ room →
    Brings context meter store (.eval id env) outcome after → (∀ limit, outcome.Fits limit) →
    ∃ deep elements, Folds context deep func argument begun list acc position elements outcome after

/-- A use of `foldl` puts off its operands and comes to what the fold along its list comes to. -/
theorem InScope.foldsLeft {env : Env} {first second third id : ExprId} (scope : InScope context store lists)
    (binds : context.Binds env "lists" lists) (uses : UsesThree context "foldl" first second third id)
    (room : Nat) :
    ∃ func acc list argument ready, PlacesThree context lists env first second third store func acc list ready ∧
      FoldsLeft context room store env id func acc list argument ready := by
  have member : ("foldl", fn "f" (fn "acc" (fn "l" foldlBody))) ∈ members := by simp [members]
  let high : DepthMeter := ⟨room + 5, 0⟩
  obtain ⟨function, func, acc, list, ready, places, -, holds, closes, goes⟩ :=
    @InScope.places _ high _ _ _ _ _ _ _ _ scope binds _ member uses (by simp only [high]; omega)
  obtain ⟨code⟩ := closes.foldCode
  have begins := goes code.opens []
  have enough : high.current + room + 4 ≤ high.limit := by
    simp only [high]
    omega
  have deeper {position : Cursor} {begun : Store}
      (forces : ForcesTo context ⟨room, 0⟩ ready list (.list position.rest) begun) :
      ForcesTo context (high.below 2) ready list (.list position.rest) begun :=
    forces.shift (by simp only [high, DepthMeter.below]; omega)
  refine ⟨func, acc, list, code.argument func, ready, places, fun found sees => ?_,
    fun forces folds fits => ?_, fun {failure after} fails fits => ?_, fun forces less brings fits => ?_⟩
  · exact code.first.fetches (code.inside_binds (by simp)) found sees
  · obtain ⟨brings, all⟩ := code.brings folds (fits room) holds (deeper forces) enough
    exact ⟨Brings.peak (begins.trans brings) (fits _), all⟩
  · have deeper : FailsWith context (high.below 2) ready list failure after :=
      fails.shift (fits _) (by simp only [high, DepthMeter.below]; omega)
    have brings : Brings context high ready (.eval code.start (code.env func acc list)) (.error failure) after :=
      code.fails (by omega) deeper
    refine Brings.peak (begins.trans brings) fun upset same => ?_
    exact Except.error.inj same ▸ fits _
  · have higher : Brings context high store (.eval id env) _ _ :=
      brings.shift (fits _) (by simp only [high]; omega)
    obtain ⟨steps, ran⟩ := begins.rest (State.not_ended rfl) higher State.hands_passing
    exact ⟨_, code.folds steps ran (fits _) holds (deeper forces) (by omega) (Nat.lt_succ_self _)⟩

/-- Along the lists of `map`, a step takes four levels more than one along the list that they are mapped from. -/
def StepsLevel (context : Context) : Prop :=
  ∀ {lists func store position element rest first others work},
    MapCell context lists func store position element rest first others →
    store.cell others = .suspended work → ∀ room, ∃ ready,
      (store.set others .inProgress).Extends ready ∧ ready.calls = store.calls ∧
      (∀ {stop between}, Turn context ⟨room, 0⟩ ready rest stop between → stop.Fits room →
        ∃ next after, Turn context ⟨room + 4, 0⟩ store ⟨.elems #[first] 1, [others]⟩ next after ∧
          next.emptiness = stop.emptiness) ∧
      ∀ {next stop}, rest = ⟨.range next stop, []⟩ →
        ∃ step after, Turn context ⟨room + 4, 0⟩ store ⟨.elems #[first] 1, [others]⟩ step after

/-- Steps along the lists of `map` and `generate` are as said. -/
theorem stepsLevel (context : Context) : StepsLevel context := by
  intro lists func store position element rest first others work cell waits room
  obtain ⟨ready, grown, calls, turns⟩ := cell.turn waits room
  refine ⟨ready, grown, calls, turns, fun {next stop} shape => ?_⟩
  subst shape
  obtain ⟨step, after, turn, -, -, decided⟩ := @turn_range context ⟨room, 0⟩ ready next stop
  have fits : step.Fits room := by
    split at decided <;> subst decided
    · exact Stop.item_fits _ _ _ _
    · exact Stop.finished_fits _
  obtain ⟨next, after, turn, -⟩ := turns turn fits
  exact ⟨next, after, turn⟩

end Lists

end LazyConfig
