import LazyConfig.Proofs.Lists.Primitives
import LazyConfig.Proofs.Lists.Sights
import LazyConfig.Proofs.Prelude.Terms

/-!
How the expressions that the list functions are made of are evaluated: variables, applications, the test
for the empty list, and the first element and the rest of a list.
-/

namespace LazyConfig

variable {context : Context} {meter : DepthMeter} {store middle after : Store} {env : Env} {id : ExprId}
  {outcome : Outcome} {list : ThunkId} {cursor rest : Cursor} {element : Visible} {stop : Stop}

namespace Context

/-- An environment binds the name that stands for a text. -/
def Binds (context : Context) (env : Env) (text : String) (bound : ThunkId) : Prop :=
  ∃ name, context.Named text name ∧ env.lookup name = some bound

/-- The innermost binding is seen. -/
theorem Binds.self {text : String} {name : Name} (named : context.Named text name) (env : Env)
    (bound : ThunkId) : context.Binds (env.bind name bound) text bound :=
  ⟨name, named, by rw [Env.lookup_bind, if_pos rfl]⟩

/-- Bindings of other names are passed. -/
theorem Binds.bind {text other : String} {name : Name} {bound : ThunkId}
    (binds : context.Binds env text bound) (named : context.Named other name) (different : text ≠ other)
    (value : ThunkId) : context.Binds (env.bind name value) text bound := by
  obtain ⟨own, called, found⟩ := binds
  -- A name is shown as one text only.
  have apart : own ≠ name := fun same => different (by rw [← called.lookup, same, named.lookup])
  exact ⟨own, called, by rw [Env.lookup_bind, if_neg apart, found]⟩

section

variable {text : String} {bound : ThunkId}

/-- A variable asks for what it is bound to. -/
theorem Reads.step_var (reads : context.Reads (.var text) id) (binds : context.Binds env text bound)
    (stack : List Frame) :
    State.step context ⟨store, meter, .eval id env, stack⟩ = ⟨store, meter, .force bound, stack⟩ := by
  obtain ⟨name, named, node⟩ := reads
  obtain ⟨same, called, found⟩ := binds
  obtain rfl := named.unique called
  simp [State.step, Context.evalStep, node, found]

/-- A variable that is put off shares what it is bound to. -/
theorem Reads.suspend_var (reads : context.Reads (.var text) id) (binds : context.Binds env text bound)
    (store : Store) : context.suspend store id env = (bound, store) := by
  obtain ⟨name, named, node⟩ := reads
  obtain ⟨same, called, found⟩ := binds
  obtain rfl := named.unique called
  simp [Context.suspend, node, found]

/-- What a variable is bound to, evaluated one level deeper. -/
theorem Reads.goesTo_var (reads : context.Reads (.var text) id) (binds : context.Binds env text bound)
    (inside : meter.current < meter.limit)
    (brings : Brings context (meter.below 1) store (.force bound) outcome after) (stack : List Frame) :
    State.GoesTo context ⟨store, meter, .enter id env, stack⟩
      ⟨after, meter, .passing outcome, stack⟩ :=
  (Brings.enter inside (.step (reads.step_var binds []) brings)).above stack

end

end Context

/-! Applications. -/

section

variable {func arg : ExprId} {function : Closure} {held : ThunkId}

/-- The applied function's body is evaluated on the level of the application. -/
theorem goesTo_operand (node : context.code.expr id = .apply func arg)
    (inside : meter.current < meter.limit)
    (brings : Brings context (meter.below 1) store (.eval func env) (.ok (.closure function)) middle)
    (put : context.suspend middle arg env = (held, after)) (stack : List Frame) :
    State.GoesTo context ⟨store, meter, .eval id env, stack⟩
      ⟨after, meter, .eval function.body (function.env.bind function.param held), stack⟩ := by
  have asked : State.step context ⟨store, meter, .eval id env, stack⟩ =
      ⟨store, meter, .enter func env, .operand arg env :: stack⟩ := by
    simp [State.step, Context.evalStep, node]
  refine .step asked (((Brings.enter inside brings).above _).trans (.step ?_ (.refl _)))
  simp [State.step, Control.passing, Context.giveStep, put]

/-- An application of a function of two arguments gives the function of the second one. -/
theorem brings_partial (node : context.code.expr id = .apply func arg)
    (inside : meter.current < meter.limit)
    (brings : Brings context (meter.below 1) store (.eval func env) (.ok (.closure function)) middle)
    (put : context.suspend middle arg env = (held, after)) {param : Name} {body : ExprId}
    (inner : context.code.expr function.body = .lambda param body) :
    Brings context meter store (.eval id env)
      (.ok (after.closure param body (function.env.bind function.param held)).1)
      (after.closure param body (function.env.bind function.param held)).2 := by
  refine (goesTo_operand node inside brings put []).trans (.step ?_ (.refl _))
  simp [State.step, Context.evalStep, inner, Control.passing]

/-- The store after a function was made. -/
def Store.afterFunction (store : Store) : Store :=
  { store with closures := store.closures + 1 }

/-- Making a function leaves all computations as they are. -/
theorem Store.afterFunction_extends (store : Store) : store.Extends store.afterFunction :=
  ⟨Nat.le_refl _, fun _ _ => rfl⟩

/-- A function of three parameters: its own and two more. -/
def Closure.Opens (context : Context) (function : Closure) (other last : Name) (start : ExprId) : Prop :=
  ∃ inner, context.code.expr function.body = .lambda other inner ∧
    context.code.expr inner = .lambda last start

/-- What the body of a function of three parameters is evaluated in. -/
def Closure.bind₃ (function : Closure) (other last : Name) (one two three : ThunkId) : Env :=
  ((function.env.bind function.param one).bind other two).bind last three

/-- A call of a function of three parameters comes to the evaluation of its body. -/
theorem Closure.Opens.goesTo {name name' : Name} {start : ExprId}
    (opens : function.Opens context name name' start) {twice once use first second third : ExprId}
    {begun early late : Store} {one two three : ThunkId}
    (outer : context.code.expr id = .apply twice third)
    (halfway : context.code.expr twice = .apply once second) (inner : context.code.expr once = .apply use first)
    (room : meter.current + 2 < meter.limit)
    (brings : Brings context (meter.below 3) store (.eval use env) (.ok (.closure function)) begun)
    (put : context.suspend begun first env = (one, early))
    (put' : context.suspend early.afterFunction second env = (two, middle))
    (put'' : context.suspend middle.afterFunction third env = (three, late)) (stack : List Frame) :
    State.GoesTo context ⟨store, meter, .eval id env, stack⟩
      ⟨late, meter, .eval start (function.bind₃ name name' one two three), stack⟩ := by
  obtain ⟨deeper, lambda, lambda'⟩ := opens
  have partly := @brings_partial _ (meter.below 2) _ _ _ _ _ _ _ _ _ inner room brings put _ _ lambda
  have more := @brings_partial _ (meter.below 1) _ _ _ _ _ _ _ _ _ halfway (Nat.lt_of_succ_lt room) partly put'
    _ _ lambda'
  exact goesTo_operand outer (by omega) more put'' stack

end

/-! Choices and cells. -/

/-- An application is put off as it is. -/
theorem suspend_apply {left right : ExprId} (node : context.code.expr id = .apply left right) (store : Store)
    (env : Env) : context.suspend store id env = store.suspend (.expr id env) := by
  simp [Context.suspend, node]

/-- A primitive with an argument is put off as it is. -/
theorem suspend_builtin {op : Builtin} {args : List ExprId} (node : context.code.expr id = .builtin op args)
    (store : Store) (env : Env) : context.suspend store id env = store.suspend (.expr id env) := by
  simp [Context.suspend, node]

section

variable {test whenTrue whenFalse : ExprId}

/-- A choice goes on with one of its branches on its own level. -/
theorem goesTo_cond (node : context.code.expr id = .cond test whenTrue whenFalse)
    (inside : meter.current < meter.limit) {holds : Bool}
    (brings : Brings context (meter.below 1) store (.eval test env) (.ok (.bool holds)) after)
    (stack : List Frame) :
    State.GoesTo context ⟨store, meter, .eval id env, stack⟩
      ⟨after, meter, .eval (if holds then whenTrue else whenFalse) env, stack⟩ := by
  have asked : State.step context ⟨store, meter, .eval id env, stack⟩ =
      ⟨store, meter, .enter test env, .branch whenTrue whenFalse env :: stack⟩ := by
    simp [State.step, Context.evalStep, node]
  exact .step asked (((Brings.enter inside brings).above _).trans (.step rfl (.refl _)))

/-- A choice fails where its test does. -/
theorem cond_fails (node : context.code.expr id = .cond test whenTrue whenFalse)
    (inside : meter.current < meter.limit) {failure : Upset}
    (brings : Brings context (meter.below 1) store (.eval test env) (.error failure) after) :
    Brings context meter store (.eval id env) (.error failure) after := by
  have asked : State.step context ⟨store, meter, .eval id env, []⟩ =
      ⟨store, meter, .enter test env, [.branch whenTrue whenFalse env]⟩ := by
    simp [State.step, Context.evalStep, node]
  exact .step asked (((Brings.enter inside brings).above _).trans (.step rfl (.refl _)))

end

section

variable {left right : ExprId} {found : Outcome}

/-- A disjunction comes to what its left side decides. -/
theorem brings_or_left (node : context.code.expr id = .binary .or left right)
    (inside : meter.current < meter.limit)
    (brings : Brings context (meter.below 1) store (.eval left env) found after)
    (decides : found = .ok (.bool true) ∨ ∃ failure, found = .error failure) :
    Brings context meter store (.eval id env) found after := by
  have asked : State.step context ⟨store, meter, .eval id env, []⟩ =
      ⟨store, meter, .enter left env, [.logicLeft .or right env]⟩ := by
    simp [State.step, Context.evalStep, node]
  refine .step asked (((Brings.enter inside brings).above _).trans (.step ?_ (.refl _)))
  rcases decides with rfl | ⟨failure, rfl⟩ <;> rfl

/-- Where its left side does not decide, a disjunction comes to what its right side comes to. -/
theorem brings_or_right (node : context.code.expr id = .binary .or left right)
    (inside : meter.current < meter.limit)
    (brings : Brings context (meter.below 1) store (.eval left env) (.ok (.bool false)) middle)
    (brings' : Brings context (meter.below 1) middle (.eval right env) found after)
    (plain : (∃ holds, found = .ok (.bool holds)) ∨ ∃ failure, found = .error failure) :
    Brings context meter store (.eval id env) found after := by
  have asked : State.step context ⟨store, meter, .eval id env, []⟩ =
      ⟨store, meter, .enter left env, [.logicLeft .or right env]⟩ := by
    simp [State.step, Context.evalStep, node]
  refine .step asked (((Brings.enter inside brings).above _).trans (.step rfl ?_))
  refine ((Brings.enter inside brings').above [.logicRight]).trans (.step ?_ (.refl _))
  rcases plain with ⟨holds, rfl⟩ | ⟨failure, rfl⟩ <;> rfl

/-- When a disjunction comes to something, so does its left side, and its right side where it is needed. -/
theorem or_decides (node : context.code.expr id = .binary .or left right)
    (inside : meter.current < meter.limit)
    (brings : Brings context meter store (.eval id env) outcome after) :
    ∃ found middle, Brings context (meter.below 1) store (.eval left env) found middle ∧
      (found = .ok (.bool false) → ∃ other last,
        Brings context (meter.below 1) middle (.eval right env) other last) := by
  -- Both sides are entered one level deeper, and what the frames wait for comes to something in
  -- each.
  obtain ⟨steps, reached⟩ := brings.of_step (Control.busy rfl)
  have asked : State.step context ⟨store, meter, .eval id env, []⟩ =
      ⟨store, meter, .enter left env, [.logicLeft .or right env]⟩ := by
    simp [State.step, Context.evalStep, node]
  rw [asked] at reached
  obtain ⟨found, middle, entered, more, -, rest⟩ := brings_then (reached.symm ▸ State.hands_passing)
  refine ⟨found, middle, entered.entered inside, ?_⟩
  rintro rfl
  rw [reached] at rest
  have again : State.run context more ⟨middle, meter, .enter right env, [.logicRight]⟩ =
      ⟨after, meter, .passing outcome, []⟩ := rest
  obtain ⟨other, last, entered', -⟩ := brings_then (again.symm ▸ State.hands_passing)
  exact ⟨other, last, entered'.entered inside⟩

end

/-- The list without elements. -/
theorem brings_nil (reads : context.Reads .nil id) :
    Brings context meter store (.eval id env) (.ok (.list (.ofThunks []))) store := by
  have node : context.code.expr id = .list [] := reads
  refine .step ?_ (.refl _)
  simp [State.step, Context.evalStep, node, Context.suspendAll, Control.passing]

/-- A cell in front of a list puts off its element and what comes behind it. -/
theorem brings_cell {front item others : ExprId} (node : context.code.expr id = .binary .concat front others)
    (single : context.code.expr front = .list [item])
    (putItem : ∀ store, context.suspend store item env = store.suspend (.expr item env))
    (putOthers : ∀ store, context.suspend store others env = store.suspend (.expr others env))
    (inside : meter.current < meter.limit) :
    Brings context meter store (.eval id env)
      (.ok (.list (.concat (.ofThunks [store.cells.size]) (store.cells.size + 1))))
      ((store.suspend (.expr item env)).2.suspend (.expr others env)).2 := by
  have asked : State.step context ⟨store, meter, .eval id env, []⟩ =
      ⟨store, meter, .enter front env, [.concatLeft others env]⟩ := by
    simp [State.step, Context.evalStep, node]
  have cell : Brings context (meter.below 1) store (.eval front env)
      (.ok (.list (.ofThunks [store.cells.size]))) (store.suspend (.expr item env)).2 := by
    refine .step ?_ (.refl _)
    simp [State.step, Context.evalStep, single, Context.suspendAll, putItem, Control.passing, Store.suspend]
  refine .step asked (((Brings.enter inside cell).above _).trans (.step ?_ (.refl _)))
  simp [State.step, Control.passing, Context.giveStep, putOthers, Store.suspend]

/-! The test for the empty list. -/

/-- What a comparison with the empty list comes to where a step along the list comes to something. -/
def Stop.emptiness : Stop → Outcome
  | .item _ _ _ => .ok (.bool false)
  | .finished => .ok (.bool true)
  | .upset failure _ => .error failure

/-- A comparison of a variable with the empty list takes one step along the list. -/
theorem Context.Reads.goesTo_isNil {text : String} (reads : context.Reads (Lists.isNilTerm text) id)
    (binds : context.Binds env text list) (inside : meter.current < meter.limit)
    (forces : ForcesTo context (meter.below 1) store list (.list cursor.rest) middle) (stack : List Frame) :
    State.GoesTo context ⟨store, meter, .eval id env, stack⟩
      ⟨middle, meter, .advance cursor (.compareLeft ⟨.elems #[] 0, []⟩ []), stack⟩ := by
  obtain ⟨first, second, node, left, right⟩ := reads
  have asked : State.step context ⟨store, meter, .eval id env, stack⟩ =
      ⟨store, meter, .enter first env, .operandLeft .eq second env :: stack⟩ := by
    simp [State.step, Context.evalStep, node]
  have nil := @brings_nil context (meter.below 1) middle env second right
  -- Both sides are evaluated, and the comparison is at the front of the list.
  have given : Brings context (meter.below 1) store (.force list) (.ok (.list cursor.rest)) middle := forces
  refine .step asked ((left.goesTo_var binds inside given _).trans (.step rfl ?_))
  refine ((Brings.enter inside nil).above _).trans (.step rfl (.step rfl (.step rfl ?_)))
  have back := @run_rest context middle meter (.compareLeft ⟨.elems #[] 0, []⟩ []) stack cursor.pending []
    cursor.front
  rw [List.append_nil] at back
  exact ⟨_, back⟩

/-- The step along the list decides the comparison. -/
theorem Stop.goesTo_emptiness (stop : Stop) (stack : List Frame) :
    State.GoesTo context
      (context.stopStep after meter (.compareLeft ⟨.elems #[] 0, []⟩ []) stack stop)
      ⟨after, meter, .passing stop.emptiness, stack⟩ := by
  cases stop with
  | item element id rest => exact .step rfl (.refl _)
  | finished => exact .step rfl (.step rfl (.refl _))
  | upset failure left => exact .step rfl (.refl _)

/-- What the comparison with the empty list comes to. -/
theorem Context.Reads.brings_isNil {text : String} (reads : context.Reads (Lists.isNilTerm text) id)
    (binds : context.Binds env text list) (inside : meter.current < meter.limit)
    (forces : ForcesTo context (meter.below 1) store list (.list cursor.rest) middle)
    (turn : Turn context meter middle cursor stop after) :
    Brings context meter store (.eval id env) stop.emptiness after :=
  ((reads.goesTo_isNil binds inside forces []).trans (turn.goesTo _ _)).trans (stop.goesTo_emptiness _)

/-- When the comparison comes to something, a step along the list has come to something. -/
theorem Context.Reads.isNil_turns {text : String} (reads : context.Reads (Lists.isNilTerm text) id)
    (binds : context.Binds env text list) (inside : meter.current < meter.limit)
    (forces : ForcesTo context (meter.below 1) store list (.list cursor.rest) middle)
    (brings : Brings context meter store (.eval id env) outcome after) :
    ∃ stop between, Turn context meter middle cursor stop between := by
  have started := reads.goesTo_isNil binds inside forces []
  have walks : ¬ State.Ended ⟨middle, meter, .advance cursor (.compareLeft ⟨.elems #[] 0, []⟩ []), []⟩ :=
    State.not_ended rfl
  obtain ⟨steps, reached⟩ := started.rest walks brings State.hands_passing
  exact Turn.of_hands steps (reached.symm ▸ State.hands_passing)

/-- The comparison fails where its list does. -/
theorem Context.Reads.isNil_fails {text : String} (reads : context.Reads (Lists.isNilTerm text) id)
    (binds : context.Binds env text list) (inside : meter.current < meter.limit) {failure : Upset}
    (fails : FailsWith context (meter.below 1) store list failure after) :
    Brings context meter store (.eval id env) (.error failure) after := by
  obtain ⟨first, second, node, left, -⟩ := reads
  have asked : State.step context ⟨store, meter, .eval id env, []⟩ =
      ⟨store, meter, .enter first env, [.operandLeft .eq second env]⟩ := by
    simp [State.step, Context.evalStep, node]
  have raised : Brings context (meter.below 1) store (.force list) (.error failure) after := fails
  exact .step asked ((left.goesTo_var binds inside raised _).trans (.step rfl (.refl _)))

/-! The first element and the rest of a list. -/

section

variable {op : Builtin} {text : String}

/-- A primitive of one argument is run on what its variable is bound to. -/
theorem Context.Reads.step_prim (reads : context.Reads (.prim op (.var text)) id)
    (binds : context.Binds env text list) (unary : op.arity = 1) (stack : List Frame) :
    State.step context ⟨store, meter, .eval id env, stack⟩ = ⟨store, meter, .run op [list], stack⟩ := by
  obtain ⟨inner, node, var⟩ := reads
  have shared := var.suspend_var binds store
  cases op <;> cases unary <;>
    simp [State.step, Context.evalStep, node, Context.suspendAll, shared, Builtin.arity]

/-- The first element of an evaluated list is asked for on the level of the expression. -/
theorem Context.Reads.goesTo_head (reads : context.Reads (.prim .head (.var text)) id)
    (binds : context.Binds env text list) (found : store.cell list = .forced (.list cursor.rest))
    (sees : store.Sees cursor (some (element, rest))) (stack : List Frame) :
    State.GoesTo context ⟨store, meter, .eval id env, stack⟩
      ⟨(store.reveal element).2, meter, .force (store.reveal element).1, stack⟩ :=
  .step (reads.step_prim binds rfl stack)
    (.step rfl (.step (State.step_force_forced found) (sees.turn.head stack)))

/-- The rest of an evaluated list is what is behind its first element. -/
theorem Context.Reads.brings_tail (reads : context.Reads (.prim .tail (.var text)) id)
    (binds : context.Binds env text list) (found : store.cell list = .forced (.list cursor.rest))
    (sees : store.Sees cursor (some (element, rest))) :
    Brings context meter store (.eval id env) (.ok (.list rest.rest)) (store.reveal element).2 := by
  refine .step (reads.step_prim binds rfl []) (.step rfl (.step (State.step_force_forced found) ?_))
  exact (walk_goesTo cursor .tail .tail []).trans (sees.turn.goesTo .tail [])

end

end LazyConfig
