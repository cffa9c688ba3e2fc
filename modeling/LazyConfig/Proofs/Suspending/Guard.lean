import LazyConfig.Proofs.Machine.Moves
import LazyConfig.Proofs.Suspending.Policy

/-!
Putting off every expression as it is, in a program, is what the evaluator does anyway in a program whose
variables, literals and functions stand behind empty alias groups. An evaluation goes through the same stores
in both, and takes one step more at each of these groups.
-/

namespace LazyConfig

/-! What is put off in a plain way stays within bounds. -/

section Bounded

variable {bounds : Bounds} {context : Context} {store : Store} {env : Env} {meter : DepthMeter}
  {stack : List Frame}

theorem putAll_plain_grows {ids : List ExprId} (allowed : ∀ id ∈ ids, bounds.body id)
    (bound : env.Within store.cells.size) :
    store.Grows bounds (Policy.plain.putAll env ids store).2 ∧
      Inside (Policy.plain.putAll env ids store).2.cells.size (Policy.plain.putAll env ids store).1 := by
  induction ids generalizing store with
  | nil => exact ⟨.refl store, nofun⟩
  | cons id rest ih =>
    have work : Suspension.Within bounds store.cells.size (.expr id env) :=
      ⟨allowed id List.mem_cons_self, bound⟩
    -- The others are put off in the store that the first leaves, which has only grown.
    obtain ⟨first, here⟩ := Store.suspend_grows work
    obtain ⟨others, inside⟩ := ih (fun other member => allowed other (List.mem_cons_of_mem _ member))
      (bound.grow first.size)
    refine ⟨first.trans others, fun other member => ?_⟩
    rcases List.mem_cons.mp member with rfl | member
    · exact Nat.lt_of_lt_of_le here others.size
    · exact inside other member

theorem putFields_plain_grows (any : ∀ fault, bounds.fault fault) {fields : List Field} {record : Record}
    (allowed : ∀ field ∈ fields, bounds.body field.value) (bound : env.Within store.cells.size)
    (within : record.Within store.cells.size) :
    let fieldsPutOff := context.putFields .plain env fields record store
    store.Grows bounds fieldsPutOff.2 ∧ FieldsWithin bounds fieldsPutOff.2.cells.size fieldsPutOff.1 := by
  induction fields generalizing record store with
  | nil => exact ⟨.refl store, within⟩
  | cons field rest ih =>
    have work : Suspension.Within bounds store.cells.size (.expr field.value env) :=
      ⟨allowed field List.mem_cons_self, bound⟩
    obtain ⟨first, here⟩ := Store.suspend_grows work
    -- The next fields come after a computation that may be wrapped in a check.
    have go {value : ThunkId} {middle : Store} (grown : store.Grows bounds middle)
        (inside : value < middle.cells.size) :
        let others := context.putFields .plain env rest
          (record.insert (context.names.lookup field.name) value) middle
        store.Grows bounds others.2 ∧ FieldsWithin bounds others.2.cells.size others.1 := by
      obtain ⟨others, final⟩ := ih (fun other member => allowed other (List.mem_cons_of_mem _ member))
        (bound.grow grown.size) ((within.grow grown.size).insert inside)
      exact ⟨grown.trans others, final⟩
    simp only [Context.putFields, Policy.plain]
    cases field.type with
    | none =>
      dsimp only
      split
      · exact ⟨first, any _⟩
      · exact go first here
    | some type =>
      dsimp only
      cases context.annotations.get? type with
      | none => exact ⟨first, any _⟩
      | some checked =>
        have check : Suspension.Within bounds (store.suspend (.expr field.value env)).2.cells.size
          (.check (store.suspend (.expr field.value env)).1 checked
            (Path.root.field (context.names.lookup field.name))) := here
        obtain ⟨second, there⟩ := Store.suspend_grows check
        dsimp only [Option.map]
        split
        · exact ⟨first.trans second, any _⟩
        · exact go (first.trans second) there

/-- Evaluating an expression whose parts are put off as they are. -/
theorem evalStepBy_plain_adds (fits : bounds.Fits context) (any : ∀ fault, bounds.fault fault) {id : ExprId}
    (allowed : bounds.body id) (bound : env.Within store.cells.size) :
    Adds bounds store meter stack (context.evalStepBy .plain store meter id env stack) := by
  have parts := fits.parts id allowed
  have same : Adds bounds store meter stack (context.evalStep store meter id env stack) :=
    context.evalStep_adds fits allowed bound
  unfold Context.evalStepBy
  split
  · -- Lists and records put off all of their parts, which are allowed as parts of an allowed
    -- expression.
    rename_i items node
    rw [node] at parts
    obtain ⟨grows, inside⟩ := putAll_plain_grows parts bound
    exact .of_grows grows (LazyList.Within.ofThunks inside)
  · rename_i fields node
    rw [node] at parts
    obtain ⟨grows, within⟩ := @putFields_plain_grows bounds context _ _ any _ _
      (fun field member => parts field.value (List.mem_map_of_mem member)) bound Record.Within.empty
    refine .of_grows grows (ResultWithin.control ?_)
    generalize (context.putFields .plain env fields .empty store).1 = result at within
    cases result <;> exact within
  · rename_i op args node
    split
    · exact same
    · exact same
    · -- A primitive with too many arguments fails before anything is put off.
      rw [node] at parts
      unfold Context.heldBy
      split
      · exact .fails fits _ rfl
      · obtain ⟨grows, inside⟩ := putAll_plain_grows parts bound
        dsimp only
        split
        · exact .of_grows grows inside
        · exact .of_grows grows inside
  · exact same

/-- Giving a value to a frame that only waits, where the next part is put off as it is. -/
theorem giveStepBy_plain_adds (fits : bounds.Fits context) {value : Value} {frame : Frame}
    (simple : frame.isPlain = true) (within : value.Within bounds store.cells.size)
    (waited : frame.Within bounds store.cells.size) :
    Adds bounds store meter stack (context.giveStepBy .plain store meter value frame stack) := by
  -- Only a function that waits for its argument and a join that waits for its left part put
  -- something off.
  unfold Context.giveStepBy
  split
  · rename_i arg env
    have waits : Suspension.Within bounds store.cells.size (.expr arg env) := waited
    obtain ⟨grows, inside⟩ := Store.suspend_grows waits
    have grown := within.grow grows.size
    dsimp only [Policy.plain]
    split
    · -- The argument is bound in the environment of the function.
      exact .of_grows grows ⟨grown.1, grown.2.bind inside⟩
    · exact .of_grows grows ⟨grown, inside⟩
  · rename_i right env
    split
    · rename_i items
      have waits : Suspension.Within bounds store.cells.size (.expr right env) := waited
      obtain ⟨grows, inside⟩ := Store.suspend_grows waits
      exact .of_grows grows ⟨LazyList.Within.grow grows.size within, inside⟩
    · exact .fails fits _ rfl
  · exact context.giveStep_adds fits simple within waited

/-- A step of the plain evaluator within bounds stays within bounds. -/
theorem State.Within.stepBy_plain (fits : bounds.Fits context) (any : ∀ fault, bounds.fault fault)
    (answered : bounds.answer) {state : State} (within : state.Within bounds) :
    (state.stepBy .plain context).Within bounds := by
  -- Where nothing is put off the step is that of the evaluator, for which this is known.
  have same := within.step fits (any _) answered
  obtain ⟨store, meter, control, stack⟩ := state
  cases control with
  | eval body env =>
    exact (evalStepBy_plain_adds fits any within.control.1 within.control.2).within within.store within.stack
  | give value =>
    cases stack with
    | nil => exact same
    | cons frame rest =>
      cases simple : frame.isPlain with
      | true =>
        exact (giveStepBy_plain_adds fits simple within.control
          (within.stack frame List.mem_cons_self)).within within.store
            fun other member => within.stack other (List.mem_cons_of_mem _ member)
      -- Nothing is put off at the end of a level and where a computation is settled.
      | false =>
        rcases Frame.eq_of_not_isPlain simple with rfl | ⟨id, rfl⟩
        · exact same
        · exact same
  | _ => exact same

end Bounded

/-! Code whose variables, literals and functions stand behind alias groups. -/

/-- An expression that is not put off as it is. -/
def Expr.isAtom : Expr → Bool
  | .ident _ | .int _ | .float _ | .bool _ | .str _ | .lambda _ _ => true
  | _ => false

namespace Code

variable (code : Code) (count : Nat)

/-- All expressions and their parts are at positions below a number. -/
structure Below : Prop where
  size : code.exprs.size ≤ count
  parts : ∀ id, ∀ child ∈ (code.expr id).children, child < count

/--
The same code with alias groups in front of what is not put off as it is; what was at the first positions is
also at the next ones, without alias groups.
-/
def guard : Code where
  exprs := Array.ofFn fun position : Fin (count + count) =>
    if position.val < count then
      if (code.expr position).isAtom then .aliases [] (count + position) else code.expr position
    else code.expr (position - count)
  types := code.types

/-- The position of an expression without its alias group. -/
def unguarded (id : ExprId) : ExprId :=
  if id < count then id else id - count

variable {code count}

theorem unguarded_of_lt {id : ExprId} (inside : id < count) : unguarded count id = id :=
  if_pos inside

theorem unguarded_add (id : ExprId) : unguarded count (count + id) = id := by
  simp [unguarded]

/-- A position without an expression reads as a literal. -/
theorem expr_of_size_le {id : ExprId} (outside : code.exprs.size ≤ id) : code.expr id = .bool false := by
  simp [expr, Array.getElem?_eq_none outside, default]

theorem guard_expr (below : code.Below count) (id : ExprId) :
    (code.guard count).expr id =
      if id < count ∧ (code.expr id).isAtom then .aliases [] (count + id)
      else code.expr (unguarded count id) := by
  -- There are three ranges: the expressions, their copies, and what lies behind all of them.
  unfold unguarded
  by_cases first : id < count
  · have within : id < count + count := Nat.lt_of_lt_of_le first (Nat.le_add_left _ _)
    have found : (code.guard count).expr id =
        if (code.expr id).isAtom then .aliases [] (count + id) else code.expr id := by
      rw [expr, guard, Array.getElem?_ofFn, dif_pos within]
      simp only [Option.getD_some, if_pos first]
    rw [found, if_pos first]
    simp only [first, true_and]
  · rw [if_neg (fun both => first both.1), if_neg first]
    by_cases within : id < count + count
    · rw [expr, guard, Array.getElem?_ofFn, dif_pos within]
      simp only [Option.getD_some, if_neg first]
    · -- Behind all copies there is what is behind all expressions.
      have size : (code.guard count).exprs.size = count + count := by simp [guard]
      have outside : code.exprs.size ≤ id - count :=
        Nat.le_trans below.size (Nat.le_sub_of_add_le (Nat.not_lt.mp within))
      have behind : (code.guard count).exprs.size ≤ id := size.trans_le (Nat.not_lt.mp within)
      rw [expr_of_size_le behind, expr_of_size_le outside]

/-- There is a number above finitely many ones. -/
theorem exists_above (ids : List Nat) : ∃ most, ∀ id ∈ ids, id < most := by
  induction ids with
  | nil => exact ⟨0, nofun⟩
  | cons id rest ih =>
    -- One number is above the first and above all others: the larger of the two.
    obtain ⟨most, above⟩ := ih
    refine ⟨max (id + 1) most, fun other member => ?_⟩
    rcases List.mem_cons.mp member with rfl | member
    · exact Nat.le_max_left _ _
    · exact Nat.lt_of_lt_of_le (above other member) (Nat.le_max_right _ _)

/-- There is a number above all positions. -/
theorem exists_below (code : Code) (root : ExprId) : ∃ count, code.Below count ∧ root < count := by
  -- The positions are those in the finitely many expressions that there are.
  obtain ⟨most, above⟩ := exists_above
    (root :: code.exprs.size :: code.exprs.toList.flatMap Expr.children)
  refine ⟨most, ⟨Nat.le_of_lt (above _ (by simp)), fun id child member => above child ?_⟩, above _ (by simp)⟩
  -- A position outside of the code reads as a literal, which has no parts.
  rcases Nat.lt_or_ge id code.exprs.size with inside | outside
  · refine List.mem_cons_of_mem _ (List.mem_cons_of_mem _ (List.mem_flatMap.mpr ⟨code.expr id, ?_, member⟩))
    simp [expr, inside]
  · rw [expr_of_size_le outside] at member
    cases member

end Code

/-- What is read in an evaluation of the code with alias groups. -/
def Context.guard (context : Context) (count : Nat) : Context :=
  { context with code := context.code.guard count }

/-- Bounds for the expressions at the first positions. -/
def Bounds.below (count : Nat) : Bounds :=
  ⟨(· < count), fun _ => True, True⟩

section Guard

variable {context : Context} {count : Nat} (below : context.code.Below count) {store : Store} {env : Env}
  {meter : DepthMeter} {stack : List Frame}
include below

theorem below_fits : (Bounds.below count).Fits context :=
  ⟨fun id _ => below.parts id, fun _ _ _ => trivial, .inl trivial⟩

/-- An atom stands behind an alias group. -/
theorem guard_expr_of_atom {id : ExprId} (inside : id < count) (atom : (context.code.expr id).isAtom = true) :
    (context.guard count).code.expr id = .aliases [] (count + id) :=
  (Code.guard_expr below id).trans (if_pos ⟨inside, atom⟩)

/-- What is put off as it is does not stand behind an alias group. -/
theorem guard_expr_of_not_atom {id : ExprId} (inside : id < count)
    (other : (context.code.expr id).isAtom = false) :
    (context.guard count).code.expr id = context.code.expr id := by
  refine (Code.guard_expr below id).trans ?_
  rw [if_neg (by simp [other]), Code.unguarded_of_lt inside]

/-- Behind its alias group an expression is what it was. -/
theorem guard_expr_add (id : ExprId) :
    (context.guard count).code.expr (count + id) = context.code.expr id := by
  refine (Code.guard_expr below (count + id)).trans ?_
  rw [if_neg (fun both => Nat.not_lt.mpr (Nat.le_add_right count id) both.1), Code.unguarded_add]

/-- With alias groups every expression is put off as it is. -/
theorem guard_suspend {id : ExprId} (inside : id < count) :
    (context.guard count).suspend store id env = store.suspend (.expr id env) := by
  -- Putting off looks at the kind of expression alone, and an alias group is of a kind that is put
  -- off as it is.
  unfold Context.suspend
  cases atom : (context.code.expr id).isAtom with
  | true => rw [guard_expr_of_atom below inside atom]
  | false =>
    rw [guard_expr_of_not_atom below inside atom]
    cases node : context.code.expr id with
    | ident | int | float | bool | str | lambda =>
      rw [node] at atom
      cases atom
    | _ => rfl

theorem guard_suspendAll {ids : List ExprId} (inside : ∀ id ∈ ids, id < count) :
    (context.guard count).suspendAll env ids store = Policy.plain.putAll env ids store := by
  induction ids generalizing store with
  | nil => rfl
  | cons id rest ih =>
    simp only [Context.suspendAll, Policy.putAll, Policy.plain,
      guard_suspend below (inside id List.mem_cons_self),
      ih fun other member => inside other (List.mem_cons_of_mem _ member)]

theorem guard_suspendFields {fields : List Field} (inside : ∀ field ∈ fields, field.value < count)
    {record : Record} :
    (context.guard count).suspendFields env fields record store =
      context.putFields .plain env fields record store := by
  induction fields generalizing record store with
  | nil => rfl
  | cons field rest ih =>
    simp only [Context.suspendFields, Context.putFields, Policy.plain,
      guard_suspend below (inside field List.mem_cons_self),
      ih fun other member => inside other (List.mem_cons_of_mem _ member)]
    rfl

/-- An expression that does not stand behind an alias group is evaluated as without them. -/
theorem guard_evalStep {id : ExprId} (inside : id < count)
    (other : (context.code.expr id).isAtom = false) :
    (context.guard count).evalStep store meter id env stack =
      context.evalStepBy .plain store meter id env stack := by
  have node := guard_expr_of_not_atom below inside other
  have parts := below.parts id
  -- The parts of an expression are at the first positions, where the guarded code puts everything
  -- off as it is.
  unfold Context.evalStepBy
  split
  · rename_i items found
    rw [found] at parts node
    have values : ∀ item ∈ items, item < count := parts
    simp only [Context.evalStep, node, guard_suspendAll below values]
  · rename_i fields found
    rw [found] at parts node
    have values : ∀ field ∈ fields, field.value < count :=
      fun field member => parts field.value (List.mem_map_of_mem member)
    simp only [Context.evalStep, node, guard_suspendFields below values]
  · rename_i op args found
    rw [found] at parts node
    have values : ∀ arg ∈ args, arg < count := parts
    split
    · simp only [Context.evalStep, node, found]
    · simp only [Context.evalStep, node, found]
    · simp only [Context.evalStep, node, Context.heldBy, guard_suspendAll below values]
  · -- Nothing is put off in the rules of the other expressions.
    cases found : context.code.expr id with
    | ident | int | float | bool | str | lambda =>
      rw [found] at other
      cases other
    | list | record | builtin => simp_all
    | _ =>
      rw [found] at node
      simp only [Context.evalStep, node, found]
      try rfl

/-- An expression behind an alias group is evaluated after one step more. -/
theorem guard_evalStep_atom {id : ExprId} (inside : id < count)
    (atom : (context.code.expr id).isAtom = true) :
    State.step (context.guard count) ((context.guard count).evalStep store meter id env stack) =
      -- The first step enters the alias group; behind it stands the expression itself.
      context.evalStepBy .plain store meter id env stack := by
  have first : (context.guard count).evalStep store meter id env stack =
      ⟨store, meter, .eval (count + id) env, stack⟩ := by
    simp only [Context.evalStep, guard_expr_of_atom below inside atom]
  have node := guard_expr_add below id
  rw [first]
  simp only [State.step, Context.evalStep, Context.evalStepBy, node]
  cases found : context.code.expr id <;> first
    | rfl
    | (rw [found] at atom; cases atom)

/-- A value is given as without alias groups, since what is put off then is at the first positions. -/
theorem guard_giveStep {value : Value} {frame : Frame}
    (waited : frame.Within (.below count) store.cells.size) :
    (context.guard count).giveStep store meter value frame stack =
      context.giveStepBy .plain store meter value frame stack := by
  cases frame with
  | operand arg env =>
    simp only [Context.giveStep, Context.giveStepBy, Policy.plain, guard_suspend below waited.1]
    all_goals (cases value <;> rfl)
  | concatLeft right env =>
    simp only [Context.giveStep, Context.giveStepBy, Policy.plain, guard_suspend below waited.1]
    all_goals (cases value <;> rfl)
  | args rest => cases rest <;> rfl
  | _ => rfl

/-- A step of the plain evaluator is one or two steps of the evaluator with alias groups. -/
theorem stepBy_plain_guard {state : State} (within : state.Within (.below count)) :
    state.stepBy .plain context = state.step (context.guard count) ∨
      state.stepBy .plain context = (state.step (context.guard count)).step (context.guard count) := by
  -- Only atoms stand behind an alias group, so only they take a second step.
  obtain ⟨store, meter, control, stack⟩ := state
  cases control with
  | eval body env =>
    cases atom : (context.code.expr body).isAtom with
    | true => exact .inr (guard_evalStep_atom below within.control.1 atom).symm
    | false => exact .inl (guard_evalStep below within.control.1 atom).symm
  | give value =>
    cases stack with
    | nil => exact .inl rfl
    | cons frame rest => exact .inl (guard_giveStep below (within.stack frame List.mem_cons_self)).symm
  | raise upset => cases stack <;> exact .inl rfl
  | _ => exact .inl rfl

/-- A run of the plain evaluator is one of the evaluator with alias groups, which takes no fewer steps. -/
theorem runBy_plain_guard (steps : Nat) {state : State} (within : state.Within (.below count)) :
    ∃ more ≥ steps, state.runBy .plain context steps = state.run (context.guard count) more := by
  induction steps generalizing state with
  | zero => exact ⟨0, Nat.le_refl 0, rfl⟩
  -- Each step of the plain evaluator is followed by at least one of the other, so steps are never
  -- lost.
  | succ steps ih =>
    by_cases ended : state.Ended
    · refine ⟨steps + 1, Nat.le_refl _, ?_⟩
      rw [ended.run]
      obtain ⟨ending, done⟩ := ended
      simp only [State.runBy, done]
    · have next := @State.runBy_succ .plain context state ended steps
      obtain ⟨more, enough, same⟩ :=
        ih (within.stepBy_plain (below_fits below) (fun _ => trivial) trivial)
      rcases stepBy_plain_guard below within with one | two
      · refine ⟨more + 1, Nat.succ_le_succ enough, ?_⟩
        rw [next, same, one, State.run_succ]
      · refine ⟨more + 1 + 1, Nat.le_succ_of_le (Nat.succ_le_succ enough), ?_⟩
        rw [next, same, two, State.run_succ, State.run_succ]

/-- A request that starts at the first positions gets the same replies with alias groups. -/
theorem performBy_plain_guard {settings : Settings} {request : Request} {store : Store}
    (within : (Evaluator.start ⟨context, settings⟩ request store).Within (.below count))
    {reply : Reply Value} :
    (∃ fuel, Evaluator.performBy .plain ⟨context, settings⟩ fuel request store = some reply) ↔
      ∃ fuel, Evaluator.perform ⟨context.guard count, settings⟩ fuel request store = some reply := by
  constructor
  · rintro ⟨fuel, answered⟩
    obtain ⟨more, -, same⟩ := runBy_plain_guard below fuel within
    exact ⟨more, (congrArg State.reply? same).symm.trans answered⟩
  · rintro ⟨fuel, answered⟩
    -- The plain evaluator is given as many steps, of which it needs fewer.
    obtain ⟨more, enough, same⟩ := runBy_plain_guard below fuel within
    have last : (Evaluator.start ⟨context, settings⟩ request store).run (context.guard count) more =
        (Evaluator.start ⟨context, settings⟩ request store).run (context.guard count) fuel := by
      rw [← Nat.add_sub_cancel' enough, State.run_add]
      exact (ended_of_reply answered).run _
    exact ⟨fuel, (congrArg State.reply? (same.trans last)).trans answered⟩

end Guard

end LazyConfig
