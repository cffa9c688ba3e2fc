import LazyConfig.Proofs.Machine.Runs
import LazyConfig.Proofs.Scoping.Stores

/-!
The rules of the evaluator on states that agree. Every rule looks up only names that its expression takes
from its surroundings, so both states take the same rule, fail alike, and agree again.
-/

namespace LazyConfig

variable {context : Context} {left right : Store} {meter : DepthMeter} {stack others : List Frame}
  {value other : Value}

namespace StatesAgree

/-- A rule that goes on without waiting. -/
theorem here {code : Code} (stores : StoresAgree code left right) (frames : StacksAgree code stack others)
    {control image : Control} (controls : ControlsAgree code control image) :
    StatesAgree code ⟨left, meter, control, stack⟩ ⟨right, meter, image, others⟩ :=
  ⟨stores, rfl, controls, frames⟩

/-- A rule that waits on one frame. -/
theorem waits {code : Code} (stores : StoresAgree code left right)
    (frames : StacksAgree code stack others) {frame waiting : Frame}
    (top : FramesAgree code frame waiting) {control image : Control}
    (controls : ControlsAgree code control image) :
    StatesAgree code ⟨left, meter, control, frame :: stack⟩ ⟨right, meter, image, waiting :: others⟩ :=
  ⟨stores, rfl, controls, .cons top frames⟩

/-- A rule that fails. -/
theorem fails {code : Code} (stores : StoresAgree code left right)
    (frames : StacksAgree code stack others) {upset : Upset} :
    StatesAgree code ⟨left, meter, .raise upset, stack⟩ ⟨right, meter, .raise upset, others⟩ :=
  ⟨stores, rfl, .raise upset, frames⟩

/-- A rule that gives the same value. -/
theorem gives {code : Code} (stores : StoresAgree code left right)
    (frames : StacksAgree code stack others) {given : Value} :
    StatesAgree code ⟨left, meter, .give given, stack⟩ ⟨right, meter, .give given, others⟩ :=
  ⟨stores, rfl, .give (.same given), frames⟩

/-- A rule that gives what comes out of an operation on both stores. -/
theorem gives_result {code : Code} {α : Type} {result image : α × Store}
    (both : SameIn code result image) (frames : StacksAgree code stack others) (made : α → Value) :
    StatesAgree code ⟨result.2, meter, .give (made result.1), stack⟩
      ⟨image.2, meter, .give (made image.1), others⟩ :=
  ⟨both.stores, rfl, both.result ▸ .give (.same _), frames⟩

end StatesAgree

open StatesAgree

/-! Operators, which do not look into functions. -/

theorem arithmetic_agree {code : Code} (op : BinaryOp) {first second : Value}
    (lefts : ValuesAgree code value first) (rights : ValuesAgree code other second) :
    op.arithmetic value other = op.arithmetic first second := by
  cases lefts with
  | same => cases rights with
    | same => rfl
    | closure => cases value <;> rfl
  | closure => cases rights <;> rfl

theorem order_agree {code : Code} (op : BinaryOp) {first second : Value}
    (lefts : ValuesAgree code value first) (rights : ValuesAgree code other second) :
    op.order value other = op.order first second := by
  cases lefts with
  | same => cases rights with
    | same => rfl
    | closure => cases value <;> rfl
  | closure => cases rights <;> rfl

theorem unary_agree {code : Code} (op : UnaryOp) {image : Value} (values : ValuesAgree code value image) :
    op.apply value = op.apply image := by
  cases values with
  | same => rfl
  | closure => cases op <;> rfl

/-! The rules, one by one. -/

section

variable (stores : StoresAgree context.code left right) (frames : StacksAgree context.code stack others)
include stores frames

/-- A primitive holds the arguments that it is written with, and runs once it has all of them. -/
theorem heldStep_agree (op : Builtin) (args : List ExprId) {env bound : Env}
    (agree : ∀ id ∈ args, EnvsAgree context.code id env bound) :
    StatesAgree context.code
      (if op.arity < args.length then
        ⟨left, meter, .fail (.tooManyArguments op args.length), stack⟩
      else if (context.suspendAll env args left).1.length < op.arity then
        ⟨(context.suspendAll env args left).2, meter,
          .give (.builtin op (context.suspendAll env args left).1), stack⟩
      else
        ⟨(context.suspendAll env args left).2, meter,
          .run op (context.suspendAll env args left).1, stack⟩)
      (if op.arity < args.length then
        ⟨right, meter, .fail (.tooManyArguments op args.length), others⟩
      else if (context.suspendAll bound args right).1.length < op.arity then
        ⟨(context.suspendAll bound args right).2, meter,
          .give (.builtin op (context.suspendAll bound args right).1), others⟩
      else
        ⟨(context.suspendAll bound args right).2, meter,
          .run op (context.suspendAll bound args right).1, others⟩) := by
  split
  · exact fails stores frames
  · obtain ⟨held, stores⟩ := stores.suspendAll context agree
    rw [← held]
    split
    · exact gives stores frames
    · exact here stores frames (.run op _)

/-- Evaluating an expression. -/
theorem evalStep_agree {id : ExprId} {env bound : Env} (agree : EnvsAgree context.code id env bound) :
    StatesAgree context.code (context.evalStep left meter id env stack)
      (context.evalStep right meter id bound others) := by
  -- The parts of an expression that binds nothing see the same environments.
  have parts (closed : (context.code.expr id).binder? = none) :
      ∀ part ∈ (context.code.expr id).children, EnvsAgree context.code part env bound :=
    fun part member => agree.part member closed
  have lookups {name : Name} (node : context.code.expr id = .ident name) :
      env.lookup name = bound.lookup name := agree.lookup node
  have inside {name : Name} (binds : (context.code.expr id).binder? = some name) :
      ∀ part ∈ (context.code.expr id).children, EnvsAgreeUnder context.code name part env bound :=
    fun part member => agree.under member binds
  unfold Context.evalStep
  cases node : context.code.expr id with
  | int | float | str | bool => exact gives stores frames
  | ident name =>
    dsimp only
    rw [← lookups node]
    split
    · exact here stores frames (.force _)
    · exact fails stores frames
  -- A function keeps its environment, which need agree only under its parameter.
  | lambda param body =>
    rw [node] at inside
    obtain ⟨values, stores⟩ := stores.closure (inside rfl body (by simp [Expr.children]))
    exact here stores frames (.give values)
  | apply func arg =>
    simp only [node, Expr.children, Expr.binder?, List.forall_mem_cons, forall_const] at parts
    exact waits stores frames (.operand parts.2.1) (.enter parts.1)
  -- A binding is seen by its own value and by the body.
  | letIn name value body =>
    rw [node] at inside
    obtain ⟨bodies, stores⟩ := stores.bindRecursive context
      (inside rfl value (by simp [Expr.children])) (inside rfl body (by simp [Expr.children]))
    exact here stores frames (.eval bodies)
  | cond test whenTrue whenFalse =>
    simp only [node, Expr.children, Expr.binder?, List.forall_mem_cons, forall_const] at parts
    exact waits stores frames (.branch parts.2.1 parts.2.2.1) (.enter parts.1)
  | binary op first second =>
    simp only [node, Expr.children, Expr.binder?, List.forall_mem_cons, forall_const] at parts
    cases op with
    | and | or => exact waits stores frames (.logicLeft _ parts.2.1) (.enter parts.1)
    | concat => exact waits stores frames (.concatLeft parts.2.1) (.enter parts.1)
    | _ => exact waits stores frames (.operandLeft _ parts.2.1) (.enter parts.1)
  | unary op operand =>
    simp only [node, Expr.children, Expr.binder?, List.forall_mem_cons, forall_const] at parts
    exact waits stores frames (.plain rfl) (.enter parts.1)
  | list items =>
    -- All elements are put off, each in the environments that agree on it.
    rw [node] at parts
    exact gives_result (stores.suspendAll context (parts rfl)) frames fun ids => .list (.ofThunks ids)
  | record fields =>
    rw [node] at parts
    have values : ∀ field ∈ fields, EnvsAgree context.code field.value env bound :=
      fun field member => parts rfl field.value (List.mem_map_of_mem member)
    have put : SameIn context.code (context.suspendFields env fields .empty left)
        (context.suspendFields bound fields .empty right) := stores.suspendFields context values
    obtain ⟨record, stores⟩ := put
    dsimp only
    rw [← record]
    cases (context.suspendFields env fields .empty left).1 with
    | error fault => exact fails stores frames
    | ok made => exact gives stores frames
  | field receiver name =>
    simp only [node, Expr.children, Expr.binder?, List.forall_mem_cons, forall_const] at parts
    exact waits stores frames (.plain rfl) (.enter parts.1)
  | builtin op args =>
    rw [node] at parts
    have operands := parts rfl
    -- Some primitives evaluate their first argument at once, deeply or not, the others put off all.
    dsimp only
    split
    · simp only [Expr.children, List.forall_mem_cons] at operands
      exact waits stores frames (.thenEval operands.2.1) (.enter operands.1)
    · simp only [Expr.children, List.forall_mem_cons] at operands
      exact waits stores (.cons (.thenEval operands.2.1) frames) (.plain rfl) (.enter operands.1)
    · exact heldStep_agree stores frames op args operands
  | ascribe value type =>
    simp only [node, Expr.children, Expr.binder?, List.forall_mem_cons, forall_const] at parts
    dsimp only
    split
    · exact waits stores frames (.plain rfl) (.enter parts.1)
    · exact fails stores frames
  | aliases defs body =>
    simp only [node, Expr.children, Expr.binder?, List.forall_mem_cons, forall_const] at parts
    exact here stores frames (.eval parts.1)

/-- Entering a level. -/
theorem enterStep_agree {id : ExprId} {env bound : Env} (agree : EnvsAgree context.code id env bound) :
    StatesAgree context.code (Context.enterStep left meter id env stack)
      (Context.enterStep right meter id bound others) := by
  unfold Context.enterStep
  split
  · exact waits stores frames (.plain rfl) (.eval agree)
  · exact fails stores frames

/-- Starting the work of a suspended computation. -/
theorem resumeStep_agree {work image : Suspension} (works : SuspensionsAgree context.code work image) :
    StatesAgree context.code (Context.resumeStep left meter work stack)
      (Context.resumeStep right meter image others) := by
  -- An expression is taken up in the environment that was kept with it; all other work names no
  -- variable.
  cases works with
  | expr agree => exact here stores frames (.enter agree)
  | same =>
    cases work with
    | expr body env => exact here stores frames (.enter (.refl _ body env))
    | apply func args => exact waits stores frames (.plain rfl) (.force func)
    | check inner type path => exact waits stores frames (.plain rfl) (.force inner)
    | checkList source elem path index =>
      exact here stores frames (.advance source.cursor (.checkCell elem path index))

/-- Asking for the outcome of a computation. -/
theorem forceStep_agree (id : ThunkId) :
    StatesAgree context.code (Context.forceStep left meter id stack)
      (Context.forceStep right meter id others) := by
  have cells := stores.cells id
  unfold Context.forceStep
  generalize left.cell id = cell at cells
  -- The computation has the same position in both stores, and is in the same state there.
  generalize right.cell id = image at cells
  cases cells with
  | forced values => exact here stores frames (.give values)
  | failed failure => exact fails stores frames
  | inProgress => exact fails stores frames
  | suspended works =>
    -- Both computations are marked as started, and both are settled when their work ends.
    exact resumeStep_agree (stores.set id .inProgress) (.cons (.plain rfl) frames) works

/-- Applying a value. -/
theorem applyStep_agree {func applied : Value} (values : ValuesAgree context.code func applied)
    (arg : ThunkId) :
    StatesAgree context.code (Context.applyStep left meter func arg stack)
      (Context.applyStep right meter applied arg others) := by
  -- Only a function of the program keeps an environment; all other values are the same on both
  -- sides.
  cases values with
  | closure agree => exact here stores frames (.enter (agree.bind arg))
  | same =>
    cases func with
    | closure function => exact here stores frames (.enter (.refl _ _ _))
    | builtin op held =>
      simp only [Context.applyStep]
      split
      · exact here stores frames (.run op _)
      · exact gives stores frames
    | host function => exact waits stores frames (.plain rfl) (.force arg)
    | _ => exact fails stores frames

/-- Running a primitive. -/
theorem runStep_agree (op : Builtin) (args : List ThunkId) :
    StatesAgree context.code (Context.runStep left meter op args stack)
      (Context.runStep right meter op args others) := by
  unfold Context.runStep
  -- Which rule applies is read off the primitive and the number of its arguments, which are the
  -- same.
  split
  case h_4 => exact waits stores frames (.walk .head .head) (.force _)
  case h_5 => exact waits stores frames (.walk .tail .tail) (.force _)
  case h_6 => exact waits stores frames (.walk .length (.count 0)) (.force _)
  case h_10 => exact waits stores (.cons (.plain rfl) frames) (.plain rfl) (.force _)
  all_goals first
    | exact waits stores frames (.plain rfl) (.force _)
    | exact fails stores frames

/-- Applying a strict operator. -/
theorem operateStep_agree (op : BinaryOp) {first second : Value}
    (lefts : ValuesAgree context.code value first) (rights : ValuesAgree context.code other second) :
    StatesAgree context.code (Context.operateStep left meter op value other stack)
      (Context.operateStep right meter op first second others) := by
  -- A result without an environment is the same value on both sides.
  have results (result : Except Fault Value) : StatesAgree context.code
      ⟨left, meter, .ofResult result, stack⟩ ⟨right, meter, .ofResult result, others⟩ := by
    cases result with
    | error fault => exact fails stores frames
    | ok given => exact gives stores frames
  cases op with
  | eq => exact here stores frames (.compare (.cons ⟨lefts, rights⟩ .nil))
  | ne => exact waits stores frames (.plain rfl) (.compare (.cons ⟨lefts, rights⟩ .nil))
  | add | sub | mul | div | rem =>
    simp only [Context.operateStep, ← arithmetic_agree _ lefts rights]
    exact results _
  | lt | le | gt | ge =>
    simp only [Context.operateStep, ← order_agree _ lefts rights]
    exact results _
  | append | and | or =>
    -- Operands of any other kinds fail, and the failure names only the kinds.
    cases lefts with
    | closure => cases rights <;> exact fails stores frames
    | same =>
      cases rights with
      | closure => cases value <;> exact fails stores frames
      | same =>
        simp only [Context.operateStep]
        split
        · exact gives stores frames
        · exact fails stores frames
  -- A join puts its right operand in a place of its own and keeps it.
  | concat =>
    cases lefts with
    | closure => exact fails stores frames
    | same =>
      cases value with
      | list items =>
        exact gives_result (stores.ready rights) frames fun id => .list (.concat items id)
      | _ => exact fails stores frames

/-- Handing an element to a consumer. -/
theorem consumeStep_agree {graph : TypeGraph} {consumer purpose : Consumer}
    (consumers : ConsumersAgree context.code consumer purpose) (item : Option ThunkId) (rest : Cursor) :
    StatesAgree context.code (Context.consumeStep graph left meter consumer item rest stack)
      (Context.consumeStep graph right meter purpose item rest others) := by
  -- The consumer and the element are the same, so the same branch is taken on both sides.
  cases consumers with
  | report => exact here stores frames (.done (.stepped item rest))
  | head =>
    cases item with
    | some id => exact here stores frames (.force id)
    | none => exact fails stores frames
  | tail =>
    cases item with
    | some id => exact gives stores frames
    | none => exact fails stores frames
  | count passed =>
    cases item with
    | some id => exact here stores frames (.advance rest (.count _))
    | none =>
      simp only [Context.consumeStep]
      split
      · exact gives stores frames
      · exact fails stores frames
  | elemAt list index ahead =>
    cases item with
    | some id =>
      cases ahead with
      | zero => exact here stores frames (.force id)
      | succ ahead => exact here stores frames (.advance rest (.elemAt list index ahead))
    | none => cases ahead <;> exact here stores frames (.advance list.cursor (.outOfBounds index 0))
  | outOfBounds index passed =>
    cases item with
    | some id => exact here stores frames (.advance rest (.outOfBounds index _))
    | none => exact fails stores frames
  | deepen works values =>
    cases item with
    | some id => exact waits stores frames (.deepItem rest works values) (.force id)
    | none => exact here stores frames (.deepen works values)
  | compareLeft ahead works =>
    exact here stores frames (.advance ahead (.compareRight item rest works))
  | compareRight first lefts works =>
    cases first with
    | some first =>
      cases item with
      | some second => exact waits stores frames (.compareItemLeft second lefts rest works) (.force first)
      | none => exact gives stores frames
    | none =>
      cases item with
      | some second => exact gives stores frames
      | none => exact here stores frames (.compare works)
  | checkCell elem path index =>
    cases item with
    | some head => exact gives_result (stores.checkCell graph head rest.rest elem path index) frames id
    | none => exact gives stores frames

/-- A step along a list. -/
theorem advanceStep_agree {graph : TypeGraph} (cursor : Cursor) {consumer purpose : Consumer}
    (consumers : ConsumersAgree context.code consumer purpose) :
    StatesAgree context.code (Context.advanceStep graph left meter cursor consumer stack)
      (Context.advanceStep graph right meter cursor purpose others) := by
  -- At the end of the front both go on in the next part that is pending, or are at the end.
  have crosses (pending : List ThunkId) :
      StatesAgree context.code (Context.crossStep graph left meter pending consumer stack)
        (Context.crossStep graph right meter pending purpose others) := by
    cases pending with
    | nil => exact consumeStep_agree stores frames consumers none _
    | cons first rest => exact waits stores frames (.spine rest consumers) (.force first)
  obtain ⟨front, pending⟩ := cursor
  cases front with
  | elems items start =>
    simp only [Context.advanceStep]
    split
    · exact consumeStep_agree stores frames consumers (some _) _
    · exact crosses pending
  | range next stop =>
    simp only [Context.advanceStep]
    split
    · -- An integer of a range gets a place when it is passed.
      obtain ⟨place, made⟩ := stores.ready (.same (.int next))
      rw [← place]
      exact consumeStep_agree made frames consumers (some _) _
    · exact crosses pending
  | concat front back => exact here stores frames (.advance _ consumers)

/-- Taking up a value to evaluate all its parts. -/
theorem deepenStep_agree {work images : List Value} (works : WorksAgree context.code work images)
    (values : ValuesAgree context.code value other) :
    StatesAgree context.code (Context.deepenStep left meter work value stack)
      (Context.deepenStep right meter images other others) := by
  -- A function has no parts; lists and records are walked in the same way, since they are the same.
  cases works with
  | nil => exact here stores frames (.give values)
  | @cons taken _ _ _ first rest =>
    cases first with
    | closure => exact here stores frames (.deepen rest values)
    | same =>
      cases taken with
      | list | record => exact here stores frames (.advance _ (.deepen rest values))
      | _ => exact here stores frames (.deepen rest values)

/-- Comparing two values; functions cannot be compared, whatever they are. -/
theorem compareStep_agree {work images : List (Value × Value)}
    (works : PairsAgree context.code work images) :
    StatesAgree context.code (Context.compareStep left meter work stack)
      (Context.compareStep right meter images others) := by
  cases works with
  | nil => exact gives stores frames
  | @cons pair image rest remaining both more =>
    obtain ⟨first, second⟩ := pair
    obtain ⟨one, two⟩ := image
    obtain ⟨lefts, rights⟩ := both
    -- A pair is passed or ends the comparison, on both sides alike.
    have decides (same : Bool) : StatesAgree context.code
        ⟨left, meter, if same then .compare rest else .give (.bool false), stack⟩
        ⟨right, meter, if same then .compare remaining else .give (.bool false), others⟩ := by
      cases same with
      | true => exact here stores frames (.compare more)
      | false => exact gives stores frames
    dsimp only at lefts rights
    cases lefts with
    | closure =>
      cases rights with
      | same => cases second <;> exact fails stores frames
      | closure => exact fails stores frames
    | same =>
      cases rights with
      | closure => cases first <;> exact fails stores frames
      | same =>
        cases first with
        | int | float | bool | str => cases second <;> first | exact decides _ | exact fails stores frames
        | list items =>
          cases second with
          | list elements => exact here stores frames (.advance _ (.compareLeft _ more))
          | closure | builtin | host => exact fails stores frames
          | _ => exact decides false
        | record fields =>
          cases second with
          | record entries =>
            simp only [Context.compareStep]
            -- Records are compared field by field only where they have the same names.
            split
            · exact here stores frames (.advance _ (.compareLeft _ more))
            · exact gives stores frames
          | closure | builtin | host => exact fails stores frames
          | _ => exact decides false
        | closure | builtin | host => cases second <;> exact fails stores frames

/-- What a function of the host answers; the texts of its arguments are the same. -/
theorem answerStep_agree (function : HostFunction) (values : ValuesAgree context.code value other)
    (shown : String) :
    StatesAgree context.code (Context.answerStep left meter function value shown stack)
      (Context.answerStep right meter function other shown others) := by
  have noted := stores.record ⟨function.name, shown⟩
  unfold Context.answerStep
  cases function.response with
  | argument => exact here noted frames (.give values)
  | refusal => exact fails noted frames
  | panic => exact fails noted frames
  | kindName =>
    dsimp only
    rw [values.kind]
    exact gives noted frames
  | singleton => exact gives_result (noted.ready values) frames fun id => .list (.ofThunks [id])

/-- Giving a value to a frame that keeps neither code nor a value. -/
theorem giveStep_plain (values : ValuesAgree context.code value other) {frame : Frame}
    (plain : frame.keepsNothing = true) :
    StatesAgree context.code (context.giveStep left meter value frame stack)
      (context.giveStep right meter other frame others) := by
  -- These frames hold positions, names and types alone, so only the value that is given may differ.
  cases frame with
  | leave => exact ⟨stores, rfl, .give values, frames⟩
  | update id => exact here (stores.set id (.forced values)) frames (.give values)
  | thenForce id => exact here stores frames (.force id)
  | deepen => exact here stores frames (.deepen (.cons values .nil) values)
  | logicRight =>
    cases values with
    | closure => exact fails stores frames
    | same => cases value <;> first | exact gives stores frames | exact fails stores frames
  | unary op =>
    simp only [Context.giveStep, unary_agree op values]
    cases op.apply other with
    | error fault => exact fails stores frames
    | ok given => exact gives stores frames
  | negate =>
    -- Only a truth value is turned over; all others are given on.
    cases values with
    | closure agree => exact here stores frames (.give (.closure agree))
    | same => cases value <;> exact gives stores frames
  | select name =>
    cases values with
    | closure => exact fails stores frames
    | same =>
      cases value with
      | record fields =>
        simp only [Context.giveStep]
        split
        · exact waits stores frames (.plain rfl) (.force _)
        · exact fails stores frames
      | _ => exact fails stores frames
  | note name => exact here stores frames (.give values)
  | ascribe type path =>
    obtain ⟨results, stores⟩ := stores.check context.annotations.graph context.names values type path
    simp only [Context.giveStep]
    generalize left.check context.names context.annotations.graph value type path = one
      at results stores
    generalize right.check context.names context.annotations.graph other type path = two
      at results stores
    obtain ⟨result, after⟩ := one
    obtain ⟨image, later⟩ := two
    cases results with
    | error fault => exact fails stores frames
    | ok values => exact here stores frames (.give values)
  | args rest =>
    cases rest with
    | nil => exact here stores frames (.give values)
    | cons first rest => exact waits stores frames (.plain rfl) (.apply values first)
  | hostArgument function =>
    simp only [Context.giveStep, stores.quoted values]
    exact answerStep_agree stores frames function values _
  | mapOver func =>
    cases values with
    | closure => exact fails stores frames
    | same =>
      cases value with
      | record fields => exact gives_result (stores.mapFields func fields) frames .record
      | _ => exact fails stores frames
  | fieldNames =>
    cases values with
    | closure => exact fails stores frames
    | same =>
      cases value with
      | record fields => exact gives_result (stores.fieldsOf fields) frames .list
      | _ => exact fails stores frames
  | fieldName record =>
    cases values with
    | closure => exact fails stores frames
    | same =>
      cases value with
      | str name => exact waits stores frames (.plain rfl) (.force record)
      | _ => exact fails stores frames
  | fieldOwner name =>
    cases values with
    | closure => exact fails stores frames
    | same => cases value <;> first | exact gives stores frames | exact fails stores frames
  | indexed index =>
    cases values with
    | closure => exact fails stores frames
    | same =>
      cases value with
      | list items => exact waits stores frames (.plain rfl) (.force index)
      | _ => exact fails stores frames
  | index list =>
    simp only [Context.giveStep, values.asInteger?, stores.quoted values]
    split
    · split
      · exact here stores frames (.advance list.cursor (.outOfBounds _ 0))
      · exact here stores frames (.advance list.cursor (.elemAt list _ _))
    · exact fails stores frames
  | bound =>
    simp only [Context.giveStep, values.asInteger?, stores.quoted values]
    split
    · exact gives stores frames
    · exact fails stores frames
  | kindTest kind =>
    simp only [Context.giveStep, values.kind]
    exact gives stores frames
  | _ => cases plain

/-- Giving a value to the frame that waits for it. -/
theorem giveStep_agree (values : ValuesAgree context.code value other) {frame waiting : Frame}
    (top : FramesAgree context.code frame waiting) :
    StatesAgree context.code (context.giveStep left meter value frame stack)
      (context.giveStep right meter other waiting others) := by
  cases top with
  | plain plain => exact giveStep_plain stores frames values plain
  | branch first second =>
    cases values with
    | closure => exact fails stores frames
    | same =>
      cases value with
      | bool test =>
        cases test with
        | true => exact here stores frames (.eval first)
        | false => exact here stores frames (.eval second)
      | _ => exact fails stores frames
  | operand agree =>
    obtain ⟨place, stores⟩ := stores.suspendExpr context agree
    simp only [Context.giveStep]
    rw [← place]
    -- A function binds its argument at once; any other value is applied as a rule of its own.
    cases values with
    | closure inner => exact here stores frames (.eval (inner.bind _))
    | same =>
      cases value with
      | closure function => exact here stores frames (.eval (.refl _ _ _))
      | _ => exact here stores frames (.apply (.same _) _)
  | thenEval agree => exact here stores frames (.eval agree)
  | logicLeft op agree =>
    cases values with
    | closure => exact fails stores frames
    | same =>
      cases value with
      | bool truth =>
        simp only [Context.giveStep]
        split
        · exact gives stores frames
        · exact waits stores frames (.plain rfl) (.enter agree)
      | _ => exact fails stores frames
  | concatLeft agree =>
    cases values with
    | closure => exact fails stores frames
    | same =>
      cases value with
      | list items =>
        exact gives_result (stores.suspendExpr context agree) frames fun id => .list (.concat items id)
      | _ => exact fails stores frames
  | operandLeft op agree => exact waits stores frames (.operandRight op values) (.enter agree)
  | operandRight op first => exact here stores frames (.operate op first values)
  | walk op consumers =>
    cases values with
    | closure => exact fails stores frames
    | same =>
      cases value with
      | list items => exact here stores frames (.advance items.cursor consumers)
      | _ => exact fails stores frames
  | spine pending consumers =>
    -- A value that is no list leaves the frame, so that the failure passes it like any other.
    have stays : FramesAgree context.code (.spine pending _) (.spine pending _) := .spine pending consumers
    cases values with
    | closure => exact fails stores (.cons stays frames)
    | same =>
      cases value with
      | list items => exact here stores frames (.advance ⟨items, pending⟩ consumers)
      | _ => exact fails stores (.cons stays frames)
  | deepItem rest works whole => exact here stores frames (.advance rest (.deepen (.cons values works) whole))
  | compareItemLeft second lefts rights works =>
    exact waits stores frames (.compareItemRight lefts rights values works) (.force second)
  | compareItemRight lefts rights first works =>
    exact here stores frames (.advance lefts (.compareLeft rights (.cons ⟨first, values⟩ works)))

/-- Passing a failure up past a frame. -/
theorem raiseStep_agree (upset : Upset) {frame waiting : Frame}
    (top : FramesAgree context.code frame waiting) :
    StatesAgree context.code (context.raiseStep left meter upset frame stack)
      (context.raiseStep right meter upset waiting others) := by
  cases top with
  | plain plain =>
    cases frame with
    | update id => exact fails (stores.set id (.failed _)) frames
    | spine => cases plain
    | _ => exact ⟨stores, rfl, .raise _, frames⟩
  | spine pending consumers =>
    cases consumers with
    | report => exact here stores frames (.done (.upset upset _))
    | _ => exact fails stores frames
  | _ => exact fails stores frames

end

/-- States that agree take steps that agree. -/
theorem StatesAgree.step {state image : State} (agree : StatesAgree context.code state image) :
    StatesAgree context.code (state.step context) (image.step context) := by
  obtain ⟨store, meter, control, stack⟩ := state
  obtain ⟨later, level, next, others⟩ := image
  obtain ⟨stores, same, controls, frames⟩ := agree
  dsimp only at stores same controls frames
  subst same
  cases controls with
  | eval agree => exact evalStep_agree stores frames agree
  | enter agree => exact enterStep_agree stores frames agree
  | force id => exact forceStep_agree stores frames id
  | apply values arg => exact applyStep_agree stores frames values arg
  | run op args => exact runStep_agree stores frames op args
  | operate op lefts rights => exact operateStep_agree stores frames op lefts rights
  | advance cursor consumers => exact advanceStep_agree stores frames cursor consumers
  | deepen works values => exact deepenStep_agree stores frames works values
  | compare works => exact compareStep_agree stores frames works
  | give values =>
    cases frames with
    | nil => exact here stores .nil (.done (.value values))
    | cons top rest => exact giveStep_agree stores rest values top
  | raise upset =>
    cases frames with
    | nil => exact here stores .nil (.done (.upset upset none))
    | cons top rest => exact raiseStep_agree stores rest upset top
  | done endings => exact here stores frames (.done endings)

/-- Runs from states that agree agree after every number of steps. -/
theorem StatesAgree.run {state image : State} (agree : StatesAgree context.code state image)
    (steps : Nat) : StatesAgree context.code (state.run context steps) (image.run context steps) := by
  induction steps generalizing state image with
  | zero => exact agree
  | succ steps ih =>
    rw [State.run_succ, State.run_succ]
    exact ih agree.step

end LazyConfig
