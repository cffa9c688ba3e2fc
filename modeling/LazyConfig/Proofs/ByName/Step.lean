import LazyConfig.Proofs.ByName.Value
import Mathlib.Logic.Function.Iterate

/-!
Evaluation without a store. The rules are those of the evaluator, but nothing is remembered: every
use of a variable, a field or an element evaluates it again.
-/

namespace LazyConfig.ByName

/-- What a walk along a list is for. -/
inductive Consumer
  | head
  | tail
  | count (passed : Nat)
  | elemAt (list : List Segment) (index : Int64) (ahead : Nat)
  | outOfBounds (index : Int64) (passed : Nat)
  | deepen (work : List Value) (whole : Value)
  | compareLeft (right : List Segment) (work : List (Value × Value))
  | compareRight (left : Option Promise) (rest : List Segment) (work : List (Value × Value))
  | checkCell (elem : TypeId)

/-- What a value is waited for. -/
inductive Frame
  | branch (whenTrue whenFalse : ExprId) (env : Env)
  | operand (arg : ExprId) (env : Env)
  | thenEval (body : ExprId) (env : Env)
  | thenForce (promise : Promise)
  | deepen
  | logicLeft (op : BinaryOp) (right : ExprId) (env : Env)
  | logicRight
  | concatLeft (right : ExprId) (env : Env)
  | operandLeft (op : BinaryOp) (right : ExprId) (env : Env)
  | operandRight (op : BinaryOp) (left : Value)
  | unary (op : UnaryOp)
  | negate
  | select (name : Name)
  | ascribe (type : TypeId)
  | args (rest : List Promise)
  | mapOver (func : Promise)
  | fieldNames
  | fieldName (record : Promise)
  | fieldOwner (name : String)
  | walk (consumer : Consumer)
  | indexed (index : Promise)
  | index (list : List Segment)
  | bound
  | kindTest (kind : Kind)
  | spine (pending : List Segment) (consumer : Consumer)
  | deepItem (rest : List Segment) (work : List Value) (whole : Value)
  | compareItemLeft (right : Promise) (lefts rights : List Segment) (work : List (Value × Value))
  | compareItemRight (left : Value) (lefts rights : List Segment) (work : List (Value × Value))

/-- What is done next. -/
inductive Control
  | eval (body : ExprId) (env : Env)
  | force (promise : Promise)
  | apply (func : Value) (arg : Promise)
  | run (op : Builtin) (args : List Promise)
  | operate (op : BinaryOp) (left right : Value)
  | advance (items : List Segment) (consumer : Consumer)
  | deepen (work : List Value) (whole : Value)
  | compare (work : List (Value × Value))
  | give (value : Value)
  | raise (variant : Variant)

/-- What a rule goes on with, and the frames that it waits on first. -/
structure Turn where
  control : Control
  frames : List Frame := []

/-- A rule that goes on without waiting. -/
def Control.turn (control : Control) : Turn :=
  ⟨control, []⟩

/-- A rule that goes on once a value is there. -/
def Control.before (control : Control) (frame : Frame) : Turn :=
  ⟨control, [frame]⟩

/-- The result of an operator. -/
def Control.ofScalar : Except Fault LazyConfig.Value → Control
  | .ok value => .give (.ofScalar value)
  | .error fault => .raise fault.variant

/-- The result of a check or of a record literal. -/
def Control.ofResult : Except Variant Value → Control
  | .ok value => .give value
  | .error variant => .raise variant

/-- Puts off an expression; a variable stands for what it is bound to. -/
def promise (context : Context) (env : Env) (id : ExprId) : Promise :=
  match context.code.expr id with
  | .ident name => (env.lookup name).getD (.expr id env)
  | _ => .expr id env

/-- Puts off the fields of a record literal, each with the check that its annotation asks for. -/
def promiseFields (context : Context) (env : Env) : List Field → Fields → Except Variant Fields
  | [], fields => .ok fields
  | field :: rest, fields =>
    let name := context.names.lookup field.name
    let value := promise context env field.value
    let checked : Option Promise :=
      match field.type with
      | none => some value
      | some type => (context.annotations.get? type).map fun type => .check value type
    match checked with
    | none => .error .unresolvedType
    | some value =>
      if (fields.lookup name).isSome then .error .duplicateField
      else promiseFields context env rest (Record.place name value fields)

/-- Evaluates an expression. -/
def evalTurn (context : Context) (id : ExprId) (env : Env) : Turn :=
  match context.code.expr id with
  | .int value => (Control.give (.int value)).turn
  | .float value => (Control.give (.float value)).turn
  | .str text => (Control.give (.str (context.names.lookup text))).turn
  | .bool value => (Control.give (.bool value)).turn
  | .ident name =>
    match env.lookup name with
    | some bound => (Control.force bound).turn
    | none => (Control.raise .unboundIdentifier).turn
  | .lambda param body => (Control.give (.closure param body env)).turn
  | .apply func arg => (Control.eval func env).before (.operand arg env)
  -- Without a store the knot is tied by a promise in which the name stands for that promise.
  | .letIn name value body => (Control.eval body ((name, .recursive name value env) :: env)).turn
  | .cond test whenTrue whenFalse =>
    (Control.eval test env).before (.branch whenTrue whenFalse env)
  | .binary op left right =>
    match op with
    | .and | .or => (Control.eval left env).before (.logicLeft op right env)
    | .concat => (Control.eval left env).before (.concatLeft right env)
    | _ => (Control.eval left env).before (.operandLeft op right env)
  | .unary op operand => (Control.eval operand env).before (.unary op)
  | .list items =>
    (Control.give (.list (items.map fun id => .item (promise context env id)))).turn
  | .record fields => (Control.ofResult ((promiseFields context env fields []).map .record)).turn
  | .field receiver name => (Control.eval receiver env).before (.select name)
  | .builtin op args =>
    match op, args with
    | .seq, [first, second] => (Control.eval first env).before (.thenEval second env)
    | .deepSeq, [first, second] => ⟨.eval first env, [.deepen, .thenEval second env]⟩
    | op, args =>
      if op.arity < args.length then (Control.raise .arityMismatch).turn
      else
        let held := args.map (promise context env)
        if held.length < op.arity then (Control.give (.builtin op held)).turn
        else (Control.run op held).turn
  | .ascribe value type =>
    match context.annotations.get? type with
    | some type => (Control.eval value env).before (.ascribe type)
    | none => (Control.raise .unresolvedType).turn
  | .aliases _ body => (Control.eval body env).turn

/-- Does what a promise says. -/
def forceTurn : Promise → Turn
  | .ready value => (Control.give value).turn
  | .expr body env => (Control.eval body env).turn
  | .recursive name body env => (Control.eval body ((name, .recursive name body env) :: env)).turn
  | .apply func args => (Control.force func).before (.args args)
  | .check inner type => (Control.force inner).before (.ascribe type)
  | .checkList source elem => (Control.advance source (.checkCell elem)).turn

/-- Applies a value to one argument. -/
def applyTurn (func : Value) (arg : Promise) : Turn :=
  match func with
  | .closure param body env => (Control.eval body ((param, arg) :: env)).turn
  | .builtin op held =>
    if op.arity - (held ++ [arg]).length = 0 then (Control.run op (held ++ [arg])).turn
    else (Control.give (.builtin op (held ++ [arg]))).turn
  | _ => (Control.raise .notCallable).turn

/-- Runs a primitive on all its arguments. -/
def runTurn (op : Builtin) (args : List Promise) : Turn :=
  match op, args with
  | .map, [func, record] => (Control.force record).before (.mapOver func)
  | .fieldsOf, [record] => (Control.force record).before .fieldNames
  | .hasField, [name, record] => (Control.force name).before (.fieldName record)
  | .head, [list] => (Control.force list).before (.walk .head)
  | .tail, [list] => (Control.force list).before (.walk .tail)
  | .length, [list] => (Control.force list).before (.walk (.count 0))
  | .elemAt, [list, index] => (Control.force list).before (.indexed index)
  | .range, [bound] => (Control.force bound).before .bound
  | .seq, [first, second] => (Control.force first).before (.thenForce second)
  | .deepSeq, [first, second] => ⟨.force first, [.deepen, .thenForce second]⟩
  | .isNum, [arg] => (Control.force arg).before (.kindTest .num)
  | .isStr, [arg] => (Control.force arg).before (.kindTest .str)
  | .isBool, [arg] => (Control.force arg).before (.kindTest .bool)
  | .isList, [arg] => (Control.force arg).before (.kindTest .list)
  | .isRecord, [arg] => (Control.force arg).before (.kindTest .record)
  | .isFun, [arg] => (Control.force arg).before (.kindTest .function)
  | _, _ => (Control.raise .arityMismatch).turn

/-- Applies a strict operator to evaluated operands. -/
def operateTurn (op : BinaryOp) (left right : Value) : Turn :=
  match op with
  | .eq => (Control.compare [(left, right)]).turn
  | .ne => (Control.compare [(left, right)]).before .negate
  | .add | .sub | .mul | .div | .rem =>
    (Control.ofScalar (op.arithmetic left.outer right.outer)).turn
  | .lt | .le | .gt | .ge =>
    (Control.ofScalar ((op.order left.outer right.outer).map fun order =>
      .bool (op.accepts order))).turn
  | .append =>
    match left, right with
    | .str a, .str b => (Control.give (.str (a ++ b))).turn
    | _, _ => (Control.raise .operandMismatch).turn
  | .and | .or =>
    match left, right with
    | .bool a, .bool b => (Control.give (.bool (if op = .and then a && b else a || b))).turn
    | _, _ => (Control.raise .operandMismatch).turn
  | .concat =>
    match left with
    | .list items => (Control.give (.list (items ++ [.joint (.ready right)]))).turn
    | _ => (Control.raise .notAList).turn

/-- Hands the next element of a walk, or its end, to the consumer. -/
def consumeTurn (graph : TypeGraph) (consumer : Consumer) (item : Option Promise)
    (rest : List Segment) : Turn :=
  match consumer, item with
  | .head, some element => (Control.force element).turn
  | .head, none => (Control.raise .emptyList).turn
  | .tail, some _ => (Control.give (.list rest)).turn
  | .tail, none => (Control.raise .emptyList).turn
  | .count passed, some _ => (Control.advance rest (.count (passed + 1))).turn
  | .count passed, none =>
    match fit? passed with
    | some length => (Control.give (.int length)).turn
    | none => (Control.raise .domainError).turn
  | .elemAt _ _ 0, some element => (Control.force element).turn
  | .elemAt list index (ahead + 1), some _ =>
    (Control.advance rest (.elemAt list index ahead)).turn
  -- The failure tells the length, so the list is walked once more from its beginning.
  | .elemAt list index _, none => (Control.advance list (.outOfBounds index 0)).turn
  | .outOfBounds index passed, some _ =>
    (Control.advance rest (.outOfBounds index (passed + 1))).turn
  | .outOfBounds _ _, none => (Control.raise .indexOutOfBounds).turn
  | .deepen work whole, some element =>
    (Control.force element).before (.deepItem rest work whole)
  | .deepen work whole, none => (Control.deepen work whole).turn
  | .compareLeft right work, item => (Control.advance right (.compareRight item rest work)).turn
  | .compareRight (some left) lefts work, some right =>
    (Control.force left).before (.compareItemLeft right lefts rest work)
  -- Both lists have come to their ends together, so the pairs of their elements are next.
  | .compareRight none _ work, none => (Control.compare work).turn
  | .compareRight _ _ _, _ => (Control.give (.bool false)).turn
  | .checkCell elem, some head =>
    (Control.give (.list [.item (head.wrap graph elem), .joint (.checkList rest elem)])).turn
  | .checkCell _, none => (Control.give (.list [])).turn

/-- Takes one step along a list. -/
def advanceTurn (graph : TypeGraph) (items : List Segment) (consumer : Consumer) : Turn :=
  match items with
  | [] => consumeTurn graph consumer none []
  | .item promise :: rest => consumeTurn graph consumer (some promise) rest
  | .range next stop :: rest =>
    consumeTurn graph consumer (some (.ready (.int next))) (Segment.span (next + 1) stop ++ rest)
  | .joint right :: rest => (Control.force right).before (.spine rest consumer)

/-- Evaluates all elements and fields of the last value that waits. -/
def deepenTurn (work : List Value) (whole : Value) : Turn :=
  match work with
  | [] => (Control.give whole).turn
  | .list items :: rest => (Control.advance items (.deepen rest whole)).turn
  | .record fields :: rest =>
    (Control.advance (Segment.ofFields fields) (.deepen rest whole)).turn
  | _ :: rest => (Control.deepen rest whole).turn

/-- Compares the last pair that waits. -/
def compareTurn (work : List (Value × Value)) : Turn :=
  let decide (same : Bool) (rest : List (Value × Value)) : Turn :=
    (if same then Control.compare rest else .give (.bool false)).turn
  match work with
  | [] => (Control.give (.bool true)).turn
  | (.int left, .int right) :: rest => decide (left == right) rest
  | (.str left, .str right) :: rest => decide (left == right) rest
  | (.bool left, .bool right) :: rest => decide (left == right) rest
  | (.list left, .list right) :: rest => (Control.advance left (.compareLeft right rest)).turn
  | (.record left, .record right) :: rest =>
    if left.map Prod.fst = right.map Prod.fst then
      (Control.advance (Segment.ofFields left)
        (.compareLeft (Segment.ofFields right) rest)).turn
    else (Control.give (.bool false)).turn
  -- Numbers of both kinds are compared as floats; other values of different kinds differ.
  | (left, right) :: rest =>
    if left.outer.isFunction || right.outer.isFunction then
      (Control.raise .operandMismatch).turn
    else
      match left.outer.asFloat?, right.outer.asFloat? with
      | some left, some right => decide (left == right) rest
      | _, _ => decide false rest

/-- Gives a value to the frame that waits for it. -/
def giveTurn (context : Context) (value : Value) (frame : Frame) : Turn :=
  match frame with
  | .branch whenTrue whenFalse env =>
    match value with
    | .bool test => (Control.eval (if test then whenTrue else whenFalse) env).turn
    | _ => (Control.raise .unexpectedType).turn
  | .operand arg env =>
    match value with
    | .closure param body outer =>
      (Control.eval body ((param, promise context env arg) :: outer)).turn
    | other => (Control.apply other (promise context env arg)).turn
  | .thenEval body env => (Control.eval body env).turn
  | .thenForce promise => (Control.force promise).turn
  | .deepen => (Control.deepen [value] value).turn
  | .logicLeft op right env =>
    match value with
    | .bool left =>
      if left = (op == .or) then (Control.give (.bool left)).turn
      else (Control.eval right env).before .logicRight
    | _ => (Control.raise .unexpectedType).turn
  | .logicRight =>
    match value with
    | .bool right => (Control.give (.bool right)).turn
    | _ => (Control.raise .unexpectedType).turn
  | .concatLeft right env =>
    match value with
    | .list items => (Control.give (.list (items ++ [.joint (promise context env right)]))).turn
    | _ => (Control.raise .notAList).turn
  | .operandLeft op right env => (Control.eval right env).before (.operandRight op value)
  | .operandRight op left => (Control.operate op left value).turn
  | .unary op => (Control.ofScalar (op.apply value.outer)).turn
  | .negate =>
    match value with
    | .bool same => (Control.give (.bool !same)).turn
    | other => (Control.give other).turn
  | .select name =>
    match value with
    | .record fields =>
      match fields.lookup (context.names.lookup name) with
      | some promise => (Control.force promise).turn
      | none => (Control.raise .missingField).turn
    | _ => (Control.raise .notARecord).turn
  | .ascribe type =>
    (Control.ofResult (value.check context.names context.annotations.graph type)).turn
  | .args [] => (Control.give value).turn
  | .args (arg :: rest) => (Control.apply value arg).before (.args rest)
  | .mapOver func =>
    match value with
    | .record fields =>
      let mapped := fields.map fun (name, promise) =>
        (name, Promise.apply func [.ready (.str name), promise])
      (Control.give (.record (Fields.ofEntries mapped))).turn
    | _ => (Control.raise .notARecord).turn
  | .fieldNames =>
    match value with
    | .record fields =>
      (Control.give (.list (fields.map fun field => .item (.ready (.str field.1))))).turn
    | _ => (Control.raise .notARecord).turn
  | .fieldName record =>
    match value with
    | .str name => (Control.force record).before (.fieldOwner name)
    | _ => (Control.raise .unexpectedType).turn
  | .fieldOwner name =>
    match value with
    | .record fields => (Control.give (.bool (fields.lookup name).isSome)).turn
    | _ => (Control.raise .notARecord).turn
  | .walk consumer =>
    match value with
    | .list items => (Control.advance items consumer).turn
    | _ => (Control.raise .notAList).turn
  | .indexed index =>
    match value with
    | .list items => (Control.force index).before (.index items)
    | _ => (Control.raise .notAList).turn
  | .index list =>
    match value.outer.asInteger? with
    | some index =>
      if index < 0 then (Control.advance list (.outOfBounds index 0)).turn
      else (Control.advance list (.elemAt list index index.toInt.toNat)).turn
    | none => (Control.raise .domainError).turn
  | .bound =>
    match value.outer.asInteger?.filter fun bound => 0 ≤ bound with
    | some bound => (Control.give (.list (Segment.span 0 bound))).turn
    | none => (Control.raise .domainError).turn
  | .kindTest kind => (Control.give (.bool (value.kind == kind))).turn
  | .spine pending consumer =>
    match value with
    | .list items => (Control.advance (items ++ pending) consumer).turn
    -- The walk still waits when its right part turns out to be no list.
    | _ => (Control.raise .notAList).before (.spine pending consumer)
  | .deepItem rest work whole => (Control.advance rest (.deepen (value :: work) whole)).turn
  | .compareItemLeft right lefts rights work =>
    (Control.force right).before (.compareItemRight value lefts rights work)
  | .compareItemRight left lefts rights work =>
    (Control.advance lefts (.compareLeft rights ((left, value) :: work))).turn

/-- A state of the evaluation: nothing but what is done next and what waits. -/
structure State where
  control : Control
  stack : List Frame

/-- Goes on with a turn above a stack. -/
def Turn.onto (turn : Turn) (stack : List Frame) : State :=
  ⟨turn.control, turn.frames ++ stack⟩

/-- One step; a value or a failure that nothing waits for stays as it is. -/
def step (context : Context) (state : State) : State :=
  let ⟨control, stack⟩ := state
  match control with
  | .eval body env => (evalTurn context body env).onto stack
  | .force promise => (forceTurn promise).onto stack
  | .apply func arg => (applyTurn func arg).onto stack
  | .run op args => (runTurn op args).onto stack
  | .operate op left right => (operateTurn op left right).onto stack
  | .advance items consumer =>
    (advanceTurn context.annotations.graph items consumer).onto stack
  | .deepen work whole => (deepenTurn work whole).onto stack
  | .compare work => (compareTurn work).onto stack
  | .give value =>
    match stack with
    | [] => ⟨.give value, []⟩
    | frame :: rest => (giveTurn context value frame).onto rest
  | .raise variant => ⟨.raise variant, stack.tail⟩

/-- The state after a number of steps. -/
def run (context : Context) (steps : Nat) (state : State) : State :=
  (step context)^[steps] state

end LazyConfig.ByName
