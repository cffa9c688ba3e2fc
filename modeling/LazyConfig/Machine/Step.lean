import LazyConfig.Machine.Suspend
import LazyConfig.Value.Arithmetic
import LazyConfig.Value.Check
import LazyConfig.Value.Text

/-! One step of the evaluator. -/

namespace LazyConfig

namespace Control

/-- Passes up the failure with a given cause. -/
def fail (fault : Fault) : Control :=
  .raise (.fault fault)

/-- Gives the result of an operation to the top frame, or passes up its failure. -/
def ofResult : Except Fault Value → Control
  | .ok value => .give value
  | .error fault => .fail fault

end Control

namespace Context

/--
Evaluates an expression at the present level. The body of a binding, the branches of a choice, the
last operand of a sequence and the body of an applied function stay at this level.
-/
def evalStep (context : Context) (store : Store) (meter : DepthMeter) (id : ExprId) (env : Env)
    (stack : List Frame) : State :=
  match context.code.expr id with
  | .int value => ⟨store, meter, .give (.int value), stack⟩
  | .float value => ⟨store, meter, .give (.float value), stack⟩
  | .str text => ⟨store, meter, .give (.str (context.names.lookup text)), stack⟩
  | .bool value => ⟨store, meter, .give (.bool value), stack⟩
  | .ident name =>
    match env.lookup name with
    | some bound => ⟨store, meter, .force bound, stack⟩
    | none => ⟨store, meter, .fail (.unbound (context.names.lookup name)), stack⟩
  | .lambda param body =>
    let (value, store) := store.closure param body env
    ⟨store, meter, .give value, stack⟩
  | .apply func arg => ⟨store, meter, .enter func env, .operand arg env :: stack⟩
  | .letIn name value body =>
    -- The new name is in scope in its own value, so the suspended value refers to itself.
    let (inside, store) := bindRecursive store env name value
    ⟨store, meter, .eval body inside, stack⟩
  | .cond test whenTrue whenFalse =>
    ⟨store, meter, .enter test env, .branch whenTrue whenFalse env :: stack⟩
  | .binary op left right =>
    match op with
    -- The right side of these is not touched until the left side is known.
    | .and | .or => ⟨store, meter, .enter left env, .logicLeft op right env :: stack⟩
    | .concat => ⟨store, meter, .enter left env, .concatLeft right env :: stack⟩
    | _ => ⟨store, meter, .enter left env, .operandLeft op right env :: stack⟩
  | .unary op operand => ⟨store, meter, .enter operand env, .unary op :: stack⟩
  | .list items =>
    let (ids, store) := context.suspendAll env items store
    ⟨store, meter, .give (.list (.ofThunks ids)), stack⟩
  | .record fields =>
    let (record, store) := context.suspendFields env fields .empty store
    ⟨store, meter, .ofResult (record.map .record), stack⟩
  | .field receiver name => ⟨store, meter, .enter receiver env, .select name :: stack⟩
  | .builtin op args =>
    match op, args with
    -- With both operands at hand the last one needs no suspension and stays at this level.
    | .seq, [first, second] => ⟨store, meter, .enter first env, .thenEval second env :: stack⟩
    | .deepSeq, [first, second] =>
      ⟨store, meter, .enter first env, .deepen :: .thenEval second env :: stack⟩
    | op, args =>
      if op.arity < args.length then
        ⟨store, meter, .fail (.tooManyArguments op args.length), stack⟩
      else
        let (held, store) := context.suspendAll env args store
        -- Too few arguments are not a failure: the primitive keeps them and waits for the others.
        if held.length < op.arity then ⟨store, meter, .give (.builtin op held), stack⟩
        else ⟨store, meter, .run op held, stack⟩
  | .ascribe value type =>
    match context.annotations.get? type with
    | some type => ⟨store, meter, .enter value env, .ascribe type .root :: stack⟩
    | none => ⟨store, meter, .fail .unresolvedType, stack⟩
  | .aliases _ body => ⟨store, meter, .eval body env, stack⟩

/-- Evaluates an expression one level deeper, unless the limit is reached. -/
def enterStep (store : Store) (meter : DepthMeter) (id : ExprId) (env : Env)
    (stack : List Frame) : State :=
  match meter.enter? with
  | some deeper => ⟨store, deeper, .eval id env, .leave :: stack⟩
  | none => ⟨store, meter, .fail (.depthExceeded meter.limit), stack⟩

/-- Starts the work of a suspended computation. -/
def resumeStep (store : Store) (meter : DepthMeter) (work : Suspension)
    (stack : List Frame) : State :=
  match work with
  | .expr body env => ⟨store, meter, .enter body env, stack⟩
  | .apply func args => ⟨store, meter, .force func, .args args :: stack⟩
  | .check inner type path => ⟨store, meter, .force inner, .ascribe type path :: stack⟩
  | .checkList source elem path index =>
    ⟨store, meter, .advance source.cursor (.checkCell elem path index), stack⟩

/-- Asks for the outcome of a computation, which is worked out at most once. -/
def forceStep (store : Store) (meter : DepthMeter) (id : ThunkId) (stack : List Frame) : State :=
  match store.cell id with
  | .forced value => ⟨store, meter, .give value, stack⟩
  | .failed error => ⟨store, meter, .raise (.error error), stack⟩
  -- The outcome is asked for while it is being worked out.
  | .inProgress => ⟨store, meter, .fail .infiniteRecursion, stack⟩
  -- The mark is set before the work starts, and the frame replaces it whichever way the work ends.
  | .suspended work => resumeStep (store.set id .inProgress) meter work (.update id :: stack)

/-- Applies a value to one argument. -/
def applyStep (store : Store) (meter : DepthMeter) (func : Value) (arg : ThunkId)
    (stack : List Frame) : State :=
  match func with
  | .closure function =>
    ⟨store, meter, .enter function.body (function.env.bind function.param arg), stack⟩
  | .builtin op held =>
    let held := held ++ [arg]
    if op.missing held = 0 then ⟨store, meter, .run op held, stack⟩
    else ⟨store, meter, .give (.builtin op held), stack⟩
  | .host function => ⟨store, meter, .force arg, .hostArgument function :: stack⟩
  | other => ⟨store, meter, .fail (.notCallable other.kind), stack⟩

/-- Runs a primitive, which asks only for the arguments that it needs. -/
def runStep (store : Store) (meter : DepthMeter) (op : Builtin) (args : List ThunkId)
    (stack : List Frame) : State :=
  match op, args with
  | .map, [func, record] => ⟨store, meter, .force record, .mapOver func :: stack⟩
  | .fieldsOf, [record] => ⟨store, meter, .force record, .fieldNames :: stack⟩
  | .hasField, [name, record] => ⟨store, meter, .force name, .fieldName record :: stack⟩
  | .head, [list] => ⟨store, meter, .force list, .walk .head .head :: stack⟩
  | .tail, [list] => ⟨store, meter, .force list, .walk .tail .tail :: stack⟩
  | .length, [list] => ⟨store, meter, .force list, .walk .length (.count 0) :: stack⟩
  | .elemAt, [list, index] => ⟨store, meter, .force list, .indexed index :: stack⟩
  | .range, [bound] => ⟨store, meter, .force bound, .bound :: stack⟩
  | .seq, [first, second] => ⟨store, meter, .force first, .thenForce second :: stack⟩
  | .deepSeq, [first, second] =>
    ⟨store, meter, .force first, .deepen :: .thenForce second :: stack⟩
  | .isNum, [arg] => ⟨store, meter, .force arg, .kindTest .num :: stack⟩
  | .isStr, [arg] => ⟨store, meter, .force arg, .kindTest .str :: stack⟩
  | .isBool, [arg] => ⟨store, meter, .force arg, .kindTest .bool :: stack⟩
  | .isList, [arg] => ⟨store, meter, .force arg, .kindTest .list :: stack⟩
  | .isRecord, [arg] => ⟨store, meter, .force arg, .kindTest .record :: stack⟩
  | .isFun, [arg] => ⟨store, meter, .force arg, .kindTest .function :: stack⟩
  | op, args => ⟨store, meter, .fail (.tooManyArguments op args.length), stack⟩

/-- Applies a strict operator to evaluated operands. -/
def operateStep (store : Store) (meter : DepthMeter) (op : BinaryOp) (left right : Value)
    (stack : List Frame) : State :=
  match op with
  | .eq => ⟨store, meter, .compare [(left, right)], stack⟩
  | .ne => ⟨store, meter, .compare [(left, right)], .negate :: stack⟩
  | .add | .sub | .mul | .div | .rem => ⟨store, meter, .ofResult (op.arithmetic left right), stack⟩
  | .lt | .le | .gt | .ge =>
    ⟨store, meter, .ofResult ((op.order left right).map fun order => .bool (op.accepts order)),
      stack⟩
  | .append =>
    match left, right with
    | .str a, .str b => ⟨store, meter, .give (.str (a ++ b)), stack⟩
    | _, _ => ⟨store, meter, .fail (op.mismatch left right), stack⟩
  | .and | .or =>
    match left, right with
    | .bool a, .bool b =>
      ⟨store, meter, .give (.bool (if op = .and then a && b else a || b)), stack⟩
    | _, _ => ⟨store, meter, .fail (op.mismatch left right), stack⟩
  | .concat =>
    match left with
    | .list items =>
      -- Both sides are values here, and the right side is not looked at before a walk gets to it.
      let (id, store) := store.ready right
      ⟨store, meter, .give (.list (.concat items id)), stack⟩
    | other => ⟨store, meter, .fail (.notAList .concatLeft other.kind), stack⟩

/-- Hands the next element of a walk, or its end, to the consumer. -/
def consumeStep (graph : TypeGraph) (store : Store) (meter : DepthMeter) (consumer : Consumer)
    (item : Option ThunkId) (rest : Cursor) (stack : List Frame) : State :=
  match consumer, item with
  | .report, item => ⟨store, meter, .done (.stepped item rest), stack⟩
  | .head, some id => ⟨store, meter, .force id, stack⟩
  | .head, none => ⟨store, meter, .fail (.emptyList .head), stack⟩
  | .tail, some _ => ⟨store, meter, .give (.list rest.rest), stack⟩
  | .tail, none => ⟨store, meter, .fail (.emptyList .tail), stack⟩
  | .count passed, some _ => ⟨store, meter, .advance rest (.count (passed + 1)), stack⟩
  | .count passed, none =>
    match fit? passed with
    | some length => ⟨store, meter, .give (.int length), stack⟩
    | none => ⟨store, meter, .fail (.lengthOverflow passed), stack⟩
  | .elemAt _ _ 0, some id => ⟨store, meter, .force id, stack⟩
  | .elemAt list index (ahead + 1), some _ =>
    ⟨store, meter, .advance rest (.elemAt list index ahead), stack⟩
  -- The list is too short. It is walked again from the front, for the failure names its length.
  | .elemAt list index _, none => ⟨store, meter, .advance list.cursor (.outOfBounds index 0), stack⟩
  | .outOfBounds index passed, some _ =>
    ⟨store, meter, .advance rest (.outOfBounds index (passed + 1)), stack⟩
  | .outOfBounds index passed, none =>
    ⟨store, meter, .fail (.indexOutOfBounds index passed), stack⟩
  | .deepen work whole, some id => ⟨store, meter, .force id, .deepItem rest work whole :: stack⟩
  | .deepen work whole, none => ⟨store, meter, .deepen work whole, stack⟩
  -- The two lists are walked in turn, one element of each.
  | .compareLeft right work, item =>
    ⟨store, meter, .advance right (.compareRight item rest work), stack⟩
  | .compareRight (some left) lefts work, some right =>
    ⟨store, meter, .force left, .compareItemLeft right lefts rest work :: stack⟩
  | .compareRight none _ work, none => ⟨store, meter, .compare work, stack⟩
  -- One list ends before the other.
  | .compareRight _ _ _, _ => ⟨store, meter, .give (.bool false), stack⟩
  | .checkCell elem path index, some head =>
    let (value, store) := store.checkCell graph head rest.rest elem path index
    ⟨store, meter, .give value, stack⟩
  | .checkCell _ _ _, none => ⟨store, meter, .give (.list .empty), stack⟩

/-- Goes on with the right parts that wait when what is in front is used up. -/
def crossStep (graph : TypeGraph) (store : Store) (meter : DepthMeter) (pending : List ThunkId)
    (consumer : Consumer) (stack : List Frame) : State :=
  match pending with
  | [] => consumeStep graph store meter consumer none (.before []) stack
  | right :: rest => ⟨store, meter, .force right, .spine rest consumer :: stack⟩

/-- Takes one step along a list. -/
def advanceStep (graph : TypeGraph) (store : Store) (meter : DepthMeter) (cursor : Cursor)
    (consumer : Consumer) (stack : List Frame) : State :=
  let ⟨front, pending⟩ := cursor
  match front with
  | .elems items start =>
    match items[start]? with
    | some id => consumeStep graph store meter consumer (some id) ⟨.elems items (start + 1), pending⟩
        stack
    | none => crossStep graph store meter pending consumer stack
  | .range next stop =>
    if next < stop then
      let (id, store) := store.ready (.int next)
      consumeStep graph store meter consumer (some id) ⟨.range (next + 1) stop, pending⟩ stack
    else crossStep graph store meter pending consumer stack
  -- The right part waits, and no recursion on the left part is needed.
  | .concat left right => ⟨store, meter, .advance ⟨left, right :: pending⟩ consumer, stack⟩

/-- Evaluates all elements and fields of the last value that waits. -/
def deepenStep (store : Store) (meter : DepthMeter) (work : List Value) (whole : Value)
    (stack : List Frame) : State :=
  match work with
  | [] => ⟨store, meter, .give whole, stack⟩
  | .list items :: rest => ⟨store, meter, .advance items.cursor (.deepen rest whole), stack⟩
  | .record fields :: rest =>
    ⟨store, meter, .advance (LazyList.ofThunks fields.thunks).cursor (.deepen rest whole), stack⟩
  | _ :: rest => ⟨store, meter, .deepen rest whole, stack⟩

/--
Compares the last pair that waits. Lists and records are compared part by part, evaluating both
sides as far as needed; functions cannot be compared.
-/
def compareStep (store : Store) (meter : DepthMeter) (work : List (Value × Value))
    (stack : List Frame) : State :=
  let decide (same : Bool) (rest : List (Value × Value)) : State :=
    ⟨store, meter, if same then .compare rest else .give (.bool false), stack⟩
  match work with
  | [] => ⟨store, meter, .give (.bool true), stack⟩
  | (.int left, .int right) :: rest => decide (left == right) rest
  | (.str left, .str right) :: rest => decide (left == right) rest
  | (.bool left, .bool right) :: rest => decide (left == right) rest
  | (.list left, .list right) :: rest =>
    ⟨store, meter, .advance left.cursor (.compareLeft right.cursor rest), stack⟩
  | (.record left, .record right) :: rest =>
    if left.names = right.names then
      let rights := (LazyList.ofThunks right.thunks).cursor
      ⟨store, meter, .advance (LazyList.ofThunks left.thunks).cursor (.compareLeft rights rest),
        stack⟩
    else ⟨store, meter, .give (.bool false), stack⟩
  -- Numbers are compared as floats unless both are integers; values of other kinds differ.
  | (left, right) :: rest =>
    if left.isFunction || right.isFunction then
      ⟨store, meter, .fail (BinaryOp.eq.mismatch left right), stack⟩
    else
      match left.asFloat?, right.asFloat? with
      | some left, some right => decide (left == right) rest
      | _, _ => decide false rest

/-- What a function of the host answers to a value with a given text. -/
def answerStep (store : Store) (meter : DepthMeter) (function : HostFunction) (value : Value)
    (shown : String) (stack : List Frame) : State :=
  let store := store.record ⟨function.name, shown⟩
  match function.response with
  | .argument => ⟨store, meter, .give value, stack⟩
  | .refusal => ⟨store, meter, .fail (.hostFailure function.name ("refused " ++ shown)), stack⟩
  | .panic => ⟨store, meter, .raise (.panic function.name), stack⟩
  | .kindName => ⟨store, meter, .give (.str value.kind.name), stack⟩
  | .singleton =>
    let (id, store) := store.ready value
    ⟨store, meter, .give (.list (.ofThunks [id])), stack⟩

/-- Gives a value to the frame that waits for it. -/
def giveStep (context : Context) (store : Store) (meter : DepthMeter) (value : Value)
    (frame : Frame) (stack : List Frame) : State :=
  match frame with
  | .leave => ⟨store, meter.leave, .give value, stack⟩
  | .update id => ⟨store.set id (.forced value), meter, .give value, stack⟩
  | .branch whenTrue whenFalse env =>
    match value with
    | .bool test => ⟨store, meter, .eval (if test then whenTrue else whenFalse) env, stack⟩
    | other => ⟨store, meter, .fail (.unexpectedKind .bool .condition other.kind), stack⟩
  | .operand arg env =>
    -- The argument is put off before it is known whether the value can be applied.
    let (id, store) := context.suspend store arg env
    match value with
    | .closure function =>
      ⟨store, meter, .eval function.body (function.env.bind function.param id), stack⟩
    | other => ⟨store, meter, .apply other id, stack⟩
  | .thenEval body env => ⟨store, meter, .eval body env, stack⟩
  | .thenForce id => ⟨store, meter, .force id, stack⟩
  | .deepen => ⟨store, meter, .deepen [value] value, stack⟩
  | .logicLeft op right env =>
    match value with
    | .bool left =>
      -- The left side decides when it is true in a disjunction or false in a conjunction.
      if left = (op == .or) then ⟨store, meter, .give (.bool left), stack⟩
      else ⟨store, meter, .enter right env, .logicRight :: stack⟩
    | other => ⟨store, meter, .fail (.unexpectedKind .bool .logicLeft other.kind), stack⟩
  | .logicRight =>
    match value with
    | .bool right => ⟨store, meter, .give (.bool right), stack⟩
    | other => ⟨store, meter, .fail (.unexpectedKind .bool .logicRight other.kind), stack⟩
  | .concatLeft right env =>
    match value with
    | .list items =>
      let (id, store) := context.suspend store right env
      ⟨store, meter, .give (.list (.concat items id)), stack⟩
    | other => ⟨store, meter, .fail (.notAList .concatLeft other.kind), stack⟩
  | .operandLeft op right env => ⟨store, meter, .enter right env, .operandRight op value :: stack⟩
  | .operandRight op left => ⟨store, meter, .operate op left value, stack⟩
  | .unary op => ⟨store, meter, .ofResult (op.apply value), stack⟩
  | .negate =>
    match value with
    | .bool same => ⟨store, meter, .give (.bool !same), stack⟩
    | other => ⟨store, meter, .give other, stack⟩
  | .select name =>
    match value with
    | .record fields =>
      match fields.get? (context.names.lookup name) with
      | some id => ⟨store, meter, .force id, .note name :: stack⟩
      | none => ⟨store, meter, .fail (.missingField (context.names.lookup name)), stack⟩
    | other => ⟨store, meter, .fail (.notARecord .fieldAccess other.kind), stack⟩
  | .note _ => ⟨store, meter, .give value, stack⟩
  -- A scalar is checked at once; lists and records get checks that wait in their parts.
  | .ascribe type path =>
    let (result, store) :=
      store.check context.names context.annotations.graph value type path
    ⟨store, meter, .ofResult result, stack⟩
  | .args [] => ⟨store, meter, .give value, stack⟩
  | .args (arg :: rest) => ⟨store, meter, .apply value arg, .args rest :: stack⟩
  | .hostArgument function => answerStep store meter function value (store.quoted value) stack
  | .mapOver func =>
    match value with
    | .record fields =>
      let (mapped, store) := store.mapFields func fields
      ⟨store, meter, .give (.record mapped), stack⟩
    | other => ⟨store, meter, .fail (.notARecord (.argumentOf .map) other.kind), stack⟩
  | .fieldNames =>
    match value with
    | .record fields =>
      let (names, store) := store.fieldsOf fields
      ⟨store, meter, .give (.list names), stack⟩
    | other => ⟨store, meter, .fail (.notARecord (.argumentOf .fieldsOf) other.kind), stack⟩
  | .fieldName record =>
    match value with
    | .str name => ⟨store, meter, .force record, .fieldOwner name :: stack⟩
    | other => ⟨store, meter, .fail (.unexpectedKind .str .fieldName other.kind), stack⟩
  | .fieldOwner name =>
    match value with
    | .record fields => ⟨store, meter, .give (.bool (fields.contains name)), stack⟩
    | other => ⟨store, meter, .fail (.notARecord (.argumentOf .hasField) other.kind), stack⟩
  | .walk op consumer =>
    match value with
    | .list items => ⟨store, meter, .advance items.cursor consumer, stack⟩
    | other => ⟨store, meter, .fail (.notAList (.argumentOf op) other.kind), stack⟩
  | .indexed index =>
    match value with
    | .list items => ⟨store, meter, .force index, .index items :: stack⟩
    | other => ⟨store, meter, .fail (.notAList (.argumentOf .elemAt) other.kind), stack⟩
  | .index list =>
    match value.asInteger? with
    | some index =>
      -- A negative index fails too, but only after a walk that finds the length.
      if index < 0 then ⟨store, meter, .advance list.cursor (.outOfBounds index 0), stack⟩
      else ⟨store, meter, .advance list.cursor (.elemAt list index index.toInt.toNat), stack⟩
    | none => ⟨store, meter, .fail (.badIndex (store.quoted value)), stack⟩
  | .bound =>
    match value.asInteger?.filter fun bound => 0 ≤ bound with
    | some bound => ⟨store, meter, .give (.list (.upTo bound)), stack⟩
    | none => ⟨store, meter, .fail (.badBound (store.quoted value)), stack⟩
  | .kindTest kind => ⟨store, meter, .give (.bool (value.kind == kind)), stack⟩
  | .spine pending consumer =>
    match value with
    | .list items => ⟨store, meter, .advance ⟨items, pending⟩ consumer, stack⟩
    | other =>
      -- The frame is kept, so that a reader of the list can go on behind the bad part.
      ⟨store, meter, .fail (.notAList .concatRight other.kind), .spine pending consumer :: stack⟩
  | .deepItem rest work whole => ⟨store, meter, .advance rest (.deepen (value :: work) whole), stack⟩
  | .compareItemLeft right lefts rights work =>
    ⟨store, meter, .force right, .compareItemRight value lefts rights work :: stack⟩
  | .compareItemRight left lefts rights work =>
    ⟨store, meter, .advance lefts (.compareLeft rights ((left, value) :: work)), stack⟩

/--
Passes a failure up past a frame. Levels are left, suspended computations keep the failure as their
outcome, and a cursor stays behind the right part that failed.
-/
def raiseStep (context : Context) (store : Store) (meter : DepthMeter) (upset : Upset)
    (frame : Frame) (stack : List Frame) : State :=
  match frame with
  | .leave => ⟨store, meter.leave, .raise upset, stack⟩
  | .update id => ⟨store.set id (.failed upset.remembered), meter, .raise upset, stack⟩
  | .note name => ⟨store, meter, .raise (upset.whileField (context.names.lookup name)), stack⟩
  | .spine pending .report =>
    ⟨store, meter, .done (.upset upset (some (.before pending))), stack⟩
  | _ => ⟨store, meter, .raise upset, stack⟩

end Context

/-- One step of the evaluator; a finished evaluation stays as it is. -/
def State.step (context : Context) (state : State) : State :=
  let ⟨store, meter, control, stack⟩ := state
  match control with
  | .eval body env => context.evalStep store meter body env stack
  | .enter body env => Context.enterStep store meter body env stack
  | .force id => Context.forceStep store meter id stack
  | .apply func arg => Context.applyStep store meter func arg stack
  | .run op args => Context.runStep store meter op args stack
  | .operate op left right => Context.operateStep store meter op left right stack
  | .advance cursor consumer =>
    Context.advanceStep context.annotations.graph store meter cursor consumer stack
  | .deepen work whole => Context.deepenStep store meter work whole stack
  | .compare work => Context.compareStep store meter work stack
  | .give value =>
    match stack with
    | [] => ⟨store, meter, .done (.value value), []⟩
    | frame :: rest => context.giveStep store meter value frame rest
  | .raise upset =>
    match stack with
    | [] => ⟨store, meter, .done (.upset upset none), []⟩
    | frame :: rest => context.raiseStep store meter upset frame rest
  | .done ending => ⟨store, meter, .done ending, stack⟩

namespace State

/-- How an evaluation has ended, if it has. -/
def ending? (state : State) : Option Ending :=
  match state.control with
  | .done ending => some ending
  | _ => none

/-- At most a given number of steps. -/
def run (context : Context) : Nat → State → State
  | 0, state => state
  | steps + 1, state =>
    match state.control with
    | .done _ => state
    | _ => run context steps (state.step context)

end State

end LazyConfig
