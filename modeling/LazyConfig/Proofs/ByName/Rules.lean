import LazyConfig.Proofs.ByName.Operations

/-!
Every rule of the evaluator stands for the rule by name: it goes on with what the other goes on
with, waits on the same frames, and adds computations whose meanings are the promises made there.
-/

namespace LazyConfig.ByName

/-- Frames stand for frames, apart from those that only note where a failure came from. -/
inductive FramesMirror (meaning : Meaning) : List LazyConfig.Frame → List Frame → Prop
  | nil : FramesMirror meaning [] []
  | note (name : Name) {frames : List LazyConfig.Frame} {named : List Frame}
    (mirror : FramesMirror meaning frames named) : FramesMirror meaning (.note name :: frames) named
  | cons {frame : LazyConfig.Frame} {waits : Frame} {frames : List LazyConfig.Frame}
    {named : List Frame} (top : FrameMirrors meaning frame waits)
    (mirror : FramesMirror meaning frames named) :
    FramesMirror meaning (frame :: frames) (waits :: named)

/-- A state that a rule has led to above a stack stands for a turn by name. -/
def Follows (context : Context) (busy : Busy) (before : Meaning) (meter : DepthMeter)
    (stack : List LazyConfig.Frame) (after : LazyConfig.State) (turn : Turn) : Prop :=
  after.meter = meter ∧ ∃ pushed, after.stack = pushed ++ stack ∧
    Leaves context busy before after.store fun meaning =>
      FramesMirror meaning pushed turn.frames ∧ ControlMirrors meaning after.control turn.control

/-- A failure stands for a failure of its kind. -/
theorem ControlMirrors.fail {meaning : Meaning} (fault : Fault) (own : fault.ordinary = true) :
    ControlMirrors meaning (.fail fault) (.raise fault.variant) :=
  .raise ⟨fault, []⟩ own

/-- The result of an operation stands for the result by name. -/
theorem ResultMirrors.control {meaning : Meaning} {result : Except Fault LazyConfig.Value}
    {named : Except Variant Value} (results : ResultMirrors (ValueMirrors meaning) result named) :
    ControlMirrors meaning (.ofResult result) (.ofResult named) := by
  cases results with
  | ok mirrors => exact .give mirrors
  | error fault own => exact .fail fault own

namespace Follows

variable {context : Context} {busy : Busy} {meaning : Meaning} {store : Store}
  {meter : DepthMeter} {stack : List LazyConfig.Frame} {control : LazyConfig.Control}
  {named : Control}

/-- A rule that adds computations and goes on without waiting. -/
theorem of_leaves (leaves : Leaves context busy meaning store fun after =>
    ControlMirrors after control named) :
    Follows context busy meaning meter stack ⟨store, meter, control, stack⟩ named.turn :=
  ⟨rfl, [], rfl, leaves.imp fun _ _ mirrors => ⟨.nil, mirrors⟩⟩

/-- A rule that goes on without waiting. -/
theorem here (heap : Heap context busy meaning store) (mirrors : ControlMirrors meaning control named) :
    Follows context busy meaning meter stack ⟨store, meter, control, stack⟩ named.turn :=
  of_leaves (.same heap mirrors)

/-- A rule that fails. -/
theorem fails (heap : Heap context busy meaning store) (fault : Fault)
    (own : fault.ordinary = true) :
    Follows context busy meaning meter stack ⟨store, meter, .fail fault, stack⟩
      (Control.raise fault.variant).turn :=
  here heap (.fail fault own)

/-- A rule that waits on one frame. -/
theorem waits (heap : Heap context busy meaning store) {frame : LazyConfig.Frame} {top : Frame}
    (frame_mirrors : FrameMirrors meaning frame top)
    (mirrors : ControlMirrors meaning control named) :
    Follows context busy meaning meter stack ⟨store, meter, control, frame :: stack⟩
      (named.before top) :=
  ⟨rfl, [frame], rfl, .same heap ⟨.cons frame_mirrors .nil, mirrors⟩⟩

/-- A rule that waits on two frames. -/
theorem waitsTwice (heap : Heap context busy meaning store) {first second : LazyConfig.Frame}
    {top below : Frame} (first_mirrors : FrameMirrors meaning first top)
    (second_mirrors : FrameMirrors meaning second below)
    (mirrors : ControlMirrors meaning control named) :
    Follows context busy meaning meter stack ⟨store, meter, control, first :: second :: stack⟩
      ⟨named, [top, below]⟩ :=
  ⟨rfl, [first, second], rfl, .same heap ⟨.cons first_mirrors (.cons second_mirrors .nil), mirrors⟩⟩

/-- A rule that first adds computations. -/
theorem after {added : Store} {result : Meaning → Prop} {later : LazyConfig.State} {turn : Turn}
    (leaves : Leaves context busy meaning added result)
    (follows : ∀ after, Grows meaning after → Heap context busy after added → result after →
      Follows context busy after meter stack later turn) :
    Follows context busy meaning meter stack later turn := by
  obtain ⟨middle, grown, left, holds⟩ := leaves
  obtain ⟨sameMeter, pushed, stacked, last, further, heap, mirrors⟩ := follows middle grown left holds
  exact ⟨sameMeter, pushed, stacked, last, grown.trans further, heap, mirrors⟩

end Follows

/-! Operators, which look at the outermost form of their operands only. -/

section

variable {meaning : Meaning} {left right : LazyConfig.Value} {leftNamed rightNamed : Value}

/-- Arithmetic is the same by name. -/
theorem arithmetic_outer (op : BinaryOp) (leftMirrors : ValueMirrors meaning left leftNamed)
    (rightMirrors : ValueMirrors meaning right rightNamed) :
    op.arithmetic left right = op.arithmetic leftNamed.outer rightNamed.outer := by
  cases leftMirrors <;> cases rightMirrors <;> rfl

/-- The order of values is the same by name. -/
theorem order_outer (op : BinaryOp) (leftMirrors : ValueMirrors meaning left leftNamed)
    (rightMirrors : ValueMirrors meaning right rightNamed) :
    op.order left right = op.order leftNamed.outer rightNamed.outer := by
  cases leftMirrors <;> cases rightMirrors <;> rfl

/-- An operator before an operand is the same by name. -/
theorem unary_outer (op : UnaryOp) (mirrors : ValueMirrors meaning left leftNamed) :
    op.apply left = op.apply leftNamed.outer := by
  cases op <;> cases mirrors <;> rfl

/-- A value is a whole number if and only if it is one by name. -/
theorem asInteger_outer (mirrors : ValueMirrors meaning left leftNamed) :
    left.asInteger? = leftNamed.outer.asInteger? := by
  cases mirrors <;> rfl

/-- A result of an operator that is a value without parts, or a failure of the program. -/
def Plain (meaning : Meaning) : Except Fault LazyConfig.Value → Prop
  | .ok value => ValueMirrors meaning value (.ofScalar value)
  | .error fault => fault.ordinary = true

/-- Arithmetic gives a number or a failure. -/
theorem arithmetic_plain (op : BinaryOp) : Plain meaning (op.arithmetic left right) := by
  -- Only two numbers of one kind have a result; all other operands fail.
  unfold BinaryOp.arithmetic
  split
  · unfold BinaryOp.onIntegers
    split
    · exact rfl
    · split
      · exact .int _
      · exact rfl
  · split
    · unfold BinaryOp.onFloats
      split
      · exact rfl
      · exact .float _
    · exact rfl

/-- A comparison gives a truth value or a failure. -/
theorem order_plain (op : BinaryOp) :
    Plain meaning ((op.order left right).map fun order => .bool (op.accepts order)) := by
  unfold BinaryOp.order
  split
  · exact .bool _
  · exact .bool _
  · split
    · split
      · exact .bool _
      · split
        · exact .bool _
        · split
          · exact .bool _
          · exact rfl
    · exact rfl

/-- An operator before an operand gives a value without parts or a failure. -/
theorem unary_plain (op : UnaryOp) : Plain meaning (op.apply left) := by
  unfold UnaryOp.apply
  split
  · exact .bool _
  · split
    · exact .int _
    · exact rfl
  · exact .float _
  · exact rfl
  · exact rfl

/-- The result of an operator goes on as it does by name. -/
theorem Plain.control {result : Except Fault LazyConfig.Value} (plain : Plain meaning result) :
    ControlMirrors meaning (.ofResult result) (.ofScalar result) := by
  cases result with
  | ok value => exact .give plain
  | error fault => exact .fail fault plain

end

/-! The rules, one by one. -/

section

variable {context : Context} {busy : Busy} {meaning : Meaning} {store : Store}
  {meter : DepthMeter} {stack : List LazyConfig.Frame}

/-- A primitive holds the arguments that it is written with, and runs once it has all of them. -/
theorem heldStep_follows (heap : Heap context busy meaning store) {env : LazyConfig.Env}
    {named : Env} (bound : EntriesStand meaning env.bindings named) (op : Builtin)
    (args : List ExprId) {turn : Turn} (same : turn =
      if op.arity < args.length then (Control.raise .arityMismatch).turn
      else if (args.map (promise context named)).length < op.arity then
        (Control.give (.builtin op (args.map (promise context named)))).turn
      else (Control.run op (args.map (promise context named))).turn) :
    Follows context busy meaning meter stack
      (if op.arity < args.length then
        ⟨store, meter, .fail (.tooManyArguments op args.length), stack⟩
      else if (context.suspendAll env args store).1.length < op.arity then
        ⟨(context.suspendAll env args store).2, meter,
          .give (.builtin op (context.suspendAll env args store).1), stack⟩
      else
        ⟨(context.suspendAll env args store).2, meter,
          .run op (context.suspendAll env args store).1, stack⟩) turn := by
  subst same
  split
  · exact .fails heap _ rfl
  · have promised := heap.suspendAll bound args
    have length : (context.suspendAll env args store).1.length =
        (args.map (promise context named)).length := by
      obtain ⟨after, -, -, stand⟩ := promised
      exact stand.length_eq
    rw [length]
    split
    · exact .of_leaves (promised.imp fun _ _ stand => .give (.builtin stand))
    · exact .of_leaves (promised.imp fun _ _ stand => .run stand)

/-- Evaluating an expression. -/
theorem evalStep_follows (heap : Heap context busy meaning store) (id : ExprId)
    {env : LazyConfig.Env} {named : Env} (bound : EntriesStand meaning env.bindings named) :
    Follows context busy meaning meter stack (context.evalStep store meter id env stack)
      (evalTurn context id named) := by
  -- Both rules look at the same expression, so there is one case for each kind of expression.
  unfold Context.evalStep evalTurn
  cases context.code.expr id with
  | int value => exact .here heap (.give (.int value))
  | float value => exact .here heap (.give (.float value))
  | str text => exact .here heap (.give (.str _))
  | bool value => exact .here heap (.give (.bool value))
  | ident name =>
    -- A variable is bound in both environments or in neither.
    have found := bound.lookup name
    simp only [LazyConfig.Env.lookup]
    generalize env.bindings.lookup name = first at found ⊢
    generalize named.lookup name = second at found ⊢
    cases found with
    | some stands => exact .here heap (.force stands)
    | none => exact .fails heap _ rfl
  | lambda param body => exact .here (heap.closure param body env) (.give (.closure bound))
  | apply func arg => exact .waits heap (.operand bound) (.enter bound)
  | letIn name value body =>
    exact .of_leaves ((heap.bindRecursive bound name value).imp fun _ _ inside => .eval inside)
  | cond test whenTrue whenFalse => exact .waits heap (.branch bound) (.enter bound)
  | binary op left right =>
    cases op with
    | and | or => exact .waits heap (.logicLeft bound) (.enter bound)
    | concat => exact .waits heap (.concatLeft bound) (.enter bound)
    | _ => exact .waits heap (.operandLeft bound) (.enter bound)
  | unary op operand => exact .waits heap (.unary op) (.enter bound)
  | list items =>
    refine .of_leaves ((heap.suspendAll bound items).imp fun after _ stand => .give (.list ?_))
    simpa only [List.map_map, Function.comp_def] using ListMirrors.ofThunks stand
  | record fields =>
    -- The fields are put off one by one, and the record is there unless a name comes twice.
    refine .of_leaves ((heap.suspendFields bound fields .nil).imp fun after _ results => ?_)
    revert results
    generalize (context.suspendFields env fields .empty store).1 = result
    generalize promiseFields context named fields [] = promised
    intro results
    cases results with
    | ok stand => exact .give (.record stand)
    | error fault own => exact .fail fault own
  | field receiver name => exact .waits heap (.select name) (.enter bound)
  | builtin op args =>
    dsimp only
    split
    · exact .waits heap (.thenEval bound) (.enter bound)
    · exact .waitsTwice heap .deepen (.thenEval bound) (.enter bound)
    · -- All but the two primitives that go on with their last argument hold their arguments first.
      rename_i notSeq notDeepSeq
      exact heldStep_follows heap bound op args (by grind)
  | ascribe value type =>
    dsimp only
    cases context.annotations.get? type with
    | some resolved => exact .waits heap (.ascribe resolved .root) (.enter bound)
    | none => exact .fails heap _ rfl
  | aliases defs body => exact .here heap (.eval bound)

/-- Applying a value. -/
theorem applyStep_follows (heap : Heap context busy meaning store) {func : LazyConfig.Value}
    {named : Value} (mirrors : ValueMirrors meaning func named) {arg : ThunkId} {promise : Promise}
    (stands : Stands meaning arg promise) :
    Follows context busy meaning meter stack (Context.applyStep store meter func arg stack)
      (applyTurn named promise) := by
  cases mirrors with
  | closure bound => exact .here heap (.enter (.cons ⟨rfl, stands⟩ bound))
  | @builtin op held promises stand =>
    have all : AllStand meaning (held ++ [arg]) (promises ++ [promise]) :=
      List.rel_append stand (.cons stands .nil)
    -- As many arguments are missing on both sides.
    simp only [Context.applyStep, applyTurn, Builtin.missing, all.length_eq]
    split
    · exact .here heap (.run all)
    · exact .here heap (.give (.builtin all))
  | _ => exact .fails heap _ rfl

/-- Running a primitive. -/
theorem runStep_follows (heap : Heap context busy meaning store) (op : Builtin)
    {args : List ThunkId} {promises : List Promise} (stand : AllStand meaning args promises) :
    Follows context busy meaning meter stack (Context.runStep store meter op args stack)
      (runTurn op promises) := by
  -- A primitive looks at the number of its arguments, which is the same on both sides.
  rcases stand with _ | ⟨first, _ | ⟨second, _ | ⟨third, rest⟩⟩⟩
  · cases op <;> exact .fails heap _ rfl
  · cases op with
    | fieldsOf => exact .waits heap .fieldNames (.force first)
    | head => exact .waits heap (.walk _ .head) (.force first)
    | tail => exact .waits heap (.walk _ .tail) (.force first)
    | length => exact .waits heap (.walk _ (.count 0)) (.force first)
    | range => exact .waits heap .bound (.force first)
    | isNum | isStr | isBool | isList | isRecord | isFun =>
      exact .waits heap (.kindTest _) (.force first)
    | _ => exact .fails heap _ rfl
  · cases op with
    | map => exact .waits heap (.mapOver first) (.force second)
    | hasField => exact .waits heap (.fieldName second) (.force first)
    | elemAt => exact .waits heap (.indexed second) (.force first)
    | seq => exact .waits heap (.thenForce second) (.force first)
    | deepSeq => exact .waitsTwice heap .deepen (.thenForce second) (.force first)
    | _ => exact .fails heap _ rfl
  · cases op <;> exact .fails heap _ rfl

/-- Applying a strict operator. -/
theorem operateStep_follows (heap : Heap context busy meaning store) (op : BinaryOp)
    {left right : LazyConfig.Value} {leftNamed rightNamed : Value}
    (leftMirrors : ValueMirrors meaning left leftNamed)
    (rightMirrors : ValueMirrors meaning right rightNamed) :
    Follows context busy meaning meter stack (Context.operateStep store meter op left right stack)
      (operateTurn op leftNamed rightNamed) := by
  -- By name an operator has the rule that it has with a store; what differs is how its operands are
  -- kept.
  cases op with
  | eq => exact .here heap (.compare (.cons ⟨leftMirrors, rightMirrors⟩ .nil))
  | ne => exact .waits heap .negate (.compare (.cons ⟨leftMirrors, rightMirrors⟩ .nil))
  | add | sub | mul | div | rem =>
    -- The outermost forms are the same, and what comes out has no parts.
    simp only [Context.operateStep, operateTurn, arithmetic_outer _ leftMirrors rightMirrors]
    exact .here heap (arithmetic_plain _).control
  | lt | le | gt | ge =>
    simp only [Context.operateStep, operateTurn, order_outer _ leftMirrors rightMirrors]
    exact .here heap (order_plain _).control
  | append =>
    cases leftMirrors with
    | str a =>
      cases rightMirrors with
      | str b => exact .here heap (.give (.str _))
      | _ => exact .fails heap _ rfl
    | _ => cases rightMirrors <;> exact .fails heap _ rfl
  | and | or =>
    cases leftMirrors with
    | bool a =>
      cases rightMirrors with
      | bool b => exact .here heap (.give (.bool _))
      | _ => exact .fails heap _ rfl
    | _ => cases rightMirrors <;> exact .fails heap _ rfl
  | concat =>
    cases leftMirrors with
    | list listed =>
      -- The right operand is there already, so that its promise is kept at once.
      refine .of_leaves ((heap.ready (Heap.gives_ready _) rightMirrors).imp
        fun after grown stands => .give (.list ?_))
      exact ⟨_, _, listed.grow grown, stands, rfl⟩
    | _ => exact .fails heap _ rfl

/-- Handing an element to a consumer. -/
theorem consumeStep_follows (graph : TypeGraph) (heap : Heap context busy meaning store)
    {consumer : LazyConfig.Consumer} {named : Consumer}
    (consumes : ConsumerMirrors meaning consumer named) {item : Option ThunkId}
    {promise : Option Promise} (stands : Option.Rel (Stands meaning) item promise) {rest : Cursor}
    {segments : List Segment} (ahead : CursorMirrors meaning rest segments) :
    Follows context busy meaning meter stack
      (Context.consumeStep graph store meter consumer item rest stack)
      (consumeTurn graph named promise segments) := by
  cases consumes with
  | head =>
    cases stands with
    | some stands => exact .here heap (.force stands)
    | none => exact .fails heap _ rfl
  | tail =>
    cases stands with
    | some stands => exact .here heap (.give (.list ahead.rest))
    | none => exact .fails heap _ rfl
  -- The length must fit into an integer, which does not depend on the elements.
  | count passed =>
    cases stands with
    | some stands => exact .here heap (.advance ahead (.count _))
    | none =>
      simp only [Context.consumeStep, consumeTurn]
      cases fit? passed with
      | some length => exact .here heap (.give (.int length))
      | none => exact .fails heap _ rfl
  | elemAt index before listed =>
    cases stands with
    | some stands =>
      cases before with
      | zero => exact .here heap (.force stands)
      | succ before => exact .here heap (.advance ahead (.elemAt index before listed))
    -- The list is walked anew, only to tell how long it is.
    | none => cases before <;> exact .here heap (.advance listed.cursor (.outOfBounds index 0))
  | outOfBounds index passed =>
    cases stands with
    | some stands => exact .here heap (.advance ahead (.outOfBounds index _))
    | none => exact .fails heap _ rfl
  | deepen works mirrors =>
    cases stands with
    | some stands => exact .waits heap (.deepItem ahead works mirrors) (.force stands)
    | none => exact .here heap (.deepen works mirrors)
  | compareLeft right pairs =>
    cases stands with
    | some stands => exact .here heap (.advance right (.compareRight (.some stands) ahead pairs))
    | none => exact .here heap (.advance right (.compareRight .none ahead pairs))
  | compareRight left lefts pairs =>
    cases left with
    | some left =>
      cases stands with
      | some right => exact .waits heap (.compareItemLeft right lefts ahead pairs) (.force left)
      -- One list has ended before the other, so that they are not equal.
      | none => exact .here heap (.give (.bool false))
    | none =>
      cases stands with
      | some right => exact .here heap (.give (.bool false))
      | none => exact .here heap (.compare pairs)
  | checkCell elem path index =>
    cases stands with
    | some stands =>
      exact .of_leaves ((heap.checkCell graph stands ahead.rest elem path index).imp
        fun _ _ mirrors => .give mirrors)
    | none => exact .here heap (.give (.list rfl))

/-- Going on with the right parts that wait. -/
theorem crossStep_follows (graph : TypeGraph) (heap : Heap context busy meaning store)
    {consumer : LazyConfig.Consumer} {named : Consumer}
    (consumes : ConsumerMirrors meaning consumer named) {pending : List ThunkId}
    {promises : List Promise} (stand : AllStand meaning pending promises) :
    Follows context busy meaning meter stack
      (Context.crossStep graph store meter pending consumer stack)
      (advanceTurn graph (promises.map .joint) named) := by
  cases stand with
  | nil => exact consumeStep_follows graph heap consumes .none ⟨[], [], rfl, .nil, rfl⟩
  | cons right others => exact .waits heap (.spine others consumes) (.force right)

/-- A step along a list whose front is no join. -/
theorem advanceStep_follows (graph : TypeGraph) (heap : Heap context busy meaning store)
    {cursor : Cursor} {segments : List Segment} (ahead : CursorMirrors meaning cursor segments)
    (flat : ∀ left right, cursor.front ≠ .concat left right)
    {consumer : LazyConfig.Consumer} {named : Consumer}
    (consumes : ConsumerMirrors meaning consumer named) :
    Follows context busy meaning meter stack
      (Context.advanceStep graph store meter cursor consumer stack)
      (advanceTurn graph segments named) := by
  obtain ⟨front, pending⟩ := cursor
  obtain ⟨stretches, promises, listed, stand, rfl⟩ := ahead
  cases front with
  | elems items start =>
    obtain ⟨elements, elements_stand, rfl⟩ := listed
    simp only [Context.advanceStep]
    cases found : items[start]? with
    | some id =>
      -- The element in front is the first of those from the start position on.
      rw [LazyList.drop_of_getElem? found] at elements_stand
      obtain _ | ⟨first, others⟩ := elements_stand
      exact consumeStep_follows graph heap consumes (.some first)
        ⟨_, promises, ⟨_, others, rfl⟩, stand, rfl⟩
    | none =>
      -- Nothing is left in front, and the right parts are next.
      have finished : items.toList.drop start = [] := by
        simpa using found
      rw [finished] at elements_stand
      cases elements_stand
      exact crossStep_follows graph heap consumes stand
  | range next stop =>
    obtain rfl : stretches = Segment.span next stop := listed
    simp only [Context.advanceStep, Segment.span]
    split
    · -- An integer of a range gets a place, and by name is the value itself.
      rename_i more
      refine .after (heap.ready (Heap.gives_ready (.int next)) (.int next)) fun after grown left made => ?_
      exact consumeStep_follows graph left (consumes.grow grown) (.some made)
        ⟨_, promises, rfl, stand.grow grown, rfl⟩
    · exact crossStep_follows graph heap consumes stand
  | concat left right => exact absurd rfl (flat left right)

/-- Taking up a value to evaluate all its parts. -/
theorem deepenStep_follows (heap : Heap context busy meaning store)
    {work : List LazyConfig.Value} {named : List Value} {whole : LazyConfig.Value}
    {wholeNamed : Value} (works : WorkMirrors meaning work named)
    (mirrors : ValueMirrors meaning whole wholeNamed) :
    Follows context busy meaning meter stack (Context.deepenStep store meter work whole stack)
      (deepenTurn named wholeNamed) := by
  cases works with
  | nil => exact .here heap (.give mirrors)
  | cons first rest =>
    cases first with
    | list listed => exact .here heap (.advance listed.cursor (.deepen rest mirrors))
    | record entries =>
      -- The fields of a record are walked as a list would be.
      exact .here heap (.advance (ListMirrors.ofFields entries).cursor (.deepen rest mirrors))
    | _ => exact .here heap (.deepen rest mirrors)

/-- Comparing two values. -/
theorem compareStep_follows (heap : Heap context busy meaning store)
    {work : List (LazyConfig.Value × LazyConfig.Value)} {named : List (Value × Value)}
    (pairs : PairsMirror meaning work named) :
    Follows context busy meaning meter stack (Context.compareStep store meter work stack)
      (compareTurn named) := by
  -- A pair of equal scalars is passed; anything else is decided here or part by part.
  have decides : ∀ (same : Bool) {rest : List (LazyConfig.Value × LazyConfig.Value)}
      {restNamed : List (Value × Value)}, PairsMirror meaning rest restNamed →
      Follows context busy meaning meter stack
        ⟨store, meter, if same then .compare rest else .give (.bool false), stack⟩
        (if same then Control.compare restNamed else .give (.bool false)).turn := by
    intro same rest restNamed others
    cases same with
    | true => exact .here heap (.compare others)
    | false => exact .here heap (.give (.bool false))
  cases pairs with
  | nil => exact .here heap (.give (.bool true))
  | @cons pair pairNamed rest restNamed both others =>
    obtain ⟨left, right⟩ := pair
    obtain ⟨leftNamed, rightNamed⟩ := pairNamed
    obtain ⟨leftMirrors, rightMirrors⟩ := both
    dsimp only at leftMirrors rightMirrors
    -- A pair is compared by the kinds of its values, which are the same by name.
    cases leftMirrors with
    | int a => cases rightMirrors <;> first | exact decides _ others | exact .fails heap _ rfl
    | float a => cases rightMirrors <;> first | exact decides _ others | exact .fails heap _ rfl
    | bool a => cases rightMirrors <;> first | exact decides _ others | exact .fails heap _ rfl
    | str a => cases rightMirrors <;> first | exact decides _ others | exact .fails heap _ rfl
    | list listed =>
      cases rightMirrors with
      | list other => exact .here heap (.advance listed.cursor (.compareLeft other.cursor others))
      | closure bound => exact .fails heap _ rfl
      | builtin stand => exact .fails heap _ rfl
      | _ => exact decides false others
    | @record left fields entries =>
      cases rightMirrors with
      | @record right otherFields other =>
        simp only [Context.compareStep, compareTurn]
        -- Records are compared field by field only where they have the same names.
        have leftNames : left.names = fields.map Prod.fst := entries.keys
        have rightNames : right.names = otherFields.map Prod.fst := other.keys
        rw [leftNames, rightNames]
        split
        · exact .here heap (.advance (ListMirrors.ofFields entries).cursor
            (.compareLeft (ListMirrors.ofFields other).cursor others))
        · exact .here heap (.give (.bool false))
      | closure bound => exact .fails heap _ rfl
      | builtin stand => exact .fails heap _ rfl
      | _ => exact decides false others
    | closure bound => cases rightMirrors <;> exact .fails heap _ rfl
    | builtin stand => cases rightMirrors <;> exact .fails heap _ rfl

/-- Giving a value to the frame that waits for it. -/
theorem giveStep_follows (heap : Heap context busy meaning store) {value : LazyConfig.Value}
    {named : Value} (mirrors : ValueMirrors meaning value named) {frame : LazyConfig.Frame}
    {waits : Frame} (frame_mirrors : FrameMirrors meaning frame waits) :
    Follows context busy meaning meter stack (context.giveStep store meter value frame stack)
      (giveTurn context named waits) := by
  cases frame_mirrors with
  | branch bound =>
    cases mirrors with
    | bool test => exact .here heap (.eval bound)
    | _ => exact .fails heap _ rfl
  | @operand arg env outer bound =>
    have suspended := heap.suspendExpr bound arg
    have whole := mirrors
    -- A function binds its argument at once; any other value is applied as a rule of its own.
    cases mirrors with
    | closure inner =>
      exact .of_leaves (suspended.imp fun after grown stands =>
        .eval (.cons ⟨rfl, stands⟩ (EntriesStand.grow grown inner)))
    | _ =>
      exact .of_leaves (suspended.imp fun after grown stands => .apply (whole.grow grown) stands)
  | thenEval bound => exact .here heap (.eval bound)
  | thenForce stands => exact .here heap (.force stands)
  | deepen => exact .here heap (.deepen (.cons mirrors .nil) mirrors)
  | logicLeft bound =>
    cases mirrors with
    | bool left =>
      simp only [Context.giveStep, giveTurn]
      split
      · exact .here heap (.give (.bool left))
      · exact .waits heap .logicRight (.enter bound)
    | _ => exact .fails heap _ rfl
  | logicRight =>
    cases mirrors with
    | bool right => exact .here heap (.give (.bool right))
    | _ => exact .fails heap _ rfl
  | @concatLeft right env outer bound =>
    cases mirrors with
    | list listed =>
      exact .of_leaves ((heap.suspendExpr bound right).imp fun after grown stands =>
        .give (.list ⟨_, _, listed.grow grown, stands, rfl⟩))
    | _ => exact .fails heap _ rfl
  | operandLeft bound => exact .waits heap (.operandRight mirrors) (.enter bound)
  | operandRight left => exact .here heap (.operate left mirrors)
  | unary op =>
    simp only [Context.giveStep, giveTurn, unary_outer op mirrors]
    exact .here heap (unary_plain op).control
  | negate =>
    have whole := mirrors
    cases mirrors with
    | bool same => exact .here heap (.give (.bool _))
    | _ => exact .here heap (.give whole)
  | select name =>
    cases mirrors with
    | @record record fields entries =>
      have found := entries.lookup (context.names.lookup name)
      simp only [Context.giveStep, giveTurn, Record.get?]
      generalize record.entries.lookup (context.names.lookup name) = first at found ⊢
      generalize fields.lookup (context.names.lookup name) = second at found ⊢
      cases found with
      | some stands =>
        -- The field's name is only noted; nothing waits for it by name.
        exact ⟨rfl, [.note name], rfl, .same heap ⟨.note name .nil, .force stands⟩⟩
      | none => exact .fails heap _ rfl
    | _ => exact .fails heap _ rfl
  | ascribe type path =>
    have checked := heap.check context.names context.annotations.graph mirrors type path
    exact .of_leaves (checked.imp fun _ _ results => results.control)
  | args stand =>
    cases stand with
    | nil => exact .here heap (.give mirrors)
    | cons arg rest => exact .waits heap (.args rest) (.apply mirrors arg)
  | mapOver stands =>
    cases mirrors with
    | record entries =>
      exact .of_leaves ((heap.mapFields stands entries).imp fun _ _ mapped => .give (.record mapped))
    | _ => exact .fails heap _ rfl
  | fieldNames =>
    cases mirrors with
    | record entries =>
      exact .of_leaves ((heap.fieldsOf entries).imp fun _ _ listed => .give (.list listed))
    | _ => exact .fails heap _ rfl
  | fieldName stands =>
    cases mirrors with
    | str name => exact .waits heap (.fieldOwner name) (.force stands)
    | _ => exact .fails heap _ rfl
  | fieldOwner name =>
    cases mirrors with
    | @record record fields entries =>
      -- A record has a field by name if and only if it has the field.
      have contains : record.contains name = (fields.lookup name).isSome :=
        entries.isSome_lookup name
      simp only [Context.giveStep, giveTurn, contains]
      exact .here heap (.give (.bool _))
    | _ => exact .fails heap _ rfl
  | walk op consumes =>
    cases mirrors with
    | list listed => exact .here heap (.advance listed.cursor consumes)
    | _ => exact .fails heap _ rfl
  | indexed stands =>
    cases mirrors with
    | list listed => exact .waits heap (.index listed) (.force stands)
    | _ => exact .fails heap _ rfl
  | index listed =>
    simp only [Context.giveStep, giveTurn, asInteger_outer mirrors]
    cases named.outer.asInteger? with
    | some index =>
      dsimp only
      split
      · exact .here heap (.advance listed.cursor (.outOfBounds index 0))
      · exact .here heap (.advance listed.cursor (.elemAt index _ listed))
    | none => exact .fails heap (.badIndex _) rfl
  | bound =>
    simp only [Context.giveStep, giveTurn, asInteger_outer mirrors]
    cases named.outer.asInteger?.filter fun bound => decide (0 ≤ bound) with
    | some bound => exact .here heap (.give (.list (show ListMirrors meaning (.upTo bound) _ from rfl)))
    | none => exact .fails heap (.badBound _) rfl
  | kindTest kind =>
    simp only [Context.giveStep, giveTurn, mirrors.kind]
    exact .here heap (.give (.bool _))
  | spine stand consumes =>
    cases mirrors with
    | list listed =>
      exact .here heap (.advance ⟨_, _, listed, stand, rfl⟩ consumes)
    -- The failure still passes the frame of the walk, on both sides.
    | _ => exact .waits heap (.spine stand consumes) (.fail (.notAList .concatRight _) rfl)
  | deepItem ahead works whole =>
    exact .here heap (.advance ahead (.deepen (.cons mirrors works) whole))
  | compareItemLeft stands lefts rights pairs =>
    exact .waits heap (.compareItemRight mirrors lefts rights pairs) (.force stands)
  | compareItemRight left lefts rights pairs =>
    exact .here heap (.advance lefts (.compareLeft rights (.cons ⟨left, mirrors⟩ pairs)))

end

end LazyConfig.ByName
