import LazyConfig.Proofs.Machine.Frames
import LazyConfig.Proofs.Twins.Texts

/-!
The rules of the evaluator on two stores of paired computations. Both take the same rule, and go on or fail
in the same way.
-/

namespace LazyConfig

/-- States of two stores of paired computations that have come equally far. -/
structure TwinState (pairs : Pairing) (state other : State) : Prop where
  stores : Twins pairs state.store other.store
  meter : other.meter = state.meter
  control : ControlTwin pairs state.control other.control
  stack : StackTwin pairs state.stack other.stack

/-- What is reached in the one store is reached in the other, for more pairs. -/
def TwinStates (pairs : Pairing) (right : Store) (after later : State) : Prop :=
  ∃ more, pairs.Grows right more later.store ∧ TwinState more after later

variable {context : Context} {pairs : Pairing} {left right : Store} {meter : DepthMeter}
  {stack others : List Frame}

namespace TwinStates

/-- A rule that works on the stores and goes on without waiting. -/
theorem of_after {after later : Store} {control other : Control} (frames : StackTwin pairs stack others)
    (stores : TwinsAfter pairs right after later fun more => ControlTwin more control other) :
    TwinStates pairs right ⟨after, meter, control, stack⟩ ⟨later, meter, other, others⟩ := by
  obtain ⟨more, grows, twins, same⟩ := stores
  exact ⟨more, grows, twins, rfl, same, StackTwin.mono grows.keeps frames⟩

/-- A rule that goes on without waiting. -/
theorem here (twins : Twins pairs left right) (frames : StackTwin pairs stack others)
    {control other : Control} (same : ControlTwin pairs control other) :
    TwinStates pairs right ⟨left, meter, control, stack⟩ ⟨right, meter, other, others⟩ :=
  .of_after frames (.same twins same)

/-- A rule that waits on one frame. -/
theorem waits (twins : Twins pairs left right) (frames : StackTwin pairs stack others)
    {frame waiting : Frame} (top : FrameTwin pairs frame waiting) {control other : Control}
    (same : ControlTwin pairs control other) :
    TwinStates pairs right ⟨left, meter, control, frame :: stack⟩
      ⟨right, meter, other, waiting :: others⟩ :=
  here twins (.cons top frames) same

/-- A rule that fails for the same cause in both stores. -/
theorem fails (twins : Twins pairs left right) (frames : StackTwin pairs stack others) {fault : Fault} :
    TwinStates pairs right ⟨left, meter, .fail fault, stack⟩ ⟨right, meter, .fail fault, others⟩ :=
  here twins frames (.raise _)

/-- A rule after an operation on both stores. -/
theorem after {middle next : Store} {holds : Pairing → Prop} {state later : State}
    (first : TwinsAfter pairs right middle next holds)
    (then_twins : ∀ more, pairs.Grows right more next → Twins more middle next → holds more →
      TwinStates more next state later) : TwinStates pairs right state later := by
  obtain ⟨more, grows, twins, true⟩ := first
  obtain ⟨last, further, result⟩ := then_twins more grows twins true
  exact ⟨last, grows.trans further, result⟩

/-- The results of an operation, or its failures. -/
theorem of_result {after later : Store} {result other : Except Fault Value}
    (frames : StackTwin pairs stack others)
    (stores : TwinsAfter pairs right after later fun more => ResultTwin (ValueTwin more) result other) :
    TwinStates pairs right ⟨after, meter, .ofResult result, stack⟩
      ⟨later, meter, .ofResult other, others⟩ := by
  refine .of_after frames (stores.imp fun more _ same => ?_)
  cases same with
  | ok same => exact .give same
  | error fault => exact .raise _

end TwinStates

open TwinStates

/-! Operators, which look at the outermost form of their operands only. -/

section

variable {first second : Value} {value other : Value}

/-- A value without parts is the same in all stores. -/
def Value.isScalar : Value → Bool
  | .int _ | .float _ | .bool _ | .str _ => true
  | _ => false

theorem ValueTwin.of_isScalar (scalar : value.isScalar = true) : ValueTwin pairs value value := by
  cases value with
  | int value => exact .int value
  | float value => exact .float value
  | bool value => exact .bool value
  | str text => exact .str text
  | _ => cases scalar

/-- A result without parts is the same in all stores. -/
theorem ResultTwin.of_isScalar {result : Except Fault Value}
    (scalar : ∀ value, result = .ok value → value.isScalar = true) :
    ResultTwin (ValueTwin pairs) result result := by
  cases result with
  | ok value => exact .ok (.of_isScalar (scalar value rfl))
  | error fault => exact .error fault

theorem arithmetic_twin (op : BinaryOp) (lefts : ValueTwin pairs value first)
    (rights : ValueTwin pairs other second) : op.arithmetic value other = op.arithmetic first second := by
  cases lefts <;> cases rights <;> rfl

theorem order_twin (op : BinaryOp) (lefts : ValueTwin pairs value first)
    (rights : ValueTwin pairs other second) : op.order value other = op.order first second := by
  cases lefts <;> cases rights <;> rfl

theorem unary_twin (op : UnaryOp) (same : ValueTwin pairs value first) :
    op.apply value = op.apply first := by
  cases op <;> cases same <;> rfl

/-- A result that is made from something else. -/
theorem isScalar_of_map {α : Type} {found : Except Fault α} {make : α → Value}
    (scalar : ∀ part, (make part).isScalar = true) {result : Value}
    (passed : found.map make = .ok result) : result.isScalar = true := by
  cases found with
  | error fault => cases passed
  | ok part =>
    cases passed
    exact scalar part

/-- Arithmetic gives numbers. -/
theorem arithmetic_isScalar {op : BinaryOp} {result : Value}
    (passed : op.arithmetic value other = .ok result) : result.isScalar = true := by
  unfold BinaryOp.arithmetic at passed
  split at passed
  · exact isScalar_of_map (fun _ => rfl) passed
  · split at passed
    · exact isScalar_of_map (fun _ => rfl) passed
    · cases passed

/-- An operator before an operand gives a value without parts. -/
theorem unary_isScalar {op : UnaryOp} {result : Value} (passed : op.apply value = .ok result) :
    result.isScalar = true := by
  -- Every result that an operator has is a number or a truth value.
  unfold UnaryOp.apply at passed
  split at passed
  · cases passed
    rfl
  · split at passed
    · cases passed
      rfl
    · cases passed
  · cases passed
    rfl
  · cases passed
  · cases passed

end

/-! The rules, one by one. -/

section

variable (twins : Twins pairs left right) (frames : StackTwin pairs stack others)
include twins frames

/-- A primitive holds the arguments that it is written with, and runs once it has all of them. -/
theorem heldStep_twins (op : Builtin) (args : List ExprId) {env bound : Env}
    (binds : EnvTwin pairs env bound) :
    TwinStates pairs right
      (if op.arity < args.length then
        ⟨left, meter, .fail (.tooManyArguments op args.length), stack⟩
      else if (context.suspendAll env args left).1.length < op.arity then
        ⟨(context.suspendAll env args left).2, meter,
          .give (.builtin op (context.suspendAll env args left).1), stack⟩
      else
        ⟨(context.suspendAll env args left).2, meter,
          .run op (context.suspendAll env args left).1, stack⟩)
      (if op.arity < args.length then
        ⟨right, meter, .fail (.tooManyArguments op args.length), others⟩
      else if (context.suspendAll bound args right).1.length < op.arity then
        ⟨(context.suspendAll bound args right).2, meter,
          .give (.builtin op (context.suspendAll bound args right).1), others⟩
      else
        ⟨(context.suspendAll bound args right).2, meter,
          .run op (context.suspendAll bound args right).1, others⟩) := by
  -- The arguments are as many in both stores, so that both wait for more or both run.
  split
  · exact fails twins frames
  · have held := twins.suspendAll context binds args
    have length : (context.suspendAll env args left).1.length =
        (context.suspendAll bound args right).1.length := by
      obtain ⟨more, -, -, paired⟩ := held
      exact paired.length_eq
    rw [length]
    split
    · exact .of_after frames (held.imp fun _ _ paired => .give (.builtin paired))
    · exact .of_after frames (held.imp fun _ _ paired => .run op paired)

/-- Evaluating an expression. -/
theorem evalStep_twins (id : ExprId) {env bound : Env} (binds : EnvTwin pairs env bound) :
    TwinStates pairs right (context.evalStep left meter id env stack)
      (context.evalStep right meter id bound others) := by
  unfold Context.evalStep
  -- What an expression goes on with has the same parts in both environments, so each rule has one
  -- twin.
  cases context.code.expr id with
  | int value => exact here twins frames (.give (.int value))
  | float value => exact here twins frames (.give (.float value))
  | str text => exact here twins frames (.give (.str _))
  | bool value => exact here twins frames (.give (.bool value))
  | ident name =>
    have found := binds.lookup name
    dsimp only
    -- A variable is bound in both environments or in neither, which is a failure.
    rw [Env.lookup, Env.lookup]
    generalize env.bindings.lookup name = one at found
    generalize bound.bindings.lookup name = two at found
    cases found with
    | some paired => exact here twins frames (.force paired)
    | none => exact fails twins frames
  -- What is made or put off is added to both stores at the same time, which pairs it.
  | lambda param body =>
    exact .of_after frames ((twins.closure param body binds).imp fun _ _ made => .give made)
  | apply func arg => exact waits twins frames (.operand arg binds) (.enter func binds)
  | letIn name value body =>
    exact .of_after frames ((twins.bindRecursive binds name value).imp fun _ _ inside =>
      .eval body inside)
  | cond test whenTrue whenFalse =>
    exact waits twins frames (.branch whenTrue whenFalse binds) (.enter test binds)
  | binary op first second =>
    cases op with
    | and | or => exact waits twins frames (.logicLeft _ second binds) (.enter first binds)
    | concat => exact waits twins frames (.concatLeft second binds) (.enter first binds)
    | _ => exact waits twins frames (.operandLeft _ second binds) (.enter first binds)
  | unary op operand => exact waits twins frames (.unary op) (.enter operand binds)
  | list items =>
    exact .of_after frames ((twins.suspendAll context binds items).imp fun _ _ paired =>
      .give (.list (.ofThunks paired)))
  | record fields =>
    -- The record comes to be a value where its fields are put off, and fails where they are not.
    have empty : RecordTwin pairs .empty .empty := .nil
    exact .of_result frames ((twins.suspendFields context binds fields empty).imp fun _ _ same =>
      same.map .record)
  | field receiver name => exact waits twins frames (.select name) (.enter receiver binds)
  | builtin op args =>
    -- Some primitives evaluate their first argument at once, deeply or not, the others put off all.
    dsimp only
    split
    · exact waits twins frames (.thenEval _ binds) (.enter _ binds)
    · exact waits twins (.cons (.thenEval _ binds) frames) .deepen (.enter _ binds)
    · exact heldStep_twins twins frames op args binds
  | ascribe value type =>
    dsimp only
    cases context.annotations.get? type with
    | some resolved => exact waits twins frames (.ascribe resolved .root) (.enter value binds)
    | none => exact fails twins frames
  | aliases defs body => exact here twins frames (.eval body binds)

/-- Entering a level. -/
theorem enterStep_twins (id : ExprId) {env bound : Env} (binds : EnvTwin pairs env bound) :
    TwinStates pairs right (Context.enterStep left meter id env stack)
      (Context.enterStep right meter id bound others) := by
  unfold Context.enterStep
  split
  · exact waits twins frames .leave (.eval id binds)
  · exact fails twins frames

/-- Starting the work of a suspended computation. -/
theorem resumeStep_twins {work other : Suspension} (same : SuspensionTwin pairs work other) :
    TwinState pairs (Context.resumeStep left meter work stack)
      (Context.resumeStep right meter other others) := by
  cases same with
  | expr binds => exact ⟨twins, rfl, .enter _ binds, frames⟩
  | apply func args => exact ⟨twins, rfl, .force func, .cons (.args args) frames⟩
  | check type path inner => exact ⟨twins, rfl, .force inner, .cons (.ascribe type path) frames⟩
  | checkList elem path index source =>
    exact ⟨twins, rfl, .advance source.cursor (.checkCell elem path index), frames⟩

/-- Asking for the outcome of a computation. -/
theorem forceStep_twins {id other : ThunkId} (paired : pairs id other) :
    TwinStates pairs right (Context.forceStep left meter id stack)
      (Context.forceStep right meter other others) := by
  -- Paired computations are in the same state of their work.
  have cells := twins.cells id other paired
  unfold Context.forceStep
  generalize left.cell id = cell at cells
  generalize right.cell other = image at cells
  cases cells with
  | forced same => exact here twins frames (.give same)
  | failed failure => exact here twins frames (.raise _)
  | inProgress => exact fails twins frames
  | suspended same =>
    obtain ⟨grows, started⟩ := twins.set paired .inProgress
    -- Once both computations are marked as started, their work starts, to settle both when it ends.
    refine ⟨pairs, ?_, resumeStep_twins started (.cons (.update paired) frames) same⟩
    cases same <;> exact grows

/-- Applying a value. -/
theorem applyStep_twins {func applied : Value} (same : ValueTwin pairs func applied)
    {arg other : ThunkId} (paired : pairs arg other) :
    TwinStates pairs right (Context.applyStep left meter func arg stack)
      (Context.applyStep right meter applied other others) := by
  -- A function, a primitive and a function of the host are applied by rules of their own; nothing
  -- else is.
  cases same with
  | closure binds => exact here twins frames (.enter _ (binds.bind paired _))
  | @builtin op held images same =>
    have all : List.Forall₂ pairs (held ++ [arg]) (images ++ [other]) :=
      List.rel_append same (.cons paired .nil)
    -- As many arguments are missing in the one as in the other.
    have missing : op.missing (images ++ [other]) = op.missing (held ++ [arg]) := by
      rw [Builtin.missing, Builtin.missing, all.length_eq]
    simp only [Context.applyStep, missing]
    split
    · exact here twins frames (.run op all)
    · exact here twins frames (.give (.builtin all))
  | host function => exact waits twins frames (.hostArgument function) (.force paired)
  | _ => exact fails twins frames

/-- Running a primitive. -/
theorem runStep_twins (op : Builtin) {args images : List ThunkId}
    (same : List.Forall₂ pairs args images) :
    TwinStates pairs right (Context.runStep left meter op args stack)
      (Context.runStep right meter op images others) := by
  -- The number of arguments decides between the rule of the primitive and a failure.
  have count := same.length_eq
  rcases same with _ | ⟨first, _ | ⟨second, _ | ⟨third, rest⟩⟩⟩
  · cases op <;> exact fails twins frames
  · cases op with
    | fieldsOf => exact waits twins frames .fieldNames (.force first)
    | head => exact waits twins frames (.walk _ .head) (.force first)
    | tail => exact waits twins frames (.walk _ .tail) (.force first)
    | length => exact waits twins frames (.walk _ (.count 0)) (.force first)
    | range => exact waits twins frames .bound (.force first)
    | isNum | isStr | isBool | isList | isRecord | isFun =>
      exact waits twins frames (.kindTest _) (.force first)
    | _ => exact fails twins frames
  · cases op with
    | map => exact waits twins frames (.mapOver first) (.force second)
    | hasField => exact waits twins frames (.fieldName second) (.force first)
    | elemAt => exact waits twins frames (.indexed second) (.force first)
    | seq => exact waits twins frames (.thenForce second) (.force first)
    | deepSeq => exact waits twins (.cons (.thenForce second) frames) .deepen (.force first)
    | _ => exact fails twins frames
  · cases op <;> simp only [Context.runStep, count] <;> exact fails twins frames

/-- Applying a strict operator. -/
theorem operateStep_twins (op : BinaryOp) {value other first second : Value}
    (lefts : ValueTwin pairs value first) (rights : ValueTwin pairs other second) :
    TwinStates pairs right (Context.operateStep left meter op value other stack)
      (Context.operateStep right meter op first second others) := by
  cases op with
  | eq => exact here twins frames (.compare (.cons ⟨lefts, rights⟩ .nil))
  | ne => exact waits twins frames .negate (.compare (.cons ⟨lefts, rights⟩ .nil))
  -- The outermost forms are the same, and so is what comes out, which has no parts.
  | add | sub | mul | div | rem =>
    simp only [Context.operateStep, ← arithmetic_twin _ lefts rights]
    -- An operator reads numbers alone, and they are the same on both sides.
    exact .of_result frames (.same twins (.of_isScalar fun _ => arithmetic_isScalar))
  | lt | le | gt | ge =>
    simp only [Context.operateStep, ← order_twin _ lefts rights]
    exact .of_result frames (.same twins (.of_isScalar fun _ => isScalar_of_map fun _ => rfl))
  -- These look at the kinds of both operands, which agree on both sides.
  | append =>
    cases lefts with
    | str a =>
      cases rights with
      | str b => exact here twins frames (.give (.str _))
      | _ => exact fails twins frames
    | _ => cases rights <;> exact fails twins frames
  | and | or =>
    cases lefts with
    | bool a =>
      cases rights with
      | bool b => exact here twins frames (.give (.bool _))
      | _ => exact fails twins frames
    | _ => cases rights <;> exact fails twins frames
  | concat =>
    cases lefts with
    | list items =>
      exact .of_after frames ((twins.ready rights).imp fun more grows paired =>
        .give (.list (.concat (items.mono grows.keeps) paired)))
    | _ => exact fails twins frames

/-- Handing an element to a consumer. -/
theorem consumeStep_twins {graph : TypeGraph} {consumer purpose : Consumer}
    (same : ConsumerTwin pairs consumer purpose)
    {item image : Option ThunkId} (element : Option.Rel pairs item image) {rest ahead : Cursor}
    (cursors : CursorTwin pairs rest ahead) :
    TwinStates pairs right (Context.consumeStep graph left meter consumer item rest stack)
      (Context.consumeStep graph right meter purpose image ahead others) := by
  -- What a consumer does depends on whether there is an element, which is the same for both lists.
  cases same with
  | head =>
    cases element with
    | some paired => exact here twins frames (.force paired)
    | none => exact fails twins frames
  | tail =>
    cases element with
    | some paired => exact here twins frames (.give (.list cursors.rest))
    | none => exact fails twins frames
  | count passed =>
    cases element with
    | some paired => exact here twins frames (.advance cursors (.count _))
    | none =>
      simp only [Context.consumeStep]
      split
      · exact here twins frames (.give (.int _))
      · exact fails twins frames
  | elemAt index ahead list =>
    cases element with
    | some paired =>
      cases ahead with
      | zero => exact here twins frames (.force paired)
      | succ ahead => exact here twins frames (.advance cursors (.elemAt index ahead list))
    -- The list is walked anew, only to tell how long it is.
    | none => cases ahead <;> exact here twins frames (.advance list.cursor (.outOfBounds index 0))
  | outOfBounds index passed =>
    cases element with
    | some paired => exact here twins frames (.advance cursors (.outOfBounds index _))
    | none => exact fails twins frames
  | deepen works whole =>
    cases element with
    | some paired => exact waits twins frames (.deepItem cursors works whole) (.force paired)
    | none => exact here twins frames (.deepen works whole)
  | compareLeft ahead works =>
    cases element with
    -- An element of the left list is kept while the other list goes on by one.
    | some paired =>
      exact here twins frames (.advance ahead (.compareRight (.some paired) cursors works))
    | none => exact here twins frames (.advance ahead (.compareRight .none cursors works))
  | compareRight first ahead works =>
    cases first with
    | some first =>
      cases element with
      | some second =>
        exact waits twins frames (.compareItemLeft second ahead cursors works) (.force first)
      -- One list has ended before the other, so that they are not equal.
      | none => exact here twins frames (.give (.bool false))
    | none =>
      cases element with
      | some second => exact here twins frames (.give (.bool false))
      | none => exact here twins frames (.compare works)
  | checkCell elem path index =>
    cases element with
    | some paired =>
      exact .of_after frames ((twins.checkCell graph paired cursors.rest elem path index).imp
        fun _ _ same => .give same)
    | none => exact here twins frames (.give (.list (.range 0 0)))

/-- Going on with the right parts that wait. -/
theorem crossStep_twins {graph : TypeGraph} {consumer purpose : Consumer}
    (same : ConsumerTwin pairs consumer purpose)
    {pending images : List ThunkId} (paired : List.Forall₂ pairs pending images) :
    TwinStates pairs right (Context.crossStep graph left meter pending consumer stack)
      (Context.crossStep graph right meter images purpose others) := by
  cases paired with
  | nil => exact consumeStep_twins twins frames same .none (.before .nil)
  | cons first rest => exact waits twins frames (.spine rest same) (.force first)

/-- A step along a list. -/
theorem advanceStep_twins {graph : TypeGraph} {cursor other : Cursor}
    (cursors : CursorTwin pairs cursor other) {consumer purpose : Consumer}
    (same : ConsumerTwin pairs consumer purpose) :
    TwinStates pairs right (Context.advanceStep graph left meter cursor consumer stack)
      (Context.advanceStep graph right meter other purpose others) := by
  obtain ⟨front, pending⟩ := cursor
  obtain ⟨first, images⟩ := other
  obtain ⟨fronts, paired⟩ := cursors
  dsimp only at fronts paired
  cases fronts with
  | @elems items elements start listed =>
    -- The elements at the same position are paired, where there are any.
    have item := paired_getElem? listed start
    simp only [Context.advanceStep]
    generalize items[start]? = one at item
    generalize elements[start]? = two at item
    cases item with
    | some here => exact consumeStep_twins twins frames same (.some here) ⟨.elems _ listed, paired⟩
    | none => exact crossStep_twins twins frames same paired
  | range next stop =>
    simp only [Context.advanceStep]
    split
    · -- An integer of a range gets a place when it is passed.
      refine .after (twins.ready (.int next)) fun more grows between made => ?_
      exact consumeStep_twins between (StackTwin.mono grows.keeps frames) (same.mono grows.keeps)
        (.some made) ⟨.range _ stop, paired_mono grows.keeps paired⟩
    · exact crossStep_twins twins frames same paired
  -- The second part is left for later, and the walk goes on in the first one.
  | concat front back => exact here twins frames (.advance ⟨front, .cons back paired⟩ same)

/-- Taking up a value to evaluate all its parts. -/
theorem deepenStep_twins {work images : List Value} {whole other : Value}
    (works : WorkTwin pairs work images) (same : ValueTwin pairs whole other) :
    TwinStates pairs right (Context.deepenStep left meter work whole stack)
      (Context.deepenStep right meter images other others) := by
  cases works with
  | nil => exact here twins frames (.give same)
  | cons first rest =>
    cases first with
    | list items => exact here twins frames (.advance items.cursor (.deepen rest same))
    | record fields =>
      -- The fields of a record are walked as a list would be.
      exact here twins frames (.advance (ListTwin.ofThunks fields.values).cursor (.deepen rest same))
    | _ => exact here twins frames (.deepen rest same)

/-- Comparing two values. -/
theorem compareStep_twins {work images : List (Value × Value)} (works : PairsTwin pairs work images) :
    TwinStates pairs right (Context.compareStep left meter work stack)
      (Context.compareStep right meter images others) := by
  -- A pair of equal scalars is passed; anything else is decided here or part by part.
  have decides (same : Bool) {rest remaining : List (Value × Value)}
      (works : PairsTwin pairs rest remaining) : TwinStates pairs right
        ⟨left, meter, if same then .compare rest else .give (.bool false), stack⟩
        ⟨right, meter, if same then .compare remaining else .give (.bool false), others⟩ := by
    cases same with
    | true => exact here twins frames (.compare works)
    | false => exact here twins frames (.give (.bool false))
  cases works with
  | nil => exact here twins frames (.give (.bool true))
  | @cons pair image rest remaining both more =>
    obtain ⟨first, second⟩ := pair
    obtain ⟨one, two⟩ := image
    obtain ⟨lefts, rights⟩ := both
    dsimp only at lefts rights
    -- Two values are compared by their kinds, and twins are of one kind.
    cases lefts with
    | int a => cases rights <;> first | exact decides _ more | exact fails twins frames
    | float a => cases rights <;> first | exact decides _ more | exact fails twins frames
    | bool a => cases rights <;> first | exact decides _ more | exact fails twins frames
    | str a => cases rights <;> first | exact decides _ more | exact fails twins frames
    | list items =>
      cases rights with
      | list elements => exact here twins frames (.advance items.cursor (.compareLeft elements.cursor more))
      | closure | builtin | host => exact fails twins frames
      | _ => exact decides false more
    | @record fields images same =>
      cases rights with
      | @record entries parts agree =>
        simp only [Context.compareStep]
        -- Records are compared field by field only where they have the same names.
        have lefts : fields.names = images.names := same.keys
        have rights : entries.names = parts.names := agree.keys
        rw [lefts, rights]
        split
        · exact here twins frames (.advance (ListTwin.ofThunks same.values).cursor
            (.compareLeft (ListTwin.ofThunks agree.values).cursor more))
        · exact here twins frames (.give (.bool false))
      | closure | builtin | host => exact fails twins frames
      | _ => exact decides false more
    | closure => cases rights <;> exact fails twins frames
    | builtin => cases rights <;> exact fails twins frames
    | host => cases rights <;> exact fails twins frames

/-- What a function of the host answers. -/
theorem answerStep_twins (function : HostFunction) {value other : Value}
    (same : ValueTwin pairs value other) (shown : String) :
    TwinStates pairs right (Context.answerStep left meter function value shown stack)
      (Context.answerStep right meter function other shown others) := by
  obtain ⟨grows, noted⟩ := twins.record ⟨function.name, shown⟩ ⟨function.name, shown⟩
  have stores : TwinsAfter pairs right (left.record ⟨function.name, shown⟩)
      (right.record ⟨function.name, shown⟩) fun more => more = pairs := ⟨pairs, grows, noted, rfl⟩
  unfold Context.answerStep
  refine .after stores fun more _ noted same_pairs => ?_
  obtain rfl := same_pairs
  cases function.response with
  | argument => exact here noted frames (.give same)
  | refusal => exact fails noted frames
  | panic => exact here noted frames (.raise _)
  | kindName =>
    dsimp only
    rw [same.kind]
    exact here noted frames (.give (.str _))
  | singleton =>
    exact .of_after frames ((noted.ready same).imp fun _ _ paired =>
      .give (.list (.ofThunks (.cons paired .nil))))

/-- Giving a value to the frame that waits for it. -/
theorem giveStep_twins {value other : Value} (same : ValueTwin pairs value other)
    {frame waiting : Frame} (top : FrameTwin pairs frame waiting) :
    TwinStates pairs right (context.giveStep left meter value frame stack)
      (context.giveStep right meter other waiting others) := by
  -- What waits in one stack waits in the other, and its parts are paired with the parts of the
  -- twin.
  cases top with
  | leave => exact here twins frames (.give same)
  | @update id image paired =>
    -- The two computations are settled together, each with the value that its store gives.
    obtain ⟨grows, settled⟩ := twins.set paired (.forced same)
    have stores : TwinsAfter pairs right (left.set id (.forced value)) (right.set image (.forced other))
        fun more => ControlTwin more (.give value) (.give other) :=
      ⟨pairs, grows, settled, .give same⟩
    exact .of_after frames stores
  | branch whenTrue whenFalse binds =>
    cases same with
    | bool test => exact here twins frames (.eval _ binds)
    | _ => exact fails twins frames
  | operand arg binds =>
    have stores := twins.suspendExpr context binds arg
    have whole := same
    -- A function binds its argument at once; any other value is applied as a rule of its own.
    cases same with
    | closure inner =>
      exact .of_after frames (stores.imp fun more grows paired =>
        .eval _ (EnvTwin.bind (agree_mono grows.keeps inner) paired _))
    | _ =>
      exact .of_after frames (stores.imp fun _ grows paired =>
        .apply (whole.mono grows.keeps) paired)
  | thenEval body binds => exact here twins frames (.eval body binds)
  | thenForce paired => exact here twins frames (.force paired)
  | deepen => exact here twins frames (.deepen (.cons same .nil) same)
  | logicLeft op operand binds =>
    cases same with
    | bool truth =>
      simp only [Context.giveStep]
      split
      · exact here twins frames (.give (.bool truth))
      · exact waits twins frames .logicRight (.enter operand binds)
    | _ => exact fails twins frames
  -- A frame that takes one kind of value fails on both sides for all others.
  | logicRight =>
    cases same with
    | bool truth => exact here twins frames (.give (.bool truth))
    | _ => exact fails twins frames
  | concatLeft operand binds =>
    cases same with
    | list items =>
      exact .of_after frames ((twins.suspendExpr context binds operand).imp fun _ grows paired =>
        .give (.list (.concat (items.mono grows.keeps) paired)))
    | _ => exact fails twins frames
  | operandLeft op operand binds =>
    exact waits twins frames (.operandRight op same) (.enter operand binds)
  | operandRight op first => exact here twins frames (.operate op first same)
  | unary op =>
    simp only [Context.giveStep, ← unary_twin op same]
    exact .of_result frames (.same twins (.of_isScalar fun _ => unary_isScalar))
  | negate =>
    have whole := same
    cases same with
    | bool truth => exact here twins frames (.give (.bool _))
    | _ => exact here twins frames (.give whole)
  | select name =>
    cases same with
    | @record fields images same =>
      -- A field is found in both records or in neither.
      have found := same.lookup (context.names.lookup name)
      simp only [Context.giveStep, Record.get?]
      generalize fields.entries.lookup (context.names.lookup name) = one at found
      generalize images.entries.lookup (context.names.lookup name) = two at found
      cases found with
      | some paired => exact waits twins frames (.note name) (.force paired)
      | none => exact fails twins frames
    | _ => exact fails twins frames
  | note name => exact here twins frames (.give same)
  | ascribe type path =>
    exact .of_result frames (twins.check context.annotations.graph context.names same type path)
  | args rest =>
    cases rest with
    | nil => exact here twins frames (.give same)
    | cons first rest => exact waits twins frames (.args rest) (.apply same first)
  | hostArgument function =>
    simp only [Context.giveStep, twins.quoted same]
    exact answerStep_twins twins frames function same _
  | mapOver paired =>
    cases same with
    | record fields =>
      exact .of_after frames ((twins.mapFields paired fields).imp fun _ _ mapped =>
        .give (.record mapped))
    | _ => exact fails twins frames
  | fieldNames =>
    cases same with
    | record fields =>
      exact .of_after frames ((twins.fieldsOf fields).imp fun _ _ names => .give (.list names))
    | _ => exact fails twins frames
  | fieldName paired =>
    cases same with
    | str name => exact waits twins frames (.fieldOwner name) (.force paired)
    | _ => exact fails twins frames
  | fieldOwner name =>
    cases same with
    | @record fields images same =>
      have contains : fields.contains name = images.contains name := same.isSome_lookup name
      simp only [Context.giveStep, contains]
      exact here twins frames (.give (.bool _))
    | _ => exact fails twins frames
  | walk op consumer =>
    -- A frame with a list starts or goes on with a walk, at the same position of both lists.
    cases same with
    | list items => exact here twins frames (.advance items.cursor consumer)
    | _ => exact fails twins frames
  | indexed paired =>
    cases same with
    | list items => exact waits twins frames (.index items) (.force paired)
    | _ => exact fails twins frames
  | index list =>
    simp only [Context.giveStep, same.asInteger?, twins.quoted same]
    cases other.asInteger? with
    | some index =>
      dsimp only
      split
      · exact here twins frames (.advance list.cursor (.outOfBounds index 0))
      · exact here twins frames (.advance list.cursor (.elemAt index _ list))
    | none => exact fails twins frames
  | bound =>
    simp only [Context.giveStep, same.asInteger?, twins.quoted same]
    cases other.asInteger?.filter fun bound => decide (0 ≤ bound) with
    | some bound => exact here twins frames (.give (.list (.range 0 bound)))
    | none => exact fails twins frames
  | kindTest kind =>
    simp only [Context.giveStep, same.kind]
    exact here twins frames (.give (.bool _))
  | spine paired consumer =>
    cases same with
    | list items => exact here twins frames (.advance ⟨items, paired⟩ consumer)
    -- The frame is kept when the right part turns out to be no list.
    | _ => exact waits twins frames (.spine paired consumer) (.raise _)
  | deepItem cursors works whole =>
    exact here twins frames (.advance cursors (.deepen (.cons same works) whole))
  | compareItemLeft paired lefts rights works =>
    exact waits twins frames (.compareItemRight same lefts rights works) (.force paired)
  | compareItemRight first lefts rights works =>
    exact here twins frames (.advance lefts (.compareLeft rights (.cons ⟨first, same⟩ works)))

/-- Passing a failure up past a frame. -/
theorem raiseStep_twins (upset : Upset) {frame waiting : Frame} (top : FrameTwin pairs frame waiting) :
    TwinStates pairs right (context.raiseStep left meter upset frame stack)
      (context.raiseStep right meter upset waiting others) := by
  cases top with
  | leave => exact here twins frames (.raise upset)
  | update paired =>
    -- The two computations keep the same failure.
    obtain ⟨grows, settled⟩ := twins.set paired (.failed upset.remembered)
    exact ⟨pairs, grows, settled, rfl, .raise upset, frames⟩
  | note name => exact here twins frames (.raise _)
  | spine paired consumer => cases consumer <;> exact here twins frames (.raise upset)
  | _ => exact here twins frames (.raise upset)

end

/-- One step of the evaluator on two stores, as long as something is left to be done. -/
theorem TwinState.step {state other : State} (same : TwinState pairs state other)
    (independent : state.Independent) :
    TwinStates pairs other.store (state.step context) (other.step context) := by
  obtain ⟨store, meter, control, stack⟩ := state
  obtain ⟨image, level, next, others⟩ := other
  obtain ⟨twins, rfl, control, frames⟩ := same
  dsimp only at twins control frames
  cases control with
  | eval body binds => exact evalStep_twins twins frames body binds
  | enter body binds => exact enterStep_twins twins frames body binds
  | force paired => exact forceStep_twins twins frames paired
  | apply func paired => exact applyStep_twins twins frames func paired
  | run op args => exact runStep_twins twins frames op args
  | operate op lefts rights => exact operateStep_twins twins frames op lefts rights
  | advance cursors consumer => exact advanceStep_twins twins frames cursors consumer
  | deepen works whole => exact deepenStep_twins twins frames works whole
  | compare works => exact compareStep_twins twins frames works
  | give given =>
    cases frames with
    | nil => exact absurd rfl independent
    | cons top rest => exact giveStep_twins twins rest given top
  | raise upset =>
    cases frames with
    | nil => exact absurd rfl independent
    | cons top rest => exact raiseStep_twins twins rest upset top

end LazyConfig
