import LazyConfig.Proofs.ByName.Run
import LazyConfig.Proofs.Store.Extension
import LazyConfig.Proofs.Value.Entries

/-!
When the parts of the evaluator with a store stand for those of the evaluator without one. Each
computation of the store has a promise as its meaning, and everything else follows part by part.
-/

namespace LazyConfig.ByName

/-- What each computation of a store is to do, by position. -/
abbrev Meaning := Array Promise

/-- A computation has a promise as its meaning. -/
def Stands (meaning : Meaning) (id : ThunkId) (promise : Promise) : Prop :=
  meaning[id]? = some promise

/-- A meaning that says the same of all computations that were there before. -/
def Grows (before after : Meaning) : Prop :=
  ∀ id promise, Stands before id promise → Stands after id promise

/-- Computations stand for promises, one by one. -/
abbrev AllStand (meaning : Meaning) : List ThunkId → List Promise → Prop :=
  List.Forall₂ (Stands meaning)

/-- Entries of an environment or of a record stand for entries under the same names. -/
abbrev EntriesStand {Key : Type} (meaning : Meaning) :
    List (Key × ThunkId) → List (Key × Promise) → Prop :=
  EntriesAgree (Stands meaning)

/-- A list as a tree stands for the sequence of its stretches. -/
def ListMirrors (meaning : Meaning) : LazyList → List Segment → Prop
  | .elems items start, segments =>
    -- What stands before the start position has been passed.
    ∃ promises, AllStand meaning (items.toList.drop start) promises ∧
      segments = promises.map .item
  | .range next stop, segments => segments = Segment.span next stop
  | .concat left right, segments =>
    ∃ front promise, ListMirrors meaning left front ∧ Stands meaning right promise ∧
      segments = front ++ [.joint promise]

/-- A position in a list stands for the sequence of what comes after it. -/
def CursorMirrors (meaning : Meaning) (cursor : Cursor) (segments : List Segment) : Prop :=
  ∃ front promises, ListMirrors meaning cursor.front front ∧
    AllStand meaning cursor.pending promises ∧ segments = front ++ promises.map .joint

/-- A value stands for a value of the same form. -/
inductive ValueMirrors (meaning : Meaning) : LazyConfig.Value → Value → Prop
  | int (value : Int64) : ValueMirrors meaning (.int value) (.int value)
  | float (value : Float) : ValueMirrors meaning (.float value) (.float value)
  | bool (value : Bool) : ValueMirrors meaning (.bool value) (.bool value)
  | str (text : String) : ValueMirrors meaning (.str text) (.str text)
  | list {items : LazyList} {segments : List Segment} (listed : ListMirrors meaning items segments) :
    ValueMirrors meaning (.list items) (.list segments)
  | record {record : Record} {fields : Fields}
    (entries : EntriesStand meaning record.entries fields) :
    ValueMirrors meaning (.record record) (.record fields)
  | closure {tag : Nat} {param : Name} {body : ExprId} {env : LazyConfig.Env} {named : Env}
    (bound : EntriesStand meaning env.bindings named) :
    ValueMirrors meaning (.closure ⟨tag, param, body, env⟩) (.closure param body named)
  | builtin {op : Builtin} {held : List ThunkId} {promises : List Promise}
    (stand : AllStand meaning held promises) :
    ValueMirrors meaning (.builtin op held) (.builtin op promises)

/-- Values stand for values, one by one. -/
abbrev WorkMirrors (meaning : Meaning) : List LazyConfig.Value → List Value → Prop :=
  List.Forall₂ (ValueMirrors meaning)

/-- Pairs of values stand for pairs of values, one by one. -/
abbrev PairsMirror (meaning : Meaning) :
    List (LazyConfig.Value × LazyConfig.Value) → List (Value × Value) → Prop :=
  List.Forall₂ fun pair named =>
    ValueMirrors meaning pair.1 named.1 ∧ ValueMirrors meaning pair.2 named.2

/--
What a computation was put off for stands for its meaning. The value of a recursive binding is put
off in an environment in which its name stands for the computation itself.
-/
inductive SuspensionMirrors (meaning : Meaning) : Suspension → Promise → Prop
  | expr {body : ExprId} {env : LazyConfig.Env} {named : Env}
    (bound : EntriesStand meaning env.bindings named) :
    SuspensionMirrors meaning (.expr body env) (.expr body named)
  | recursive {name : Name} {body : ExprId} {env : LazyConfig.Env} {named : Env}
    (bound : EntriesStand meaning env.bindings ((name, .recursive name body named) :: named)) :
    SuspensionMirrors meaning (.expr body env) (.recursive name body named)
  | apply {func : ThunkId} {args : List ThunkId} {promise : Promise} {promises : List Promise}
    (func_stands : Stands meaning func promise) (args_stand : AllStand meaning args promises) :
    SuspensionMirrors meaning (.apply func args) (.apply promise promises)
  | check {inner : ThunkId} {promise : Promise} {type : TypeId} {path : Path}
    (stands : Stands meaning inner promise) :
    SuspensionMirrors meaning (.check inner type path) (.check promise type)
  | checkList {source : LazyList} {segments : List Segment} {elem : TypeId} {path : Path}
    {index : Nat} (listed : ListMirrors meaning source segments) :
    SuspensionMirrors meaning (.checkList source elem path index) (.checkList segments elem)

/-- What a walk is for stands for what a walk without a store is for. -/
inductive ConsumerMirrors (meaning : Meaning) : LazyConfig.Consumer → Consumer → Prop
  | head : ConsumerMirrors meaning .head .head
  | tail : ConsumerMirrors meaning .tail .tail
  | count (passed : Nat) : ConsumerMirrors meaning (.count passed) (.count passed)
  | elemAt {list : LazyList} {segments : List Segment} (index : Int64) (ahead : Nat)
    (listed : ListMirrors meaning list segments) :
    ConsumerMirrors meaning (.elemAt list index ahead) (.elemAt segments index ahead)
  | outOfBounds (index : Int64) (passed : Nat) :
    ConsumerMirrors meaning (.outOfBounds index passed) (.outOfBounds index passed)
  | deepen {work : List LazyConfig.Value} {named : List Value} {whole : LazyConfig.Value}
    {wholeNamed : Value} (works : WorkMirrors meaning work named)
    (mirrors : ValueMirrors meaning whole wholeNamed) :
    ConsumerMirrors meaning (.deepen work whole) (.deepen named wholeNamed)
  | compareLeft {right : Cursor} {segments : List Segment}
    {work : List (LazyConfig.Value × LazyConfig.Value)} {named : List (Value × Value)}
    (ahead : CursorMirrors meaning right segments) (pairs : PairsMirror meaning work named) :
    ConsumerMirrors meaning (.compareLeft right work) (.compareLeft segments named)
  | compareRight {left : Option ThunkId} {promise : Option Promise} {rest : Cursor}
    {segments : List Segment} {work : List (LazyConfig.Value × LazyConfig.Value)}
    {named : List (Value × Value)} (stands : Option.Rel (Stands meaning) left promise)
    (ahead : CursorMirrors meaning rest segments) (pairs : PairsMirror meaning work named) :
    ConsumerMirrors meaning (.compareRight left rest work) (.compareRight promise segments named)
  | checkCell (elem : TypeId) (path : Path) (index : Nat) :
    ConsumerMirrors meaning (.checkCell elem path index) (.checkCell elem)

/-- A frame stands for a frame that waits for the same. -/
inductive FrameMirrors (meaning : Meaning) : LazyConfig.Frame → Frame → Prop
  | branch {whenTrue whenFalse : ExprId} {env : LazyConfig.Env} {named : Env}
    (bound : EntriesStand meaning env.bindings named) :
    FrameMirrors meaning (.branch whenTrue whenFalse env) (.branch whenTrue whenFalse named)
  | operand {arg : ExprId} {env : LazyConfig.Env} {named : Env}
    (bound : EntriesStand meaning env.bindings named) :
    FrameMirrors meaning (.operand arg env) (.operand arg named)
  | thenEval {body : ExprId} {env : LazyConfig.Env} {named : Env}
    (bound : EntriesStand meaning env.bindings named) :
    FrameMirrors meaning (.thenEval body env) (.thenEval body named)
  | thenForce {id : ThunkId} {promise : Promise} (stands : Stands meaning id promise) :
    FrameMirrors meaning (.thenForce id) (.thenForce promise)
  | deepen : FrameMirrors meaning .deepen .deepen
  | logicLeft {op : BinaryOp} {right : ExprId} {env : LazyConfig.Env} {named : Env}
    (bound : EntriesStand meaning env.bindings named) :
    FrameMirrors meaning (.logicLeft op right env) (.logicLeft op right named)
  | logicRight : FrameMirrors meaning .logicRight .logicRight
  | concatLeft {right : ExprId} {env : LazyConfig.Env} {named : Env}
    (bound : EntriesStand meaning env.bindings named) :
    FrameMirrors meaning (.concatLeft right env) (.concatLeft right named)
  | operandLeft {op : BinaryOp} {right : ExprId} {env : LazyConfig.Env} {named : Env}
    (bound : EntriesStand meaning env.bindings named) :
    FrameMirrors meaning (.operandLeft op right env) (.operandLeft op right named)
  | operandRight {op : BinaryOp} {left : LazyConfig.Value} {named : Value}
    (mirrors : ValueMirrors meaning left named) :
    FrameMirrors meaning (.operandRight op left) (.operandRight op named)
  | unary (op : UnaryOp) : FrameMirrors meaning (.unary op) (.unary op)
  | negate : FrameMirrors meaning .negate .negate
  | select (name : Name) : FrameMirrors meaning (.select name) (.select name)
  | ascribe (type : TypeId) (path : Path) : FrameMirrors meaning (.ascribe type path) (.ascribe type)
  | args {rest : List ThunkId} {promises : List Promise} (stand : AllStand meaning rest promises) :
    FrameMirrors meaning (.args rest) (.args promises)
  | mapOver {func : ThunkId} {promise : Promise} (stands : Stands meaning func promise) :
    FrameMirrors meaning (.mapOver func) (.mapOver promise)
  | fieldNames : FrameMirrors meaning .fieldNames .fieldNames
  | fieldName {record : ThunkId} {promise : Promise} (stands : Stands meaning record promise) :
    FrameMirrors meaning (.fieldName record) (.fieldName promise)
  | fieldOwner (name : String) : FrameMirrors meaning (.fieldOwner name) (.fieldOwner name)
  | walk (op : Builtin) {consumer : LazyConfig.Consumer} {named : Consumer}
    (consumes : ConsumerMirrors meaning consumer named) :
    FrameMirrors meaning (.walk op consumer) (.walk named)
  | indexed {index : ThunkId} {promise : Promise} (stands : Stands meaning index promise) :
    FrameMirrors meaning (.indexed index) (.indexed promise)
  | index {list : LazyList} {segments : List Segment} (listed : ListMirrors meaning list segments) :
    FrameMirrors meaning (.index list) (.index segments)
  | bound : FrameMirrors meaning .bound .bound
  | kindTest (kind : Kind) : FrameMirrors meaning (.kindTest kind) (.kindTest kind)
  | spine {pending : List ThunkId} {promises : List Promise} {consumer : LazyConfig.Consumer}
    {named : Consumer} (stand : AllStand meaning pending promises)
    (consumes : ConsumerMirrors meaning consumer named) :
    FrameMirrors meaning (.spine pending consumer) (.spine (promises.map .joint) named)
  | deepItem {rest : Cursor} {segments : List Segment} {work : List LazyConfig.Value}
    {named : List Value} {whole : LazyConfig.Value} {wholeNamed : Value}
    (ahead : CursorMirrors meaning rest segments) (works : WorkMirrors meaning work named)
    (mirrors : ValueMirrors meaning whole wholeNamed) :
    FrameMirrors meaning (.deepItem rest work whole) (.deepItem segments named wholeNamed)
  | compareItemLeft {right : ThunkId} {promise : Promise} {lefts rights : Cursor}
    {leftSegments rightSegments : List Segment}
    {work : List (LazyConfig.Value × LazyConfig.Value)} {named : List (Value × Value)}
    (stands : Stands meaning right promise) (leftsAhead : CursorMirrors meaning lefts leftSegments)
    (rightsAhead : CursorMirrors meaning rights rightSegments)
    (pairs : PairsMirror meaning work named) :
    FrameMirrors meaning (.compareItemLeft right lefts rights work)
      (.compareItemLeft promise leftSegments rightSegments named)
  | compareItemRight {left : LazyConfig.Value} {leftNamed : Value} {lefts rights : Cursor}
    {leftSegments rightSegments : List Segment}
    {work : List (LazyConfig.Value × LazyConfig.Value)} {named : List (Value × Value)}
    (mirrors : ValueMirrors meaning left leftNamed)
    (leftsAhead : CursorMirrors meaning lefts leftSegments)
    (rightsAhead : CursorMirrors meaning rights rightSegments)
    (pairs : PairsMirror meaning work named) :
    FrameMirrors meaning (.compareItemRight left lefts rights work)
      (.compareItemRight leftNamed leftSegments rightSegments named)

/-- What is done next stands for what is done next; entering a level is evaluating. -/
inductive ControlMirrors (meaning : Meaning) : LazyConfig.Control → Control → Prop
  | eval {body : ExprId} {env : LazyConfig.Env} {named : Env}
    (bound : EntriesStand meaning env.bindings named) :
    ControlMirrors meaning (.eval body env) (.eval body named)
  | enter {body : ExprId} {env : LazyConfig.Env} {named : Env}
    (bound : EntriesStand meaning env.bindings named) :
    ControlMirrors meaning (.enter body env) (.eval body named)
  | force {id : ThunkId} {promise : Promise} (stands : Stands meaning id promise) :
    ControlMirrors meaning (.force id) (.force promise)
  | apply {func : LazyConfig.Value} {named : Value} {arg : ThunkId} {promise : Promise}
    (mirrors : ValueMirrors meaning func named) (stands : Stands meaning arg promise) :
    ControlMirrors meaning (.apply func arg) (.apply named promise)
  | run {op : Builtin} {args : List ThunkId} {promises : List Promise}
    (stand : AllStand meaning args promises) :
    ControlMirrors meaning (.run op args) (.run op promises)
  | operate {op : BinaryOp} {left right : LazyConfig.Value} {leftNamed rightNamed : Value}
    (leftMirrors : ValueMirrors meaning left leftNamed)
    (rightMirrors : ValueMirrors meaning right rightNamed) :
    ControlMirrors meaning (.operate op left right) (.operate op leftNamed rightNamed)
  | advance {cursor : Cursor} {segments : List Segment} {consumer : LazyConfig.Consumer}
    {named : Consumer} (ahead : CursorMirrors meaning cursor segments)
    (consumes : ConsumerMirrors meaning consumer named) :
    ControlMirrors meaning (.advance cursor consumer) (.advance segments named)
  | deepen {work : List LazyConfig.Value} {named : List Value} {whole : LazyConfig.Value}
    {wholeNamed : Value} (works : WorkMirrors meaning work named)
    (mirrors : ValueMirrors meaning whole wholeNamed) :
    ControlMirrors meaning (.deepen work whole) (.deepen named wholeNamed)
  | compare {work : List (LazyConfig.Value × LazyConfig.Value)} {named : List (Value × Value)}
    (pairs : PairsMirror meaning work named) : ControlMirrors meaning (.compare work) (.compare named)
  | give {value : LazyConfig.Value} {named : Value} (mirrors : ValueMirrors meaning value named) :
    ControlMirrors meaning (.give value) (.give named)
  | raise (failure : EvalError) (own : failure.fault.ordinary = true) :
    ControlMirrors meaning (.raise (.error failure)) (.raise failure.fault.variant)

/-! A larger meaning keeps all of this. -/

section

variable {before after : Meaning} (grown : Grows before after)

include grown

theorem AllStand.grow {ids : List ThunkId} {promises : List Promise}
    (stand : AllStand before ids promises) : AllStand after ids promises :=
  stand.imp grown

theorem EntriesStand.grow {Key : Type} {entries : List (Key × ThunkId)}
    {named : List (Key × Promise)} (stand : EntriesStand before entries named) :
    EntriesStand after entries named :=
  stand.imp fun _ _ same => ⟨same.1, grown _ _ same.2⟩

theorem ListMirrors.grow {list : LazyList} {segments : List Segment}
    (listed : ListMirrors before list segments) : ListMirrors after list segments := by
  induction list generalizing segments with
  | elems items start =>
    obtain ⟨promises, stand, same⟩ := listed
    exact ⟨promises, AllStand.grow grown stand, same⟩
  -- A range has no computations yet.
  | range next stop => exact listed
  | concat left right ih =>
    obtain ⟨front, promise, leftListed, stands, same⟩ := listed
    exact ⟨front, promise, ih leftListed, grown _ _ stands, same⟩

theorem CursorMirrors.grow {cursor : Cursor} {segments : List Segment}
    (ahead : CursorMirrors before cursor segments) : CursorMirrors after cursor segments := by
  obtain ⟨front, promises, listed, stand, same⟩ := ahead
  exact ⟨front, promises, listed.grow grown, AllStand.grow grown stand, same⟩

theorem ValueMirrors.grow {value : LazyConfig.Value} {named : Value}
    (mirrors : ValueMirrors before value named) : ValueMirrors after value named := by
  cases mirrors with
  | list listed => exact .list (listed.grow grown)
  | record entries => exact .record (EntriesStand.grow grown entries)
  | closure bound => exact .closure (EntriesStand.grow grown bound)
  | builtin stand => exact .builtin (AllStand.grow grown stand)
  | _ => constructor

theorem WorkMirrors.grow {work : List LazyConfig.Value} {named : List Value}
    (works : WorkMirrors before work named) : WorkMirrors after work named :=
  works.imp fun _ _ mirrors => mirrors.grow grown

theorem PairsMirror.grow {work : List (LazyConfig.Value × LazyConfig.Value)}
    {named : List (Value × Value)} (pairs : PairsMirror before work named) :
    PairsMirror after work named :=
  pairs.imp fun _ _ mirrors => ⟨mirrors.1.grow grown, mirrors.2.grow grown⟩

theorem SuspensionMirrors.grow {work : Suspension} {promise : Promise}
    (mirrors : SuspensionMirrors before work promise) : SuspensionMirrors after work promise := by
  cases mirrors with
  | expr bound => exact .expr (EntriesStand.grow grown bound)
  | recursive bound => exact .recursive (EntriesStand.grow grown bound)
  | apply func args => exact .apply (grown _ _ func) (AllStand.grow grown args)
  | check stands => exact .check (grown _ _ stands)
  | checkList listed => exact .checkList (listed.grow grown)

theorem ConsumerMirrors.grow {consumer : LazyConfig.Consumer} {named : Consumer}
    (consumes : ConsumerMirrors before consumer named) : ConsumerMirrors after consumer named := by
  -- The shape stays; what stands for a part goes on standing for it when meanings are added.
  cases consumes with
  | elemAt index ahead listed => exact .elemAt index ahead (listed.grow grown)
  | deepen works mirrors => exact .deepen (WorkMirrors.grow grown works) (mirrors.grow grown)
  | compareLeft ahead pairs => exact .compareLeft (ahead.grow grown) (PairsMirror.grow grown pairs)
  | compareRight stands ahead pairs =>
    refine .compareRight ?_ (ahead.grow grown) (PairsMirror.grow grown pairs)
    cases stands with
    | some stands => exact .some (grown _ _ stands)
    | none => exact .none
  | _ => constructor

theorem FrameMirrors.grow {frame : LazyConfig.Frame} {named : Frame}
    (mirrors : FrameMirrors before frame named) : FrameMirrors after frame named := by
  -- A frame without parts is there as before; all others keep their parts under the larger meaning.
  cases mirrors with
  | branch bound => exact .branch (EntriesStand.grow grown bound)
  | operand bound => exact .operand (EntriesStand.grow grown bound)
  | thenEval bound => exact .thenEval (EntriesStand.grow grown bound)
  | thenForce stands => exact .thenForce (grown _ _ stands)
  | logicLeft bound => exact .logicLeft (EntriesStand.grow grown bound)
  | concatLeft bound => exact .concatLeft (EntriesStand.grow grown bound)
  | operandLeft bound => exact .operandLeft (EntriesStand.grow grown bound)
  | operandRight mirrors => exact .operandRight (mirrors.grow grown)
  | args stand => exact .args (AllStand.grow grown stand)
  | mapOver stands => exact .mapOver (grown _ _ stands)
  | fieldName stands => exact .fieldName (grown _ _ stands)
  | walk op consumes => exact .walk op (consumes.grow grown)
  | indexed stands => exact .indexed (grown _ _ stands)
  | index listed => exact .index (listed.grow grown)
  | spine stand consumes => exact .spine (AllStand.grow grown stand) (consumes.grow grown)
  | deepItem ahead works mirrors =>
    exact .deepItem (ahead.grow grown) (WorkMirrors.grow grown works) (mirrors.grow grown)
  | compareItemLeft stands lefts rights pairs =>
    exact .compareItemLeft (grown _ _ stands) (lefts.grow grown) (rights.grow grown)
      (PairsMirror.grow grown pairs)
  | compareItemRight mirrors lefts rights pairs =>
    exact .compareItemRight (mirrors.grow grown) (lefts.grow grown) (rights.grow grown)
      (PairsMirror.grow grown pairs)
  | _ => constructor

end

end LazyConfig.ByName
