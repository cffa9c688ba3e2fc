import LazyConfig.Machine.State
import LazyConfig.Proofs.Store.Extension
import LazyConfig.Proofs.Value.Entries

/-!
Two stores in which computations are paired: what the one of a pair is, the other is as well, up to the
pairs. Where an evaluation puts a computation does not matter, nor what else is in the store.
-/

namespace LazyConfig

/-- Which computations of a store stand for which of another. -/
abbrev Pairing := ThunkId → ThunkId → Prop

/-- The pairs, and one more. -/
def Pairing.add (pairs : Pairing) (id other : ThunkId) : Pairing :=
  fun first second => pairs first second ∨ first = id ∧ second = other

/-- Lists of the same form, of paired computations. -/
inductive ListTwin (pairs : Pairing) : LazyList → LazyList → Prop
  | elems {items others : Array ThunkId} (start : Nat)
    (paired : List.Forall₂ pairs items.toList others.toList) :
    ListTwin pairs (.elems items start) (.elems others start)
  | range (next stop : Int64) : ListTwin pairs (.range next stop) (.range next stop)
  | concat {left first : LazyList} {right second : ThunkId} (front : ListTwin pairs left first)
    (back : pairs right second) : ListTwin pairs (.concat left right) (.concat first second)

/-- The same position in lists of the same form. -/
structure CursorTwin (pairs : Pairing) (cursor other : Cursor) : Prop where
  front : ListTwin pairs cursor.front other.front
  pending : List.Forall₂ pairs cursor.pending other.pending

/-- Environments in which the same names are bound to paired computations. -/
abbrev EnvTwin (pairs : Pairing) (env other : Env) : Prop :=
  EntriesAgree pairs env.bindings other.bindings

/-- Records with the same names for paired computations. -/
abbrev RecordTwin (pairs : Pairing) (record other : Record) : Prop :=
  EntriesAgree pairs record.entries other.entries

/-- Values of the same form; functions need not have been made at the same time. -/
inductive ValueTwin (pairs : Pairing) : Value → Value → Prop
  | int (value : Int64) : ValueTwin pairs (.int value) (.int value)
  | float (value : Float) : ValueTwin pairs (.float value) (.float value)
  | bool (value : Bool) : ValueTwin pairs (.bool value) (.bool value)
  | str (text : String) : ValueTwin pairs (.str text) (.str text)
  | list {items others : LazyList} (same : ListTwin pairs items others) :
    ValueTwin pairs (.list items) (.list others)
  | record {fields others : Record} (same : RecordTwin pairs fields others) :
    ValueTwin pairs (.record fields) (.record others)
  -- Each evaluation counts the functions it makes, so that the tags differ.
  | closure {tag other : Nat} {param : Name} {body : ExprId} {env bound : Env}
    (same : EnvTwin pairs env bound) :
    ValueTwin pairs (.closure ⟨tag, param, body, env⟩) (.closure ⟨other, param, body, bound⟩)
  | builtin {op : Builtin} {held others : List ThunkId} (same : List.Forall₂ pairs held others) :
    ValueTwin pairs (.builtin op held) (.builtin op others)
  | host (function : HostFunction) : ValueTwin pairs (.host function) (.host function)

/-- Work of the same kind that is put off. -/
inductive SuspensionTwin (pairs : Pairing) : Suspension → Suspension → Prop
  | expr {body : ExprId} {env bound : Env} (same : EnvTwin pairs env bound) :
    SuspensionTwin pairs (.expr body env) (.expr body bound)
  | apply {func other : ThunkId} {args others : List ThunkId} (paired : pairs func other)
    (same : List.Forall₂ pairs args others) :
    SuspensionTwin pairs (.apply func args) (.apply other others)
  | check {inner other : ThunkId} (type : TypeId) (path : Path) (paired : pairs inner other) :
    SuspensionTwin pairs (.check inner type path) (.check other type path)
  | checkList {source other : LazyList} (elem : TypeId) (path : Path) (index : Nat)
    (same : ListTwin pairs source other) :
    SuspensionTwin pairs (.checkList source elem path index) (.checkList other elem path index)

/-- Computations that have come equally far. -/
inductive CellTwin (pairs : Pairing) : Cell → Cell → Prop
  | suspended {work other : Suspension} (same : SuspensionTwin pairs work other) :
    CellTwin pairs (.suspended work) (.suspended other)
  | inProgress : CellTwin pairs .inProgress .inProgress
  | forced {value other : Value} (same : ValueTwin pairs value other) :
    CellTwin pairs (.forced value) (.forced other)
  | failed (failure : EvalError) : CellTwin pairs (.failed failure) (.failed failure)

/-- Values of the same form, one by one. -/
abbrev WorkTwin (pairs : Pairing) : List Value → List Value → Prop :=
  List.Forall₂ (ValueTwin pairs)

/-- Pairs of values of the same form, one by one. -/
abbrev PairsTwin (pairs : Pairing) : List (Value × Value) → List (Value × Value) → Prop :=
  List.Forall₂ fun pair other => ValueTwin pairs pair.1 other.1 ∧ ValueTwin pairs pair.2 other.2

/-- Walks for the same purpose, other than a step for the host. -/
inductive ConsumerTwin (pairs : Pairing) : Consumer → Consumer → Prop
  | head : ConsumerTwin pairs .head .head
  | tail : ConsumerTwin pairs .tail .tail
  | count (passed : Nat) : ConsumerTwin pairs (.count passed) (.count passed)
  | elemAt {list other : LazyList} (index : Int64) (ahead : Nat) (same : ListTwin pairs list other) :
    ConsumerTwin pairs (.elemAt list index ahead) (.elemAt other index ahead)
  | outOfBounds (index : Int64) (passed : Nat) :
    ConsumerTwin pairs (.outOfBounds index passed) (.outOfBounds index passed)
  | deepen {work others : List Value} {whole other : Value} (works : WorkTwin pairs work others)
    (same : ValueTwin pairs whole other) :
    ConsumerTwin pairs (.deepen work whole) (.deepen others other)
  | compareLeft {right other : Cursor} {work others : List (Value × Value)}
    (ahead : CursorTwin pairs right other) (works : PairsTwin pairs work others) :
    ConsumerTwin pairs (.compareLeft right work) (.compareLeft other others)
  | compareRight {left first : Option ThunkId} {rest other : Cursor}
    {work others : List (Value × Value)} (item : Option.Rel pairs left first)
    (ahead : CursorTwin pairs rest other) (works : PairsTwin pairs work others) :
    ConsumerTwin pairs (.compareRight left rest work) (.compareRight first other others)
  | checkCell (elem : TypeId) (path : Path) (index : Nat) :
    ConsumerTwin pairs (.checkCell elem path index) (.checkCell elem path index)

/-- Frames that wait for the same. -/
inductive FrameTwin (pairs : Pairing) : Frame → Frame → Prop
  | leave : FrameTwin pairs .leave .leave
  | update {id other : ThunkId} (paired : pairs id other) :
    FrameTwin pairs (.update id) (.update other)
  | branch (whenTrue whenFalse : ExprId) {env bound : Env} (binds : EnvTwin pairs env bound) :
    FrameTwin pairs (.branch whenTrue whenFalse env) (.branch whenTrue whenFalse bound)
  | operand (arg : ExprId) {env bound : Env} (binds : EnvTwin pairs env bound) :
    FrameTwin pairs (.operand arg env) (.operand arg bound)
  | thenEval (body : ExprId) {env bound : Env} (binds : EnvTwin pairs env bound) :
    FrameTwin pairs (.thenEval body env) (.thenEval body bound)
  | thenForce {id other : ThunkId} (paired : pairs id other) :
    FrameTwin pairs (.thenForce id) (.thenForce other)
  | deepen : FrameTwin pairs .deepen .deepen
  | logicLeft (op : BinaryOp) (right : ExprId) {env bound : Env} (binds : EnvTwin pairs env bound) :
    FrameTwin pairs (.logicLeft op right env) (.logicLeft op right bound)
  | logicRight : FrameTwin pairs .logicRight .logicRight
  | concatLeft (right : ExprId) {env bound : Env} (binds : EnvTwin pairs env bound) :
    FrameTwin pairs (.concatLeft right env) (.concatLeft right bound)
  | operandLeft (op : BinaryOp) (right : ExprId) {env bound : Env}
    (binds : EnvTwin pairs env bound) :
    FrameTwin pairs (.operandLeft op right env) (.operandLeft op right bound)
  | operandRight (op : BinaryOp) {left other : Value} (same : ValueTwin pairs left other) :
    FrameTwin pairs (.operandRight op left) (.operandRight op other)
  | unary (op : UnaryOp) : FrameTwin pairs (.unary op) (.unary op)
  | negate : FrameTwin pairs .negate .negate
  | select (name : Name) : FrameTwin pairs (.select name) (.select name)
  | note (name : Name) : FrameTwin pairs (.note name) (.note name)
  | ascribe (type : TypeId) (path : Path) : FrameTwin pairs (.ascribe type path) (.ascribe type path)
  | args {rest others : List ThunkId} (same : List.Forall₂ pairs rest others) :
    FrameTwin pairs (.args rest) (.args others)
  | hostArgument (function : HostFunction) :
    FrameTwin pairs (.hostArgument function) (.hostArgument function)
  | mapOver {func other : ThunkId} (paired : pairs func other) :
    FrameTwin pairs (.mapOver func) (.mapOver other)
  | fieldNames : FrameTwin pairs .fieldNames .fieldNames
  | fieldName {record other : ThunkId} (paired : pairs record other) :
    FrameTwin pairs (.fieldName record) (.fieldName other)
  | fieldOwner (name : String) : FrameTwin pairs (.fieldOwner name) (.fieldOwner name)
  | walk (op : Builtin) {consumer other : Consumer} (same : ConsumerTwin pairs consumer other) :
    FrameTwin pairs (.walk op consumer) (.walk op other)
  | indexed {index other : ThunkId} (paired : pairs index other) :
    FrameTwin pairs (.indexed index) (.indexed other)
  | index {list other : LazyList} (same : ListTwin pairs list other) :
    FrameTwin pairs (.index list) (.index other)
  | bound : FrameTwin pairs .bound .bound
  | kindTest (kind : Kind) : FrameTwin pairs (.kindTest kind) (.kindTest kind)
  | spine {pending others : List ThunkId} {consumer other : Consumer}
    (paired : List.Forall₂ pairs pending others) (same : ConsumerTwin pairs consumer other) :
    FrameTwin pairs (.spine pending consumer) (.spine others other)
  | deepItem {rest ahead : Cursor} {work others : List Value} {whole other : Value}
    (cursors : CursorTwin pairs rest ahead) (works : WorkTwin pairs work others)
    (same : ValueTwin pairs whole other) :
    FrameTwin pairs (.deepItem rest work whole) (.deepItem ahead others other)
  | compareItemLeft {right other : ThunkId} {lefts rights leftAhead rightAhead : Cursor}
    {work others : List (Value × Value)} (paired : pairs right other)
    (left : CursorTwin pairs lefts leftAhead) (ahead : CursorTwin pairs rights rightAhead)
    (works : PairsTwin pairs work others) :
    FrameTwin pairs (.compareItemLeft right lefts rights work)
      (.compareItemLeft other leftAhead rightAhead others)
  | compareItemRight {left other : Value} {lefts rights leftAhead rightAhead : Cursor}
    {work others : List (Value × Value)} (same : ValueTwin pairs left other)
    (first : CursorTwin pairs lefts leftAhead) (ahead : CursorTwin pairs rights rightAhead)
    (works : PairsTwin pairs work others) :
    FrameTwin pairs (.compareItemRight left lefts rights work)
      (.compareItemRight other leftAhead rightAhead others)

/-- Frames that wait for the same, one by one. -/
abbrev StackTwin (pairs : Pairing) : List Frame → List Frame → Prop :=
  List.Forall₂ (FrameTwin pairs)

/-- What is done next is the same; of ends nothing is said. -/
inductive ControlTwin (pairs : Pairing) : Control → Control → Prop
  | eval (body : ExprId) {env bound : Env} (binds : EnvTwin pairs env bound) :
    ControlTwin pairs (.eval body env) (.eval body bound)
  | enter (body : ExprId) {env bound : Env} (binds : EnvTwin pairs env bound) :
    ControlTwin pairs (.enter body env) (.enter body bound)
  | force {id other : ThunkId} (paired : pairs id other) :
    ControlTwin pairs (.force id) (.force other)
  | apply {func applied : Value} {arg other : ThunkId} (same : ValueTwin pairs func applied)
    (paired : pairs arg other) : ControlTwin pairs (.apply func arg) (.apply applied other)
  | run (op : Builtin) {args others : List ThunkId} (same : List.Forall₂ pairs args others) :
    ControlTwin pairs (.run op args) (.run op others)
  | operate (op : BinaryOp) {left right first second : Value} (lefts : ValueTwin pairs left first)
    (rights : ValueTwin pairs right second) :
    ControlTwin pairs (.operate op left right) (.operate op first second)
  | advance {cursor other : Cursor} {consumer purpose : Consumer}
    (cursors : CursorTwin pairs cursor other) (same : ConsumerTwin pairs consumer purpose) :
    ControlTwin pairs (.advance cursor consumer) (.advance other purpose)
  | deepen {work others : List Value} {whole other : Value} (works : WorkTwin pairs work others)
    (same : ValueTwin pairs whole other) :
    ControlTwin pairs (.deepen work whole) (.deepen others other)
  | compare {work others : List (Value × Value)} (works : PairsTwin pairs work others) :
    ControlTwin pairs (.compare work) (.compare others)
  | give {value other : Value} (same : ValueTwin pairs value other) :
    ControlTwin pairs (.give value) (.give other)
  | raise (upset : Upset) : ControlTwin pairs (.raise upset) (.raise upset)

/-! More pairs keep what is the same. -/

section Mono

variable {pairs more : Pairing} (keeps : ∀ id other, pairs id other → more id other)
include keeps

theorem paired_mono {ids others : List ThunkId} (paired : List.Forall₂ pairs ids others) :
    List.Forall₂ more ids others :=
  paired.imp keeps

theorem agree_mono {Key : Type} {entries others : List (Key × ThunkId)}
    (agree : EntriesAgree pairs entries others) : EntriesAgree more entries others :=
  agree.imp fun _ _ same => ⟨same.1, keeps _ _ same.2⟩

theorem ListTwin.mono {items others : LazyList} (same : ListTwin pairs items others) :
    -- Only the elements and the ends of joined lists are computations.
    ListTwin more items others := by
  induction same with
  | elems start paired => exact .elems start (paired.imp keeps)
  | range next stop => exact .range next stop
  | concat _ back ih => exact .concat ih (keeps _ _ back)

theorem CursorTwin.mono {cursor other : Cursor} (same : CursorTwin pairs cursor other) :
    CursorTwin more cursor other :=
  ⟨same.front.mono keeps, same.pending.imp keeps⟩

theorem ValueTwin.mono {value other : Value} (same : ValueTwin pairs value other) :
    ValueTwin more value other := by
  -- Each form keeps its shape; only the computations in it are paired by more.
  cases same with
  | int value => exact .int value
  | float value => exact .float value
  | bool value => exact .bool value
  | str text => exact .str text
  | list same => exact .list (same.mono keeps)
  | record same => exact .record (agree_mono keeps same)
  | closure same => exact .closure (agree_mono keeps same)
  | builtin same => exact .builtin (same.imp keeps)
  | host function => exact .host function

theorem SuspensionTwin.mono {work other : Suspension} (same : SuspensionTwin pairs work other) :
    SuspensionTwin more work other := by
  cases same with
  | expr same => exact .expr (agree_mono keeps same)
  | apply paired same => exact .apply (keeps _ _ paired) (same.imp keeps)
  | check type path paired => exact .check type path (keeps _ _ paired)
  | checkList elem path index same => exact .checkList elem path index (same.mono keeps)

theorem CellTwin.mono {cell other : Cell} (same : CellTwin pairs cell other) :
    CellTwin more cell other := by
  cases same with
  | suspended same => exact .suspended (same.mono keeps)
  | inProgress => exact .inProgress
  | forced same => exact .forced (same.mono keeps)
  | failed failure => exact .failed failure

theorem WorkTwin.mono {work others : List Value} (works : WorkTwin pairs work others) :
    WorkTwin more work others :=
  works.imp fun _ _ same => same.mono keeps

theorem PairsTwin.mono {work others : List (Value × Value)} (works : PairsTwin pairs work others) :
    PairsTwin more work others :=
  works.imp fun _ _ same => ⟨same.1.mono keeps, same.2.mono keeps⟩

theorem ConsumerTwin.mono {consumer other : Consumer} (same : ConsumerTwin pairs consumer other) :
    ConsumerTwin more consumer other := by
  cases same with
  | head => exact .head
  | tail => exact .tail
  | count passed => exact .count passed
  | elemAt index ahead same => exact .elemAt index ahead (same.mono keeps)
  | outOfBounds index passed => exact .outOfBounds index passed
  | deepen works same => exact .deepen (WorkTwin.mono keeps works) (same.mono keeps)
  | compareLeft ahead works => exact .compareLeft (ahead.mono keeps) (PairsTwin.mono keeps works)
  | compareRight item ahead works =>
    -- There is no element on the left where that list has ended before the other.
    refine .compareRight ?_ (ahead.mono keeps) (PairsTwin.mono keeps works)
    cases item with
    | some paired => exact .some (keeps _ _ paired)
    | none => exact .none
  | checkCell elem path index => exact .checkCell elem path index

theorem FrameTwin.mono {frame other : Frame} (same : FrameTwin pairs frame other) :
    FrameTwin more frame other := by
  -- As for values: the shape stays, and every part is paired by the larger relation.
  cases same with
  | leave => exact .leave
  | update paired => exact .update (keeps _ _ paired)
  | branch whenTrue whenFalse binds => exact .branch whenTrue whenFalse (agree_mono keeps binds)
  | operand arg binds => exact .operand arg (agree_mono keeps binds)
  | thenEval body binds => exact .thenEval body (agree_mono keeps binds)
  | thenForce paired => exact .thenForce (keeps _ _ paired)
  | deepen => exact .deepen
  | logicLeft op right binds => exact .logicLeft op right (agree_mono keeps binds)
  | logicRight => exact .logicRight
  | concatLeft right binds => exact .concatLeft right (agree_mono keeps binds)
  | operandLeft op right binds => exact .operandLeft op right (agree_mono keeps binds)
  | operandRight op same => exact .operandRight op (same.mono keeps)
  | unary op => exact .unary op
  | negate => exact .negate
  | select name => exact .select name
  | note name => exact .note name
  | ascribe type path => exact .ascribe type path
  | args same => exact .args (same.imp keeps)
  | hostArgument function => exact .hostArgument function
  | mapOver paired => exact .mapOver (keeps _ _ paired)
  | fieldNames => exact .fieldNames
  | fieldName paired => exact .fieldName (keeps _ _ paired)
  | fieldOwner name => exact .fieldOwner name
  | walk op same => exact .walk op (same.mono keeps)
  | indexed paired => exact .indexed (keeps _ _ paired)
  | index same => exact .index (same.mono keeps)
  | bound => exact .bound
  | kindTest kind => exact .kindTest kind
  | spine paired same => exact .spine (paired.imp keeps) (same.mono keeps)
  | deepItem cursors works same =>
    exact .deepItem (cursors.mono keeps) (WorkTwin.mono keeps works) (same.mono keeps)
  | compareItemLeft paired left ahead works =>
    exact .compareItemLeft (keeps _ _ paired) (left.mono keeps) (ahead.mono keeps)
      (PairsTwin.mono keeps works)
  | compareItemRight same first ahead works =>
    exact .compareItemRight (same.mono keeps) (first.mono keeps) (ahead.mono keeps)
      (PairsTwin.mono keeps works)

theorem StackTwin.mono {stack others : List Frame} (frames : StackTwin pairs stack others) :
    StackTwin more stack others :=
  frames.imp fun _ _ same => same.mono keeps

end Mono

/-! Reading values of the same form. -/

section

variable {pairs : Pairing}

/-- The same names are bound to paired computations. -/
theorem EnvTwin.bind {env bound : Env} (binds : EnvTwin pairs env bound) {id other : ThunkId}
    (paired : pairs id other) (name : Name) : EnvTwin pairs (env.bind name id) (bound.bind name other) :=
  .cons ⟨rfl, paired⟩ binds

/-- Lists of paired computations have the same form. -/
theorem ListTwin.ofThunks {ids others : List ThunkId} (paired : List.Forall₂ pairs ids others) :
    ListTwin pairs (.ofThunks ids) (.ofThunks others) :=
  .elems 0 (by simpa using paired)

/-- Entries that agree make records that agree. -/
theorem RecordTwin.ofEntries {entries others : List Entry}
    (same : EntriesAgree pairs entries others) :
    RecordTwin pairs (.ofEntries entries) (.ofEntries others) := by
  rw [RecordTwin, Record.entries_ofEntries, Record.entries_ofEntries]
  exact EntriesAgree.placeAll .nil same

theorem ListTwin.cursor {items others : LazyList} (same : ListTwin pairs items others) :
    CursorTwin pairs items.cursor others.cursor :=
  ⟨same, .nil⟩

/-- What is left of lists of the same form has the same form. -/
theorem CursorTwin.rest {cursor other : Cursor} (same : CursorTwin pairs cursor other) :
    ListTwin pairs cursor.rest other.rest := by
  obtain ⟨front, pending⟩ := cursor
  obtain ⟨first, others⟩ := other
  obtain ⟨fronts, paired⟩ := same
  -- What is pending is joined to the front one by one, from both lists alike.
  show ListTwin pairs (pending.foldl .concat front) (others.foldl .concat first)
  dsimp only at fronts paired
  induction paired generalizing front first with
  | nil => exact fronts
  | cons here _ ih => exact ih _ _ (.concat fronts here)

theorem CursorTwin.before {pending others : List ThunkId}
    (paired : List.Forall₂ pairs pending others) :
    CursorTwin pairs (.before pending) (.before others) :=
  ⟨.range 0 0, paired⟩

/-- The elements at one position are paired, if there are any. -/
theorem paired_getElem? {items others : Array ThunkId}
    (paired : List.Forall₂ pairs items.toList others.toList) (position : Nat) :
    Option.Rel pairs items[position]? others[position]? := by
  rw [← Array.getElem?_toList, ← Array.getElem?_toList]
  generalize items.toList = left at paired
  generalize others.toList = right at paired
  induction paired generalizing position with
  | nil => exact .none
  | cons here _ ih =>
    -- The element at the front is the first of both lists, any other one lies in the rest of both.
    cases position with
    | zero => exact .some here
    | succ position => exact ih position

/-- Values of the same form are of the same kind. -/
theorem ValueTwin.kind {value other : Value} (same : ValueTwin pairs value other) :
    value.kind = other.kind := by
  cases same <;> rfl

theorem ValueTwin.asInteger? {value other : Value} (same : ValueTwin pairs value other) :
    value.asInteger? = other.asInteger? := by
  cases same <;> rfl

end

end LazyConfig
