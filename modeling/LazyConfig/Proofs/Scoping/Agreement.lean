import LazyConfig.Machine.State
import LazyConfig.Proofs.Scoping.Free
import Mathlib.Data.List.Forall2

/-!
States of the evaluator that are the same up to the environments that code is kept with. Wherever a
function or an expression waits with its variables, the environments agree on what it takes from them.
-/

namespace LazyConfig

/-- Values that are the same up to the environment of a function. -/
inductive ValuesAgree (code : Code) : Value → Value → Prop
  | same (value : Value) : ValuesAgree code value value
  | closure {tag : Nat} {param : Name} {body : ExprId} {env other : Env}
    (agree : EnvsAgreeUnder code param body env other) :
    ValuesAgree code (.closure ⟨tag, param, body, env⟩) (.closure ⟨tag, param, body, other⟩)

/-- Work that is the same up to the environment of an expression. -/
inductive SuspensionsAgree (code : Code) : Suspension → Suspension → Prop
  | same (work : Suspension) : SuspensionsAgree code work work
  | expr {body : ExprId} {env other : Env} (agree : EnvsAgree code body env other) :
    SuspensionsAgree code (.expr body env) (.expr body other)

/-- Computations that have come equally far. -/
inductive CellsAgree (code : Code) : Cell → Cell → Prop
  | suspended {work other : Suspension} (works : SuspensionsAgree code work other) :
    CellsAgree code (.suspended work) (.suspended other)
  | inProgress : CellsAgree code .inProgress .inProgress
  | forced {value other : Value} (values : ValuesAgree code value other) :
    CellsAgree code (.forced value) (.forced other)
  | failed (error : EvalError) : CellsAgree code (.failed error) (.failed error)

/-- Stores with the same computations at the same places, and the same calls of host functions. -/
structure StoresAgree (code : Code) (left right : Store) : Prop where
  size : left.cells.size = right.cells.size
  cells : ∀ id, CellsAgree code (left.cell id) (right.cell id)
  closures : left.closures = right.closures
  calls : left.calls = right.calls

/-- Values that agree, one by one. -/
abbrev WorksAgree (code : Code) : List Value → List Value → Prop :=
  List.Forall₂ (ValuesAgree code)

/-- Pairs of values that agree, one by one. -/
abbrev PairsAgree (code : Code) : List (Value × Value) → List (Value × Value) → Prop :=
  List.Forall₂ fun pair other => ValuesAgree code pair.1 other.1 ∧ ValuesAgree code pair.2 other.2

/-- Walks for the same purpose. -/
inductive ConsumersAgree (code : Code) : Consumer → Consumer → Prop
  | report : ConsumersAgree code .report .report
  | head : ConsumersAgree code .head .head
  | tail : ConsumersAgree code .tail .tail
  | count (passed : Nat) : ConsumersAgree code (.count passed) (.count passed)
  | elemAt (list : LazyList) (index : Int64) (ahead : Nat) :
    ConsumersAgree code (.elemAt list index ahead) (.elemAt list index ahead)
  | outOfBounds (index : Int64) (passed : Nat) :
    ConsumersAgree code (.outOfBounds index passed) (.outOfBounds index passed)
  | deepen {work others : List Value} {whole other : Value} (works : WorksAgree code work others)
    (values : ValuesAgree code whole other) :
    ConsumersAgree code (.deepen work whole) (.deepen others other)
  | compareLeft (right : Cursor) {work others : List (Value × Value)}
    (works : PairsAgree code work others) :
    ConsumersAgree code (.compareLeft right work) (.compareLeft right others)
  | compareRight (left : Option ThunkId) (rest : Cursor) {work others : List (Value × Value)}
    (works : PairsAgree code work others) :
    ConsumersAgree code (.compareRight left rest work) (.compareRight left rest others)
  | checkCell (elem : TypeId) (path : Path) (index : Nat) :
    ConsumersAgree code (.checkCell elem path index) (.checkCell elem path index)

/-- Whether a frame keeps neither code with its variables nor a value. -/
def Frame.keepsNothing : Frame → Bool
  | .branch .. | .operand .. | .thenEval .. | .logicLeft .. | .concatLeft .. | .operandLeft ..
  | .operandRight .. | .walk .. | .spine .. | .deepItem .. | .compareItemLeft ..
  | .compareItemRight .. => false
  | _ => true

/-- Frames that wait for the same. -/
inductive FramesAgree (code : Code) : Frame → Frame → Prop
  | plain {frame : Frame} (plain : frame.keepsNothing = true) : FramesAgree code frame frame
  | branch {whenTrue whenFalse : ExprId} {env other : Env} (first : EnvsAgree code whenTrue env other)
    (second : EnvsAgree code whenFalse env other) :
    FramesAgree code (.branch whenTrue whenFalse env) (.branch whenTrue whenFalse other)
  | operand {arg : ExprId} {env other : Env} (agree : EnvsAgree code arg env other) :
    FramesAgree code (.operand arg env) (.operand arg other)
  | thenEval {body : ExprId} {env other : Env} (agree : EnvsAgree code body env other) :
    FramesAgree code (.thenEval body env) (.thenEval body other)
  | logicLeft (op : BinaryOp) {right : ExprId} {env other : Env}
    (agree : EnvsAgree code right env other) :
    FramesAgree code (.logicLeft op right env) (.logicLeft op right other)
  | concatLeft {right : ExprId} {env other : Env} (agree : EnvsAgree code right env other) :
    FramesAgree code (.concatLeft right env) (.concatLeft right other)
  | operandLeft (op : BinaryOp) {right : ExprId} {env other : Env}
    (agree : EnvsAgree code right env other) :
    FramesAgree code (.operandLeft op right env) (.operandLeft op right other)
  | operandRight (op : BinaryOp) {left other : Value} (values : ValuesAgree code left other) :
    FramesAgree code (.operandRight op left) (.operandRight op other)
  | walk (op : Builtin) {consumer other : Consumer} (consumers : ConsumersAgree code consumer other) :
    FramesAgree code (.walk op consumer) (.walk op other)
  | spine (pending : List ThunkId) {consumer other : Consumer}
    (consumers : ConsumersAgree code consumer other) :
    FramesAgree code (.spine pending consumer) (.spine pending other)
  | deepItem (rest : Cursor) {work others : List Value} {whole other : Value}
    (works : WorksAgree code work others) (values : ValuesAgree code whole other) :
    FramesAgree code (.deepItem rest work whole) (.deepItem rest others other)
  | compareItemLeft (right : ThunkId) (lefts rights : Cursor) {work others : List (Value × Value)}
    (works : PairsAgree code work others) :
    FramesAgree code (.compareItemLeft right lefts rights work)
      (.compareItemLeft right lefts rights others)
  | compareItemRight {left other : Value} (lefts rights : Cursor) {work others : List (Value × Value)}
    (values : ValuesAgree code left other) (works : PairsAgree code work others) :
    FramesAgree code (.compareItemRight left lefts rights work)
      (.compareItemRight other lefts rights others)

/-- Frames that wait for the same, one by one. -/
abbrev StacksAgree (code : Code) : List Frame → List Frame → Prop :=
  List.Forall₂ (FramesAgree code)

/-- Ends with the same failure, the same place in a list, or values that agree. -/
inductive EndingsAgree (code : Code) : Ending → Ending → Prop
  | value {value other : Value} (values : ValuesAgree code value other) :
    EndingsAgree code (.value value) (.value other)
  | stepped (item : Option ThunkId) (rest : Cursor) :
    EndingsAgree code (.stepped item rest) (.stepped item rest)
  | upset (upset : Upset) (left : Option Cursor) :
    EndingsAgree code (.upset upset left) (.upset upset left)

/-- Results that are the same failure, or values that agree. -/
inductive ResultsAgree (code : Code) {ε : Type} : Except ε Value → Except ε Value → Prop
  | error (failure : ε) : ResultsAgree code (.error failure) (.error failure)
  | ok {value other : Value} (values : ValuesAgree code value other) :
    ResultsAgree code (.ok value) (.ok other)

/-- What is done next is the same. -/
inductive ControlsAgree (code : Code) : Control → Control → Prop
  | eval {body : ExprId} {env other : Env} (agree : EnvsAgree code body env other) :
    ControlsAgree code (.eval body env) (.eval body other)
  | enter {body : ExprId} {env other : Env} (agree : EnvsAgree code body env other) :
    ControlsAgree code (.enter body env) (.enter body other)
  | force (id : ThunkId) : ControlsAgree code (.force id) (.force id)
  | apply {func other : Value} (values : ValuesAgree code func other) (arg : ThunkId) :
    ControlsAgree code (.apply func arg) (.apply other arg)
  | run (op : Builtin) (args : List ThunkId) : ControlsAgree code (.run op args) (.run op args)
  | operate (op : BinaryOp) {left right first second : Value} (lefts : ValuesAgree code left first)
    (rights : ValuesAgree code right second) :
    ControlsAgree code (.operate op left right) (.operate op first second)
  | advance (cursor : Cursor) {consumer other : Consumer}
    (consumers : ConsumersAgree code consumer other) :
    ControlsAgree code (.advance cursor consumer) (.advance cursor other)
  | deepen {work others : List Value} {whole other : Value} (works : WorksAgree code work others)
    (values : ValuesAgree code whole other) :
    ControlsAgree code (.deepen work whole) (.deepen others other)
  | compare {work others : List (Value × Value)} (works : PairsAgree code work others) :
    ControlsAgree code (.compare work) (.compare others)
  | give {value other : Value} (values : ValuesAgree code value other) :
    ControlsAgree code (.give value) (.give other)
  | raise (upset : Upset) : ControlsAgree code (.raise upset) (.raise upset)
  | done {ending other : Ending} (endings : EndingsAgree code ending other) :
    ControlsAgree code (.done ending) (.done other)

/-- States that have come equally far, at the same depth. -/
structure StatesAgree (code : Code) (state other : State) : Prop where
  stores : StoresAgree code state.store other.store
  meter : state.meter = other.meter
  control : ControlsAgree code state.control other.control
  stack : StacksAgree code state.stack other.stack

variable {code : Code}

namespace CellsAgree

/-- A computation has come as far as itself. -/
theorem refl : ∀ cell : Cell, CellsAgree code cell cell
  | .suspended work => .suspended (.same work)
  | .inProgress => .inProgress
  | .forced value => .forced (.same value)
  | .failed error => .failed error

end CellsAgree

/-- A result agrees with itself. -/
theorem ResultsAgree.refl {ε : Type} (result : Except ε Value) : ResultsAgree code result result := by
  cases result with
  | error failure => exact .error failure
  | ok value => exact .ok (.same value)

namespace ValuesAgree

variable {value other : Value}

/-- Values that agree are of the same kind. -/
theorem kind (values : ValuesAgree code value other) : value.kind = other.kind := by
  cases values <;> rfl

theorem asInteger? (values : ValuesAgree code value other) : value.asInteger? = other.asInteger? := by
  cases values <;> rfl

end ValuesAgree

end LazyConfig
