import LazyConfig.Depth
import LazyConfig.Types.Annotations
import LazyConfig.Value.Store

/-!
The states of the evaluator: what it does next, what it comes back to, and the store. Everything
that waits for a value is a frame on an explicit stack.
-/

namespace LazyConfig

/-- What an evaluation reads and never changes. -/
structure Context where
  names : NameTable
  code : Code
  annotations : Annotations
  deriving Inhabited

/-- How a computation goes wrong. -/
inductive Upset
  | error (failure : EvalError)
  /-- A function of the host broke the computation off. -/
  | panic (host : String)
  deriving DecidableEq, Inhabited

/-- What a walk along a list is for; it says what to do with the next element. -/
inductive Consumer
  /-- Gives the element and the new position to the host. -/
  | report
  | head
  | tail
  | count (passed : Nat)
  /-- Looks for the element after `ahead` more ones. -/
  | elemAt (list : LazyList) (index : Int64) (ahead : Nat)
  /-- Counts a list in which an index was not found. -/
  | outOfBounds (index : Int64) (passed : Nat)
  /-- Evaluates all elements and keeps them as further work. -/
  | deepen (work : List Value) (whole : Value)
  /-- Takes the next element of the left list of a comparison. -/
  | compareLeft (right : Cursor) (work : List (Value × Value))
  /-- Takes the next element of the right list of a comparison. -/
  | compareRight (left : Option ThunkId) (rest : Cursor) (work : List (Value × Value))
  | checkCell (elem : TypeId) (path : Path) (index : Nat)

/-- What a value is waited for. -/
inductive Frame
  /-- The end of an expression that counts as one level of nesting. -/
  | leave
  /-- The end of a suspended computation. -/
  | update (id : ThunkId)
  | branch (whenTrue whenFalse : ExprId) (env : Env)
  /-- The function of an application is known. -/
  | operand (arg : ExprId) (env : Env)
  /-- Goes on with an expression, whatever the value is. -/
  | thenEval (body : ExprId) (env : Env)
  /-- Goes on with a suspended computation, whatever the value is. -/
  | thenForce (id : ThunkId)
  /-- Evaluates all parts of the value. -/
  | deepen
  | logicLeft (op : BinaryOp) (right : ExprId) (env : Env)
  | logicRight
  | concatLeft (right : ExprId) (env : Env)
  | operandLeft (op : BinaryOp) (right : ExprId) (env : Env)
  | operandRight (op : BinaryOp) (left : Value)
  | unary (op : UnaryOp)
  /-- Turns a truth value around. -/
  | negate
  | select (name : Name)
  /-- Notes a failure of the field that is evaluated. -/
  | note (name : Name)
  | ascribe (type : TypeId) (path : Path)
  /-- Applies a function to the arguments that are left. -/
  | args (rest : List ThunkId)
  | hostArgument (function : HostFunction)
  | mapOver (func : ThunkId)
  | fieldNames
  | fieldName (record : ThunkId)
  | fieldOwner (name : String)
  /-- Walks a list that a primitive was given. -/
  | walk (op : Builtin) (consumer : Consumer)
  | indexed (index : ThunkId)
  | index (list : LazyList)
  | bound
  | kindTest (kind : Kind)
  /-- The right part of a join is evaluated to go on with a walk. -/
  | spine (pending : List ThunkId) (consumer : Consumer)
  /-- An element that is evaluated along with all others. -/
  | deepItem (rest : Cursor) (work : List Value) (whole : Value)
  | compareItemLeft (right : ThunkId) (lefts rights : Cursor) (work : List (Value × Value))
  | compareItemRight (left : Value) (lefts rights : Cursor) (work : List (Value × Value))

/-- How an evaluation ends. -/
inductive Ending
  | value (value : Value)
  /-- A step along a list: the next element, if there is one, and the new position. -/
  | stepped (item : Option ThunkId) (rest : Cursor)
  /-- A failure; a step along a list also says where it leaves the cursor. -/
  | upset (upset : Upset) (left : Option Cursor)

/-- What the evaluator does next. -/
inductive Control
  /-- Evaluates an expression at the present level of nesting. -/
  | eval (body : ExprId) (env : Env)
  /-- Evaluates an expression one level deeper. -/
  | enter (body : ExprId) (env : Env)
  | force (id : ThunkId)
  | apply (func : Value) (arg : ThunkId)
  /-- Runs a primitive on all its arguments. -/
  | run (op : Builtin) (args : List ThunkId)
  | operate (op : BinaryOp) (left right : Value)
  | advance (cursor : Cursor) (consumer : Consumer)
  /-- Evaluates all parts of the pending values, and gives back a whole. -/
  | deepen (work : List Value) (whole : Value)
  | compare (work : List (Value × Value))
  /-- Gives a value to the top frame. -/
  | give (value : Value)
  /-- Passes a failure up to the frames. -/
  | raise (upset : Upset)
  | done (ending : Ending)

/-- A state of the evaluator. -/
structure State where
  store : Store
  meter : DepthMeter
  control : Control
  stack : List Frame

/-- The failure with a given cause. -/
def Upset.fault (fault : Fault) : Upset :=
  .error ⟨fault, []⟩

/-- What later requests for a computation see when the computation went wrong. -/
def Upset.remembered : Upset → EvalError
  | .error failure => failure
  | .panic _ => ⟨.interrupted, []⟩

/-- A failure inside a field carries a note; a broken computation does not. -/
def Upset.whileField (name : String) : Upset → Upset
  | .error failure => .error (failure.whileField name)
  | .panic host => .panic host

end LazyConfig
