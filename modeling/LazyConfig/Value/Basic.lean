import LazyConfig.Code
import LazyConfig.Value.Env
import LazyConfig.Value.LazyList

/-! Values: the outermost form is known, and all parts stay where they are in the store. -/

namespace LazyConfig

/-- What a value is, as far as the language tells values apart. -/
inductive Kind
  | num | bool | str | list | record | function
  deriving DecidableEq, Inhabited

/-- The name of a kind in messages. -/
def Kind.name : Kind → String
  | num => "Num"
  | bool => "Bool"
  | str => "Str"
  | list => "List"
  | record => "Record"
  | function => "Function"

/-- A function of the language with the variables around it. -/
structure Closure where
  /-- Tells closures apart that were made at different times. -/
  tag : Nat
  param : Name
  body : ExprId
  env : Env
  deriving DecidableEq, Inhabited

/-- What a function of the host answers to its argument. -/
inductive HostResponse
  /-- The argument itself. -/
  | argument
  /-- A failure that names the argument. -/
  | refusal
  /-- No answer at all: the computation is broken off. -/
  | panic
  /-- The name of the argument's kind. -/
  | kindName
  /-- The list that holds only the argument. -/
  | singleton
  deriving DecidableEq, Inhabited

/-- A function of one argument that the host provides; its argument is evaluated first. -/
structure HostFunction where
  name : String
  response : HostResponse
  deriving DecidableEq, Inhabited

/-- A value in weak head normal form. -/
inductive Value
  | int (value : Int64)
  | float (value : Float)
  | bool (value : Bool)
  | str (text : String)
  | list (items : LazyList)
  | record (fields : Record)
  | closure (function : Closure)
  /-- A primitive that waits for more arguments. -/
  | builtin (op : Builtin) (held : List ThunkId)
  | host (function : HostFunction)

namespace Value

instance : Inhabited Value := ⟨.bool false⟩

/-- What a value is. -/
def kind : Value → Kind
  | int _ | float _ => .num
  | bool _ => .bool
  | str _ => .str
  | list _ => .list
  | record _ => .record
  | closure _ | builtin _ _ | host _ => .function

/-- Whether a value can be applied. -/
def isFunction (value : Value) : Bool :=
  value.kind == .function

/-- A number as a floating-point number. -/
def asFloat? : Value → Option Float
  | int value => some value.toFloat
  | float value => some value
  | _ => none

/-- The float `2 ^ 63`, the first that is too large for an integer. -/
def integerBound : Float :=
  9223372036854775808.0

/-- A whole number, also one in floating-point form, if it is in the range of integers. -/
def asInteger? : Value → Option Int64
  | int value => some value
  | float value =>
    if value.floor == value && -integerBound ≤ value && value < integerBound then
      some value.toInt64
    else none
  | _ => none

/-- The text of a string. -/
def asString? : Value → Option String
  | str text => some text
  | _ => none

end Value

/-- The number of arguments that a primitive still waits for. -/
def Builtin.missing (op : Builtin) (held : List ThunkId) : Nat :=
  op.arity - held.length

end LazyConfig
