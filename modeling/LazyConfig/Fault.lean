import LazyConfig.Path
import LazyConfig.Value.Basic

/-! Why an evaluation fails, and the texts that say so. -/

namespace LazyConfig

/-- A place that asks for a value of a certain kind. -/
inductive Place
  | fieldAccess
  | concatLeft
  | concatRight
  | argumentOf (op : Builtin)
  | condition
  | logicLeft
  | logicRight
  | negation
  | minus
  | fieldName
  deriving DecidableEq, Inhabited

/-- The text of a place in messages. -/
def Place.text : Place → String
  | fieldAccess => "field access"
  | concatLeft => "left operand of `@`"
  | concatRight => "right operand of `@`"
  | argumentOf op => op.name
  | condition => "`if` condition"
  | logicLeft => "left operand of a logical operator"
  | logicRight => "right operand of a logical operator"
  | negation => "`!`"
  | minus => "unary `-`"
  | fieldName => "`hasField`"

/-- How a value differs from the type it is checked against. -/
inductive Mismatch
  /-- The value is of another kind than the type, given by its text. -/
  | kind (expected : String) (found : Kind)
  /-- The type asks for a field that the value lacks; the text is that of the field's type. -/
  | missing (expected : String)
  /-- The value has a field that the type does not name. -/
  | unexpected
  deriving DecidableEq, Inhabited

namespace Mismatch

/-- What was asked for. -/
def expectedText : Mismatch → String
  | kind expected _ | missing expected => expected
  | unexpected => "no such field"

/-- What was there. -/
def foundText : Mismatch → String
  | kind _ found => found.name
  | missing _ => "missing field"
  | unexpected => "unexpected field"

end Mismatch

/-- The cause of a failed evaluation. -/
inductive Fault
  | unbound (name : String)
  | missingField (name : String)
  | duplicateField (name : String)
  | notCallable (found : Kind)
  | tooManyArguments (op : Builtin) (got : Nat)
  | hostFailure (host message : String)
  | notARecord (place : Place) (found : Kind)
  | notAList (place : Place) (found : Kind)
  | unexpectedKind (expected : Kind) (place : Place) (found : Kind)
  | operandMismatch (op : BinaryOp) (left right : Kind)
  | divisionByZero
  /-- The exact result of an operator is no 64-bit integer. -/
  | integerOverflow (symbol : String)
  /-- The number of elements is no 64-bit integer. -/
  | lengthOverflow (length : Nat)
  /-- An index is no whole number; the text is that of the index. -/
  | badIndex (shown : String)
  /-- A bound is negative or no whole number; the text is that of the bound. -/
  | badBound (shown : String)
  | indexOutOfBounds (index : Int64) (length : Nat)
  | emptyList (op : Builtin)
  | typeMismatch (mismatch : Mismatch) (path : Path)
  | unresolvedType
  | infiniteRecursion
  | depthExceeded (limit : Nat)
  /-- The computation was broken off by a function of the host. -/
  | interrupted
  deriving DecidableEq, Inhabited

/-- The text of a fault. -/
def Fault.message : Fault → String
  | unbound name => "unbound identifier `" ++ name ++ "`"
  | missingField name => "record has no field `" ++ name ++ "`"
  | duplicateField name => "duplicate field `" ++ name ++ "` in record literal"
  | notCallable found => found.name ++ " is not a function"
  | tooManyArguments op got =>
    "`" ++ op.name ++ "` takes " ++ toString op.arity ++ " argument(s), got " ++ toString got
  | hostFailure host message => "native function `" ++ host ++ "` failed: " ++ message
  | notARecord place found => place.text ++ " expects a record, found " ++ found.name
  | notAList place found => place.text ++ " expects a list, found " ++ found.name
  | unexpectedKind expected place found =>
    "expected " ++ expected.name ++ " in " ++ place.text ++ ", found " ++ found.name
  | operandMismatch op left right =>
    "operator `" ++ op.symbol ++ "` cannot be applied to " ++ left.name ++ " and " ++ right.name
  | divisionByZero => "division by zero"
  | integerOverflow symbol => "integer overflow in `" ++ symbol ++ "`"
  | lengthOverflow length => "length: " ++ toString length ++ " does not fit in a number"
  | badIndex shown => "elemAt: index must be an integer, got " ++ shown
  | badBound shown => "range: expected a non-negative integer, got " ++ shown
  | indexOutOfBounds index length =>
    "index " ++ toString index.toInt ++ " out of bounds for list of length " ++ toString length
  | emptyList op => op.name ++ " applied to an empty list"
  | typeMismatch mismatch path =>
    "type mismatch at `" ++ path.text ++ "`: expected " ++ mismatch.expectedText ++
      ", found " ++ mismatch.foundText
  | unresolvedType => "annotation was not resolved before evaluation"
  | infiniteRecursion => "infinite recursion: a value depends on itself"
  | depthExceeded limit =>
    "maximum evaluation depth exceeded (limit: " ++ toString limit ++ ")"
  | interrupted => "evaluation of this value panicked"

/-- A failed evaluation: the cause, and notes on what was being evaluated, innermost first. -/
structure EvalError where
  fault : Fault
  notes : List String := []
  deriving DecidableEq, Inhabited

namespace EvalError

/-- The text of the cause; notes are shown apart from it. -/
def message (error : EvalError) : String :=
  error.fault.message

/-- The same failure, seen while a field was being evaluated. -/
def whileField (error : EvalError) (name : String) : EvalError :=
  { error with notes := error.notes ++ ["while evaluating field `" ++ name ++ "`"] }

end EvalError

end LazyConfig
