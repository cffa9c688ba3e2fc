import LazyConfig.Fault
import LazyConfig.Number.Remainder

/-! Operators on evaluated operands: exact on integers, rounded as soon as one operand is a float. -/

namespace LazyConfig

/-- The 64-bit integer of an exact result, if there is one. -/
def fit? (n : Int) : Option Int64 :=
  if Int64.minValue.toInt ≤ n ∧ n ≤ Int64.maxValue.toInt then some (Int64.ofInt n) else none

namespace BinaryOp

/-- The failure of an operator on operands that it is not made for. -/
def mismatch (op : BinaryOp) (left right : Value) : Fault :=
  .operandMismatch op left.kind right.kind

/--
The exact result of an arithmetic operator; quotients are rounded toward zero, and a remainder is
only there along with its quotient.
-/
def exactResult? (op : BinaryOp) (a b : Int64) : Option Int64 :=
  match op with
  | add => fit? (a.toInt + b.toInt)
  | sub => fit? (a.toInt - b.toInt)
  | mul => fit? (a.toInt * b.toInt)
  | div => fit? (a.toInt.tdiv b.toInt)
  | _ => do
    let _ ← fit? (a.toInt.tdiv b.toInt)
    fit? (a.toInt.tmod b.toInt)

/-- Whether an operator divides. -/
def divides : BinaryOp → Bool
  | div | rem => true
  | _ => false

/-- Integer arithmetic, which is exact or fails. -/
def onIntegers (op : BinaryOp) (a b : Int64) : Except Fault Int64 :=
  if op.divides && b == 0 then .error .divisionByZero
  else
    match op.exactResult? a b with
    | some result => .ok result
    | none => .error (.integerOverflow op.symbol)

/-- Floating-point arithmetic, in which only division by zero fails. -/
def onFloats (op : BinaryOp) (a b : Float) : Except Fault Float :=
  if op.divides && b == 0.0 then .error .divisionByZero
  else
    .ok <| match op with
      | add => a + b
      | sub => a - b
      | mul => a * b
      | div => a / b
      | _ => floatRemainder a b

/-- Arithmetic on numbers of either form. -/
def arithmetic (op : BinaryOp) (left right : Value) : Except Fault Value :=
  match left, right with
  | .int a, .int b => (op.onIntegers a b).map .int
  | _, _ =>
    match left.asFloat?, right.asFloat? with
    | some a, some b => (op.onFloats a b).map .float
    | _, _ => .error (op.mismatch left right)

/-- The order of two numbers or of two strings; strings compare character by character. -/
def order (op : BinaryOp) (left right : Value) : Except Fault Ordering :=
  match left, right with
  | .int a, .int b => .ok (if a < b then .lt else if b < a then .gt else .eq)
  | .str a, .str b => .ok (if a < b then .lt else if b < a then .gt else .eq)
  | _, _ =>
    match left.asFloat?, right.asFloat? with
    | some a, some b =>
      if a < b then .ok .lt
      else if b < a then .ok .gt
      else if a == b then .ok .eq
      else .error (op.mismatch left right)
    | _, _ => .error (op.mismatch left right)

/-- Whether a comparison operator accepts an order. -/
def accepts (op : BinaryOp) (order : Ordering) : Bool :=
  match op with
  | lt => order == .lt
  | le => order != .gt
  | gt => order == .gt
  | _ => order != .lt

end BinaryOp

/-- An operator before an evaluated operand. -/
def UnaryOp.apply (op : UnaryOp) (operand : Value) : Except Fault Value :=
  match op, operand with
  | .not, .bool value => .ok (.bool !value)
  | .neg, .int value =>
    match fit? (-value.toInt) with
    | some result => .ok (.int result)
    | none => .error (.integerOverflow op.symbol)
  | .neg, .float value => .ok (.float (-value))
  | .not, other => .error (.unexpectedKind .bool .negation other.kind)
  | .neg, other => .error (.unexpectedKind .num .minus other.kind)

end LazyConfig
