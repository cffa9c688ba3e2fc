/-! The infix and prefixed operators of the language and their spellings. -/

namespace LazyConfig

/-- Operators written between two operands. -/
inductive BinaryOp
  | add | sub | mul | div | rem
  | eq | ne | lt | le | gt | ge
  | and | or
  | append
  | concat
  deriving DecidableEq, Inhabited

/-- Operators written before their operand. -/
inductive UnaryOp
  | not | neg
  deriving DecidableEq, Inhabited

namespace BinaryOp

/-- Every binary operator, in the order in which they are listed. -/
def all : List BinaryOp :=
  [add, sub, mul, div, rem, eq, ne, lt, le, gt, ge, and, or, append, concat]

/-- The spelling of an operator; `++` joins strings and `@` joins lists. -/
def symbol : BinaryOp → String
  | add => "+"
  | sub => "-"
  | mul => "*"
  | div => "/"
  | rem => "%"
  | eq => "=="
  | ne => "!="
  | lt => "<"
  | le => "<="
  | gt => ">"
  | ge => ">="
  | and => "&&"
  | or => "||"
  | append => "++"
  | concat => "@"

/-- The operator with a given spelling. -/
def ofSymbol? (text : String) : Option BinaryOp :=
  all.find? fun op => op.symbol == text

end BinaryOp

namespace UnaryOp

/-- Every unary operator, in the order in which they are listed. -/
def all : List UnaryOp :=
  [not, neg]

/-- The spelling of an operator. -/
def symbol : UnaryOp → String
  | not => "!"
  | neg => "-"

/-- The operator with a given spelling. -/
def ofSymbol? (text : String) : Option UnaryOp :=
  all.find? fun op => op.symbol == text

end UnaryOp

end LazyConfig
