/-! The primitives that the evaluator itself provides, written `%name% arguments`. -/

namespace LazyConfig

/-- A curried primitive; it runs when it holds as many arguments as its arity. -/
inductive Builtin
  | map | fieldsOf | hasField
  | head | tail | length | elemAt | range
  | seq | deepSeq
  | isNum | isStr | isBool | isList | isRecord | isFun
  deriving DecidableEq, Inhabited

namespace Builtin

/-- Every primitive, in the order in which they are listed. -/
def all : List Builtin :=
  [map, fieldsOf, hasField, head, tail, length, elemAt, range, seq, deepSeq,
    isNum, isStr, isBool, isList, isRecord, isFun]

/-- The canonical reserved name of a primitive. -/
def name : Builtin → String
  | map => "map"
  | fieldsOf => "fieldsOf"
  | hasField => "hasField"
  | head => "head"
  | tail => "tail"
  | length => "length"
  | elemAt => "elemAt"
  | range => "range"
  | seq => "seq"
  | deepSeq => "deepSeq"
  | isNum => "isNum"
  | isStr => "isStr"
  | isBool => "isBool"
  | isList => "isList"
  | isRecord => "isRecord"
  | isFun => "isFun"

/-- The primitive with a reserved name; `mapRec` is a second name of `map`. -/
def ofName? (text : String) : Option Builtin :=
  if text == "mapRec" then some map else all.find? fun op => op.name == text

/-- The number of arguments that a primitive needs before it runs. -/
def arity : Builtin → Nat
  | map | hasField | elemAt | seq | deepSeq => 2
  | _ => 1

/-- A primitive as it is written in a program. -/
def written (op : Builtin) : String :=
  "%" ++ op.name ++ "%"

end Builtin

end LazyConfig
