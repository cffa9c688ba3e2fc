import LazyConfig.Machine.Step

/-!
The values of an evaluator without a store. A part of a value is a promise: what is to be done to
get it, along with everything that this needs, done anew whenever the part is asked for.
-/

namespace LazyConfig

/-- What kind of failure a fault is; its texts, places and numbers are left out. -/
inductive Variant
  | unboundIdentifier | missingField | duplicateField
  | notCallable | arityMismatch | nativeFailure
  | notARecord | notAList | unexpectedType | operandMismatch
  | divisionByZero | integerOverflow | domainError | indexOutOfBounds | emptyList
  | typeMismatch | unresolvedType
  | infiniteRecursion | stackOverflow | interrupted
  deriving DecidableEq

/-- The kind of a fault; counts, indices and bounds that are out of range are of one kind. -/
def Fault.variant : Fault → Variant
  | unbound _ => .unboundIdentifier
  | missingField _ => .missingField
  | duplicateField _ => .duplicateField
  | notCallable _ => .notCallable
  | tooManyArguments _ _ => .arityMismatch
  | hostFailure _ _ => .nativeFailure
  | notARecord _ _ => .notARecord
  | notAList _ _ => .notAList
  | unexpectedKind _ _ _ => .unexpectedType
  | operandMismatch _ _ _ => .operandMismatch
  | divisionByZero => .divisionByZero
  | integerOverflow _ => .integerOverflow
  | lengthOverflow _ | badIndex _ | badBound _ => .domainError
  | indexOutOfBounds _ _ => .indexOutOfBounds
  | emptyList _ => .emptyList
  | typeMismatch _ _ => .typeMismatch
  | unresolvedType => .unresolvedType
  | infiniteRecursion => .infiniteRecursion
  | depthExceeded _ => .stackOverflow
  | interrupted => .interrupted

/-- Whether a fault lies in the program, and not in remembering values or in the limit of levels. -/
def Fault.ordinary : Fault → Bool
  | infiniteRecursion | depthExceeded _ => false
  | _ => true

namespace ByName

mutual

/-- What is to be done to get a value. -/
inductive Promise
  /-- Nothing, since the value is there. -/
  | ready (value : Value)
  /-- Evaluates an expression. -/
  | expr (body : ExprId) (env : List (Name × Promise))
  /-- Evaluates an expression in which a name stands for this very promise. -/
  | recursive (name : Name) (body : ExprId) (env : List (Name × Promise))
  /-- Applies a function to arguments, from left to right. -/
  | apply (func : Promise) (args : List Promise)
  /-- Checks a value against a type. -/
  | check (inner : Promise) (type : TypeId)
  /-- Produces the next part of a checked list. -/
  | checkList (source : List Segment) (elem : TypeId)

/-- A stretch of a list. -/
inductive Segment
  | item (promise : Promise)
  /-- The integers from `next` up to but not including `stop`, of which there is at least one. -/
  | range (next stop : Int64)
  /-- The elements of the list that a promise gives. -/
  | joint (right : Promise)

/-- A value whose outermost form is known. -/
inductive Value
  | int (value : Int64)
  | float (value : Float)
  | bool (value : Bool)
  | str (text : String)
  | list (items : List Segment)
  /-- Field names in increasing order, and what gives their values. -/
  | record (fields : List (String × Promise))
  | closure (param : Name) (body : ExprId) (env : List (Name × Promise))
  /-- A primitive that waits for more arguments. -/
  | builtin (op : Builtin) (held : List Promise)

end

/-- The variables around an expression, innermost first. -/
abbrev Env := List (Name × Promise)

/-- The fields of a record. -/
abbrev Fields := List (String × Promise)

namespace Segment

/-- The integers between two bounds, if there are any. -/
def span (next stop : Int64) : List Segment :=
  if next < stop then [.range next stop] else []

/-- The elements of a record, in the order of the names. -/
def ofFields (fields : Fields) : List Segment :=
  fields.map fun field => .item field.2

end Segment

/-- The record with the given fields; the last of a name counts. -/
def Fields.ofEntries (entries : Fields) : Fields :=
  entries.foldl (fun fields entry => Record.place entry.1 entry.2 fields) []

namespace Value

/-- A value without its parts, which is all that operators look at. -/
def outer : Value → LazyConfig.Value
  | int value => .int value
  | float value => .float value
  | bool value => .bool value
  | str text => .str text
  | list _ => .list .empty
  | record _ => .record .empty
  | closure _ _ _ => .closure default
  | builtin op _ => .builtin op []

/-- The result of an operator, which has no parts. -/
def ofScalar : LazyConfig.Value → Value
  | .int value => .int value
  | .float value => .float value
  | .str text => .str text
  | .bool value => .bool value
  | _ => .bool false

/-- What a value is. -/
def kind (value : Value) : Kind :=
  value.outer.kind

end Value

/-! Checks, which look at the outermost form only. -/

/-- Puts off the check of a part; a part that may be anything stays as it is. -/
def Promise.wrap (graph : TypeGraph) (inner : Promise) (type : TypeId) : Promise :=
  if graph.acceptsAll type then inner else .check inner type

/-- The declared fields of a record, each put off to be checked, unless one is missing. -/
def Fields.wrapDeclared (names : NameTable) (graph : TypeGraph) (fields : Fields) :
    List (Name × TypeId) → Except Variant Fields
  | [] => .ok []
  | (name, type) :: rest =>
    match fields.lookup (names.lookup name) with
    | none => .error .typeMismatch
    | some inner =>
      (wrapDeclared names graph fields rest).map fun others =>
        (names.lookup name, inner.wrap graph type) :: others

/-- Checks the set of fields of a record, and the types of the fields on demand. -/
def Fields.check (names : NameTable) (graph : TypeGraph) (fields : Fields)
    (declared : List (Name × TypeId)) : Except Variant Value :=
  match fields.wrapDeclared names graph declared with
  | .error variant => .error variant
  | .ok checked =>
    if fields.all fun field => checked.any fun entry => entry.1 == field.1 then
      .ok (.record checked.ofEntries)
    else .error .typeMismatch

/-- Checks the outermost form of a value against a type. -/
def Value.check (names : NameTable) (graph : TypeGraph) (value : Value) (type : TypeId) :
    Except Variant Value :=
  let accept (kind : Kind) : Except Variant Value :=
    if value.kind = kind then .ok value else .error .typeMismatch
  match graph.node (graph.shape type), value with
  | .dyn, _ | .var _, _ => .ok value
  | .aliasSlot _ _, _ | .forAll _ _, _ => .error .unresolvedType
  -- A list passes at once, and its elements are checked as they are walked.
  | .list elem, .list items => .ok (.list [.joint (.checkList items elem)])
  | .record declared, .record fields => Fields.check names graph fields declared
  | .dict elem, .record fields =>
    .ok (.record (Fields.ofEntries (fields.map fun (name, inner) => (name, inner.wrap graph elem))))
  | .num, _ => accept .num
  | .str, _ => accept .str
  | .bool, _ => accept .bool
  | .fn _ _, _ => accept .function
  | .list _, _ | .record _, _ | .dict _, _ => .error .typeMismatch

end ByName

end LazyConfig
