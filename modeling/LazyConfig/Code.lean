import LazyConfig.Builtin
import LazyConfig.Name
import LazyConfig.Operator

/-! Expressions and type expressions, stored flat and linked by position. -/

namespace LazyConfig

/-- The position of an expression in its code. -/
abbrev ExprId := Nat

/-- The position of a type expression in its code. -/
abbrev TypeExprId := Nat

/-- A type as it is written, with aliases by name. -/
inductive TypeExpr
  | num | str | bool
  /-- Accepts any value. -/
  | dyn
  | list (elem : TypeExprId)
  /-- Exactly these fields. -/
  | record (fields : List (Name × TypeExprId))
  /-- Any fields, all of one type. -/
  | dict (elem : TypeExprId)
  | fn (param result : TypeExprId)
  | forAll (var : Name) (body : TypeExprId)
  | var (name : Name)
  | aliasRef (name : Name)
  deriving DecidableEq, Inhabited

/-- A field of a record literal, whose annotation is checked when the field is forced. -/
structure Field where
  name : Name
  type : Option TypeExprId
  value : ExprId
  deriving DecidableEq, Inhabited

/-- One definition of a group of type aliases. -/
structure AliasDef where
  name : Name
  type : TypeExprId
  deriving DecidableEq, Inhabited

/-- An expression whose parts are given by position. -/
inductive Expr
  | int (value : Int64)
  | float (value : Float)
  | str (text : Name)
  | bool (value : Bool)
  | ident (name : Name)
  | lambda (param : Name) (body : ExprId)
  | apply (func arg : ExprId)
  /-- The name is bound in the value too. -/
  | letIn (name : Name) (value body : ExprId)
  | cond (test whenTrue whenFalse : ExprId)
  | binary (op : BinaryOp) (left right : ExprId)
  | unary (op : UnaryOp) (operand : ExprId)
  | list (items : List ExprId)
  | record (fields : List Field)
  | field (receiver : ExprId) (name : Name)
  /-- A primitive with some of its arguments. -/
  | builtin (op : Builtin) (args : List ExprId)
  /-- A value checked against a type. -/
  | ascribe (value : ExprId) (type : TypeExprId)
  /-- Aliases that are visible to each other and in the body. -/
  | aliases (defs : List AliasDef) (body : ExprId)

instance : Inhabited Expr := ⟨.bool false⟩

namespace TypeExpr

/-- The type expressions directly below one. -/
def children : TypeExpr → List TypeExprId
  | list elem | dict elem => [elem]
  | record fields => fields.map Prod.snd
  | fn param result => [param, result]
  | forAll _ body => [body]
  | _ => []

/-- Whether a type expression is a structural constructor, which guards the references below it. -/
def isConstructor : TypeExpr → Bool
  | list _ | record _ | dict _ | fn _ _ => true
  | _ => false

end TypeExpr

namespace Expr

/-- The expressions directly below one, from left to right. -/
def children : Expr → List ExprId
  | int _ | float _ | str _ | bool _ | ident _ => []
  | lambda _ body => [body]
  | apply func arg => [func, arg]
  | letIn _ value body => [value, body]
  | cond test whenTrue whenFalse => [test, whenTrue, whenFalse]
  | binary _ left right => [left, right]
  | unary _ operand => [operand]
  | list items => items
  | record fields => fields.map Field.value
  | field receiver _ => [receiver]
  | builtin _ args => args
  | ascribe value _ => [value]
  | aliases _ body => [body]

/-- The type expressions that an expression refers to directly. -/
def types : Expr → List TypeExprId
  | record fields => fields.filterMap Field.type
  | ascribe _ type => [type]
  | aliases defs _ => defs.map AliasDef.type
  | _ => []

end Expr

/-- All expressions and type expressions of a program, in the order of their creation. -/
structure Code where
  exprs : Array Expr := #[]
  types : Array TypeExpr := #[]
  deriving Inhabited

namespace Code

/-- The expression at a position. -/
def expr (code : Code) (id : ExprId) : Expr :=
  code.exprs[id]?.getD default

/-- The type expression at a position. -/
def type (code : Code) (id : TypeExprId) : TypeExpr :=
  code.types[id]?.getD default

/-- Every node refers only to nodes created before it. -/
structure ChildrenFirst (code : Code) : Prop where
  exprs : ∀ id (h : id < code.exprs.size), ∀ child ∈ code.exprs[id].children, child < id
  annotations : ∀ id (h : id < code.exprs.size), ∀ type ∈ code.exprs[id].types,
    type < code.types.size
  types : ∀ id (h : id < code.types.size), ∀ child ∈ code.types[id].children, child < id

end Code

end LazyConfig
