import LazyConfig.Code

/-! Building code from plain texts: every step interns the names it is given and adds one node. -/

namespace LazyConfig

/-- Code under construction and the names used in it. -/
structure Draft where
  names : NameTable := {}
  code : Code := {}
  deriving Inhabited

/-- A step of building code. -/
abbrev Build := StateM Draft

namespace Build

/-- The name of a text. -/
def name (text : String) : Build Name := fun draft =>
  let (name, names) := draft.names.intern text
  (name, { draft with names })

/-- Adds an expression. -/
def expr (node : Expr) : Build ExprId := fun draft =>
  let ⟨names, exprs, types⟩ := draft
  (exprs.size, ⟨names, exprs.push node, types⟩)

/-- Adds a type expression. -/
def type (node : TypeExpr) : Build TypeExprId := fun draft =>
  let ⟨names, exprs, types⟩ := draft
  (types.size, ⟨names, exprs, types.push node⟩)

/-- The names of several texts, in order. -/
def namesOf : List String → Build (List Name)
  | [] => pure []
  | text :: rest => do
    let first ← name text
    let others ← namesOf rest
    pure (first :: others)

/-! Literals and variables. -/

/-- An integer literal. -/
def int (value : Int64) : Build ExprId :=
  expr (.int value)

/-- A floating-point literal. -/
def float (value : Float) : Build ExprId :=
  expr (.float value)

/-- A string literal. -/
def str (text : String) : Build ExprId := do
  let text ← name text
  expr (.str text)

/-- A truth value. -/
def bool (value : Bool) : Build ExprId :=
  expr (.bool value)

/-- A variable. -/
def ident (text : String) : Build ExprId := do
  let name ← name text
  expr (.ident name)

/-! Functions. -/

/-- A function of one parameter. -/
def lambda (param : String) (body : ExprId) : Build ExprId := do
  let param ← name param
  expr (.lambda param body)

/-- A curried function; the innermost parameter is built first. -/
def lambdas : List String → ExprId → Build ExprId
  | [], body => pure body
  | param :: rest, body => do
    let inner ← lambdas rest body
    lambda param inner

/-- An application to one argument. -/
def apply (func arg : ExprId) : Build ExprId :=
  expr (.apply func arg)

/-- An application to several arguments, from left to right. -/
def call : ExprId → List ExprId → Build ExprId
  | func, [] => pure func
  | func, arg :: rest => do
    let applied ← apply func arg
    call applied rest

/-- An application of a variable to several arguments. -/
def callNamed (func : String) (args : List ExprId) : Build ExprId := do
  let func ← ident func
  call func args

/-! Bindings, choices and operators. -/

/-- A recursive binding. -/
def letIn (text : String) (value body : ExprId) : Build ExprId := do
  let name ← name text
  expr (.letIn name value body)

/-- A value checked against a type. -/
def ascribe (value : ExprId) (type : TypeExprId) : Build ExprId :=
  expr (.ascribe value type)

/-- A recursive binding of a checked value. -/
def letTyped (text : String) (type : TypeExprId) (value body : ExprId) : Build ExprId := do
  let value ← ascribe value type
  letIn text value body

/-- A choice between two branches. -/
def cond (test whenTrue whenFalse : ExprId) : Build ExprId :=
  expr (.cond test whenTrue whenFalse)

/-- An operator between two operands. -/
def binary (op : BinaryOp) (left right : ExprId) : Build ExprId :=
  expr (.binary op left right)

/-- An operator before its operand. -/
def unary (op : UnaryOp) (operand : ExprId) : Build ExprId :=
  expr (.unary op operand)

/-! Lists, records and primitives. -/

/-- A list literal. -/
def list (items : List ExprId) : Build ExprId :=
  expr (.list items)

/-- The fields of a record literal, their names interned in order. -/
def fields : List (String × Option TypeExprId × ExprId) → Build (List Field)
  | [] => pure []
  | (text, type, value) :: rest => do
    let name ← name text
    let others ← fields rest
    pure (⟨name, type, value⟩ :: others)

/-- A record literal whose fields may carry annotations. -/
def recordTyped (entries : List (String × Option TypeExprId × ExprId)) : Build ExprId := do
  let fields ← fields entries
  expr (.record fields)

/-- A record literal without annotations. -/
def record (entries : List (String × ExprId)) : Build ExprId :=
  recordTyped (entries.map fun (text, value) => (text, none, value))

/-- An access to one field. -/
def field (receiver : ExprId) (text : String) : Build ExprId := do
  let name ← name text
  expr (.field receiver name)

/-- An access along a path of fields. -/
def fieldPath : ExprId → List String → Build ExprId
  | receiver, [] => pure receiver
  | receiver, text :: rest => do
    let inner ← field receiver text
    fieldPath inner rest

/-- A primitive with some of its arguments. -/
def builtin (op : Builtin) (args : List ExprId) : Build ExprId :=
  expr (.builtin op args)

/-- A primitive given by its reserved name, if there is one. -/
def builtinNamed? (text : String) (args : List ExprId) : Build (Option ExprId) :=
  match Builtin.ofName? text with
  | some op => some <$> builtin op args
  | none => pure none

/-! Types. -/

/-- Names paired with the types they stand before, interned in order. -/
def typeFields : List (String × TypeExprId) → Build (List (Name × TypeExprId))
  | [] => pure []
  | (text, type) :: rest => do
    let name ← name text
    let others ← typeFields rest
    pure ((name, type) :: others)

/-- A group of aliases around a body. -/
def aliasGroup (defs : List (String × TypeExprId)) (body : ExprId) : Build ExprId := do
  let defs ← typeFields defs
  expr (.aliases (defs.map fun (name, type) => ⟨name, type⟩) body)

/-- One alias around a body. -/
def aliasIn (text : String) (type : TypeExprId) (body : ExprId) : Build ExprId :=
  aliasGroup [(text, type)] body

/-- A record type. -/
def tyRecord (fields : List (String × TypeExprId)) : Build TypeExprId := do
  let fields ← typeFields fields
  type (.record fields)

/-- A function type. -/
def tyFn (param result : TypeExprId) : Build TypeExprId :=
  type (.fn param result)

/-- A curried function type; the innermost arrow is built first. -/
def tyFns : List TypeExprId → TypeExprId → Build TypeExprId
  | [], result => pure result
  | param :: rest, result => do
    let inner ← tyFns rest result
    tyFn param inner

/-- A type that is generic in several variables; the innermost is built first. -/
def tyForAll : List String → TypeExprId → Build TypeExprId
  | [], body => pure body
  | text :: rest, body => do
    let inner ← tyForAll rest body
    let var ← name text
    type (.forAll var inner)

/-- A type variable. -/
def tyVar (text : String) : Build TypeExprId := do
  let name ← name text
  type (.var name)

/-- A reference to an alias. -/
def tyAlias (text : String) : Build TypeExprId := do
  let name ← name text
  type (.aliasRef name)

end Build

end LazyConfig
