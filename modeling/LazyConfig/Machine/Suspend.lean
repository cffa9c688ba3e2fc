import LazyConfig.Machine.State

/-! Putting off the evaluation of expressions. -/

namespace LazyConfig

namespace Context

/--
Puts off an expression. A variable shares what it is bound to, and literals and functions are
made at once, since that costs nothing and cannot fail.
-/
def suspend (context : Context) (store : Store) (id : ExprId) (env : Env) : ThunkId × Store :=
  match context.code.expr id with
  | .ident name =>
    match env.lookup name with
    | some bound => (bound, store)
    | none => store.suspend (.expr id env)
  | .int value => store.ready (.int value)
  | .float value => store.ready (.float value)
  | .bool value => store.ready (.bool value)
  | .str text => store.ready (.str (context.names.lookup text))
  | .lambda param body =>
    let (value, store) := store.closure param body env
    store.ready value
  | _ => store.suspend (.expr id env)

/-- Puts off several expressions, from left to right. -/
def suspendAll (context : Context) (env : Env) : List ExprId → Store → List ThunkId × Store
  | [], store => ([], store)
  | id :: rest, store =>
    let (first, store) := context.suspend store id env
    let (others, store) := context.suspendAll env rest store
    (first :: others, store)

/-- Binds a name to an expression in which the name already stands for that very expression. -/
def bindRecursive (store : Store) (env : Env) (name : Name) (value : ExprId) : Env × Store :=
  -- The computation is there before the environment that contains it.
  let (id, store) := store.suspend (.expr value {})
  let inside := env.bind name id
  (inside, store.closeOver id inside)

/-- Puts off the fields of a record literal, each with the check that its annotation asks for. -/
def suspendFields (context : Context) (env : Env) :
    List Field → Record → Store → Except Fault Record × Store
  | [], record, store => (.ok record, store)
  | field :: rest, record, store =>
    let name := context.names.lookup field.name
    let (value, store) := context.suspend store field.value env
    let checked : Option (ThunkId × Store) :=
      match field.type with
      | none => some (value, store)
      | some type =>
        (context.annotations.get? type).map fun type =>
          store.suspend (.check value type (Path.root.field name))
    match checked with
    | none => (.error .unresolvedType, store)
    | some (value, store) =>
      if record.contains name then (.error (.duplicateField name), store)
      else context.suspendFields env rest (record.insert name value) store

end Context

end LazyConfig
