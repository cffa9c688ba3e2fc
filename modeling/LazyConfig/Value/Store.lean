import LazyConfig.Fault
import LazyConfig.Types.Graph

/-! The store: every suspended computation, run at most once, and its outcome. -/

namespace LazyConfig

/-- Work that is put off until its result is asked for. -/
inductive Suspension
  /-- Evaluates an expression. -/
  | expr (body : ExprId) (env : Env)
  /-- Applies a function to arguments, from left to right. -/
  | apply (func : ThunkId) (args : List ThunkId)
  /-- Checks a value against a type. -/
  | check (inner : ThunkId) (type : TypeId) (path : Path)
  /-- Produces the next part of a checked list. -/
  | checkList (source : LazyList) (elem : TypeId) (path : Path) (index : Nat)

/-- The state of one suspended computation. -/
inductive Cell
  | suspended (work : Suspension)
  | inProgress
  | forced (value : Value)
  | failed (error : EvalError)

instance : Inhabited Cell := ⟨.inProgress⟩

/-- One call of a host function, with the text of its argument at that moment. -/
structure HostCall where
  host : String
  argument : String
  deriving DecidableEq, Inhabited

/-- All suspended computations, and what else is noted while programs run. -/
structure Store where
  cells : Array Cell := #[]
  /-- The number of closures made so far. -/
  closures : Nat := 0
  /-- The calls of host functions, oldest first. -/
  calls : Array HostCall := #[]
  deriving Inhabited

namespace Store

/-- The state of a computation. -/
def cell (store : Store) (id : ThunkId) : Cell :=
  store.cells[id]?.getD default

/-- Adds a computation. -/
def alloc (store : Store) (cell : Cell) : ThunkId × Store :=
  let ⟨cells, closures, calls⟩ := store
  (cells.size, ⟨cells.push cell, closures, calls⟩)

/-- Gives a computation a new state. -/
def set (store : Store) (id : ThunkId) (cell : Cell) : Store :=
  let ⟨cells, closures, calls⟩ := store
  ⟨cells.setIfInBounds id cell, closures, calls⟩

/-- Adds a computation that already has a value. -/
def ready (store : Store) (value : Value) : ThunkId × Store :=
  store.alloc (.forced value)

/-- Adds a computation that is put off. -/
def suspend (store : Store) (work : Suspension) : ThunkId × Store :=
  store.alloc (.suspended work)

/-- Points an expression that is put off at another environment; a computation that has started stays. -/
def closeOver (store : Store) (id : ThunkId) (env : Env) : Store :=
  match store.cell id with
  | .suspended (.expr body _) => store.set id (.suspended (.expr body env))
  | _ => store

/-- Adds several computations that already have values. -/
def readyAll (store : Store) : List Value → List ThunkId × Store
  | [] => ([], store)
  | value :: rest =>
    let (id, store) := store.ready value
    let (ids, store) := store.readyAll rest
    (id :: ids, store)

/-- A new function value, different from all made before. -/
def closure (store : Store) (param : Name) (body : ExprId) (env : Env) : Value × Store :=
  let ⟨cells, closures, calls⟩ := store
  (.closure ⟨closures, param, body, env⟩, ⟨cells, closures + 1, calls⟩)

/-- Notes a call of a host function. -/
def record (store : Store) (call : HostCall) : Store :=
  let ⟨cells, closures, calls⟩ := store
  ⟨cells, closures, calls.push call⟩

/-- The value of a computation that has succeeded. -/
def peek? (store : Store) (id : ThunkId) : Option Value :=
  match store.cell id with
  | .forced value => some value
  | _ => none

/-- Whether a computation has ended, with a value or a failure. -/
def isEvaluated (store : Store) (id : ThunkId) : Bool :=
  match store.cell id with
  | .forced _ | .failed _ => true
  | _ => false

/-! Reading the fields of records, which evaluates none of them. -/

/-- The list of a record's field names. -/
def fieldsOf (store : Store) (record : Record) : LazyList × Store :=
  let (names, store) := store.readyAll (record.names.map .str)
  (.ofThunks names, store)

/-- Puts off the application of a function to each field's name and value. -/
def mapEntries (store : Store) (func : ThunkId) : List Entry → List Entry × Store
  | [] => ([], store)
  | (name, value) :: rest =>
    let (key, store) := store.ready (.str name)
    let (mapped, store) := store.suspend (.apply func [key, value])
    let (entries, store) := store.mapEntries func rest
    ((name, mapped) :: entries, store)

/-- A record with the same field names, each field the application of a function to the old one. -/
def mapFields (store : Store) (func : ThunkId) (record : Record) : Record × Store :=
  let (entries, store) := store.mapEntries func record.entries
  (.ofEntries entries, store)

end Store

end LazyConfig
