import LazyConfig.Types.Annotations
import LazyConfig.Types.Text
import LazyConfig.Value.Store

/-!
Checking a value against a type. Only the outermost form is looked at; parts are wrapped so that
they are checked when they are evaluated, and nothing is evaluated for the sake of a check.
-/

namespace LazyConfig

namespace TypeGraph

/-- Looks through aliases and generic variables for the node that says what a value must be. -/
def settle (graph : TypeGraph) : Nat → TypeId → TypeId
  | 0, id => id
  | fuel + 1, id =>
    match graph.node (graph.follow id) with
    | .forAll _ body => settle graph fuel body
    | _ => graph.follow id

/-- The node that says what a value of a type must be. -/
def shape (graph : TypeGraph) (id : TypeId) : TypeId :=
  -- A chain of generic types that passes more nodes than there are never ends.
  graph.settle (graph.size + 1) id

/-- Whether every value belongs to a type. -/
def acceptsAll (graph : TypeGraph) (id : TypeId) : Bool :=
  match graph.node (graph.follow id) with
  | .dyn | .var _ => true
  | _ => false

end TypeGraph

namespace Store

/-- Puts off the check of a part; a part that may be anything stays as it is. -/
def wrap (store : Store) (graph : TypeGraph) (inner : ThunkId) (type : TypeId) (path : Path) :
    ThunkId × Store :=
  if graph.acceptsAll type then (inner, store) else store.suspend (.check inner type path)

/-- Wraps every field of a record in a check against one type. -/
def wrapAll (store : Store) (graph : TypeGraph) (type : TypeId) (path : Path) :
    List Entry → List Entry × Store
  | [] => ([], store)
  | (name, inner) :: rest =>
    let (checked, store) := store.wrap graph inner type (path.field name)
    let (entries, store) := store.wrapAll graph type path rest
    ((name, checked) :: entries, store)

/-- Wraps the declared fields of a record, in the order of their declaration. -/
def wrapDeclared (store : Store) (names : NameTable) (graph : TypeGraph) (record : Record)
    (path : Path) : List (Name × TypeId) → Except Fault (List Entry) × Store
  | [] => (.ok [], store)
  | (name, type) :: rest =>
    let name := names.lookup name
    match record.get? name with
    | none => (.error (.typeMismatch (.missing (graph.display names type)) (path.field name)), store)
    | some inner =>
      let (checked, store) := store.wrap graph inner type (path.field name)
      match store.wrapDeclared names graph record path rest with
      | (.ok entries, store) => (.ok ((name, checked) :: entries), store)
      | (.error fault, store) => (.error fault, store)

/-- Checks the set of fields of a record now and the types of the fields on demand. -/
def checkRecord (store : Store) (names : NameTable) (graph : TypeGraph) (record : Record)
    (fields : List (Name × TypeId)) (path : Path) : Except Fault Value × Store :=
  match store.wrapDeclared names graph record path fields with
  | (.error fault, store) => (.error fault, store)
  | (.ok checked, store) =>
    match record.names.find? fun name => !(checked.any fun entry => entry.1 == name) with
    | some extra => (.error (.typeMismatch .unexpected (path.field extra)), store)
    | none => (.ok (.record (.ofEntries checked)), store)

/-- The failure of a value whose kind is not that of a type. -/
def kindMismatch (names : NameTable) (graph : TypeGraph) (shape : TypeId) (found : Kind)
    (path : Path) : Fault :=
  .typeMismatch (.kind (graph.display names shape) found) path

/-- Checks the outermost form of a value against a type. -/
def check (store : Store) (names : NameTable) (graph : TypeGraph) (value : Value) (type : TypeId)
    (path : Path) : Except Fault Value × Store :=
  let shape := graph.shape type
  let accept (kind : Kind) : Except Fault Value × Store :=
    if value.kind = kind then (.ok value, store)
    else (.error (kindMismatch names graph shape value.kind path), store)
  match graph.node shape, value with
  | .dyn, _ | .var _, _ => (.ok value, store)
  | .aliasSlot _ _, _ | .forAll _ _, _ => (.error .unresolvedType, store)
  | .list elem, .list items =>
    let (cells, store) := store.suspend (.checkList items elem path 0)
    (.ok (.list (.concat .empty cells)), store)
  | .record fields, .record record => store.checkRecord names graph record fields path
  | .dict elem, .record record =>
    let (entries, store) := store.wrapAll graph elem path record.entries
    (.ok (.record (.ofEntries entries)), store)
  | .num, _ => accept .num
  | .str, _ => accept .str
  | .bool, _ => accept .bool
  -- Any function will do: what it takes and gives is not checked.
  | .fn _ _, _ => accept .function
  | .list _, other => (.error (kindMismatch names graph shape other.kind path), store)
  | .record _, other => (.error (kindMismatch names graph shape other.kind path), store)
  | .dict _, other => (.error (kindMismatch names graph shape other.kind path), store)

/-- The next part of a checked list: its checked first element, and the rest put off. -/
def checkCell (store : Store) (graph : TypeGraph) (head : ThunkId) (rest : LazyList)
    (elem : TypeId) (path : Path) (index : Nat) : Value × Store :=
  let (checked, store) := store.wrap graph head elem (path.index index)
  let (tail, store) := store.suspend (.checkList rest elem path (index + 1))
  (.list (.concat (.ofThunks [checked]) tail), store)

end Store

end LazyConfig
