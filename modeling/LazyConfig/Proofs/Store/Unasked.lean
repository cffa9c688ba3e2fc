import LazyConfig.Proofs.Store.Extension
import LazyConfig.Value.Text

/-!
A computation that nothing asks for. Whatever becomes of it meanwhile, the operations on a store do the same to the
others; and as long as it has no value, looks at values show the same.
-/

namespace LazyConfig

namespace Store

/-- Gives a computation a new state in a store that comes with a result. -/
def setIn {α : Type} (id : ThunkId) (cell : Cell) (result : α × Store) : α × Store :=
  (result.1, result.2.set id cell)

variable {store : Store} {id : ThunkId} {cell : Cell}

/-! Operations that add computations. -/

section

variable (inside : id < store.cells.size)
include inside

/-- A computation is added where it would be added otherwise. -/
theorem alloc_set (other : Cell) : (store.set id cell).alloc other = setIn id cell (store.alloc other) := by
  have later : id < (store.cells.push other).size := by simpa using Nat.lt_succ_of_lt inside
  have pushed : (store.cells.set id cell inside).push other = (store.cells.push other).set id cell later := by
    rw [Array.set_push, dif_pos inside]
  simp only [alloc, set, setIn, Array.setIfInBounds_def, dif_pos inside, dif_pos later, pushed, Array.size_set]

theorem ready_set (value : Value) : (store.set id cell).ready value = setIn id cell (store.ready value) :=
  alloc_set inside _

theorem suspend_setIn (work : Suspension) : (store.set id cell).suspend work = setIn id cell (store.suspend work) :=
  alloc_set inside _

omit inside in
theorem closure_set (param : Name) (body : ExprId) (env : Env) :
    (store.set id cell).closure param body env = setIn id cell (store.closure param body env) :=
  rfl

theorem readyAll_set (values : List Value) :
    (store.set id cell).readyAll values = setIn id cell (store.readyAll values) := by
  induction values generalizing store with
  | nil => rfl
  | cons value rest ih =>
    simp only [readyAll, ready_set inside, setIn, ih (Nat.lt_of_lt_of_le inside (store.ready_extends value).1)]

theorem fieldsOf_set (record : Record) :
    (store.set id cell).fieldsOf record = setIn id cell (store.fieldsOf record) := by
  simp only [fieldsOf, readyAll_set inside, setIn]

theorem mapEntries_set (func : ThunkId) (entries : List Entry) :
    (store.set id cell).mapEntries func entries = setIn id cell (store.mapEntries func entries) := by
  induction entries generalizing store with
  | nil => rfl
  | cons entry rest ih =>
    have key := Nat.lt_of_lt_of_le inside (store.ready_extends (.str entry.1)).1
    have field := Nat.lt_of_lt_of_le key (suspend_extends _ (.apply func [(store.ready (.str entry.1)).1, entry.2])).1
    simp only [mapEntries, ready_set inside, setIn, suspend_setIn key, ih field]

theorem mapFields_set (func : ThunkId) (record : Record) :
    (store.set id cell).mapFields func record = setIn id cell (store.mapFields func record) := by
  simp only [mapFields, mapEntries_set inside, setIn]

/-! Checks. -/

theorem wrap_set (graph : TypeGraph) (inner : ThunkId) (type : TypeId) (path : Path) :
    (store.set id cell).wrap graph inner type path = setIn id cell (store.wrap graph inner type path) := by
  unfold wrap
  split
  · rfl
  · exact suspend_setIn inside _

theorem wrapAll_set (graph : TypeGraph) (type : TypeId) (path : Path) (entries : List Entry) :
    (store.set id cell).wrapAll graph type path entries = setIn id cell (store.wrapAll graph type path entries) := by
  induction entries generalizing store with
  | nil => rfl
  | cons entry rest ih =>
    have grown := Nat.lt_of_lt_of_le inside (store.wrap_extends graph entry.2 type (path.field entry.1)).1
    simp only [wrapAll, wrap_set inside, setIn, ih grown]

theorem wrapDeclared_set (names : NameTable) (graph : TypeGraph) (record : Record) (path : Path)
    (fields : List (Name × TypeId)) :
    (store.set id cell).wrapDeclared names graph record path fields =
      setIn id cell (store.wrapDeclared names graph record path fields) := by
  induction fields generalizing store with
  | nil => rfl
  | cons field rest ih =>
    simp only [wrapDeclared]
    cases record.get? (names.lookup field.1) with
    | none => rfl
    | some inner =>
      -- The first check is added behind the changed place, and so is everything after it.
      have grown := Nat.lt_of_lt_of_le inside
        (store.wrap_extends graph inner field.2 (path.field (names.lookup field.1))).1
      simp only [wrap_set inside, setIn, ih grown]
      generalize wrapDeclared _ names graph record path rest = declared
      obtain ⟨result, after⟩ := declared
      cases result <;> rfl

theorem checkRecord_set (names : NameTable) (graph : TypeGraph) (record : Record) (fields : List (Name × TypeId))
    (path : Path) :
    (store.set id cell).checkRecord names graph record fields path =
      setIn id cell (store.checkRecord names graph record fields path) := by
  simp only [checkRecord, wrapDeclared_set inside, setIn]
  generalize store.wrapDeclared names graph record path fields = declared
  obtain ⟨result, after⟩ := declared
  cases result with
  | error fault => rfl
  | ok checked => dsimp only; split <;> rfl

theorem check_set (names : NameTable) (graph : TypeGraph) (value : Value) (type : TypeId) (path : Path) :
    (store.set id cell).check names graph value type path =
      setIn id cell (store.check names graph value type path) := by
  unfold check
  dsimp only
  split <;> try rfl
  · simp only [suspend_setIn inside, setIn]
  · exact checkRecord_set inside ..
  · simp only [wrapAll_set inside, setIn]
  all_goals split <;> rfl

theorem checkCell_set (graph : TypeGraph) (head : ThunkId) (rest : LazyList) (elem : TypeId) (path : Path)
    (index : Nat) :
    (store.set id cell).checkCell graph head rest elem path index =
      setIn id cell (store.checkCell graph head rest elem path index) := by
  have grown := Nat.lt_of_lt_of_le inside (store.wrap_extends graph head elem (path.index index)).1
  simp only [checkCell, wrap_set inside, setIn, suspend_setIn grown]

end

/-! Looks at values. -/

section

variable (inside : id < store.cells.size) (waits : ∀ value, store.cell id ≠ .forced value)
  (still : ∀ value, cell ≠ .forced value)
include inside waits still

theorem peek?_set (other : ThunkId) : (store.set id cell).peek? other = store.peek? other := by
  have none {store : Store} (waits : ∀ value, store.cell id ≠ .forced value) : store.peek? id = .none := by
    rw [peek?]
    split
    · exact absurd ‹_› (waits _)
    · rfl
  by_cases same : other = id
  · subst same
    rw [none waits, none]
    rwa [cell_set_self inside]
  · rw [peek?, peek?, cell_set_of_ne same]

theorem walk_set (limit : Option Nat) (fuel : Nat) (stack : List (Option LazyList)) (seen : Array Visible) :
    (store.set id cell).walk limit fuel stack seen = store.walk limit fuel stack seen := by
  induction fuel generalizing stack seen with
  | zero => rfl
  | succ fuel ih =>
    cases stack with
    | nil => rfl
    | cons first rest =>
      cases first with
      | none => rfl
      | some items => cases items <;> simp only [walk, ih, evaluatedList?, peek?_set inside waits still]

theorem write_set (fuel : Nat) (pieces : List Piece) (out : String) :
    (store.set id cell).write fuel pieces out = store.write fuel pieces out := by
  induction fuel generalizing pieces out with
  | zero => rfl
  | succ fuel ih =>
    cases pieces with
    | nil => rfl
    | cons piece rest =>
      cases piece with
      | text text => simp only [write, ih]
      | element element => cases element <;> simp only [write, visible?, ih, peek?_set inside waits still]
      | value value => cases value <;> simp only [write, elements?, ih, walk_set inside waits still]

theorem quoted_set (value : Value) : (store.set id cell).quoted value = store.quoted value := by
  rw [quoted, quoted, display?, display?, write_set inside waits still]

end

end Store

/-! Putting off expressions. -/

namespace Context

open Store

variable {context : Context} {store : Store} {id : ThunkId} {cell : Cell} (inside : id < store.cells.size)
include inside

theorem suspend_set (body : ExprId) (env : Env) :
    context.suspend (store.set id cell) body env = setIn id cell (context.suspend store body env) := by
  unfold suspend
  split
  · split
    · rfl
    · exact Store.suspend_setIn inside _
  · exact ready_set inside _
  · exact ready_set inside _
  · exact ready_set inside _
  · exact ready_set inside _
  · -- A function is numbered in both stores alike.
    rename_i param code _
    have grown := Nat.lt_of_lt_of_le inside (store.closure_extends param code env).1
    simp only [closure_set, setIn, ready_set grown]
  · exact Store.suspend_setIn inside _

theorem suspendAll_set (env : Env) (ids : List ExprId) :
    context.suspendAll env ids (store.set id cell) = setIn id cell (context.suspendAll env ids store) := by
  induction ids generalizing store with
  | nil => rfl
  | cons first rest ih =>
    have grown := Nat.lt_of_lt_of_le inside (context.suspend_extends store first env).1
    simp only [suspendAll, suspend_set inside, setIn, ih grown]

theorem suspendFields_set (env : Env) (fields : List Field) (record : Record) :
    context.suspendFields env fields record (store.set id cell) =
      setIn id cell (context.suspendFields env fields record store) := by
  induction fields generalizing store record with
  | nil => rfl
  | cons field rest ih =>
    have grown := Nat.lt_of_lt_of_le inside (context.suspend_extends store field.value env).1
    simp only [suspendFields, suspend_set inside, setIn]
    generalize context.suspend store field.value env = put at grown
    cases field.type with
    | none => dsimp only; split <;> simp only [ih grown, setIn]
    | some type =>
      dsimp only
      cases context.annotations.get? type with
      | none => rfl
      | some type =>
        have further := Nat.lt_of_lt_of_le grown (put.2.suspend_extends
          (.check put.1 type (Path.root.field (context.names.lookup field.name)))).1
        simp only [Option.map_some, Store.suspend_setIn grown, setIn]
        split <;> simp only [ih further, setIn]

theorem bindRecursive_set (env : Env) (name : Name) (value : ExprId) :
    bindRecursive (store.set id cell) env name value = setIn id cell (bindRecursive store env name value) := by
  rw [bindRecursive_eq, bindRecursive_eq, set_size, Store.suspend_setIn inside]
  rfl

end Context

end LazyConfig
