import LazyConfig.Machine.Suspend
import LazyConfig.Value.Check

/-! Adding computations to a store leaves the computations that are there as they are. -/

namespace LazyConfig

namespace Store

/-- Every computation of one store is in another at the same place and in the same state. -/
def Extends (before after : Store) : Prop :=
  before.cells.size ≤ after.cells.size ∧ ∀ id < before.cells.size, after.cell id = before.cell id

/-- A place that was never given out reads as a computation that is under way. -/
theorem cell_of_size_le {store : Store} {id : ThunkId} (outside : store.cells.size ≤ id) :
    store.cell id = .inProgress := by
  simp [cell, Array.getElem?_eq_none outside, default]

/-- A computation in any other state than under way has a place in the store. -/
theorem lt_size_of_cell {store : Store} {id : ThunkId} {cell : Cell}
    (found : store.cell id = cell) (other : cell ≠ .inProgress) : id < store.cells.size := by
  rcases Nat.lt_or_ge id store.cells.size with inside | outside
  · exact inside
  · exact absurd (found.symm.trans (cell_of_size_le outside)) other

/-- A computation that is put off has a place in the store. -/
theorem lt_size_of_suspended {store : Store} {id : ThunkId} {work : Suspension}
    (found : store.cell id = .suspended work) : id < store.cells.size :=
  lt_size_of_cell found nofun

@[simp] theorem alloc_fst (store : Store) (cell : Cell) : (store.alloc cell).1 = store.cells.size :=
  rfl

@[simp] theorem alloc_size (store : Store) (cell : Cell) :
    (store.alloc cell).2.cells.size = store.cells.size + 1 := by
  simp [alloc]

/-- A new computation takes the next free place, and no other place changes. -/
theorem cell_alloc (store : Store) (cell : Cell) (id : ThunkId) :
    (store.alloc cell).2.cell id = if id = store.cells.size then cell else store.cell id := by
  by_cases fresh : id = store.cells.size
  · simp [alloc, Store.cell, fresh]
  · simp only [alloc, Store.cell, Array.getElem?_push, if_neg fresh]

/-- What is put off gets the next place. -/
theorem suspend_cell (store : Store) (work : Suspension) :
    (store.suspend work).2.cell store.cells.size = .suspended work := by
  rw [suspend, cell_alloc, if_pos rfl]

@[simp] theorem set_size (store : Store) (id : ThunkId) (cell : Cell) :
    (store.set id cell).cells.size = store.cells.size := by
  simp [set]

/-- Setting the state of a computation that is there is what a look at it shows afterwards. -/
theorem cell_set_self {store : Store} {id : ThunkId} (inside : id < store.cells.size)
    (cell : Cell) : (store.set id cell).cell id = cell := by
  simp [set, Store.cell, inside]

/-- Setting the state of one computation changes no other. -/
theorem cell_set_of_ne {store : Store} {id other : ThunkId} (different : other ≠ id)
    (cell : Cell) : (store.set id cell).cell other = store.cell other := by
  simp [set, Store.cell, Array.getElem?_setIfInBounds_ne (Ne.symm different)]

/-- Of two states that a computation is given, the second counts. -/
theorem set_set (store : Store) (id : ThunkId) (first second : Cell) :
    (store.set id first).set id second = store.set id second := by
  simp [set]

namespace Extends

/-- A store extends itself. -/
@[simp] theorem refl (store : Store) : store.Extends store :=
  ⟨Nat.le_refl _, fun _ _ => rfl⟩

/-- Extending twice is extending once. -/
theorem trans {first middle last : Store} (left : first.Extends middle)
    (right : middle.Extends last) : first.Extends last := by
  refine ⟨Nat.le_trans left.1 right.1, fun id inside => ?_⟩
  rw [right.2 id (Nat.lt_of_lt_of_le inside left.1), left.2 id inside]

end Extends

/-- A new computation disturbs none that are there. -/
theorem alloc_extends (store : Store) (cell : Cell) : store.Extends (store.alloc cell).2 := by
  refine ⟨by simp, fun id inside => ?_⟩
  rw [cell_alloc, if_neg (Nat.ne_of_lt inside)]

/-- A computation that has a value from the start disturbs none that are there. -/
theorem ready_extends (store : Store) (value : Value) : store.Extends (store.ready value).2 :=
  store.alloc_extends _

/-- A computation that is put off disturbs none that are there. -/
theorem suspend_extends (store : Store) (work : Suspension) :
    store.Extends (store.suspend work).2 :=
  store.alloc_extends _

/-- Making a function adds no computation. -/
theorem closure_extends (store : Store) (param : Name) (body : ExprId) (env : Env) :
    store.Extends (store.closure param body env).2 :=
  ⟨Nat.le_refl _, fun _ _ => rfl⟩

/-- Noting a call adds no computation. -/
theorem record_extends (store : Store) (call : HostCall) : store.Extends (store.record call) :=
  ⟨Nat.le_refl _, fun _ _ => rfl⟩

/-- Several values disturb no computation that is there. -/
theorem readyAll_extends (values : List Value) (store : Store) :
    store.Extends (store.readyAll values).2 := by
  induction values generalizing store with
  | nil => exact .refl store
  | cons value rest ih => exact (store.ready_extends value).trans (ih _)

/-- Listing field names disturbs no computation that is there. -/
theorem fieldsOf_extends (store : Store) (record : Record) :
    store.Extends (store.fieldsOf record).2 :=
  readyAll_extends _ store

/-- Putting off applications to fields disturbs no computation that is there. -/
theorem mapEntries_extends (func : ThunkId) (entries : List Entry) (store : Store) :
    store.Extends (store.mapEntries func entries).2 := by
  induction entries generalizing store with
  | nil => exact .refl store
  | cons entry rest ih =>
    exact ((store.ready_extends _).trans (suspend_extends _ _)).trans (ih _)

/-- Mapping a function over a record disturbs no computation that is there. -/
theorem mapFields_extends (store : Store) (func : ThunkId) (record : Record) :
    store.Extends (store.mapFields func record).2 :=
  mapEntries_extends func record.entries store

/-! Checks evaluate nothing: they only add computations. -/

/-- Wrapping a part in a check disturbs no computation that is there. -/
theorem wrap_extends (store : Store) (graph : TypeGraph) (inner : ThunkId) (type : TypeId)
    (path : Path) : store.Extends (store.wrap graph inner type path).2 := by
  unfold wrap
  split
  · exact .refl store
  · exact store.suspend_extends _

/-- Wrapping all fields disturbs no computation that is there. -/
theorem wrapAll_extends (graph : TypeGraph) (type : TypeId) (path : Path) (entries : List Entry)
    (store : Store) : store.Extends (store.wrapAll graph type path entries).2 := by
  induction entries generalizing store with
  | nil => exact .refl store
  | cons entry rest ih => exact (store.wrap_extends _ _ _ _).trans (ih _)

/-- Wrapping declared fields disturbs no computation that is there, also when one is missing. -/
theorem wrapDeclared_extends (names : NameTable) (graph : TypeGraph) (record : Record)
    (path : Path) (fields : List (Name × TypeId)) (store : Store) :
    store.Extends (store.wrapDeclared names graph record path fields).2 := by
  induction fields generalizing store with
  | nil => exact .refl store
  | cons field rest ih =>
    simp only [wrapDeclared]
    split
    · exact .refl store
    · -- The field is there; whether the others are does not matter for what is added.
      rename_i inner _
      have grown := (store.wrap_extends graph inner field.2
        (path.field (names.lookup field.1))).trans (ih _)
      split <;> simp_all only

/-- Checking a record disturbs no computation that is there. -/
theorem checkRecord_extends (store : Store) (names : NameTable) (graph : TypeGraph)
    (record : Record) (fields : List (Name × TypeId)) (path : Path) :
    store.Extends (store.checkRecord names graph record fields path).2 := by
  have grown := wrapDeclared_extends names graph record path fields store
  unfold checkRecord
  split
  · simp_all only
  · split <;> simp_all only

/-- Checking a value disturbs no computation that is there, whatever it finds. -/
theorem check_extends (store : Store) (names : NameTable) (graph : TypeGraph) (value : Value)
    (type : TypeId) (path : Path) :
    store.Extends (store.check names graph value type path).2 := by
  -- Only the three composite types add anything; all others just look at the kind.
  unfold check
  dsimp only
  split <;>
    first
    | exact .refl store
    | exact store.suspend_extends _
    | exact store.checkRecord_extends _ _ _ _ _
    | exact wrapAll_extends _ _ _ _ store
    | (split <;> exact .refl store)

/-- Cutting the next part off a checked list disturbs no computation that is there. -/
theorem checkCell_extends (store : Store) (graph : TypeGraph) (head : ThunkId) (rest : LazyList)
    (elem : TypeId) (path : Path) (index : Nat) :
    store.Extends (store.checkCell graph head rest elem path index).2 :=
  (store.wrap_extends _ _ _ _).trans (suspend_extends _ _)

end Store

namespace Context

/-! Putting off expressions only adds computations. -/

/-- Putting off one expression disturbs no computation that is there. -/
theorem suspend_extends (context : Context) (store : Store) (id : ExprId) (env : Env) :
    store.Extends (context.suspend store id env).2 := by
  unfold suspend
  split
  · split
    · exact .refl store
    · exact store.suspend_extends _
  · exact store.ready_extends _
  · exact store.ready_extends _
  · exact store.ready_extends _
  · exact store.ready_extends _
  · -- A function is numbered first, and then it is there at once.
    rename_i param body _
    exact (store.closure_extends param body env).trans (Store.ready_extends _ _)
  · exact store.suspend_extends _

/-- Putting off several expressions disturbs no computation that is there. -/
theorem suspendAll_extends (context : Context) (env : Env) (ids : List ExprId) (store : Store) :
    store.Extends (context.suspendAll env ids store).2 := by
  induction ids generalizing store with
  | nil => exact .refl store
  | cons id rest ih => exact (context.suspend_extends store id env).trans (ih _)

/-- Putting off the fields of a record disturbs no computation that is there. -/
theorem suspendFields_extends (context : Context) (env : Env) (fields : List Field)
    (record : Record) (store : Store) :
    store.Extends (context.suspendFields env fields record store).2 := by
  induction fields generalizing record store with
  | nil => exact .refl store
  | cons field rest ih =>
    have first := context.suspend_extends store field.value env
    simp only [suspendFields]
    split
    · exact first
    · rename_i value next looked
      -- The field is either left as it is or wrapped in one check.
      have second : store.Extends next := by
        cases typed : field.type with
        | none => simp_all
        | some type =>
          simp only [typed, Option.map_eq_some_iff] at looked
          obtain ⟨resolved, _, wrapped⟩ := looked
          have grown := first.trans (Store.suspend_extends _
            (.check (context.suspend store field.value env).1 resolved
              (Path.root.field (context.names.lookup field.name))))
          rw [wrapped] at grown
          exact grown
      split
      · exact second
      · exact second.trans (ih _ _)

/-- A recursive binding takes the next free place, with an environment that contains that place. -/
theorem bindRecursive_eq (store : Store) (env : Env) (name : Name) (value : ExprId) :
    bindRecursive store env name value =
      (env.bind name store.cells.size,
        (store.suspend (.expr value (env.bind name store.cells.size))).2) := by
  -- The new computation is the one that is pointed at the environment, since it has not started.
  have fresh := store.cell_alloc (.suspended (.expr value {})) store.cells.size
  rw [if_pos rfl] at fresh
  simp only [bindRecursive, Store.suspend, Store.alloc_fst, Store.closeOver, fresh]
  simp [Store.alloc, Store.set, Array.setIfInBounds, Array.set_push]

/-- A recursive binding disturbs no computation that is there. -/
theorem bindRecursive_extends (store : Store) (env : Env) (name : Name) (value : ExprId) :
    store.Extends (bindRecursive store env name value).2 := by
  rw [bindRecursive_eq]
  exact store.suspend_extends _

end Context

end LazyConfig
