import LazyConfig.Proofs.Store.Extension

/-! Adding computations to a store, and settling them, notes no call of a host function. -/

namespace LazyConfig

namespace Store

variable (store : Store)

@[simp] theorem alloc_calls (cell : Cell) : (store.alloc cell).2.calls = store.calls :=
  rfl

@[simp] theorem set_calls (id : ThunkId) (cell : Cell) : (store.set id cell).calls = store.calls :=
  rfl

@[simp] theorem ready_calls (value : Value) : (store.ready value).2.calls = store.calls :=
  rfl

@[simp] theorem suspend_calls (work : Suspension) : (store.suspend work).2.calls = store.calls :=
  rfl

@[simp] theorem closure_calls (param : Name) (body : ExprId) (env : Env) :
    (store.closure param body env).2.calls = store.calls :=
  rfl

@[simp] theorem record_calls (call : HostCall) : (store.record call).calls = store.calls.push call :=
  rfl

@[simp] theorem readyAll_calls (values : List Value) (store : Store) :
    (store.readyAll values).2.calls = store.calls := by
  induction values generalizing store with
  | nil => rfl
  | cons value rest ih => exact ih (store.ready value).2

@[simp] theorem fieldsOf_calls (record : Record) : (store.fieldsOf record).2.calls = store.calls :=
  readyAll_calls _ store

@[simp] theorem mapEntries_calls (func : ThunkId) (entries : List Entry) (store : Store) :
    (store.mapEntries func entries).2.calls = store.calls := by
  induction entries generalizing store with
  | nil => rfl
  | cons entry rest ih => exact ih _

@[simp] theorem mapFields_calls (func : ThunkId) (record : Record) :
    (store.mapFields func record).2.calls = store.calls :=
  mapEntries_calls func _ store

/-! Checks. -/

variable (graph : TypeGraph)

@[simp] theorem wrap_calls (inner : ThunkId) (type : TypeId) (path : Path) :
    (store.wrap graph inner type path).2.calls = store.calls := by
  unfold wrap
  split <;> rfl

@[simp] theorem wrapAll_calls (type : TypeId) (path : Path) (entries : List Entry) (store : Store) :
    (store.wrapAll graph type path entries).2.calls = store.calls := by
  induction entries generalizing store with
  | nil => rfl
  | cons entry rest ih => simp only [wrapAll, ih, wrap_calls]

@[simp] theorem wrapDeclared_calls (names : NameTable) (record : Record) (path : Path)
    (fields : List (Name × TypeId)) (store : Store) :
    (store.wrapDeclared names graph record path fields).2.calls = store.calls := by
  induction fields generalizing store with
  | nil => rfl
  | cons field rest ih =>
    simp only [wrapDeclared]
    split
    · rfl
    · -- Whether the later fields can be checked or not, the store is the one after their checks.
      rename_i inner _
      have later := ih (store.wrap graph inner field.2 (path.field (names.lookup field.1))).2
      rw [wrap_calls] at later
      split <;> (rename_i found; rw [found] at later; exact later)

@[simp] theorem checkRecord_calls (names : NameTable) (record : Record) (fields : List (Name × TypeId))
    (path : Path) : (store.checkRecord names graph record fields path).2.calls = store.calls := by
  have declared := wrapDeclared_calls graph names record path fields store
  unfold checkRecord
  split
  · simp_all
  · split <;> simp_all

@[simp] theorem check_calls (names : NameTable) (value : Value) (type : TypeId) (path : Path) :
    (store.check names graph value type path).2.calls = store.calls := by
  unfold check
  dsimp only
  split <;> first | rfl | (split <;> rfl) | simp

@[simp] theorem checkCell_calls (head : ThunkId) (rest : LazyList) (elem : TypeId) (path : Path)
    (index : Nat) : (store.checkCell graph head rest elem path index).2.calls = store.calls := by
  simp [checkCell]

end Store

/-! Putting off expressions. -/

namespace Context

variable (context : Context) (store : Store)

@[simp] theorem suspend_calls (id : ExprId) (env : Env) :
    (context.suspend store id env).2.calls = store.calls := by
  unfold suspend
  split <;> first | rfl | (split <;> rfl)

@[simp] theorem suspendAll_calls (env : Env) (ids : List ExprId) (store : Store) :
    (context.suspendAll env ids store).2.calls = store.calls := by
  induction ids generalizing store with
  | nil => rfl
  | cons id rest ih => simp only [suspendAll, ih, suspend_calls]

@[simp] theorem bindRecursive_calls (env : Env) (name : Name) (value : ExprId) :
    (bindRecursive store env name value).2.calls = store.calls := by
  rw [bindRecursive_eq]
  rfl

@[simp] theorem suspendFields_calls (env : Env) (fields : List Field) (record : Record) (store : Store) :
    (context.suspendFields env fields record store).2.calls = store.calls := by
  induction fields generalizing record store with
  | nil => rfl
  | cons field rest ih =>
    simp only [suspendFields]
    cases field.type with
    | none =>
      dsimp only
      split <;> simp [ih]
    | some type =>
      dsimp only
      -- A type that is not known ends the walk, and any other field is wrapped in one check.
      cases context.annotations.get? type with
      | none => simp
      | some resolved =>
        dsimp only [Option.map]
        split <;> simp [ih]

end Context

end LazyConfig
