import LazyConfig.Proofs.Machine.Within
import LazyConfig.Proofs.Store.Extension
import LazyConfig.Proofs.Types.Occurrences

/-!
What operations add to a store: computations that nobody has asked for yet and whose parts are within
bounds. The results of the operations are within bounds of the new store.
-/

namespace LazyConfig

/-- A store that was extended by computations that nobody has asked for. -/
structure Store.Grows (bounds : Bounds) (before after : Store) : Prop where
  extended : before.Extends after
  fresh : ∀ id, before.cells.size ≤ id → id < after.cells.size →
    (after.cell id).Fresh bounds after.cells.size

/-- The result of an operation is within bounds, or a failure that may arise. -/
def ResultWithin (bounds : Bounds) (count : Nat) : Except Fault Value → Prop
  | .ok value => value.Within bounds count
  | .error fault => bounds.fault fault

/-- A record that is within bounds, or a failure that may arise. -/
def FieldsWithin (bounds : Bounds) (count : Nat) : Except Fault Record → Prop
  | .ok record => record.Within count
  | .error fault => bounds.fault fault

/--
Bounds that fit the program that is evaluated: with an expression its parts are in bounds. Unresolved
types are in bounds, unless all annotations of the expressions in bounds are resolved.
-/
structure Bounds.Fits (bounds : Bounds) (context : Context) : Prop where
  parts : ∀ id, bounds.body id → ∀ child ∈ (context.code.expr id).children, bounds.body child
  ordinary : ∀ fault, fault ≠ .unresolvedType → fault ≠ .infiniteRecursion → bounds.fault fault
  types : bounds.fault .unresolvedType ∨ context.annotations.graph.Sound ∧
    ∀ id, bounds.body id → ∀ type ∈ (context.code.expr id).annotations,
      (context.annotations.get? type).isSome = true

/-- Whether a failure may arise in any program: its cause is no type that was not resolved and no circle. -/
def Fault.usual : Fault → Bool
  | .unresolvedType | .infiniteRecursion => false
  | _ => true

variable {bounds : Bounds} {context : Context}

/-- What may arise in any program is within bounds that fit one. -/
theorem Bounds.Fits.of_usual (fits : bounds.Fits context) {fault : Fault} (usual : fault.usual = true) :
    bounds.fault fault := by
  refine fits.ordinary fault ?_ ?_ <;> rintro rfl <;> cases usual

namespace Store

variable {store before middle after : Store}

namespace Grows

/-- The new store is not smaller. -/
theorem size (grows : before.Grows bounds after) : before.cells.size ≤ after.cells.size :=
  grows.extended.1

/-- Without new computations there is nothing to show. -/
theorem of_extends (extended : before.Extends after) (same : after.cells.size = before.cells.size) :
    before.Grows bounds after :=
  ⟨extended, fun _ old new => absurd (same ▸ new) (Nat.not_lt.mpr old)⟩

theorem refl (store : Store) : store.Grows bounds store :=
  of_extends (.refl store) rfl

theorem trans (left : before.Grows bounds middle) (right : middle.Grows bounds after) :
    before.Grows bounds after := by
  refine ⟨left.extended.trans right.extended, fun id old new => ?_⟩
  -- A computation was added by the first operation or by the second one.
  by_cases known : id < middle.cells.size
  · rw [right.extended.2 id known]
    exact (left.fresh id old known).grow right.size
  · exact right.fresh id (Nat.not_lt.mp known) new

/-- A store within bounds is so after it was extended. -/
theorem within (grows : before.Grows bounds after) (within : before.Within bounds) :
    after.Within bounds := by
  intro id new
  -- A computation of the new store was there before or has been added.
  by_cases known : id < before.cells.size
  · rw [grows.extended.2 id known]
    exact (within id known).grow grows.size
  · exact (grows.fresh id (Nat.not_lt.mp known) new).within

end Grows

/-- A new computation takes the next place. -/
theorem alloc_grows {cell : Cell} (fresh : cell.Fresh bounds (store.cells.size + 1)) :
    store.Grows bounds (store.alloc cell).2 ∧ (store.alloc cell).1 < (store.alloc cell).2.cells.size := by
  refine ⟨⟨store.alloc_extends cell, fun id old new => ?_⟩, by simp⟩
  rw [alloc_size] at new ⊢
  -- Only the last place is new.
  obtain rfl : id = store.cells.size := Nat.le_antisymm (Nat.le_of_lt_succ new) old
  rwa [cell_alloc, if_pos rfl]

theorem ready_grows {value : Value} (within : value.Within bounds store.cells.size) :
    store.Grows bounds (store.ready value).2 ∧
      (store.ready value).1 < (store.ready value).2.cells.size :=
  alloc_grows (Value.Within.grow (Nat.le_succ _) within)

theorem suspend_grows {work : Suspension} (within : work.Within bounds store.cells.size) :
    store.Grows bounds (store.suspend work).2 ∧
      (store.suspend work).1 < (store.suspend work).2.cells.size :=
  alloc_grows (Suspension.Within.grow (Nat.le_succ _) within)

theorem closure_grows {param : Name} {body : ExprId} {env : Env} (allowed : bounds.body body)
    (bound : env.Within store.cells.size) :
    store.Grows bounds (store.closure param body env).2 ∧
      (store.closure param body env).1.Within bounds (store.closure param body env).2.cells.size :=
  ⟨.of_extends (store.closure_extends param body env) rfl, allowed, bound⟩

theorem record_grows (call : HostCall) : store.Grows bounds (store.record call) :=
  .of_extends (store.record_extends call) rfl

theorem readyAll_grows {values : List Value} (within : WorkWithin bounds store.cells.size values) :
    store.Grows bounds (store.readyAll values).2 ∧
      Inside (store.readyAll values).2.cells.size (store.readyAll values).1 := by
  induction values generalizing store with
  | nil => exact ⟨.refl store, nofun⟩
  | cons value rest ih =>
    obtain ⟨first, here⟩ := ready_grows (within value List.mem_cons_self)
    obtain ⟨others, inside⟩ := ih fun other member =>
      (within other (List.mem_cons_of_mem _ member)).grow first.size
    refine ⟨first.trans others, fun id member => ?_⟩
    rcases List.mem_cons.mp member with rfl | member
    · exact Nat.lt_of_lt_of_le here others.size
    · exact inside id member

theorem fieldsOf_grows (record : Record) :
    store.Grows bounds (store.fieldsOf record).2 ∧
      (store.fieldsOf record).1.Within (store.fieldsOf record).2.cells.size := by
  have texts : WorkWithin bounds store.cells.size (record.names.map .str) := by
    -- The fields become texts, which have no parts.
    intro value member
    obtain ⟨name, -, rfl⟩ := List.mem_map.mp member
    trivial
  obtain ⟨grows, inside⟩ := readyAll_grows texts
  exact ⟨grows, .ofThunks inside⟩

theorem mapEntries_grows {func : ThunkId} {entries : List Entry} (known : func < store.cells.size)
    (inside : ∀ entry ∈ entries, entry.2 < store.cells.size) :
    store.Grows bounds (store.mapEntries func entries).2 ∧
      ∀ entry ∈ (store.mapEntries func entries).1,
        entry.2 < (store.mapEntries func entries).2.cells.size := by
  induction entries generalizing store with
  | nil => exact ⟨.refl store, nofun⟩
  | cons entry rest ih =>
    -- The name gets a place first, then the application of the function to it and to the field.
    obtain ⟨first, key⟩ := @ready_grows bounds store (.str entry.1) trivial
    have work : Suspension.Within bounds (store.ready (.str entry.1)).2.cells.size
        (.apply func [(store.ready (.str entry.1)).1, entry.2]) := by
      refine ⟨Nat.lt_of_lt_of_le known first.size, fun id member => ?_⟩
      rcases List.mem_pair.mp member with rfl | rfl
      · exact key
      · exact Nat.lt_of_lt_of_le (inside entry List.mem_cons_self) first.size
    obtain ⟨second, mapped⟩ := suspend_grows work
    have both := first.trans second
    obtain ⟨others, each⟩ := ih (Nat.lt_of_lt_of_le known both.size) fun other member =>
      Nat.lt_of_lt_of_le (inside other (List.mem_cons_of_mem _ member)) both.size
    refine ⟨both.trans others, fun other member => ?_⟩
    rcases List.mem_cons.mp member with rfl | member
    · exact Nat.lt_of_lt_of_le mapped others.size
    · exact each other member

theorem mapFields_grows {func : ThunkId} {record : Record} (known : func < store.cells.size)
    (within : record.Within store.cells.size) :
    store.Grows bounds (store.mapFields func record).2 ∧
      (store.mapFields func record).1.Within (store.mapFields func record).2.cells.size := by
  obtain ⟨grows, inside⟩ := @mapEntries_grows bounds _ _ _ known within
  exact ⟨grows, .ofEntries inside⟩

/-! Checks. -/

theorem wrap_grows {graph : TypeGraph} {inner : ThunkId} (type : TypeId) (path : Path)
    (inside : inner < store.cells.size) :
    store.Grows bounds (store.wrap graph inner type path).2 ∧
      (store.wrap graph inner type path).1 < (store.wrap graph inner type path).2.cells.size := by
  unfold wrap
  -- A type that accepts everything needs no check.
  split
  · exact ⟨.refl store, inside⟩
  · exact suspend_grows inside

theorem wrapAll_grows {graph : TypeGraph} (type : TypeId) (path : Path) {entries : List Entry}
    (inside : ∀ entry ∈ entries, entry.2 < store.cells.size) :
    store.Grows bounds (store.wrapAll graph type path entries).2 ∧
      ∀ entry ∈ (store.wrapAll graph type path entries).1,
        entry.2 < (store.wrapAll graph type path entries).2.cells.size := by
  induction entries generalizing store with
  | nil => exact ⟨.refl store, nofun⟩
  | cons entry rest ih =>
    obtain ⟨first, here⟩ := @wrap_grows bounds store graph entry.2 type (path.field entry.1)
      (inside entry List.mem_cons_self)
    obtain ⟨others, each⟩ := ih fun other member =>
      Nat.lt_of_lt_of_le (inside other (List.mem_cons_of_mem _ member)) first.size
    refine ⟨first.trans others, fun other member => ?_⟩
    rcases List.mem_cons.mp member with rfl | member
    · exact Nat.lt_of_lt_of_le here others.size
    · exact each other member

theorem wrapDeclared_grows (fits : bounds.Fits context) {names : NameTable} {graph : TypeGraph}
    {record : Record} (path : Path) {fields : List (Name × TypeId)}
    (within : record.Within store.cells.size) :
    store.Grows bounds (store.wrapDeclared names graph record path fields).2 ∧
      match (store.wrapDeclared names graph record path fields).1 with
      | .ok entries => ∀ entry ∈ entries,
        entry.2 < (store.wrapDeclared names graph record path fields).2.cells.size
      | .error fault => bounds.fault fault := by
  induction fields generalizing store with
  | nil => exact ⟨.refl store, fun _ member => absurd member List.not_mem_nil⟩
  | cons field rest ih =>
    obtain ⟨name, type⟩ := field
    simp only [wrapDeclared]
    cases found : record.get? (names.lookup name) with
    -- The first declared field that is missing fails the check, and nothing has been added for it.
    | none => exact ⟨.refl store, fits.of_usual rfl⟩
    | some inner =>
      obtain ⟨first, here⟩ := @wrap_grows bounds store graph inner type
        (path.field (names.lookup name)) (within.get? found)
      obtain ⟨others, each⟩ := ih (within.grow first.size)
      dsimp only
      rcases outcome : (store.wrap graph inner type (path.field (names.lookup name))).2.wrapDeclared
        names graph record path rest with ⟨fault | entries, last⟩
      · rw [outcome] at others each
        exact ⟨first.trans others, each⟩
      · rw [outcome] at others each
        refine ⟨first.trans others, fun entry member => ?_⟩
        rcases List.mem_cons.mp member with rfl | member
        · exact Nat.lt_of_lt_of_le here others.size
        · exact each entry member

theorem checkRecord_grows (fits : bounds.Fits context) {names : NameTable} {graph : TypeGraph}
    {record : Record} (fields : List (Name × TypeId)) (path : Path)
    (within : record.Within store.cells.size) :
    store.Grows bounds (store.checkRecord names graph record fields path).2 ∧
      ResultWithin bounds (store.checkRecord names graph record fields path).2.cells.size
        (store.checkRecord names graph record fields path).1 := by
  obtain ⟨grows, each⟩ := @wrapDeclared_grows _ _ store fits names graph record path fields within
  rw [checkRecord]
  rcases outcome : store.wrapDeclared names graph record path fields with ⟨fault | entries, middle⟩
  · rw [outcome] at grows each
    exact ⟨grows, each⟩
  · rw [outcome] at grows each
    dsimp only
    split
    · exact ⟨grows, fits.of_usual rfl⟩
    · exact ⟨grows, .ofEntries each⟩

theorem check_grows (fits : bounds.Fits context) {value : Value} (type : TypeId) (path : Path)
    (within : value.Within bounds store.cells.size) :
    let checked := store.check context.names context.annotations.graph value type path
    store.Grows bounds checked.2 ∧ ResultWithin bounds checked.2.cells.size checked.1 := by
  -- Unresolved types arise only for a shape that is none, and a sound graph has no such shapes.
  have unresolved (loose : (context.annotations.graph.node
      (context.annotations.graph.shape type)).isShape = false) : bounds.fault .unresolvedType := by
    rcases fits.types with allowed | ⟨sound, -⟩
    · exact allowed
    · obtain ⟨_, -, plain⟩ := sound.reads type
      rw [plain] at loose
      cases loose
  have mismatch (found : Mismatch) : bounds.fault (.typeMismatch found path) :=
    fits.of_usual rfl
  unfold check
  dsimp only
  split
  case h_1 | h_2 => exact ⟨.refl store, within⟩
  case h_3 _ found | h_4 _ found => exact ⟨.refl store, unresolved (by rw [found]; rfl)⟩
  case h_5 elem items _ =>
    -- The elements of a list are checked when they are walked.
    have work : Suspension.Within bounds store.cells.size (.checkList items elem path 0) := within
    obtain ⟨grows, cells⟩ := suspend_grows work
    exact ⟨grows, trivial, cells⟩
  case h_6 => exact checkRecord_grows fits _ path within
  case h_7 =>
    obtain ⟨grows, inside⟩ := wrapAll_grows _ path within
    exact ⟨grows, .ofEntries inside⟩
  case h_8 | h_9 | h_10 | h_11 =>
    split
    · exact ⟨.refl store, within⟩
    · exact ⟨.refl store, mismatch _⟩
  case h_12 | h_13 | h_14 => exact ⟨.refl store, mismatch _⟩

theorem checkCell_grows {graph : TypeGraph} {head : ThunkId} {rest : LazyList} (elem : TypeId)
    (path : Path) (index : Nat) (inside : head < store.cells.size)
    (remaining : rest.Within store.cells.size) :
    let checked := store.checkCell graph head rest elem path index
    store.Grows bounds checked.2 ∧ checked.1.Within bounds checked.2.cells.size := by
  obtain ⟨first, here⟩ := @wrap_grows bounds store graph head elem (path.index index) inside
  have work : Suspension.Within bounds (store.wrap graph head elem (path.index index)).2.cells.size
    (.checkList rest elem path (index + 1)) := remaining.grow first.size
  obtain ⟨second, there⟩ := suspend_grows work
  refine ⟨first.trans second, .ofThunks ?_, there⟩
  intro id member
  rw [List.mem_singleton.mp member]
  exact Nat.lt_of_lt_of_le here second.size

end Store

namespace Context

variable {store : Store} {env : Env}

/-! Putting off expressions. -/

theorem suspend_grows (fits : bounds.Fits context) {id : ExprId} (allowed : bounds.body id)
    (bound : env.Within store.cells.size) :
    store.Grows bounds (context.suspend store id env).2 ∧
      (context.suspend store id env).1 < (context.suspend store id env).2.cells.size := by
  have work : Suspension.Within bounds store.cells.size (.expr id env) := ⟨allowed, bound⟩
  unfold suspend
  split
  · -- A variable stands for what it is bound to, or is put off like any expression where it is not.
    split
    · rename_i found
      exact ⟨.refl store, bound.lookup found⟩
    · exact Store.suspend_grows work
  · -- Values need no evaluation and get a place at once.
    exact Store.ready_grows trivial
  · exact Store.ready_grows trivial
  · exact Store.ready_grows trivial
  · exact Store.ready_grows trivial
  · rename_i param body found
    -- The body of a function is a part of it.
    have inside : bounds.body body := fits.parts id allowed body (by simp [found, Expr.children])
    obtain ⟨first, made⟩ := @Store.closure_grows bounds store param body env inside bound
    obtain ⟨second, here⟩ := Store.ready_grows made
    exact ⟨first.trans second, here⟩
  · exact Store.suspend_grows work

theorem suspendAll_grows (fits : bounds.Fits context) {ids : List ExprId}
    (allowed : ∀ id ∈ ids, bounds.body id) (bound : env.Within store.cells.size) :
    store.Grows bounds (context.suspendAll env ids store).2 ∧
      Inside (context.suspendAll env ids store).2.cells.size (context.suspendAll env ids store).1 := by
  induction ids generalizing store with
  | nil => exact ⟨.refl store, nofun⟩
  | cons id rest ih =>
    obtain ⟨first, here⟩ := suspend_grows fits (allowed id List.mem_cons_self) bound
    obtain ⟨others, inside⟩ := ih (fun other member => allowed other (List.mem_cons_of_mem _ member))
      (bound.grow first.size)
    refine ⟨first.trans others, fun other member => ?_⟩
    rcases List.mem_cons.mp member with rfl | member
    · exact Nat.lt_of_lt_of_le here others.size
    · exact inside other member

/-- A recursive binding refers to a computation that is put off in the new environment itself. -/
theorem bindRecursive_grows {name : Name} {value : ExprId} (allowed : bounds.body value)
    (bound : env.Within store.cells.size) :
    store.Grows bounds (bindRecursive store env name value).2 ∧
      (bindRecursive store env name value).1.Within
        (bindRecursive store env name value).2.cells.size := by
  rw [bindRecursive_eq]
  have inside : (env.bind name store.cells.size).Within (store.cells.size + 1) :=
    (bound.grow (Nat.le_succ _)).bind (Nat.lt_succ_self _)
  obtain ⟨grows, -⟩ := @Store.alloc_grows bounds store
    (.suspended (.expr value (env.bind name store.cells.size))) ⟨allowed, inside⟩
  refine ⟨grows, ?_⟩
  rw [Store.suspend, Store.alloc_size]
  exact inside

theorem suspendFields_grows (fits : bounds.Fits context) {fields : List Field} {record : Record}
    (allowed : ∀ field ∈ fields, bounds.body field.value)
    (resolved : bounds.fault .unresolvedType ∨ ∀ field ∈ fields, ∀ type, field.type = some type →
      (context.annotations.get? type).isSome = true)
    (bound : env.Within store.cells.size) (within : record.Within store.cells.size) :
    let fieldsPutOff := context.suspendFields env fields record store
    store.Grows bounds fieldsPutOff.2 ∧
      FieldsWithin bounds fieldsPutOff.2.cells.size fieldsPutOff.1 := by
  induction fields generalizing record store with
  | nil => exact ⟨.refl store, within⟩
  | cons field rest ih =>
    obtain ⟨first, here⟩ := suspend_grows fits (allowed field List.mem_cons_self) bound
    -- The next fields come after a computation that may be wrapped in a check.
    have go {value : ThunkId} {middle : Store} (grown : store.Grows bounds middle)
        (inside : value < middle.cells.size) :
        let others := context.suspendFields env rest
          (record.insert (context.names.lookup field.name) value) middle
        store.Grows bounds others.2 ∧ FieldsWithin bounds others.2.cells.size others.1 := by
      obtain ⟨others, final⟩ := ih
        (fun other member => allowed other (List.mem_cons_of_mem _ member))
        (resolved.imp_right fun each other member => each other (List.mem_cons_of_mem _ member))
        (bound.grow grown.size) ((within.grow grown.size).insert inside)
      exact ⟨grown.trans others, final⟩
    have duplicate : bounds.fault (.duplicateField (context.names.lookup field.name)) :=
      fits.of_usual rfl
    cases typed : field.type with
    -- The field is written without a type.
    | none =>
      simp only [suspendFields, typed]
      split
      · exact ⟨first, duplicate⟩
      · exact go first here
    | some type =>
      cases known : context.annotations.get? type with
      -- A field whose type is not resolved fails, which is in bounds or does not occur.
      | none =>
        simp only [suspendFields, typed, known, Option.map_none]
        refine ⟨first, resolved.elim (fun allowed => allowed) fun each => ?_⟩
        have some := each field List.mem_cons_self type typed
        rw [known] at some
        cases some
      | some checked =>
        have work : Suspension.Within bounds (context.suspend store field.value env).2.cells.size
          (.check (context.suspend store field.value env).1 checked
            (Path.root.field (context.names.lookup field.name))) := here
        obtain ⟨second, there⟩ := Store.suspend_grows work
        simp only [suspendFields, typed, known, Option.map_some]
        split
        · exact ⟨first.trans second, duplicate⟩
        · exact go (first.trans second) there

end Context

end LazyConfig
