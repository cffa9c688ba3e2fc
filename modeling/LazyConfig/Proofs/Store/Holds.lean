import LazyConfig.Proofs.Machine.Session
import LazyConfig.Value.Data

/-! Values that are evaluated in all their parts, and the data that they hold. -/

namespace LazyConfig.Store

mutual

/-- A value that holds data: all its parts are evaluated, functions being leaves. -/
inductive Holds (store : Store) : Value → Data → Prop
  | int (value : Int64) : Holds store (.int value) (.int value)
  | float (value : Float) : Holds store (.float value) (.float value)
  | bool (value : Bool) : Holds store (.bool value) (.bool value)
  | str (text : String) : Holds store (.str text) (.str text)
  | list {items : LazyList} {parts : List Data} (hold : ListHolds store items parts) :
    Holds store (.list items) (.list parts)
  | record {record : Record} {parts : List (String × Data)}
    (hold : FieldsHold store record.entries parts) : Holds store (.record record) (.record parts)
  | closure (function : Closure) : Holds store (.closure function) .closure
  | builtin (op : Builtin) (held : List ThunkId) :
    Holds store (.builtin op held) (.builtin op held.length (op.missing held))
  | host (function : HostFunction) : Holds store (.host function) (.host function.name)

/-- A list whose right parts are all evaluated, with the data of its elements. -/
inductive ListHolds (store : Store) : LazyList → List Data → Prop
  | elems {items : Array ThunkId} {start : Nat} {parts : List Data}
    (hold : PartsHold store (items.toList.drop start) parts) :
    ListHolds store (.elems items start) parts
  | rangeEnd {next stop : Int64} (passed : ¬ next < stop) : ListHolds store (.range next stop) []
  | rangeNext {next stop : Int64} {parts : List Data} (more : next < stop)
    (others : ListHolds store (.range (next + 1) stop) parts) :
    ListHolds store (.range next stop) (.int next :: parts)
  | concat {left items : LazyList} {right : ThunkId} {first second : List Data}
    (front : ListHolds store left first) (found : store.cell right = .forced (.list items))
    (back : ListHolds store items second) : ListHolds store (.concat left right) (first ++ second)

/-- Computations that all have values, with the data of those. -/
inductive PartsHold (store : Store) : List ThunkId → List Data → Prop
  | nil : PartsHold store [] []
  | cons {id : ThunkId} {value : Value} {part : Data} {ids : List ThunkId} {parts : List Data}
    (found : store.cell id = .forced value) (holds : Holds store value part)
    (others : PartsHold store ids parts) : PartsHold store (id :: ids) (part :: parts)

/-- Fields whose computations all have values, with the data of those. -/
inductive FieldsHold (store : Store) : List Entry → List (String × Data) → Prop
  | nil : FieldsHold store [] []
  | cons {name : String} {id : ThunkId} {value : Value} {part : Data} {entries : List Entry}
    {parts : List (String × Data)} (found : store.cell id = .forced value)
    (holds : Holds store value part) (others : FieldsHold store entries parts) :
    FieldsHold store ((name, id) :: entries) ((name, part) :: parts)

end

/-- A value that is there stays. -/
theorem Precedes.forced {before after : Store} (order : before.Precedes after) {id : ThunkId}
    {value : Value} (found : before.cell id = .forced value) : after.cell id = .forced value := by
  -- A value has a place in the store, and the state in that place is settled.
  have inside := lt_size_of_cell found (by simp)
  simpa [found, Cell.Precedes] using order.2 id inside

variable {store : Store}

/-- A computation has one value only. -/
theorem forced_unique {id : ThunkId} {first second : Value}
    (left : store.cell id = .forced first) (right : store.cell id = .forced second) :
    first = second :=
  Cell.forced.inj (left.symm.trans right)

mutual

/-- A value holds one tree of data only. -/
theorem Holds.unique {value : Value} {first second : Data} :
    store.Holds value first → store.Holds value second → first = second
  | .int _, .int _ => rfl
  | .float _, .float _ => rfl
  | .bool _, .bool _ => rfl
  | .str _, .str _ => rfl
  | .list left, .list right => congrArg Data.list (left.unique right)
  | .record left, .record right => congrArg Data.record (left.unique right)
  | .closure _, .closure _ => rfl
  | .builtin _ _, .builtin _ _ => rfl
  | .host _, .host _ => rfl
termination_by structural left => left

/-- A list holds one sequence of data only. -/
theorem ListHolds.unique {items : LazyList} {first second : List Data} :
    store.ListHolds items first → store.ListHolds items second → first = second
  | .elems left, .elems right => left.unique right
  | .rangeEnd _, .rangeEnd _ => rfl
  -- The bound decides whether a range is at its end.
  | .rangeEnd passed, .rangeNext more _ => absurd more passed
  | .rangeNext more _, .rangeEnd passed => absurd more passed
  | .rangeNext _ left, .rangeNext _ right => congrArg _ (left.unique right)
  | .concat front found back, .concat front' found' back' => by
    obtain rfl := Value.list.inj (forced_unique found found')
    rw [front.unique front', back.unique back']
termination_by structural left => left

/-- Computations hold one sequence of data only. -/
theorem PartsHold.unique {ids : List ThunkId} {first second : List Data} :
    store.PartsHold ids first → store.PartsHold ids second → first = second
  | .nil, .nil => rfl
  | .cons found holds others, .cons found' holds' others' => by
    obtain rfl := forced_unique found found'
    rw [holds.unique holds', others.unique others']
termination_by structural left => left

/-- Fields hold one sequence of data only. -/
theorem FieldsHold.unique {entries : List Entry} {first second : List (String × Data)} :
    store.FieldsHold entries first → store.FieldsHold entries second → first = second
  | .nil, .nil => rfl
  | .cons found holds others, .cons found' holds' others' => by
    obtain rfl := forced_unique found found'
    rw [holds.unique holds', others.unique others']
termination_by structural left => left

end

/-- The fields of a record hold data as soon as its values do. -/
theorem PartsHold.fields {entries : List Entry} {parts : List Data}
    (hold : store.PartsHold (entries.map Prod.snd) parts) :
    store.FieldsHold entries ((entries.map Prod.fst).zip parts) := by
  induction entries generalizing parts with
  | nil =>
    cases hold
    exact .nil
  | cons entry rest ih =>
    obtain ⟨name, id⟩ := entry
    cases hold with
    | cons found holds others => exact .cons found holds (ih others)

/-- The data of a record have the names of its fields. -/
theorem FieldsHold.names {entries : List Entry} {named : List (String × Data)}
    (hold : store.FieldsHold entries named) : named.map Prod.fst = entries.map Prod.fst := by
  induction entries generalizing named with
  | nil =>
    cases hold
    rfl
  | cons entry rest ih =>
    cases hold with
    | cons found holds others => exact congrArg _ (ih others)

/-- The data of a record are those of its values under the names of its fields. -/
theorem fieldsHold_iff {entries : List Entry} {named : List (String × Data)}
    (same : named.map Prod.fst = entries.map Prod.fst) :
    store.FieldsHold entries named ↔ store.PartsHold (entries.map Prod.snd) (named.map Prod.snd) := by
  -- By induction on the entries; the names are the same, so only the data are compared.
  induction entries generalizing named with
  | nil =>
    obtain rfl : named = [] := by simpa using same
    exact ⟨fun _ => .nil, fun _ => .nil⟩
  | cons entry rest ih =>
    obtain ⟨name, id⟩ := entry
    cases named with
    | nil => cases same
    | cons field others =>
      obtain ⟨_, part⟩ := field
      rw [List.map_cons, List.map_cons, List.cons.injEq] at same
      obtain ⟨rfl, same⟩ := same
      constructor
      · intro hold
        cases hold with
        | cons found holds hold => exact .cons found holds ((ih same).mp hold)
      · intro hold
        cases hold with
        | cons found holds hold => exact .cons found holds ((ih same).mpr hold)

/-- A list of given elements holds the data of those. -/
theorem ListHolds.of_thunks {ids : List ThunkId} {parts : List Data} :
    store.ListHolds (.ofThunks ids) parts ↔ store.PartsHold ids parts := by
  constructor
  · intro hold
    cases hold with
    | elems hold => simpa using hold
  · intro hold
    exact .elems (by simpa using hold)

end LazyConfig.Store
