import LazyConfig.Proofs.Lists.Spreads
import LazyConfig.Proofs.Store.Holds

/-!
What can be reached from a value without entering functions: the elements of lists, the right parts of joins and the
fields of records, and what is found in those that have been evaluated.
-/

namespace LazyConfig

/-- A value without parts, and its data. -/
inductive Value.Leaf : Value → Data → Prop
  | int (value : Int64) : Leaf (.int value) (.int value)
  | float (value : Float) : Leaf (.float value) (.float value)
  | bool (value : Bool) : Leaf (.bool value) (.bool value)
  | str (text : String) : Leaf (.str text) (.str text)
  | closure (function : Closure) : Leaf (.closure function) .closure
  | builtin (op : Builtin) (held : List ThunkId) :
    Leaf (.builtin op held) (.builtin op held.length (op.missing held))
  | host (function : HostFunction) : Leaf (.host function) (.host function.name)

/-- The right parts of the joins of a list. -/
def LazyList.rights : LazyList → List ThunkId
  | .concat left right => left.rights ++ [right]
  | _ => []

/-- The computations that a list is made of: its elements, and the right parts of its joins. -/
def LazyList.computations : LazyList → List ThunkId
  | .elems items start => items.toList.drop start
  | .range _ _ => []
  | .concat left right => left.computations ++ [right]

/-- The computations that a value is made of; functions are not entered. -/
def Value.computations : Value → List ThunkId
  | .list items => items.computations
  | .record fields => fields.thunks
  | _ => []

namespace Store

variable {store before after : Store}

/--
A value that is found in another one: the value itself, or what computations of it have come to, at a depth that
counts these computations.
-/
inductive Contains (store : Store) (root : Value) : Nat → Value → Prop
  | here : Contains store root 0 root
  | part {depth : Nat} {value inner : Value} {id : ThunkId} (outer : Contains store root depth value)
    (part : id ∈ value.computations) (found : store.cell id = .forced inner) : Contains store root (depth + 1) inner

/-- What is found in a value stays there. -/
theorem Contains.later {root value : Value} {depth : Nat} (contains : before.Contains root depth value)
    (order : before.Precedes after) : after.Contains root depth value := by
  induction contains with
  | here => exact .here
  | part outer part found ih => exact .part ih part (order.forced found)

/-- An element with its value, of which something holds. -/
def Bears (store : Store) (holds : Value → Data → Prop) (element : Visible) (part : Data) : Prop :=
  ∃ value, store.visible? element = some value ∧ holds value part

/-- A field with the value of its computation, of which something holds. -/
def BearsField (store : Store) (holds : Value → Data → Prop) (entry : Entry) (field : String × Data) : Prop :=
  entry.1 = field.1 ∧ ∃ value, store.cell entry.2 = .forced value ∧ holds value field.2

/-- The elements of a range are integers, which bear themselves. -/
theorem bears_int {holds : Value → Data → Prop} {value : Int64} (own : holds (.int value) (.int value)) :
    store.Bears holds (.int value) (.int value) :=
  ⟨.int value, rfl, own⟩

/-- A computation with a value bears what its value does. -/
theorem bears_thunk {holds : Value → Data → Prop} {id : ThunkId} {value : Value} {part : Data}
    (found : store.cell id = .forced value) (own : holds value part) : store.Bears holds (.thunk id) part :=
  ⟨value, by simp [visible?, peek?, found], own⟩

/-- The names of a record are those of its data. -/
theorem names_of_bears {holds : Value → Data → Prop} {record : Record} {fields : List (String × Data)}
    (bear : List.Forall₂ (store.BearsField holds) record.entries fields) : record.names = fields.map Prod.fst := by
  rw [Record.names, ← List.forall₂_eq_eq_eq, List.forall₂_map_left_iff, List.forall₂_map_right_iff]
  exact bear.imp fun _ _ first => first.1

/-- Computations of a record are the elements of a list. -/
theorem bears_of_fields {holds : Value → Data → Prop} {entries : List Entry} {fields : List (String × Data)}
    (bear : List.Forall₂ (store.BearsField holds) entries fields) :
    List.Forall₂ (store.Bears holds) ((entries.map Prod.snd).map .thunk) (fields.map Prod.snd) := by
  rw [List.map_map, List.forall₂_map_left_iff, List.forall₂_map_right_iff]
  refine bear.imp fun entry field first => ?_
  obtain ⟨-, value, found, own⟩ := first
  exact bears_thunk found own

/-- A computation whose value is seen has that value. -/
theorem forced_of_visible {id : ThunkId} {value : Value} (shown : store.visible? (.thunk id) = some value) :
    store.cell id = .forced value := by
  rw [visible?, peek?] at shown
  split at shown
  · rename_i other found
    exact Option.some.inj shown ▸ found
  · cases shown

/-- A value that is seen is seen later, too. -/
theorem visible?_later {element : Visible} {value : Value} (order : before.Precedes after)
    (shown : before.visible? element = some value) : after.visible? element = some value := by
  cases element with
  | int number => exact shown
  | thunk id =>
    have found := order.forced (forced_of_visible shown)
    simp [visible?, peek?, found]

/-- Something that holds of values without parts, and of lists and records when it holds of what they bear. -/
structure Inherits (store : Store) (motive : Value → Data → Prop) : Prop where
  leaf : ∀ {value data}, value.Leaf data → motive value data
  list : ∀ {items parts elements}, store.Holds (.list items) (.list parts) → store.Spreads items elements →
    List.Forall₂ (store.Bears fun value part => store.Holds value part ∧ motive value part) elements parts →
    motive (.list items) (.list parts)
  record : ∀ {record fields}, store.Holds (.record record) (.record fields) →
    List.Forall₂ (store.BearsField fun value part => store.Holds value part ∧ motive value part) record.entries
      fields →
    motive (.record record) (.record fields)

section

variable {motive : Value → Data → Prop}

mutual

/-- What is inherited holds of every value that holds data. -/
theorem Holds.inherit (inherits : store.Inherits motive) {value : Value} {data : Data} :
    store.Holds value data → motive value data
  | .int value => inherits.leaf (.int value)
  | .float value => inherits.leaf (.float value)
  | .bool value => inherits.leaf (.bool value)
  | .str text => inherits.leaf (.str text)
  | .closure function => inherits.leaf (.closure function)
  | .builtin op held => inherits.leaf (.builtin op held)
  | .host function => inherits.leaf (.host function)
  | .list hold =>
    let ⟨_, spreads, bear⟩ := ListHolds.inherit inherits hold
    inherits.list (.list hold) spreads bear
  | .record hold => inherits.record (.record hold) (FieldsHold.inherit inherits hold)

/-- The elements of a list that holds data are all evaluated. -/
theorem ListHolds.inherit (inherits : store.Inherits motive) {items : LazyList} {parts : List Data} :
    store.ListHolds items parts →
    ∃ elements, store.Spreads items elements ∧
      List.Forall₂ (store.Bears fun value part => store.Holds value part ∧ motive value part) elements parts
  | .elems hold => ⟨_, .elems _ _, PartsHold.inherit inherits hold⟩
  | .rangeEnd passed => by
    refine ⟨_, .range _ _, ?_⟩
    rw [span_of_passed passed]
    exact .nil
  | .rangeNext more others => by
    obtain ⟨elements, spreads, bear⟩ := ListHolds.inherit inherits others
    cases spreads with
    | range next stop =>
      refine ⟨_, .range _ _, ?_⟩
      rw [span_of_more more]
      exact .cons (bears_int ⟨.int _, inherits.leaf (.int _)⟩) bear
  | .concat front found back =>
    let ⟨_, spreads, bear⟩ := ListHolds.inherit inherits front
    let ⟨_, spreads', bear'⟩ := ListHolds.inherit inherits back
    ⟨_, .concat spreads found spreads', List.rel_append bear bear'⟩

/-- Computations that hold data are all evaluated. -/
theorem PartsHold.inherit (inherits : store.Inherits motive) {ids : List ThunkId} {parts : List Data} :
    store.PartsHold ids parts →
    List.Forall₂ (store.Bears fun value part => store.Holds value part ∧ motive value part) (ids.map .thunk) parts
  | .nil => .nil
  | .cons found holds others =>
    .cons (bears_thunk found ⟨holds, Holds.inherit inherits holds⟩) (PartsHold.inherit inherits others)

/-- Fields that hold data are all evaluated. -/
theorem FieldsHold.inherit (inherits : store.Inherits motive) {entries : List Entry} {fields : List (String × Data)} :
    store.FieldsHold entries fields →
    List.Forall₂ (store.BearsField fun value part => store.Holds value part ∧ motive value part) entries fields
  | .nil => .nil
  | .cons found holds others =>
    .cons ⟨rfl, _, found, holds, Holds.inherit inherits holds⟩ (FieldsHold.inherit inherits others)

end

end

/-- The elements of a list that holds data are seen, with values that hold the data. -/
theorem ListHolds.spreads {items : LazyList} {parts : List Data} (hold : store.ListHolds items parts) :
    ∃ elements, store.Spreads items elements ∧ List.Forall₂ (store.Bears store.Holds) elements parts := by
  have any : store.Inherits fun _ _ => True := ⟨fun _ => trivial, fun _ _ _ => trivial, fun _ _ => trivial⟩
  obtain ⟨elements, spreads, bear⟩ := hold.inherit any
  exact ⟨elements, spreads, bear.imp fun _ _ bears => bears.imp fun _ both => both.imp_right And.left⟩

/-- The fields of a record that holds data are there, with values that hold the data. -/
theorem FieldsHold.bears {entries : List Entry} {fields : List (String × Data)}
    (hold : store.FieldsHold entries fields) : List.Forall₂ (store.BearsField store.Holds) entries fields := by
  have any : store.Inherits fun _ _ => True := ⟨fun _ => trivial, fun _ _ _ => trivial, fun _ _ => trivial⟩
  exact (hold.inherit any).imp fun _ _ first => first.imp_right fun own => own.imp fun _ both =>
    both.imp_right And.left

/-! Values that hold data are evaluated throughout. -/

/-- Computations that hold data have values that hold data. -/
theorem PartsHold.of_mem {ids : List ThunkId} {parts : List Data} (hold : store.PartsHold ids parts) {id : ThunkId}
    (member : id ∈ ids) : ∃ inner part, store.cell id = .forced inner ∧ store.Holds inner part := by
  induction ids generalizing parts with
  | nil => exact absurd member List.not_mem_nil
  | cons first rest ih =>
    cases hold with
    | cons found holds others =>
      rcases List.mem_cons.mp member with rfl | member
      · exact ⟨_, _, found, holds⟩
      · exact ih others member

/-- The computations of a list that holds data have values that hold data. -/
theorem ListHolds.of_mem {items : LazyList} {parts : List Data} (hold : store.ListHolds items parts) {id : ThunkId}
    (member : id ∈ items.computations) : ∃ inner part, store.cell id = .forced inner ∧ store.Holds inner part := by
  -- By induction on the list; a right part is a computation itself, and its value is a list.
  induction items generalizing parts with
  | elems items start =>
    cases hold with
    | elems hold => exact hold.of_mem member
  | range next stop => exact absurd member List.not_mem_nil
  | concat left right ih =>
    cases hold with
    | concat front found back =>
      rcases List.mem_append.mp member with within | here
      · exact ih front within
      · obtain rfl := List.mem_singleton.mp here
        exact ⟨_, _, found, .list back⟩

/-- The right parts of a list that holds data are evaluated to lists. -/
theorem ListHolds.of_mem_rights {items : LazyList} {parts : List Data} (hold : store.ListHolds items parts)
    {right : ThunkId} (member : right ∈ items.rights) : ∃ others, store.cell right = .forced (.list others) := by
  induction items generalizing parts with
  | elems items start | range next stop => exact absurd member List.not_mem_nil
  | concat left last ih =>
    cases hold with
    | concat front found back =>
      rcases List.mem_append.mp member with within | here
      · exact ih front within
      · obtain rfl := List.mem_singleton.mp here
        exact ⟨_, found⟩

/-- The computations of a value that holds data have values that hold data. -/
theorem Holds.of_mem {value : Value} {data : Data} (holds : store.Holds value data) {id : ThunkId}
    (member : id ∈ value.computations) : ∃ inner part, store.cell id = .forced inner ∧ store.Holds inner part := by
  cases holds with
  | list hold => exact hold.of_mem member
  | record hold => exact ((fieldsHold_iff hold.names).mp hold).of_mem member
  | _ => exact absurd member List.not_mem_nil

/-- Whatever is found in a value that holds data holds data. -/
theorem Contains.holds {root value : Value} {data : Data} {depth : Nat} (contains : store.Contains root depth value)
    (holds : store.Holds root data) : ∃ part, store.Holds value part := by
  induction contains with
  | here => exact ⟨data, holds⟩
  | part outer part found ih =>
    obtain ⟨_, holds⟩ := ih
    obtain ⟨inner, data, same, holds⟩ := holds.of_mem part
    obtain rfl := forced_unique found same
    exact ⟨data, holds⟩

end Store

end LazyConfig
