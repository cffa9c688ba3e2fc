import LazyConfig.Machine.Step
import LazyConfig.Proofs.Value.Entries

/-!
What an evaluation may come across: computations that are in the store, expressions that it may
evaluate, and failures that may arise. Everything the evaluator handles is within such bounds if its
parts are.
-/

namespace LazyConfig

/-- What may be there in an evaluation, besides computations of its store. -/
structure Bounds where
  /-- The expressions that may be evaluated. -/
  body : ExprId → Prop
  /-- The causes of failures. -/
  fault : Fault → Prop
  /-- Whether the host may get its answer, which for a walk along a list is a step of the walk. -/
  answer : Prop

/-- All computations of a list are in a store of some size. -/
abbrev Inside (count : Nat) (ids : List ThunkId) : Prop :=
  ∀ id ∈ ids, id < count

/-- The variables of an environment are bound to computations that are there. -/
def Env.Within (count : Nat) (env : Env) : Prop :=
  ∀ binding ∈ env.bindings, binding.2 < count

/-- The fields of a record are computations that are there. -/
def Record.Within (count : Nat) (record : Record) : Prop :=
  ∀ entry ∈ record.entries, entry.2 < count

/-- The elements and the right parts of a list are computations that are there. -/
def LazyList.Within (count : Nat) : LazyList → Prop
  | .elems items _ => Inside count items.toList
  | .range _ _ => True
  | .concat left right => left.Within count ∧ right < count

/-- A position in a list that is there. -/
def Cursor.Within (count : Nat) (cursor : Cursor) : Prop :=
  cursor.front.Within count ∧ Inside count cursor.pending

section

variable (bounds : Bounds) (count : Nat)

/-- A value whose parts are there. -/
def Value.Within : Value → Prop
  | .list items => items.Within count
  | .record fields => fields.Within count
  | .closure function => bounds.body function.body ∧ function.env.Within count
  | .builtin _ held => Inside count held
  | _ => True

/-- Work that is put off. -/
def Suspension.Within : Suspension → Prop
  | .expr body env => bounds.body body ∧ env.Within count
  | .apply func args => func < count ∧ Inside count args
  | .check inner _ _ => inner < count
  | .checkList source _ _ _ => source.Within count

/-- A computation in any state. -/
def Cell.Within : Cell → Prop
  | .suspended work => work.Within bounds count
  | .inProgress => True
  | .forced value => value.Within bounds count
  | .failed failure => bounds.fault failure.fault

/-- A computation that nobody has asked for. -/
def Cell.Fresh : Cell → Prop
  | .suspended work => work.Within bounds count
  | .forced value => value.Within bounds count
  | _ => False

/-- Values whose parts are there. -/
abbrev WorkWithin (work : List Value) : Prop :=
  ∀ value ∈ work, value.Within bounds count

/-- Pairs of values whose parts are there. -/
abbrev PairsWithin (work : List (Value × Value)) : Prop :=
  ∀ pair ∈ work, pair.1.Within bounds count ∧ pair.2.Within bounds count

/-- What a walk along a list is for. -/
def Consumer.Within : Consumer → Prop
  | .report => bounds.answer
  | .elemAt list _ _ => list.Within count
  | .deepen work whole => WorkWithin bounds count work ∧ whole.Within bounds count
  | .compareLeft right work => right.Within count ∧ PairsWithin bounds count work
  | .compareRight left rest work =>
    (∀ id, left = some id → id < count) ∧ rest.Within count ∧ PairsWithin bounds count work
  | _ => True

/-- What a value is waited for. -/
def Frame.Within : Frame → Prop
  | .update id => id < count
  | .branch whenTrue whenFalse env =>
    bounds.body whenTrue ∧ bounds.body whenFalse ∧ env.Within count
  | .operand body env | .thenEval body env | .logicLeft _ body env | .concatLeft body env
  | .operandLeft _ body env => bounds.body body ∧ env.Within count
  | .thenForce id | .mapOver id | .fieldName id | .indexed id => id < count
  | .operandRight _ left => left.Within bounds count
  | .args rest => Inside count rest
  | .walk _ consumer => consumer.Within bounds count
  | .index list => list.Within count
  | .spine pending consumer => Inside count pending ∧ consumer.Within bounds count
  | .deepItem rest work whole =>
    rest.Within count ∧ WorkWithin bounds count work ∧ whole.Within bounds count
  | .compareItemLeft right lefts rights work =>
    right < count ∧ lefts.Within count ∧ rights.Within count ∧ PairsWithin bounds count work
  | .compareItemRight left lefts rights work =>
    left.Within bounds count ∧ lefts.Within count ∧ rights.Within count ∧
      PairsWithin bounds count work
  | _ => True

/-- A failure on its way. -/
def Upset.Within : Upset → Prop
  | .error failure => bounds.fault failure.fault
  | .panic _ => True

/-- An end of an evaluation. -/
def Ending.Within : Ending → Prop
  | .value result => result.Within bounds count
  | .stepped item rest => (∀ id, item = some id → id < count) ∧ rest.Within count
  | .upset failure left => failure.Within bounds ∧ ∀ cursor, left = some cursor → cursor.Within count

/-- What the evaluator does next. -/
def Control.Within : Control → Prop
  | .eval body env | .enter body env => bounds.body body ∧ env.Within count
  | .force id => id < count
  | .apply func arg => func.Within bounds count ∧ arg < count
  | .run _ args => Inside count args
  | .operate _ left right => left.Within bounds count ∧ right.Within bounds count
  | .advance cursor consumer => cursor.Within count ∧ consumer.Within bounds count
  | .deepen work whole => WorkWithin bounds count work ∧ whole.Within bounds count
  | .compare work => PairsWithin bounds count work
  | .give value => value.Within bounds count
  | .raise upset => upset.Within bounds
  | .done ending => bounds.answer ∧ ending.Within bounds count

end

/-- A store whose computations refer to its own computations only. -/
def Store.Within (bounds : Bounds) (store : Store) : Prop :=
  ∀ id < store.cells.size, (store.cell id).Within bounds store.cells.size

/-- A state of the evaluator in which everything is within bounds. -/
structure State.Within (bounds : Bounds) (state : State) : Prop where
  store : state.store.Within bounds
  control : state.control.Within bounds state.store.cells.size
  stack : ∀ frame ∈ state.stack, frame.Within bounds state.store.cells.size

/-! What is within a store is within a larger one. -/

section Grow

variable {bounds : Bounds} {count more : Nat}

theorem Inside.grow {ids : List ThunkId} (larger : count ≤ more) (inside : Inside count ids) :
    Inside more ids :=
  fun id member => Nat.lt_of_lt_of_le (inside id member) larger

theorem Env.Within.grow {env : Env} (larger : count ≤ more) (within : env.Within count) :
    env.Within more :=
  fun binding member => Nat.lt_of_lt_of_le (within binding member) larger

theorem Record.Within.grow {record : Record} (larger : count ≤ more) (within : record.Within count) :
    record.Within more :=
  fun entry member => Nat.lt_of_lt_of_le (within entry member) larger

theorem LazyList.Within.grow {list : LazyList} (larger : count ≤ more) (within : list.Within count) :
    list.Within more := by
  induction list with
  | elems items start => exact Inside.grow larger within
  | range next stop => trivial
  | concat left right ih => exact ⟨ih within.1, Nat.lt_of_lt_of_le within.2 larger⟩

theorem Cursor.Within.grow {cursor : Cursor} (larger : count ≤ more) (within : cursor.Within count) :
    cursor.Within more :=
  ⟨within.1.grow larger, Inside.grow larger within.2⟩

theorem Value.Within.grow {value : Value} (larger : count ≤ more)
    (within : value.Within bounds count) : value.Within bounds more := by
  cases value with
  | list items => exact LazyList.Within.grow larger within
  | record fields => exact Record.Within.grow larger within
  | closure function => exact ⟨within.1, within.2.grow larger⟩
  | builtin op held => exact Inside.grow larger within
  | _ => trivial

theorem Suspension.Within.grow {work : Suspension} (larger : count ≤ more)
    (within : work.Within bounds count) : work.Within bounds more := by
  cases work with
  | expr body env => exact ⟨within.1, within.2.grow larger⟩
  | apply func args => exact ⟨Nat.lt_of_lt_of_le within.1 larger, Inside.grow larger within.2⟩
  | check inner type path => exact Nat.lt_of_lt_of_le within larger
  | checkList source elem path index => exact LazyList.Within.grow larger within

theorem Cell.Within.grow {cell : Cell} (larger : count ≤ more) (within : cell.Within bounds count) :
    cell.Within bounds more := by
  cases cell with
  | suspended work => exact Suspension.Within.grow larger within
  | inProgress => trivial
  | forced value => exact Value.Within.grow larger within
  | failed failure => exact within

theorem Cell.Fresh.grow {cell : Cell} (larger : count ≤ more) (fresh : cell.Fresh bounds count) :
    cell.Fresh bounds more := by
  cases cell with
  | suspended work => exact Suspension.Within.grow larger fresh
  | forced value => exact Value.Within.grow larger fresh
  | _ => exact fresh

/-- A computation that nobody has asked for is within bounds. -/
theorem Cell.Fresh.within {cell : Cell} (fresh : cell.Fresh bounds count) :
    cell.Within bounds count := by
  cases cell with
  | suspended work | forced value => exact fresh
  | _ => exact fresh.elim

theorem WorkWithin.grow {work : List Value} (larger : count ≤ more)
    (within : WorkWithin bounds count work) : WorkWithin bounds more work :=
  fun value member => (within value member).grow larger

theorem PairsWithin.grow {work : List (Value × Value)} (larger : count ≤ more)
    (within : PairsWithin bounds count work) : PairsWithin bounds more work :=
  fun pair member => ⟨(within pair member).1.grow larger, (within pair member).2.grow larger⟩

theorem Consumer.Within.grow {consumer : Consumer} (larger : count ≤ more)
    (within : consumer.Within bounds count) : consumer.Within bounds more := by
  -- More computations are there, so the bounds on positions are only wider.
  cases consumer with
  | elemAt list index ahead => exact LazyList.Within.grow larger within
  | deepen work whole => exact ⟨WorkWithin.grow larger within.1, within.2.grow larger⟩
  | compareLeft right work => exact ⟨within.1.grow larger, PairsWithin.grow larger within.2⟩
  | compareRight left rest work =>
    exact ⟨fun id same => Nat.lt_of_lt_of_le (within.1 id same) larger, within.2.1.grow larger,
      PairsWithin.grow larger within.2.2⟩
  | _ => exact within

theorem Frame.Within.grow {frame : Frame} (larger : count ≤ more)
    (within : frame.Within bounds count) : frame.Within bounds more := by
  -- Each frame is within bounds because its parts are.
  cases frame with
  | update id | thenForce id | mapOver id | fieldName id | indexed id =>
    exact Nat.lt_of_lt_of_le within larger
  | branch whenTrue whenFalse env => exact ⟨within.1, within.2.1, within.2.2.grow larger⟩
  | operand body env | thenEval body env | logicLeft op body env | concatLeft body env
  | operandLeft op body env => exact ⟨within.1, within.2.grow larger⟩
  | operandRight op left => exact Value.Within.grow larger within
  | args rest => exact Inside.grow larger within
  | walk op consumer => exact Consumer.Within.grow larger within
  | index list => exact LazyList.Within.grow larger within
  | spine pending consumer => exact ⟨Inside.grow larger within.1, within.2.grow larger⟩
  | deepItem rest work whole =>
    exact ⟨within.1.grow larger, WorkWithin.grow larger within.2.1, within.2.2.grow larger⟩
  | compareItemLeft right lefts rights work =>
    exact ⟨Nat.lt_of_lt_of_le within.1 larger, within.2.1.grow larger, within.2.2.1.grow larger,
      PairsWithin.grow larger within.2.2.2⟩
  | compareItemRight left lefts rights work =>
    exact ⟨within.1.grow larger, within.2.1.grow larger, within.2.2.1.grow larger,
      PairsWithin.grow larger within.2.2.2⟩
  | _ => trivial

theorem Ending.Within.grow {ending : Ending} (larger : count ≤ more)
    (within : ending.Within bounds count) : ending.Within bounds more := by
  cases ending with
  | value result => exact Value.Within.grow larger within
  | stepped item rest =>
    exact ⟨fun id same => Nat.lt_of_lt_of_le (within.1 id same) larger, within.2.grow larger⟩
  | upset failure left => exact ⟨within.1, fun cursor same => (within.2 cursor same).grow larger⟩

theorem Control.Within.grow {control : Control} (larger : count ≤ more)
    (within : control.Within bounds count) : control.Within bounds more := by
  cases control with
  | eval body env | enter body env => exact ⟨within.1, within.2.grow larger⟩
  | force id => exact Nat.lt_of_lt_of_le within larger
  | apply func arg => exact ⟨within.1.grow larger, Nat.lt_of_lt_of_le within.2 larger⟩
  | run op args => exact Inside.grow larger within
  | operate op left right => exact ⟨within.1.grow larger, within.2.grow larger⟩
  | advance cursor consumer => exact ⟨within.1.grow larger, within.2.grow larger⟩
  | deepen work whole => exact ⟨WorkWithin.grow larger within.1, within.2.grow larger⟩
  | compare work => exact PairsWithin.grow larger within
  | give value => exact Value.Within.grow larger within
  | raise upset => exact within
  | done ending => exact ⟨within.1, within.2.grow larger⟩

end Grow

/-! Parts of what is within bounds, and what is put together from such parts. -/

section Parts

variable {bounds : Bounds} {count : Nat}

theorem Env.Within.empty : Env.Within count {} :=
  fun _ member => nomatch member

/-- A variable is bound to a computation that is there. -/
theorem Env.Within.lookup {env : Env} {name : Name} {id : ThunkId} (within : env.Within count)
    (found : env.lookup name = some id) : id < count :=
  within (name, id) (mem_of_lookup found)

theorem Env.Within.bind {env : Env} {name : Name} {id : ThunkId} (within : env.Within count)
    (inside : id < count) : (env.bind name id).Within count := by
  intro binding member
  -- The variable is the new one, or was bound before.
  rcases List.mem_cons.mp member with rfl | member
  · exact inside
  · exact within binding member

/-- A field of a record is a computation that is there. -/
theorem Record.Within.get? {record : Record} {name : String} {id : ThunkId}
    (within : record.Within count) (found : record.get? name = some id) : id < count :=
  within (name, id) (mem_of_lookup found)

theorem Record.Within.thunks {record : Record} (within : record.Within count) :
    Inside count record.thunks := by
  intro id member
  obtain ⟨entry, listed, rfl⟩ := List.mem_map.mp member
  exact within entry listed

theorem Record.Within.empty : Record.empty.Within count :=
  fun _ member => nomatch member

theorem Record.Within.insert {record : Record} {name : String} {id : ThunkId}
    (within : record.Within count) (inside : id < count) : (record.insert name id).Within count := by
  intro entry member
  -- The field that is found under a name is the new one or one that was there.
  have found := lookup_of_mem (record.insert name id).sorted member
  rw [Record.insert, lookup_place] at found
  split at found
  · exact Option.some.inj found ▸ inside
  · exact within (entry.1, entry.2) (mem_of_lookup found)

theorem Record.Within.ofEntries {entries : List Entry} (inside : ∀ entry ∈ entries, entry.2 < count) :
    (Record.ofEntries entries).Within count := by
  intro entry member
  rw [Record.entries_ofEntries] at member
  exact inside entry (mem_placeAll member)

theorem LazyList.Within.ofThunks {ids : List ThunkId} (inside : Inside count ids) :
    (LazyList.ofThunks ids).Within count := by
  simpa [LazyList.ofThunks, LazyList.Within] using inside

theorem LazyList.Within.cursor {list : LazyList} (within : list.Within count) :
    list.cursor.Within count :=
  ⟨within, fun _ member => nomatch member⟩

/-- What a cursor has not passed is made of parts that are there. -/
theorem Cursor.Within.rest {cursor : Cursor} (within : cursor.Within count) :
    cursor.rest.Within count := by
  obtain ⟨front, pending⟩ := cursor
  obtain ⟨first, inside⟩ := within
  -- What is pending is joined to the front one by one.
  show (pending.foldl LazyList.concat front).Within count
  induction pending generalizing front with
  | nil => exact first
  | cons right rest ih =>
    exact ih _ ⟨first, inside right List.mem_cons_self⟩
      fun id member => inside id (List.mem_cons_of_mem _ member)

theorem Cursor.Within.before {pending : List ThunkId} (inside : Inside count pending) :
    (Cursor.before pending).Within count :=
  ⟨trivial, inside⟩

/-- An element that is not yet passed is a computation that is there. -/
theorem Inside.getElem? {items : Array ThunkId} {start : Nat} {id : ThunkId}
    (inside : Inside count items.toList) (found : items[start]? = some id) : id < count :=
  inside id (Array.mem_toList_iff.mpr (Array.mem_of_getElem? found))

end Parts

end LazyConfig
