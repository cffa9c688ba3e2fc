import LazyConfig.Proofs.Store.Contents
import LazyConfig.Value.Equality

/-!
Equality of data. Values that are evaluated throughout are compared by the host as their data are.
-/

namespace LazyConfig

mutual

/--
Whether data are the same. Lists are compared element by element and records field by field; integers are compared with
integers as they are, and with floats as floats. Functions are the same as nothing.
-/
def Data.same (left right : Data) : Bool :=
  match left with
  | .int left =>
    match right with
    | .int right => left == right
    | .float right => left.toFloat == right
    | _ => false
  | .float left =>
    match right with
    | .int right => left == right.toFloat
    | .float right => left == right
    | _ => false
  | .bool left =>
    match right with
    | .bool right => left == right
    | _ => false
  | .str left =>
    match right with
    | .str right => left == right
    | _ => false
  | .list lefts =>
    match right with
    | .list rights => Data.allSame lefts rights
    | _ => false
  | .record lefts =>
    match right with
    | .record rights => Data.fieldsSame lefts rights
    | _ => false
  | _ => false

/-- Whether as many data are the same, one by one. -/
def Data.allSame (lefts rights : List Data) : Bool :=
  match lefts with
  | [] => rights.isEmpty
  | left :: lefts =>
    match rights with
    | [] => false
    | right :: rights => left.same right && Data.allSame lefts rights

/-- Whether fields have the same names and the same data, one by one. -/
def Data.fieldsSame (lefts rights : List (String × Data)) : Bool :=
  match lefts with
  | [] => rights.isEmpty
  | (name, left) :: lefts =>
    match rights with
    | [] => false
    | (other, right) :: rights => name == other && left.same right && Data.fieldsSame lefts rights

end

mutual

/-- Data without functions, with nothing left out. -/
def Data.Plain : Data → Prop
  | .list items => Data.AllPlain items
  | .record fields => Data.FieldsPlain fields
  | .closure | .builtin .. | .host _ | .omitted => False
  | _ => True

/-- Data that are all without functions. -/
def Data.AllPlain : List Data → Prop
  | [] => True
  | first :: rest => Data.Plain first ∧ Data.AllPlain rest

/-- Fields whose data are without functions. -/
def Data.FieldsPlain : List (String × Data) → Prop
  | [] => True
  | (_, first) :: rest => Data.Plain first ∧ Data.FieldsPlain rest

end

mutual

/-- Data without floats. -/
def Data.Exact : Data → Prop
  | .float _ => False
  | .list items => Data.AllExact items
  | .record fields => Data.FieldsExact fields
  | _ => True

/-- Data that are all without floats. -/
def Data.AllExact : List Data → Prop
  | [] => True
  | first :: rest => Data.Exact first ∧ Data.AllExact rest

/-- Fields whose data are without floats. -/
def Data.FieldsExact : List (String × Data) → Prop
  | [] => True
  | (_, first) :: rest => Data.Exact first ∧ Data.FieldsExact rest

end

/-! Without floats, only equal data are the same. -/

mutual

/-- Without floats and functions, data are the same exactly when they are equal. -/
theorem Data.same_iff : {left right : Data} → left.Plain → left.Exact → right.Exact →
    (left.same right = true ↔ left = right)
  | .int left, right, _, _, exact => by
    cases right with
    | int right => simp [Data.same]
    | float right => exact exact.elim
    | _ => simp [Data.same]
  | .float left, _, _, exact, _ => exact.elim
  | .bool left, right, _, _, _ => by cases right <;> simp [Data.same]
  | .str left, right, _, _, _ => by cases right <;> simp [Data.same]
  | .list lefts, right, plain, exact, also => by
    cases right with
    | list rights => rw [Data.same, Data.list.injEq, Data.allSame_iff plain exact also]
    | _ => simp [Data.same]
  | .record lefts, right, plain, exact, also => by
    cases right with
    | record rights => rw [Data.same, Data.record.injEq, Data.fieldsSame_iff plain exact also]
    | _ => simp [Data.same]
  | .closure, _, plain, _, _ | .builtin .., _, plain, _, _ | .host _, _, plain, _, _ | .omitted, _, plain, _, _ =>
    plain.elim

/-- Without floats and functions, data are all the same exactly when they are equal. -/
theorem Data.allSame_iff : {lefts rights : List Data} → Data.AllPlain lefts → Data.AllExact lefts →
    Data.AllExact rights → (Data.allSame lefts rights = true ↔ lefts = rights)
  | [], rights, _, _, _ => by cases rights <;> simp [Data.allSame]
  | left :: lefts, rights, ⟨plain, others⟩, ⟨exact, rest⟩, also => by
    cases rights with
    | nil => simp [Data.allSame]
    | cons right rights =>
      rw [Data.allSame, Bool.and_eq_true, Data.same_iff plain exact also.1, Data.allSame_iff others rest also.2,
        List.cons.injEq]

/-- Without floats and functions, fields are the same exactly when they are equal. -/
theorem Data.fieldsSame_iff : {lefts rights : List (String × Data)} → Data.FieldsPlain lefts → Data.FieldsExact lefts →
    Data.FieldsExact rights → (Data.fieldsSame lefts rights = true ↔ lefts = rights)
  | [], rights, _, _, _ => by cases rights <;> simp [Data.fieldsSame]
  | (name, left) :: lefts, rights, ⟨plain, others⟩, ⟨exact, rest⟩, also => by
    cases rights with
    | nil => simp [Data.fieldsSame]
    | cons field rights =>
      obtain ⟨other, right⟩ := field
      rw [Data.fieldsSame, Bool.and_eq_true, Bool.and_eq_true, beq_iff_eq, Data.same_iff plain exact also.1,
        Data.fieldsSame_iff others rest also.2, List.cons.injEq, Prod.mk.injEq]

end

/-- Fields are the same when their names are, and their data. -/
theorem Data.fieldsSame_eq (lefts rights : List (String × Data)) :
    Data.fieldsSame lefts rights =
      (lefts.map Prod.fst == rights.map Prod.fst && Data.allSame (lefts.map Prod.snd) (rights.map Prod.snd)) := by
  induction lefts generalizing rights with
  | nil => cases rights <;> rfl
  | cons field lefts ih =>
    cases rights with
    | nil => simp [Data.fieldsSame]
    | cons other rights =>
      rw [Data.fieldsSame, ih, List.map_cons, List.map_cons, List.map_cons, List.map_cons, Data.allSame, List.cons_beq_cons]
      cases field.1 == other.1 <;> cases field.2.same other.2 <;> simp

/-- Lists of different lengths are not the same. -/
theorem Data.allSame_of_length {lefts rights : List Data} (different : lefts.length ≠ rights.length) :
    Data.allSame lefts rights = false := by
  induction lefts generalizing rights with
  | nil =>
    cases rights with
    | nil => exact absurd rfl different
    | cons right rights => rfl
  | cons left lefts ih =>
    cases rights with
    | nil => rfl
    | cons right rights =>
      rw [Data.allSame, ih fun same => different (congrArg Nat.succ same), Bool.and_false]

namespace Store

/-- A comparison comes to a verdict about some pairs, whatever pairs are to be compared behind them. -/
def Decides (store : Store) (pairs : List (Value × Value)) (same : Bool) : Prop :=
  ∃ steps enough, ∀ fuel, enough ≤ fuel → ∀ rest,
    store.equalPairs (steps + fuel) (pairs ++ rest) = if same then store.equalPairs fuel rest else some false

variable {store : Store} {value other : Value} {data : Data}

namespace Decides

/-- Nothing has to be compared. -/
theorem nil : store.Decides [] true :=
  ⟨0, 0, fun fuel _ rest => by rw [Nat.zero_add]; rfl⟩

/-- Pairs are compared one after the other, up to the first that differs. -/
theorem cons {pair : Value × Value} {pairs : List (Value × Value)} {first others : Bool}
    (front : store.Decides [pair] first) (back : store.Decides pairs others) :
    store.Decides (pair :: pairs) (first && others) := by
  obtain ⟨few, enough, front⟩ := front
  obtain ⟨many, plenty, back⟩ := back
  refine ⟨few + many, max enough plenty, fun fuel room rest => ?_⟩
  have begun := front (many + fuel) (by omega) (pairs ++ rest)
  rw [Nat.add_assoc, List.cons_append]
  refine begun.trans ?_
  rw [back fuel (by omega)]
  cases first <;> cases others <;> rfl

/-- A pair that is compared in one step. -/
theorem of_step {same : Bool} (step : ∀ fuel rest, store.equalPairs (fuel + 1) ((value, other) :: rest) =
    if same then store.equalPairs fuel rest else some false) : store.Decides [(value, other)] same :=
  ⟨1, 0, fun fuel _ rest => by rw [Nat.add_comm]; exact step fuel rest⟩

end Decides

/-- What values of data have in common that the host compares with others as their data are. -/
def DecidesBy (store : Store) (value : Value) (data : Data) : Prop :=
  data.Plain → ∀ other part, store.Holds other part → part.Plain → store.Decides [(value, other)] (data.same part)

/-- Elements that are there are paired, and the comparison of the pairs decides whether the data are all the same. -/
theorem decides_pairUp {lefts rights : List Visible} {parts others : List Data}
    (bear : List.Forall₂ (store.Bears store.DecidesBy) lefts parts)
    (also : List.Forall₂ (store.Bears store.Holds) rights others) (plain : Data.AllPlain parts)
    (plain' : Data.AllPlain others) (length : parts.length = others.length) :
    ∃ pairs, store.pairUp lefts rights = some pairs ∧ store.Decides pairs (Data.allSame parts others) := by
  -- Both lists are as long as their data, so that they come to an end together.
  induction bear generalizing rights others with
  | nil =>
    obtain rfl : others = [] := List.eq_nil_of_length_eq_zero length.symm
    exact ⟨[], rfl, .nil⟩
  | @cons left part lefts parts first rest ih =>
    cases also with
    | nil => cases length
    | @cons right data rights others second behind =>
      obtain ⟨value, shown, decides⟩ := first
      obtain ⟨other, seen, holds⟩ := second
      obtain ⟨pairs, paired, decided⟩ := ih behind plain.2 plain'.2 (Nat.succ.inj length)
      refine ⟨(value, other) :: pairs, by simp [pairUp, shown, seen, paired], ?_⟩
      exact (decides plain.1 other data holds plain'.1).cons decided

/-- Lists whose elements are there are compared element by element. -/
theorem decides_list {items others : LazyList} {lefts : List Visible} {parts data : List Data}
    (spreads : store.Spreads items lefts)
    (bear : List.Forall₂ (store.Bears store.DecidesBy) lefts parts) (hold : store.ListHolds others data)
    (plain : Data.AllPlain parts) (plain' : Data.AllPlain data) :
    store.Decides [(.list items, .list others)] (Data.allSame parts data) := by
  obtain ⟨rights, spreads', bear'⟩ := hold.spreads
  obtain ⟨enough, seen⟩ := spreads.elements?_none
  obtain ⟨enough', seen'⟩ := spreads'.elements?_none
  have length := bear.length_eq
  have length' := bear'.length_eq
  by_cases same : parts.length = data.length
  · obtain ⟨pairs, paired, steps, plenty, decided⟩ := decides_pairUp bear bear' plain plain' same
    refine ⟨steps + 1, max plenty (max enough enough'), fun fuel room rest => ?_⟩
    have turn : steps + 1 + fuel = steps + fuel + 1 := by omega
    have sizes : lefts.length = rights.length := by omega
    rw [turn, List.singleton_append, equalPairs, seen _ (by omega), seen' _ (by omega)]
    simp [sizes, paired, decided fuel (by omega) rest]
  · -- Lists of different lengths differ, whatever their elements are.
    refine ⟨1, max enough enough', fun fuel room rest => ?_⟩
    have sizes : lefts.length ≠ rights.length := by omega
    rw [Nat.add_comm, List.singleton_append, equalPairs, seen _ (by omega), seen' _ (by omega),
      Data.allSame_of_length same]
    simp [sizes]

/-- Values without parts are compared in one step. -/
theorem decides_leaf (leaf : value.Leaf data) (plain : data.Plain) {part : Data} (holds : store.Holds other part)
    (also : part.Plain) : store.Decides [(value, other)] (data.same part) := by
  refine .of_step fun fuel rest => ?_
  cases leaf with
  | closure function | builtin op held | host function => exact plain.elim
  | _ =>
    cases holds with
    | closure function | builtin op held | host function => exact also.elim
    | _ => simp [equalPairs, Data.same, Value.asFloat?] <;> rfl

/-- The data of fields without functions are without functions. -/
theorem allPlain_of_fields {fields : List (String × Data)} (plain : Data.FieldsPlain fields) :
    Data.AllPlain (fields.map Prod.snd) := by
  induction fields with
  | nil => trivial
  | cons field fields ih => exact ⟨plain.1, ih plain.2⟩

/-- Records whose fields are there are compared field by field. -/
theorem decides_record {record other : Record} {fields others : List (String × Data)}
    (bear : List.Forall₂ (store.BearsField store.DecidesBy) record.entries fields)
    (hold : store.FieldsHold other.entries others) (plain : Data.FieldsPlain fields)
    (plain' : Data.FieldsPlain others) :
    store.Decides [(.record record, .record other)] (Data.fieldsSame fields others) := by
  have names := names_of_bears bear
  have names' : other.names = others.map Prod.fst := hold.names.symm
  rw [Data.fieldsSame_eq, ← names, ← names']
  by_cases same : record.names = other.names
  · have length : (fields.map Prod.snd).length = (others.map Prod.snd).length := by
      have counts := congrArg List.length (names.symm.trans (same.trans names'))
      simpa using counts
    obtain ⟨pairs, paired, steps, enough, decided⟩ := decides_pairUp (bears_of_fields bear)
      (bears_of_fields hold.bears) (allPlain_of_fields plain) (allPlain_of_fields plain') length
    refine ⟨steps + 1, enough, fun fuel room rest => ?_⟩
    have turn : steps + 1 + fuel = steps + fuel + 1 := by omega
    rw [turn, List.singleton_append, equalPairs, if_pos same, Record.thunks, Record.thunks, paired]
    simp [same, decided fuel room rest]
  · -- Records with different names differ, whatever their fields are.
    exact .of_step fun fuel rest => by simp [equalPairs, same]

/-- The host compares values that hold data as their data are. -/
theorem decides_inherits : store.Inherits store.DecidesBy where
  leaf leaf plain _ _ holds also := decides_leaf leaf plain holds also
  list {items parts elements} hold spreads bear plain other part holds also := by
    cases holds with
    | list hold =>
      exact decides_list spreads (bear.imp fun _ _ bears => bears.imp fun _ both => both.imp_right And.right) hold
        plain also
    | closure function | builtin op held | host function => exact also.elim
    | _ => exact .of_step fun fuel rest => by simp [equalPairs, Data.same, Value.asFloat?]
  record {record fields} hold bear plain other part holds also := by
    cases holds with
    | record hold =>
      exact decides_record (bear.imp fun _ _ first => first.imp_right fun own => own.imp fun _ both =>
        both.imp_right And.right) hold plain also
    | closure function | builtin op held | host function => exact also.elim
    | _ => exact .of_step fun fuel rest => by simp [equalPairs, Data.same, Value.asFloat?]

/-- Values that hold data without functions are equal for the host exactly when their data are the same. -/
theorem Holds.equal? {part : Data} (holds : store.Holds value data) (also : store.Holds other part)
    (plain : data.Plain) (plain' : part.Plain) :
    ∃ enough, ∀ fuel, enough ≤ fuel → store.equal? fuel value other = some (data.same part) := by
  obtain ⟨steps, enough, decided⟩ := holds.inherit decides_inherits plain other part also plain'
  refine ⟨steps + (enough + 1), fun fuel room => ?_⟩
  obtain ⟨more, rfl⟩ := Nat.exists_eq_add_of_le room
  have begun := decided (enough + 1 + more) (by omega) []
  rw [Store.equal?, Nat.add_assoc]
  refine begun.trans ?_
  cases data.same part with
  | false => rfl
  | true =>
    rw [Nat.add_right_comm]
    rfl

end Store

end LazyConfig
