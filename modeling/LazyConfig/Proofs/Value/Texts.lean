import LazyConfig.Proofs.Store.Contents
import LazyConfig.Value.Text

/-!
Texts of values that are evaluated throughout. Such a text is that of the data: nothing is shown as not evaluated, and
a list breaks off only if it has too many elements.
-/

namespace LazyConfig

/-! Texts of data. -/

/-- Texts with commas between them. -/
def joined : List String → String
  | [] => ""
  | [last] => last
  | first :: rest => first ++ (", " ++ joined rest)

/-- Some texts, of which those beyond a limit are left out behind a mark. -/
def brokenOff (limit : Nat) (mark : String) (texts : List String) : List String :=
  if texts.length ≤ limit then texts else texts.take limit ++ [mark]

mutual

/-- The text of data; the mark stands for the elements of a list beyond a limit. -/
def Data.text (limit : Nat) (mark : String) : Data → String
  | .int value => toString value.toInt
  | .float value => floatText value
  | .bool value => if value then "true" else "false"
  | .str text => Text.quote text
  | .list items => "[" ++ (joined (brokenOff limit mark (Data.texts limit mark items)) ++ "]")
  | .record fields =>
    if fields.isEmpty then "\x7b\x7d" else "\x7b " ++ (joined (Data.fieldTexts limit mark fields) ++ " \x7d")
  | .closure => "<function>"
  | .builtin op _ _ => "<builtin " ++ op.name ++ ">"
  | .host name => "<native " ++ name ++ ">"
  | .omitted => mark

/-- The texts of several data. -/
def Data.texts (limit : Nat) (mark : String) : List Data → List String
  | [] => []
  | first :: rest => Data.text limit mark first :: Data.texts limit mark rest

/-- The texts of fields. -/
def Data.fieldTexts (limit : Nat) (mark : String) : List (String × Data) → List String
  | [] => []
  | (name, part) :: rest => (name ++ " = " ++ Data.text limit mark part) :: Data.fieldTexts limit mark rest

end

mutual

/-- Data in which no list has more elements than a limit. -/
def Data.Narrow (limit : Nat) : Data → Prop
  | .list items => items.length ≤ limit ∧ Data.AllNarrow limit items
  | .record fields => Data.FieldsNarrow limit fields
  | .omitted => False
  | _ => True

/-- Data in none of which a list has more elements than a limit. -/
def Data.AllNarrow (limit : Nat) : List Data → Prop
  | [] => True
  | first :: rest => Data.Narrow limit first ∧ Data.AllNarrow limit rest

/-- Fields in whose data no list has more elements than a limit. -/
def Data.FieldsNarrow (limit : Nat) : List (String × Data) → Prop
  | [] => True
  | (_, part) :: rest => Data.Narrow limit part ∧ Data.FieldsNarrow limit rest

end

variable {limit : Nat}

/-- There are as many texts as data. -/
theorem Data.length_texts (limit : Nat) (mark : String) (items : List Data) :
    (Data.texts limit mark items).length = items.length := by
  induction items with
  | nil => rfl
  | cons first rest ih => rw [Data.texts, List.length_cons, ih, List.length_cons]

mutual

/-- Where no list is too long, there is no mark in the text. -/
theorem Data.Narrow.text (mark other : String) : {data : Data} → data.Narrow limit →
    data.text limit mark = data.text limit other
  | .int _, _ | .float _, _ | .bool _, _ | .str _, _ | .closure, _ | .builtin _ _ _, _ | .host _, _ => rfl
  | .list items, ⟨few, narrow⟩ => by
    rw [Data.text, Data.text, brokenOff, brokenOff, Data.length_texts, Data.length_texts, if_pos few, if_pos few,
      Data.AllNarrow.texts mark other narrow]
  | .record fields, narrow => by rw [Data.text, Data.text, Data.FieldsNarrow.texts mark other narrow]

/-- Where no list is too long, there is no mark in the texts. -/
theorem Data.AllNarrow.texts (mark other : String) : {items : List Data} → Data.AllNarrow limit items →
    Data.texts limit mark items = Data.texts limit other items
  | [], _ => rfl
  | _ :: _, ⟨first, rest⟩ => by
    rw [Data.texts, Data.texts, Data.Narrow.text mark other first, Data.AllNarrow.texts mark other rest]

/-- Where no list is too long, there is no mark in the texts of fields. -/
theorem Data.FieldsNarrow.texts (mark other : String) : {fields : List (String × Data)} →
    Data.FieldsNarrow limit fields → Data.fieldTexts limit mark fields = Data.fieldTexts limit other fields
  | [], _ => rfl
  | (_, _) :: _, ⟨first, rest⟩ => by
    rw [Data.fieldTexts, Data.fieldTexts, Data.Narrow.text mark other first, Data.FieldsNarrow.texts mark other rest]

end

/-! Texts of values. -/

namespace Store

/-- Pieces are written as a text, whatever is to be written behind them. -/
def Writes (store : Store) (pieces : List Piece) (text : String) : Prop :=
  ∃ steps enough, ∀ fuel, enough ≤ fuel → ∀ rest out,
    store.write (steps + fuel) (pieces ++ rest) out = store.write fuel rest (out ++ text)

variable {store : Store} {value : Value} {data : Data}

namespace Writes

variable {pieces others : List Piece} {written more : String}

/-- Nothing is written as the empty text. -/
theorem nil : store.Writes [] "" :=
  ⟨0, 0, fun fuel _ rest out => by rw [Nat.zero_add, List.nil_append, String.append_empty]⟩

/-- Pieces are written one after the other. -/
theorem append (front : store.Writes pieces written) (back : store.Writes others more) :
    store.Writes (pieces ++ others) (written ++ more) := by
  obtain ⟨few, enough, front⟩ := front
  obtain ⟨many, plenty, back⟩ := back
  refine ⟨few + many, max enough plenty, fun fuel room rest out => ?_⟩
  rw [Nat.add_assoc, List.append_assoc, front _ (by omega), back _ (by omega), String.append_assoc]

/-- A text is written as it is. -/
theorem text (text : String) : store.Writes [.text text] text :=
  ⟨1, 0, fun fuel _ rest out => by rw [Nat.add_comm]; rfl⟩

/-- Pieces are written with commas between them. -/
theorem commas {items : List (List Piece)} {texts : List String} (each : List.Forall₂ store.Writes items texts) :
    store.Writes (Piece.commas items) (joined texts) := by
  induction each with
  | nil => exact .nil
  | @cons first text rest texts writes others ih =>
    cases others with
    | nil => exact writes
    | cons second behind => exact writes.append ((Writes.text ", ").append ih)

/-- An element is written as its value. -/
theorem element {element : Visible} (found : store.visible? element = some value)
    (writes : store.Writes [.value value] more) : store.Writes [.element element] more := by
  obtain ⟨steps, enough, writes⟩ := writes
  refine ⟨steps + 1, enough, fun fuel room rest out => ?_⟩
  have one : steps + 1 + fuel = steps + fuel + 1 := by omega
  rw [one, List.singleton_append, write, found]
  exact writes fuel room rest out

end Writes

/-- The texts of elements with values. -/
theorem forall₂_texts {limit : Nat} {mark : String} {elements : List Visible} {parts : List Data}
    (bear : List.Forall₂ (store.Bears fun value part => store.Holds value part ∧
      store.Writes [.value value] (part.text limit mark)) elements parts) :
    List.Forall₂ store.Writes (elements.map fun element => [.element element]) (Data.texts limit mark parts) := by
  induction bear with
  | nil => exact .nil
  | cons first others ih =>
    obtain ⟨value, found, -, writes⟩ := first
    exact .cons (.element found writes) ih

/-- The texts of fields with values. -/
theorem forall₂_fieldTexts {limit : Nat} {mark : String} {entries : List Entry} {fields : List (String × Data)}
    (bear : List.Forall₂ (store.BearsField fun value part => store.Holds value part ∧
      store.Writes [.value value] (part.text limit mark)) entries fields) :
    List.Forall₂ store.Writes (entries.map fun entry => [.text (entry.1 ++ " = "), .element (.thunk entry.2)])
      (Data.fieldTexts limit mark fields) := by
  induction bear with
  | nil => exact .nil
  | @cons entry field entries fields first others ih =>
    obtain ⟨same, value, found, -, writes⟩ := first
    obtain ⟨name, part⟩ := field
    obtain rfl : entry.1 = name := same
    have shown : store.visible? (.thunk entry.2) = some value := by simp [visible?, peek?, found]
    exact .cons ((Writes.text (entry.1 ++ " = ")).append (.element shown writes)) ih

/-- A list is written as the texts of the elements that are seen, with the mark if these are not all. -/
theorem Writes.seen {items : LazyList} {elements : Array Visible} {complete : Bool} {texts : List String} {looks : Nat}
    (seen : ∀ fuel, looks ≤ fuel → store.elements? fuel (some displayLimit) items = some (elements, complete))
    (each : List.Forall₂ store.Writes (elements.toList.map fun element => [.element element]) texts) :
    store.Writes [.value (.list items)] ("[" ++ (joined (if complete then texts else texts ++ [".."]) ++ "]")) := by
  -- What is seen is written between the brackets.
  have pieces : List.Forall₂ store.Writes
      (if complete then elements.toList.map fun element => [.element element]
        else (elements.toList.map fun element => [.element element]) ++ [[.text ".."]])
      (if complete then texts else texts ++ [".."]) := by
    cases complete with
    | true => exact each
    | false => exact List.rel_append each (.cons (.text "..") .nil)
  obtain ⟨steps, enough, inner⟩ := (Writes.text "[").append ((Writes.commas pieces).append (.text "]"))
  refine ⟨steps + 1, max enough looks, fun fuel room rest out => ?_⟩
  have one : steps + 1 + fuel = steps + fuel + 1 := by omega
  rw [one, List.singleton_append, write, seen _ (by omega)]
  simpa using inner fuel (by omega) rest out

/-- A list is written as the texts of its elements, broken off behind the limit. -/
theorem Writes.list {items : LazyList} {elements : List Visible} {texts : List String}
    (spreads : store.Spreads items elements)
    (each : List.Forall₂ store.Writes (elements.map fun element => [.element element]) texts) :
    store.Writes [.value (.list items)] ("[" ++ (joined (brokenOff displayLimit ".." texts) ++ "]")) := by
  obtain ⟨looks, seen⟩ := spreads.elements?_some
  have count : elements.length = texts.length := by simpa using each.length_eq
  by_cases fits : elements.length ≤ displayLimit
  · rw [brokenOff, if_pos (count ▸ fits)]
    exact @Writes.seen _ items elements.toArray true texts looks
      (fun fuel enough => (seen fuel enough displayLimit).trans (congrArg some (if_pos fits))) each
  · rw [brokenOff, if_neg (count ▸ fits)]
    refine @Writes.seen _ items (elements.take displayLimit).toArray false (texts.take displayLimit) looks
      (fun fuel enough => (seen fuel enough displayLimit).trans (congrArg some (if_neg fits))) ?_
    rw [List.map_take]
    exact List.forall₂_take displayLimit each

/-- A record is written as the texts of its fields. -/
theorem Writes.record {fields : Record} {texts : List String} (some : fields.isEmpty = false)
    (each : List.Forall₂ store.Writes
      (fields.entries.map fun entry => [.text (entry.1 ++ " = "), .element (.thunk entry.2)]) texts) :
    store.Writes [.value (.record fields)] ("\x7b " ++ (joined texts ++ " \x7d")) := by
  obtain ⟨steps, enough, inner⟩ := (Writes.text "\x7b ").append ((Writes.commas each).append (.text " \x7d"))
  refine ⟨steps + 1, enough, fun fuel room rest out => ?_⟩
  have one : steps + 1 + fuel = steps + fuel + 1 := by omega
  rw [one, List.singleton_append, write, some]
  simpa using inner fuel room rest out

/-- A record without fields is written in one step. -/
theorem Writes.record_empty {fields : Record} (empty : fields.isEmpty = true) :
    store.Writes [.value (.record fields)] "\x7b\x7d" := by
  refine ⟨1, 0, fun fuel _ rest out => ?_⟩
  rw [Nat.add_comm, List.singleton_append, write, empty]
  rfl

/-- A value without parts is written in one step. -/
theorem Writes.leaf (leaf : value.Leaf data) (limit : Nat) (mark : String) :
    store.Writes [.value value] (data.text limit mark) := by
  refine ⟨1, 0, fun fuel _ rest out => ?_⟩
  rw [Nat.add_comm, List.singleton_append]
  cases leaf <;> simp only [write, Data.text, String.append_assoc]

/-- A value that holds data is written as the data. -/
theorem writes_inherits : store.Inherits fun value data => store.Writes [.value value] (data.text displayLimit "..") where
  leaf leaf := .leaf leaf displayLimit ".."
  list hold spreads bear := by
    rw [Data.text]
    exact .list spreads (forall₂_texts bear)
  record {record fields} hold bear := by
    rw [Data.text]
    have same : record.isEmpty = fields.isEmpty := by
      rw [Record.isEmpty]
      generalize record.entries = entries at bear
      cases bear <;> rfl
    cases empty : record.isEmpty with
    | true =>
      rw [← same, empty, if_pos rfl]
      exact .record_empty empty
    | false =>
      rw [← same, empty, if_neg Bool.false_ne_true]
      exact .record empty (forall₂_fieldTexts bear)

/-- What a value is written as is its text. -/
theorem Writes.display? {text : String} (writes : store.Writes [.value value] text) :
    ∃ enough, ∀ fuel, enough ≤ fuel → store.display? fuel value = some text := by
  obtain ⟨steps, enough, writes⟩ := writes
  refine ⟨steps + enough + 1, fun fuel room => ?_⟩
  obtain ⟨more, rfl⟩ := Nat.exists_eq_add_of_le room
  have count : steps + enough + 1 + more = steps + (enough + more + 1) := by omega
  have written := writes (enough + more + 1) (by omega) [] ""
  rw [Store.display?, count]
  rw [List.append_nil] at written
  rw [written, write, String.empty_append]

/-- The text of a value that is evaluated throughout is that of its data. -/
theorem Holds.display? (holds : store.Holds value data) : ∃ enough, ∀ fuel, enough ≤ fuel →
    store.display? fuel value = some (data.text displayLimit "..") :=
  (holds.inherit writes_inherits).display?

end Store

end LazyConfig
