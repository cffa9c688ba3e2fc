import LazyConfig.Proofs.Prelude.Built
import Mathlib.Data.Finset.Card

/-!
Names of texts. Interning numbers the different texts in the order of their first appearance, names and texts stand
for each other from then on, and a table by text beside the one by name always says the same.
-/

namespace LazyConfig

namespace NameTable

variable {table : NameTable} {text other : String} {name : Name}

/-- A text without a name is not in the table. -/
theorem find?_eq_none_iff : table.find? text = none ↔ text ∉ table.texts.toList := by
  rw [find?, Array.idxOf?, Option.map_eq_none_iff, Array.finIdxOf?_eq_none_iff, Array.mem_toList_iff]

/-- A text that has a name is what the name reads as. -/
theorem lookup_of_find? (found : table.find? text = some name) : table.lookup name = text := by
  rw [lookup, (find?_eq_some_iff.mp found).1, Option.getD_some]

/-- A text keeps its name whatever is interned later. -/
theorem find?_internAll (found : table.find? other = some name) (texts : List String) :
    (table.internAll texts).2.find? other = some name := by
  induction texts generalizing table with
  | nil => exact found
  | cons text rest ih => exact ih (find?_intern found)

/-- Interning several texts is interning the first one and then the others. -/
theorem internAll_cons (table : NameTable) (text : String) (rest : List String) :
    table.internAll (text :: rest) =
      ((table.intern text).1 :: ((table.intern text).2.internAll rest).1, ((table.intern text).2.internAll rest).2) :=
  rfl

/-- Texts interned in two goes get the same names as in one. -/
theorem internAll_append (table : NameTable) (texts later : List String) :
    table.internAll (texts ++ later) = ((table.internAll texts).1 ++ ((table.internAll texts).2.internAll later).1,
      ((table.internAll texts).2.internAll later).2) := by
  induction texts generalizing table with
  | nil => rfl
  | cons text rest ih => rw [List.cons_append, internAll_cons, internAll_cons, ih, List.cons_append]

/-- Each text is given one name. -/
theorem length_internAll (table : NameTable) (texts : List String) :
    (table.internAll texts).1.length = texts.length := by
  induction texts generalizing table with
  | nil => rfl
  | cons text rest ih => rw [internAll_cons, List.length_cons, List.length_cons, ih]

/-- The name that was given to a text is found for it in the end. -/
theorem find?_of_mem_internAll {texts : List String} (given : (text, name) ∈ texts.zip (table.internAll texts).1) :
    (table.internAll texts).2.find? text = some name := by
  induction texts generalizing table with
  | nil => cases given
  | cons first rest ih =>
    rw [internAll_cons, List.zip_cons_cons, List.mem_cons] at given
    rcases given with same | later
    · obtain ⟨rfl, rfl⟩ := Prod.mk.inj same
      exact find?_internAll (find?_intern_self table text) rest
    · exact ih later

/-! What is in the table. -/

/-- A table of the different texts among those that were seen, in the order in which they were seen first. -/
structure Lists (table : NameTable) (seen : List String) : Prop where
  texts : table.texts.toList = seen.eraseDups
  distinct : table.texts.toList.Nodup

variable {seen : List String}

/-- A text is in the table when it was seen. -/
theorem Lists.mem_iff (lists : table.Lists seen) : text ∈ table.texts.toList ↔ text ∈ seen := by
  rw [lists.texts, List.mem_eraseDups]

/-- A fresh table lists the empty text. -/
theorem Lists.fresh : ({} : NameTable).Lists [""] :=
  ⟨rfl, List.nodup_singleton _⟩

/-- Interning lists one more text, at the end if it is new. -/
theorem Lists.intern (lists : table.Lists seen) (text : String) : (table.intern text).2.Lists (seen ++ [text]) := by
  have last : (seen ++ [text]).eraseDups = table.texts.toList ++ ([text].removeAll seen).eraseDups := by
    rw [List.eraseDups_append, lists.texts]
  rw [NameTable.intern]
  split
  · -- The text was seen before, so that it adds nothing.
    rename_i name found
    have old : text ∈ seen := by
      rw [← lists.mem_iff]
      by_contra absent
      cases (find?_eq_none_iff.mpr absent).symm.trans found
    refine ⟨?_, lists.distinct⟩
    rw [last, List.removeAll, List.filter_eq_nil_iff.mpr (by simpa using old), List.eraseDups_nil, List.append_nil]
  · rename_i unseen
    have absent := find?_eq_none_iff.mp unseen
    have new : text ∉ seen := fun member => absent (lists.mem_iff.mpr member)
    refine ⟨?_, ?_⟩
    · rw [last, List.removeAll, List.filter_eq_self.mpr (by simpa using new), Array.toList_push]
      rfl
    · rw [Array.toList_push]
      exact List.concat_eq_append ▸ lists.distinct.concat absent

/-- Interning lists all the texts. -/
theorem Lists.internAll (lists : table.Lists seen) (texts : List String) :
    (table.internAll texts).2.Lists (seen ++ texts) := by
  induction texts generalizing table seen with
  | nil => rwa [List.append_nil]
  | cons text rest ih =>
    have next := ih (lists.intern text)
    rwa [List.append_assoc] at next

/-- The size of a table is the number of different texts. -/
theorem Lists.size_eq (lists : table.Lists seen) : table.size = seen.toFinset.card := by
  have same : seen.toFinset = table.texts.toList.toFinset := by
    ext text
    rw [List.mem_toFinset, List.mem_toFinset, lists.mem_iff]
  rw [same, List.toFinset_card_of_nodup lists.distinct, Array.length_toList, NameTable.size]

/-- No text is at two places, so that a text has the name of any place where it is. -/
theorem Lists.find?_eq_some_iff (lists : table.Lists seen) :
    table.find? text = some name ↔ table.texts[name]? = some text := by
  refine ⟨fun found => (NameTable.find?_eq_some_iff.mp found).1, fun here => ?_⟩
  refine NameTable.find?_eq_some_iff.mpr ⟨here, fun earlier less also => ?_⟩
  rw [← Array.getElem?_toList] at here also
  have there := (List.getElem?_eq_some_iff.mp also).1
  exact Nat.ne_of_lt less ((List.getElem?_inj there lists.distinct).mp (also.trans here.symm))

/-- A text that is new takes the next free name. -/
theorem intern_of_new (new : table.find? text = none) :
    table.intern text = (table.size, { table with texts := table.texts.push text }) := by
  rw [intern, new]

/-- A text that has a name keeps it. -/
theorem intern_of_find? (found : table.find? text = some name) : table.intern text = (name, table) := by
  rw [intern, found]

/-- Where a new text is added, it has the next free name, and all others have the names that they had. -/
theorem find?_intern_of_new (new : table.find? text = none) (other : String) :
    (table.intern text).2.find? other = if text = other then some table.size else table.find? other := by
  split
  · rename_i same
    rw [← same, find?_intern_self, intern_of_new new]
  · rename_i different
    cases found : table.find? other with
    | some name => exact find?_intern found
    | none =>
      have absent := find?_eq_none_iff.mp found
      rw [intern_of_new new]
      exact find?_eq_none_iff.mpr (by simpa [absent] using Ne.symm different)

/-- Nothing is taken out of a table. -/
theorem size_le_internAll (table : NameTable) (texts : List String) : table.size ≤ (table.internAll texts).2.size := by
  induction texts generalizing table with
  | nil => exact Nat.le_refl _
  | cons text rest ih =>
    have grown : table.size ≤ (table.intern text).2.size := by
      cases found : table.find? text with
      | some name => rw [intern_of_find? found]
      | none =>
        rw [intern_of_new found, size, size, Array.size_push]
        exact Nat.le_succ _
    exact Nat.le_trans grown (ih _)

/-- The names that texts are given one after another, in a table that is fresh at first. -/
abbrev given (texts : List String) : List Name :=
  (({} : NameTable).internAll texts).1

/-- The table after texts have been interned one after another. -/
abbrev after (texts : List String) : NameTable :=
  (({} : NameTable).internAll texts).2

/-- The table lists the empty text and what was interned. -/
theorem after_lists (texts : List String) : (after texts).Lists ("" :: texts) :=
  Lists.fresh.internAll texts

/-- The empty text has the first name, whether it was interned or not. -/
theorem find?_empty (texts : List String) : (after texts).find? "" = some 0 :=
  find?_internAll (find?_eq_some_iff.mpr ⟨rfl, fun _ less => absurd less (Nat.not_lt_zero _)⟩) texts

/-- Each text was given a name. -/
theorem exists_given {texts : List String} (member : text ∈ texts) :
    ∃ name, (text, name) ∈ texts.zip (given texts) := by
  have all : (texts.zip (given texts)).map Prod.fst = texts :=
    List.map_fst_zip (Nat.le_of_eq (length_internAll {} texts).symm)
  rw [← all] at member
  obtain ⟨call, among, rfl⟩ := List.mem_map.mp member
  exact ⟨call.2, among⟩

/-- Each name was given to a text. -/
theorem exists_text {texts : List String} (member : name ∈ given texts) :
    ∃ text, (text, name) ∈ texts.zip (given texts) := by
  have all : (texts.zip (given texts)).map Prod.snd = given texts :=
    List.map_snd_zip (Nat.le_of_eq (length_internAll {} texts))
  rw [← all] at member
  obtain ⟨call, among, rfl⟩ := List.mem_map.mp member
  exact ⟨call.1, among⟩

/-- The names that are in use are the first one and those that were given. -/
theorem lt_size_iff {texts : List String} : name < (after texts).size ↔ name ∈ 0 :: given texts := by
  have lists := after_lists texts
  have named {text : String} (found : (after texts).find? text = some name) : name < (after texts).size :=
    (Array.getElem?_eq_some_iff.mp (lists.find?_eq_some_iff.mp found)).1
  constructor
  · intro inside
    -- The text at this place is the empty one or was interned, and then the place is the name that it was given.
    have here : (after texts).texts[name]? = some (after texts).texts[name] := Array.getElem?_eq_getElem inside
    have found := lists.find?_eq_some_iff.mpr here
    have seen := lists.mem_iff.mp (Array.mem_toList_iff.mpr (Array.mem_of_getElem? here))
    rcases List.mem_cons.mp seen with empty | member
    · rw [empty, find?_empty] at found
      exact Option.some.inj found ▸ List.mem_cons_self
    · obtain ⟨other, call⟩ := exists_given member
      rw [find?_of_mem_internAll call] at found
      exact Option.some.inj found ▸ List.mem_cons_of_mem _ (List.of_mem_zip call).2
  · intro member
    rcases List.mem_cons.mp member with rfl | member
    · exact named (find?_empty texts)
    · obtain ⟨text, call⟩ := exists_text member
      exact named (find?_of_mem_internAll call)

end NameTable

/-! Two tables that say the same. -/

/-- Names in two tables: the name of each text, and the texts in the order of their names. -/
structure IndexedNames where
  ids : Std.HashMap String Name
  texts : Array String

namespace IndexedNames

/-- Tables in which only the empty text has a name. -/
def fresh : IndexedNames :=
  ⟨({} : Std.HashMap String Name).insert "" 0, #[""]⟩

/-- Adds a text under the next free name, unless it has one by now. A name has 32 bits. -/
def add? (tables : IndexedNames) (text : String) : Option (Name × IndexedNames) :=
  match tables.ids[text]? with
  | some name => some (name, tables)
  | none =>
    let name := tables.texts.size
    if name < UInt32.size then some (name, ⟨tables.ids.insert text name, tables.texts.push text⟩) else none

/-- The name of a text, which is added if it has none. -/
def intern? (tables : IndexedNames) (text : String) : Option (Name × IndexedNames) :=
  match tables.ids[text]? with
  | some name => some (name, tables)
  | none => tables.add? text

/-- Interning several texts in order. -/
def internAll? (tables : IndexedNames) : List String → Option (List Name × IndexedNames)
  | [] => some ([], tables)
  | text :: rest => do
    let (name, tables) ← tables.intern? text
    let (names, tables) ← tables.internAll? rest
    some (name :: names, tables)

/-- The two tables say what one table of texts says. -/
structure Indexes (tables : IndexedNames) (table : NameTable) : Prop where
  texts : tables.texts = table.texts
  ids : ∀ text : String, tables.ids[text]? = table.find? text

variable {tables : IndexedNames} {table : NameTable} {text : String}

/-- The look before a text is added decides alone, whatever was added by others after the first look. -/
theorem add?_eq_intern? (tables : IndexedNames) (text : String) : tables.add? text = tables.intern? text := by
  rw [intern?]
  split
  · rename_i name found
    rw [add?, found]
  · rfl

/-- Fresh tables say the same. -/
theorem Indexes.fresh : IndexedNames.fresh.Indexes {} := by
  refine ⟨rfl, fun text => ?_⟩
  rw [IndexedNames.fresh, Std.HashMap.getElem?_insert]
  by_cases empty : text = ""
  · rw [empty]
    exact (NameTable.find?_empty []).symm
  · have absent : ({} : NameTable).find? text = none := NameTable.find?_eq_none_iff.mpr (by simpa using empty)
    rw [absent, if_neg (by simpa using Ne.symm empty)]
    exact Std.HashMap.getElem?_empty

/-- While there are names left, both ways of interning a text give the same name. -/
theorem Indexes.intern (indexes : tables.Indexes table) (room : (table.intern text).2.size ≤ UInt32.size) :
    ∃ later, tables.intern? text = some ((table.intern text).1, later) ∧ later.Indexes (table.intern text).2 := by
  have same := indexes.ids text
  rw [← add?_eq_intern?, add?]
  cases found : table.find? text with
  | some name =>
    rw [found] at same
    rw [NameTable.intern_of_find? found, same]
    exact ⟨tables, rfl, indexes⟩
  | none =>
    rw [found] at same
    have size : tables.texts.size = table.size := congrArg Array.size indexes.texts
    have free : table.size < UInt32.size := by
      rw [NameTable.intern_of_new found, NameTable.size, Array.size_push] at room
      exact room
    refine ⟨⟨tables.ids.insert text table.size, tables.texts.push text⟩, ?_, ?_, fun other => ?_⟩
    · simp only [same, size, if_pos free, NameTable.intern_of_new found]
    · rw [NameTable.intern_of_new found, indexes.texts]
    · rw [NameTable.find?_intern_of_new found, Std.HashMap.getElem?_insert, indexes.ids]
      simp only [beq_iff_eq]

/-- While there are names left, both ways of interning texts give the same names. -/
theorem Indexes.internAll (indexes : tables.Indexes table) (texts : List String)
    (room : (table.internAll texts).2.size ≤ UInt32.size) :
    ∃ later, tables.internAll? texts = some ((table.internAll texts).1, later) ∧
      later.Indexes (table.internAll texts).2 := by
  induction texts generalizing tables table with
  | nil => exact ⟨tables, rfl, indexes⟩
  | cons text rest ih =>
    -- What is not too much in the end was not too much before.
    obtain ⟨middle, first, kept⟩ := indexes.intern (Nat.le_trans (NameTable.size_le_internAll _ rest) room)
    obtain ⟨later, others, last⟩ := ih kept room
    refine ⟨later, ?_, last⟩
    rw [internAll?, first, NameTable.internAll_cons]
    simp [others]

end IndexedNames

namespace NameTable

/-- What holds of the names that texts are given one after another, and of the table that they make. -/
structure Numbered (texts : List String) : Prop where
  /-- Every call gives a name. -/
  total : (given texts).length = texts.length
  /-- Two calls give the same name exactly if they are for the same text. -/
  faithful : ∀ call ∈ texts.zip (given texts), ∀ other ∈ texts.zip (given texts), call.2 = other.2 ↔ call.1 = other.1
  /-- Later calls change no name that was given, and it reads as its text at once and ever after. -/
  stable : ∀ later, given texts <+: given (texts ++ later) ∧
    ∀ call ∈ texts.zip (given texts), (after (texts ++ later)).lookup call.2 = call.1
  /-- The different texts are numbered in the order of their first appearance, after the empty one. -/
  ordered : (after texts).texts.toList = ("" :: texts).eraseDups ∧ ((after texts).intern "").1 = 0
  /-- The number of names is the number of different texts, the empty one included. -/
  counted : (after texts).size = ("" :: texts).toFinset.card
  /-- A text that was not seen takes the next name. -/
  next : ∀ text, text ∉ "" :: texts → ((after texts).intern text).1 = (after texts).size
  /-- The names up to the size are those that were given, besides that of the empty text. -/
  dense : ∀ name, name < (after texts).size ↔ name ∈ 0 :: given texts
  /-- A name that was not given reads as the empty text. -/
  unknown : ∀ name, name ∉ given texts → (after texts).lookup name = ""
  /-- With a table by text besides, calls give the same names, and the tables stay inverse to each other. -/
  indexed : ∃ tables, IndexedNames.fresh.internAll? texts = some (given texts, tables) ∧
    tables.texts = (after texts).texts ∧
    ∀ (text : String) (name : Name), tables.ids[text]? = some name ↔ tables.texts[name]? = some text

/-- Names stand for texts one to one, as long as there are enough names for all the different texts. -/
theorem names_number_texts {texts : List String} (few : ("" :: texts).toFinset.card ≤ UInt32.size) :
    Numbered texts := by
  have lists := after_lists texts
  have found {call : String × Name} (member : call ∈ texts.zip (given texts)) :
      (after texts).find? call.1 = some call.2 := find?_of_mem_internAll member
  have size := lists.size_eq
  refine ⟨length_internAll _ texts, fun call member other also => ⟨fun same => ?_, fun same => ?_⟩, fun later => ⟨?_, ?_⟩,
    ⟨lists.texts, ?_⟩, size, fun text new => ?_, fun name => lt_size_iff, fun name unknown => ?_, ?_⟩
  · -- Both texts are what the name reads as.
    rw [← lookup_of_find? (found member), same, lookup_of_find? (found also)]
  · exact Option.some.inj ((found member).symm.trans (same ▸ found also))
  · rw [given, given, internAll_append]
    exact List.prefix_append _ _
  · intro call member
    rw [after, internAll_append]
    exact lookup_of_find? (find?_internAll (found member) later)
  · rw [intern_of_find? (find?_empty texts)]
  · rw [intern_of_new (find?_eq_none_iff.mpr fun member => new (lists.mem_iff.mp member))]
  · by_cases inside : name < (after texts).size
    · -- Only the first name is in use without having been given.
      rcases List.mem_cons.mp (lt_size_iff.mp inside) with rfl | member
      · exact lookup_of_find? (find?_empty texts)
      · exact absurd member unknown
    · rw [lookup, Array.getElem?_eq_none (Nat.not_lt.mp inside), Option.getD_none]
  · obtain ⟨tables, ran, indexes⟩ := IndexedNames.Indexes.fresh.internAll texts (size ▸ few)
    refine ⟨tables, ran, indexes.texts, fun text name => ?_⟩
    rw [indexes.ids, indexes.texts, lists.find?_eq_some_iff]

/-- A text that comes twice has one name, the empty text has the first, and the others follow in order. -/
theorem names_number_texts_repeated :
    (after ["b", "", "a", "b"]).texts.toList = ["", "b", "a"] ∧ (after ["b", "", "a", "b"]).size = 3 ∧
      Numbered ["b", "", "a", "b"] := by
  have few : ("" :: ["b", "", "a", "b"]).toFinset.card ≤ UInt32.size := by decide
  have numbered := names_number_texts few
  exact ⟨numbered.ordered.1.trans (by decide), numbered.counted.trans (by decide), numbered⟩

end NameTable

end LazyConfig
