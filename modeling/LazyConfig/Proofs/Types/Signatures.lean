import LazyConfig.Types.Text

/-!
What the text of a type says. A type is read from its text alone: words end where a separator begins, and what may be
mistaken for the rest of another type stands in parentheses.
-/

namespace LazyConfig

/-- A type as messages show it: aliases and variables are known by their names. -/
inductive Signature
  | num | str | bool | dyn
  | list (elem : Signature)
  | record (fields : List (String × Signature))
  | dict (elem : Signature)
  | fn (param result : Signature)
  | forAll (var : String) (body : Signature)
  | named (text : String)

namespace Signature

/-- Whether a type stands in parentheses inside a list and before an arrow. -/
def grouped : Signature → Bool
  | list _ | fn _ _ | forAll _ _ => true
  | _ => false

mutual

/-- The text of a type. -/
def text : Signature → String
  | num => "Num"
  | str => "Str"
  | bool => "Bool"
  | dyn => "Dyn"
  | list elem => "List " ++ TypeGraph.parens elem.grouped elem.text
  | record fields => "\x7b" ++ ", ".intercalate (entries fields) ++ "\x7d"
  | dict elem => "\x7b_ : " ++ elem.text ++ "\x7d"
  | fn param result => TypeGraph.parens param.grouped param.text ++ " -> " ++ result.text
  | forAll var body => "forall " ++ var ++ ". " ++ body.text
  | named text => text

/-- The texts of fields. -/
def entries : List (String × Signature) → List String
  | [] => []
  | (name, type) :: rest => (name ++ " : " ++ type.text) :: entries rest

end

example : (fn (fn num num) (list (list str))).text = "(Num -> Num) -> List (List Str)" := by decide

/-- Fields are written each for itself. -/
theorem entries_eq (fields : List (String × Signature)) :
    entries fields = fields.map fun field => field.1 ++ " : " ++ field.2.text := by
  induction fields with
  | nil => rfl
  | cons field rest ih => rw [entries, ih, List.map_cons]

/-- Words that stand for something else than a name. -/
def reserved : List String :=
  ["Num", "Str", "Bool", "Dyn", "List", "forall", "_"]

/-- The words that lists and generic types begin with. -/
def keywords : List String :=
  ["List", "forall"]

/-- The characters that words end before. -/
def separators : List Char :=
  [' ', '(', ')', '\x7b', '\x7d', ',', '.']

/-- A text that is read as one word. -/
structure Word (text : String) : Prop where
  some : text ≠ ""
  plain : ∀ char ∈ text.toList, char ∉ separators

/-- A text that can be told from all other words. -/
structure Identifier (text : String) : Prop extends Word text where
  free : text ∉ reserved

/-- A type all of whose names are identifiers. -/
inductive Clear : Signature → Prop
  | num : Clear num
  | str : Clear str
  | bool : Clear bool
  | dyn : Clear dyn
  | list {elem : Signature} (inner : Clear elem) : Clear (list elem)
  | record {fields : List (String × Signature)} (names : ∀ field ∈ fields, Identifier field.1)
    (inner : ∀ field ∈ fields, Clear field.2) : Clear (record fields)
  | dict {elem : Signature} (inner : Clear elem) : Clear (dict elem)
  | fn {param result : Signature} (first : Clear param) (second : Clear result) : Clear (fn param result)
  | forAll {var : String} {body : Signature} (bound : Identifier var) (inner : Clear body) : Clear (forAll var body)
  | named {text : String} (name : Identifier text) : Clear (named text)

/-- Letters, digits and underscores make up identifiers, except for the words that stand for something else. -/
theorem Identifier.of_alphanumeric {text : String} (some : text ≠ "")
    (plain : text.toList.all fun char => char.isAlphanum || char == '_') (free : text ∉ reserved) : Identifier text := by
  refine ⟨⟨some, fun char member separator => ?_⟩, free⟩
  have neither : separators.all fun char => !(char.isAlphanum || char == '_') := by decide
  have here := List.all_eq_true.mp plain char member
  have there := List.all_eq_true.mp neither char separator
  rw [here] at there
  cases there

/-! Where a word ends. -/

/-- What may come after a word. -/
def Stops (rest : List Char) : Prop :=
  ∀ char ∈ rest.head?, char ∈ separators

/-- What may come after a type. -/
def Ends (rest : List Char) : Prop :=
  ∀ char ∈ rest.head?, char ∈ [')', '\x7d', ',']

theorem Ends.stops {rest : List Char} (ends : Ends rest) : Stops rest := by
  intro char first
  have closing := ends char first
  simp only [List.mem_cons, List.not_mem_nil, or_false] at closing
  rcases closing with rfl | rfl | rfl <;> decide

theorem stops_cons {char : Char} (separator : char ∈ separators) (rest : List Char) : Stops (char :: rest) := by
  rintro _ ⟨⟩
  exact separator

/-- A word is what stands before the first separator. -/
theorem Word.takeWhile {text : String} (word : Word text) {rest : List Char} (stops : Stops rest) :
    (text.toList ++ rest).takeWhile (· ∉ separators) = text.toList := by
  rw [List.takeWhile_append_of_pos (fun char member => decide_eq_true (word.plain char member))]
  cases rest with
  | nil => rw [List.takeWhile_nil, List.append_nil]
  | cons char rest =>
    have separator : char ∈ separators := stops char rfl
    rw [List.takeWhile_cons_of_neg (by simpa using separator), List.append_nil]

/-- Words that are followed by separators are the same if the texts are. -/
theorem Word.cancel {first second : String} (word : Word first) (other : Word second) {rest last : List Char}
    (stops : Stops rest) (ends : Stops last) (same : first.toList ++ rest = second.toList ++ last) :
    first = second ∧ rest = last := by
  have words := (word.takeWhile stops).symm.trans (same ▸ other.takeWhile ends)
  refine ⟨String.toList_inj.mp words, ?_⟩
  rwa [words, List.append_cancel_left_eq] at same

/-- A word does not begin with a separator. -/
theorem Word.ne_separator {text : String} (word : Word text) {char : Char} (separator : char ∈ separators)
    (rest last : List Char) : text.toList ++ rest ≠ char :: last := by
  intro same
  cases letters : text.toList with
  | nil => exact word.some (String.toList_eq_nil_iff.mp letters)
  | cons letter more =>
    rw [letters, List.cons_append] at same
    obtain ⟨rfl, -⟩ := List.cons.inj same
    exact word.plain letter (letters ▸ List.mem_cons_self) separator

/-! How types begin. -/

/-- What stands for a type inside another one: a word, something in parentheses, or fields in braces. -/
inductive Form
  | word (text : String)
  | group
  | fields (fields : List (String × Signature))

/-- The form of a type inside another one. Any number of fields of one type are written as one field without a name. -/
def form : Signature → Form
  | num => .word "Num"
  | str => .word "Str"
  | bool => .word "Bool"
  | dyn => .word "Dyn"
  | named text => .word text
  | list _ | fn _ _ | forAll _ _ => .group
  | record fields => .fields fields
  | dict elem => .fields [("_", elem)]

/-- The text of a type inside another one. -/
def nested (type : Signature) : List Char :=
  (TypeGraph.parens type.grouped type.text).toList

/-- The text of a field. -/
def entry (field : String × Signature) : List Char :=
  field.1.toList ++ ' ' :: ':' :: ' ' :: field.2.text.toList

/-- The text of further fields, to the end of the record. -/
def further : List (String × Signature) → List Char
  | [] => ['\x7d']
  | field :: rest => ',' :: ' ' :: (entry field ++ further rest)

/-- The text of fields, to the end of the record. -/
def braced : List (String × Signature) → List Char
  | [] => ['\x7d']
  | field :: rest => entry field ++ further rest

/-- Fields are written one after another. -/
theorem intercalate_entries (fields : List (String × Signature)) :
    (", ".intercalate (entries fields)).toList ++ ['\x7d'] = braced fields := by
  cases fields with
  | nil => rfl
  | cons field rest =>
    obtain ⟨name, type⟩ := field
    induction rest generalizing name type with
    | nil => simp [entries, braced, further, entry]
    | cons next rest ih =>
      have others := ih next.1 next.2
      simp only [entries, String.intercalate_cons_cons, String.toList_append, List.append_assoc] at others ⊢
      rw [others]
      simp [braced, further, entry]

/-- The text of a type inside another one is that of its form. -/
theorem nested_eq (type : Signature) : type.nested =
    match type.form with
    | .word text => text.toList
    | .group => '(' :: (type.text.toList ++ [')'])
    | .fields fields => '\x7b' :: braced fields := by
  cases type with
  | record fields =>
    show ("\x7b" ++ ", ".intercalate (entries fields) ++ "\x7d").toList = _
    rw [String.toList_append, String.toList_append, List.append_assoc, form]
    exact congrArg _ (intercalate_entries fields)
  | dict elem => simp [nested, grouped, TypeGraph.parens, text, form, braced, further, entry]
  | _ => simp [nested, grouped, TypeGraph.parens, text, form]

/-- A word with a meaning of its own is a word. -/
theorem word_of_reserved {text : String} (member : text ∈ reserved) : Word text := by
  have all : reserved.all fun text => text ≠ "" && text.toList.all fun char => !separators.contains char := by decide
  have word := List.all_eq_true.mp all text member
  simp only [Bool.and_eq_true, decide_eq_true_eq, List.all_eq_true, Bool.not_eq_true', List.contains_eq_mem,
    decide_eq_false_iff_not] at word
  exact ⟨word.1, word.2⟩

/-- A word that a type begins with is a word. -/
theorem word_of_keyword {text : String} (member : text ∈ keywords) : Word text := by
  have among : ∀ text ∈ keywords, text ∈ reserved := by decide
  exact word_of_reserved (among text member)

/-- A type that is one word is no list and no generic type. -/
theorem Clear.word {type : Signature} (clear : Clear type) {text : String} (form : type.form = .word text) :
    Word text ∧ text ≠ "List" ∧ text ≠ "forall" := by
  cases clear with
  | named name =>
    cases form
    exact ⟨name.toWord, fun same => name.free (same ▸ by decide), fun same => name.free (same ▸ by decide)⟩
  | num | str | bool | dyn =>
    cases form
    exact ⟨word_of_reserved (by decide), by decide, by decide⟩
  | _ => cases form

/-- The fields of a type have names, or there is one field without a name. -/
theorem Clear.fields {type : Signature} (clear : Clear type) {fields : List (String × Signature)}
    (form : type.form = .fields fields) : ∀ field ∈ fields, Word field.1 ∧ Clear field.2 := by
  cases clear with
  | record names inner =>
    cases form
    exact fun field member => ⟨(names field member).toWord, inner field member⟩
  | dict inner =>
    cases form
    rintro _ (_ | ⟨_, ⟨⟩⟩)
    exact ⟨word_of_reserved (show "_" ∈ reserved by decide), inner⟩
  | _ => cases form

/-- The type of fields in braces. -/
def ofFields : List (String × Signature) → Signature
  | [("_", elem)] => dict elem
  | fields => record fields

/-- The type of a form that is not in parentheses. -/
def Form.type : Form → Signature
  | word text =>
    if text = "Num" then num else if text = "Str" then str else if text = "Bool" then bool else
      if text = "Dyn" then dyn else named text
  | group => dyn
  | fields several => ofFields several

/-- A type that is not in parentheses is known by its form. -/
theorem Clear.type_form {type : Signature} (clear : Clear type) (plain : type.form ≠ .group) :
    type.form.type = type := by
  cases clear with
  | num | str | bool | dyn | dict => rfl
  | @named text name =>
    have other (word : String) (member : word ∈ reserved) : text ≠ word := fun same => name.free (same ▸ member)
    simp only [form, Form.type, if_neg (other "Num" (by decide)), if_neg (other "Str" (by decide)),
      if_neg (other "Bool" (by decide)), if_neg (other "Dyn" (by decide))]
  | @record fields names inner =>
    show ofFields fields = Signature.record fields
    unfold ofFields
    split
    · -- The field without a name is not an identifier.
      exact absurd (show "_" ∈ reserved by decide) (names _ (List.mem_singleton_self _)).free
    · rfl
  | list | fn | forAll => exact absurd rfl plain

/-! Types that are told from one another. -/

/-- The text of a type tells it from all others, and where it ends. -/
def Distinct (type : Signature) : Prop :=
  ∀ other, Clear other → ∀ rest last, Ends rest → Ends last →
    type.text.toList ++ rest = other.text.toList ++ last → type = other ∧ rest = last

/-- Inside another type, the text of a type tells it from all others, and where it ends. -/
def DistinctInside (type : Signature) : Prop :=
  ∀ other, Clear other → ∀ rest last, Stops rest → Stops last →
    type.nested ++ rest = other.nested ++ last → type = other ∧ rest = last

section

variable {type other : Signature} {fields others : List (String × Signature)} {rest last : List Char}

/-- A field ends before the next one, or before the record ends. -/
theorem ends_further (fields : List (String × Signature)) (rest : List Char) : Ends (further fields ++ rest) := by
  cases fields <;> rintro _ ⟨⟩ <;> simp

/-- The text of a field tells it from all others. -/
theorem entry_cancel {first second : String × Signature} (word : Word first.1) (distinct : first.2.Distinct)
    (also : Word second.1) (clear : Clear second.2) (ends : Ends rest) (stops : Ends last)
    (same : entry first ++ rest = entry second ++ last) : first = second ∧ rest = last := by
  simp only [entry, List.append_assoc, List.cons_append] at same
  obtain ⟨names, more⟩ := word.cancel also (stops_cons (by decide) _) (stops_cons (by decide) _) same
  simp only [List.cons.injEq, true_and] at more
  obtain ⟨types, tails⟩ := distinct _ clear _ _ ends stops more
  exact ⟨Prod.ext names types, tails⟩

/-- The texts of further fields tell them from all others. -/
theorem further_cancel (distinct : ∀ field ∈ fields, Word field.1 ∧ field.2.Distinct)
    (clear : ∀ field ∈ others, Word field.1 ∧ Clear field.2) (same : further fields ++ rest = further others ++ last) :
    fields = others ∧ rest = last := by
  -- By induction on the fields: a comma tells that there is one more, and a closing brace that
  -- there is none.
  induction fields generalizing others with
  | nil =>
    cases others with
    | nil => exact ⟨rfl, (List.cons.inj same).2⟩
    | cons second others => exact absurd (List.cons.inj same).1 (by decide)
  | cons first fields ih =>
    cases others with
    | nil => exact absurd (List.cons.inj same).1 (by decide)
    | cons second others =>
      simp only [further, List.cons_append, List.cons.injEq, true_and, List.append_assoc] at same
      obtain ⟨word, here⟩ := distinct first List.mem_cons_self
      obtain ⟨also, there⟩ := clear second List.mem_cons_self
      obtain ⟨rfl, more⟩ := entry_cancel word here also there (ends_further _ _) (ends_further _ _) same
      obtain ⟨rfl, tails⟩ := ih (fun field member => distinct field (List.mem_cons_of_mem _ member))
        (fun field member => clear field (List.mem_cons_of_mem _ member)) more
      exact ⟨rfl, tails⟩

/-- The texts of fields tell them from all others. -/
theorem braced_cancel (distinct : ∀ field ∈ fields, Word field.1 ∧ field.2.Distinct)
    (clear : ∀ field ∈ others, Word field.1 ∧ Clear field.2) (same : braced fields ++ rest = braced others ++ last) :
    fields = others ∧ rest = last := by
  have empty {field : String × Signature} (word : Word field.1) (more last tail : List Char) :
      entry field ++ more ++ last ≠ '\x7d' :: tail := by
    simp only [entry, List.append_assoc]
    exact word.ne_separator (by decide) _ _
  cases fields with
  | nil =>
    cases others with
    | nil => exact ⟨rfl, (List.cons.inj same).2⟩
    | cons second others => exact absurd same.symm (empty (clear second List.mem_cons_self).1 _ _ _)
  | cons first fields =>
    cases others with
    | nil => exact absurd same (empty (distinct first List.mem_cons_self).1 _ _ _)
    | cons second others =>
      -- With a comma in front these are further fields.
      refine further_cancel distinct clear ?_
      simp only [further, List.cons_append]
      exact congrArg (',' :: ' ' :: ·) same

/-- Forms of one kind. -/
inductive Form.Alike : Form → Form → Prop
  | word (text other : String) : Alike (.word text) (.word other)
  | group : Alike .group .group
  | fields (fields others : List (String × Signature)) : Alike (.fields fields) (.fields others)

/-- Words, parentheses and braces are told from one another. -/
theorem Clear.forms_alike (clear : Clear type) (also : Clear other) (same : type.nested ++ rest = other.nested ++ last) :
    type.form.Alike other.form := by
  rw [nested_eq, nested_eq] at same
  -- The first character tells the forms apart.
  cases form : type.form with
  | word text =>
    cases formOther : other.form with
    | word text' => exact .word text text'
    | group | fields =>
      rw [form, formOther] at same
      exact absurd same ((clear.word form).1.ne_separator (by decide) _ _)
  | group =>
    cases formOther : other.form with
    | group => exact .group
    | word =>
      rw [form, formOther] at same
      exact absurd same.symm ((also.word formOther).1.ne_separator (by decide) _ _)
    | fields =>
      rw [form, formOther] at same
      exact absurd (List.cons.inj same).1 (by decide)
  | fields fields =>
    cases formOther : other.form with
    | fields others => exact .fields fields others
    | word =>
      rw [form, formOther] at same
      exact absurd same.symm ((also.word formOther).1.ne_separator (by decide) _ _)
    | group =>
      rw [form, formOther] at same
      exact absurd (List.cons.inj same).1 (by decide)

/-- What begins with a word, a parenthesis or a brace is told from what begins with another one of these. -/
theorem Clear.distinctInside (clear : Clear type) (group : type.form = .group → type.Distinct)
    (inner : ∀ fields, type.form = .fields fields → ∀ field ∈ fields, field.2.Distinct) : type.DistinctInside := by
  intro other also rest last stops ends same
  have known (forms : type.form = other.form) (plain : type.form ≠ .group) : type = other :=
    (clear.type_form plain).symm.trans ((congrArg Form.type forms).trans (also.type_form (forms ▸ plain)))
  have alike := clear.forms_alike also same
  rw [nested_eq, nested_eq] at same
  generalize form : type.form = mine at alike same
  generalize formOther : other.form = theirs at alike same
  -- Both have the same form: the same word, the same type in parentheses, or the same fields.
  cases alike with
  | word text text' =>
    obtain ⟨rfl, tails⟩ := (clear.word form).1.cancel (also.word formOther).1 stops ends same
    exact ⟨known (form.trans formOther.symm) (form ▸ nofun), tails⟩
  | group =>
    -- Behind the first parenthesis the type is told from the other one by what it is without
    -- parentheses.
    simp only [List.cons_append, List.append_assoc, List.cons.injEq, true_and] at same
    have closes (rest : List Char) : Ends ([')'] ++ rest) := by
      rintro _ ⟨⟩
      decide
    obtain ⟨types, tails⟩ := group form other also _ _ (closes rest) (closes last) same
    exact ⟨types, (List.cons.inj tails).2⟩
  | fields fields others =>
    simp only [List.cons_append, List.cons.injEq, true_and] at same
    have distinct (field) (member : field ∈ fields) : Word field.1 ∧ field.2.Distinct :=
      ⟨(clear.fields form field member).1, inner fields form field member⟩
    obtain ⟨rfl, tails⟩ := braced_cancel distinct (also.fields formOther) same
    exact ⟨known (form.trans formOther.symm) (form ▸ nofun), tails⟩

/-- No type begins with a word that begins a list or a generic type. -/
theorem Clear.ne_keyword (clear : Clear type) {keyword : String} (member : keyword ∈ keywords)
    (stops : Stops rest) (last : List Char) : keyword.toList ++ ' ' :: last ≠ type.nested ++ rest := by
  have word := word_of_keyword member
  -- A word that begins the type would end where the keyword does, and the type would be that
  -- keyword.
  intro same
  rw [nested_eq] at same
  cases form : type.form with
  | word text =>
    rw [form] at same
    obtain ⟨other, list, generic⟩ := clear.word form
    obtain ⟨rfl, -⟩ := word.cancel other (stops_cons (by decide) _) stops same
    rcases List.mem_cons.mp member with rfl | member
    · exact list rfl
    · exact generic (List.mem_singleton.mp member)
  | group | fields =>
    rw [form] at same
    exact word.ne_separator (by decide) _ _ same

/-- How the text of a type begins: with a word of its own, or with a type that stands in parentheses if need be. -/
inductive Opens : Signature → List Char → Prop
  | list (elem : Signature) : Opens (list elem) ("List".toList ++ ' ' :: elem.nested)
  | forAll (var : String) (body : Signature) :
    Opens (forAll var body) ("forall".toList ++ ' ' :: (var.toList ++ '.' :: ' ' :: body.text.toList))
  | fn (param result : Signature) :
    Opens (fn param result) (param.nested ++ ' ' :: '-' :: '>' :: ' ' :: result.text.toList)
  | alone {type : Signature} (single : type.grouped = false) : Opens type type.nested

theorem opens (type : Signature) : ∃ chars, type.text.toList = chars ∧ Opens type chars := by
  cases type with
  | list elem => exact ⟨_, by simp [text, nested], .list elem⟩
  | forAll var body => exact ⟨_, by simp [text], .forAll var body⟩
  | fn param result => exact ⟨_, by simp [text, nested], .fn param result⟩
  | _ => exact ⟨_, rfl, .alone rfl⟩

/-- What begins with a word of its own is a list or a generic type. -/
theorem Clear.of_keyword (clear : Clear type) {keyword : String} (member : keyword ∈ keywords) (ends : Ends rest)
    (same : keyword.toList ++ ' ' :: last = type.text.toList ++ rest) :
    (∃ elem, keyword = "List" ∧ type = Signature.list elem ∧ last = elem.nested ++ rest) ∨
      ∃ var body, keyword = "forall" ∧ type = Signature.forAll var body ∧
        last = var.toList ++ '.' :: ' ' :: (body.text.toList ++ rest) := by
  have cancel {first last : List Char} {other : String} (also : other ∈ keywords)
      (same : keyword.toList ++ ' ' :: first = other.toList ++ ' ' :: last) : keyword = other ∧ first = last := by
    obtain ⟨rfl, more⟩ := (word_of_keyword member).cancel (word_of_keyword also) (stops_cons (by decide) _)
      (stops_cons (by decide) _) same
    exact ⟨rfl, (List.cons.inj more).2⟩
  -- Only a list and a generic type begin with a keyword of their own; which one it is the keyword
  -- tells.
  obtain ⟨chars, text, opens⟩ := type.opens
  rw [text] at same
  cases opens with
  | list elem =>
    rw [List.append_assoc, List.cons_append] at same
    obtain ⟨rfl, more⟩ := cancel (by decide) same
    exact .inl ⟨elem, rfl, rfl, more⟩
  | forAll var body =>
    simp only [List.append_assoc, List.cons_append] at same
    obtain ⟨rfl, more⟩ := cancel (by decide) same
    exact .inr ⟨var, body, rfl, rfl, more⟩
  | fn param result =>
    cases clear with
    | fn first second =>
      rw [List.append_assoc, List.cons_append] at same
      exact absurd same (first.ne_keyword member (stops_cons (by decide) _) _)
  | alone => exact absurd same (clear.ne_keyword member ends.stops _)

/-- What begins with a type that stands in parentheses if need be is that type, or a function of it. -/
theorem Clear.of_nested {param : Signature} (clear : Clear param) (inside : param.DistinctInside) (also : Clear other)
    (stops : Stops rest) (ends : Ends last) (same : param.nested ++ rest = other.text.toList ++ last) :
    (other = param ∧ rest = last) ∨
      ∃ result, other = Signature.fn param result ∧
        rest = ' ' :: '-' :: '>' :: ' ' :: (result.text.toList ++ last) := by
  -- The other type begins with a type of its own only where it is a function or that type itself.
  obtain ⟨chars, text, opens⟩ := other.opens
  rw [text] at same
  cases opens with
  | list elem =>
    rw [List.append_assoc, List.cons_append] at same
    exact absurd same.symm (clear.ne_keyword (by decide) stops _)
  | forAll var body =>
    rw [List.append_assoc, List.cons_append] at same
    exact absurd same.symm (clear.ne_keyword (by decide) stops _)
  | fn first result =>
    cases also with
    | fn also second =>
      simp only [List.append_assoc, List.cons_append] at same
      obtain ⟨rfl, more⟩ := inside _ also _ _ stops (stops_cons (by decide) _) same
      exact .inr ⟨result, rfl, more⟩
  | alone =>
    obtain ⟨rfl, more⟩ := inside _ also _ _ stops ends.stops same
    exact .inl ⟨rfl, more⟩

/-- A list is known by its first word. -/
theorem distinct_list {elem : Signature} (inside : elem.DistinctInside) : Distinct (list elem) := by
  intro other clear rest last ends stops same
  have begins : "List".toList ++ ' ' :: (elem.nested ++ rest) = other.text.toList ++ last := by
    rw [← same]
    simp [text, nested]
  rcases clear.of_keyword (by decide) stops begins with ⟨elem', -, rfl, more⟩ | ⟨_, _, none, -⟩
  · cases clear with
    | list also =>
      obtain ⟨rfl, tails⟩ := inside _ also _ _ ends.stops stops.stops more
      exact ⟨rfl, tails⟩
  · exact absurd none (by decide)

/-- A generic type is known by its first word, and its variable ends before the body. -/
theorem distinct_forAll {var : String} {body : Signature} (bound : Identifier var) (inner : body.Distinct) :
    Distinct (forAll var body) := by
  intro other clear rest last ends stops same
  have begins : "forall".toList ++ ' ' :: (var.toList ++ '.' :: ' ' :: (body.text.toList ++ rest)) =
      other.text.toList ++ last := by
    rw [← same]
    simp [text]
  rcases clear.of_keyword (by decide) stops begins with ⟨_, none, -⟩ | ⟨var', body', -, rfl, more⟩
  · exact absurd none (by decide)
  · cases clear with
    | forAll named also =>
      obtain ⟨rfl, bodies⟩ :=
        bound.toWord.cancel named.toWord (stops_cons (by decide) _) (stops_cons (by decide) _) more
      simp only [List.cons.injEq, true_and] at bodies
      obtain ⟨rfl, tails⟩ := inner _ also _ _ ends stops bodies
      exact ⟨rfl, tails⟩

/-- A function is known by the arrow behind its parameter. -/
theorem distinct_fn {param result : Signature} (clear : Clear param) (inside : param.DistinctInside)
    (inner : result.Distinct) : Distinct (fn param result) := by
  intro other also rest last ends stops same
  have begins :
      param.nested ++ ' ' :: '-' :: '>' :: ' ' :: (result.text.toList ++ rest) = other.text.toList ++ last := by
    rw [← same]
    simp [text, nested]
  rcases clear.of_nested inside also (stops_cons (by decide) _) stops begins with ⟨-, none⟩ | ⟨result', rfl, more⟩
  · -- Where the type ended at the parameter, an arrow would follow it, and nothing that may follow
    -- begins like one.
    exact absurd (stops ' ' (none ▸ rfl)) (by decide)
  · cases also with
    | fn first second =>
      simp only [List.cons.injEq, true_and] at more
      obtain ⟨rfl, tails⟩ := inner _ second _ _ ends stops more
      exact ⟨rfl, tails⟩

/-- What stands alone is followed by no arrow. -/
theorem distinct_alone (clear : Clear type) (single : type.grouped = false) (inside : type.DistinctInside) :
    Distinct type := by
  intro other also rest last ends stops same
  have begins : type.nested ++ rest = other.text.toList ++ last := by
    rw [← same, nested, single]
    rfl
  rcases clear.of_nested inside also ends.stops stops begins with ⟨rfl, tails⟩ | ⟨result, -, none⟩
  · exact ⟨rfl, tails⟩
  · exact absurd (ends ' ' (none ▸ rfl)) (by decide)

/-- A type all of whose names are identifiers is told from others of the kind, inside other types as well. -/
theorem Clear.distinct (clear : Clear type) : type.Distinct ∧ type.DistinctInside := by
  -- Inside another type the parentheses make a type end where it does outside of any.
  have grouped {type : Signature} (clear : Clear type) (group : type.form = .group) (distinct : type.Distinct) :
      type.Distinct ∧ type.DistinctInside :=
    ⟨distinct, clear.distinctInside (fun _ => distinct) fun fields form => nomatch group.symm.trans form⟩
  have alone {type : Signature} (clear : Clear type) (single : type.grouped = false) (plain : type.form ≠ .group)
      (inner : ∀ fields, type.form = .fields fields → ∀ field ∈ fields, field.2.Distinct) :
      type.Distinct ∧ type.DistinctInside := by
    have inside := clear.distinctInside (fun group => absurd group plain) inner
    exact ⟨distinct_alone clear single inside, inside⟩
  induction clear with
  | num => exact alone .num rfl nofun nofun
  | str => exact alone .str rfl nofun nofun
  | bool => exact alone .bool rfl nofun nofun
  | dyn => exact alone .dyn rfl nofun nofun
  | named name => exact alone (.named name) rfl nofun nofun
  | list inner ih => exact grouped (.list inner) rfl (distinct_list ih.2)
  | fn first second ih others => exact grouped (.fn first second) rfl (distinct_fn first ih.2 others.1)
  | forAll bound inner ih => exact grouped (.forAll bound inner) rfl (distinct_forAll bound ih.1)
  | record names inner ih =>
    refine alone (.record names inner) rfl nofun fun fields form field member => ?_
    cases form
    exact (ih field member).1
  | dict inner ih =>
    refine alone (.dict inner) rfl nofun fun fields form field member => ?_
    cases form
    obtain rfl := List.mem_singleton.mp member
    exact ih.1

/-- Types all of whose names are identifiers have the same text only if they are the same. -/
theorem Clear.text_inj (clear : Clear type) (also : Clear other) (same : type.text = other.text) : type = other := by
  have texts : type.text.toList ++ [] = other.text.toList ++ [] := by rw [same]
  exact (clear.distinct.1 other also [] [] nofun nofun texts).1

end

end Signature

end LazyConfig
