/-! Names are interned texts, numbered in the order of their first appearance. -/

namespace LazyConfig

/-- A name is the position of its text in a name table. -/
abbrev Name := Nat

/-- The texts seen so far, each once, starting with the empty text. -/
structure NameTable where
  texts : Array String := #[""]
  deriving Inhabited

namespace NameTable

/-- The number of texts in the table, the empty one included. -/
def size (table : NameTable) : Nat :=
  table.texts.size

/-- The name of a text, if the text has been seen. -/
def find? (table : NameTable) (text : String) : Option Name :=
  table.texts.idxOf? text

/-- The name of a text, which takes the next free position when the text is new. -/
def intern (table : NameTable) (text : String) : Name × NameTable :=
  match table.find? text with
  | some name => (name, table)
  | none => (table.size, { table with texts := table.texts.push text })

/-- The text of a name; a name that the table never gave out reads as the empty text. -/
def lookup (table : NameTable) (name : Name) : String :=
  table.texts[name]?.getD ""

/-- Interning several texts in order. -/
def internAll (table : NameTable) : List String → List Name × NameTable
  | [] => ([], table)
  | text :: rest =>
    let (name, table) := table.intern text
    let (names, table) := table.internAll rest
    (name :: names, table)

end NameTable

end LazyConfig
