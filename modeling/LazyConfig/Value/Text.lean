import LazyConfig.Number.Decimal
import LazyConfig.Text.Quoted
import LazyConfig.Value.Walk

/-! The text of values; what is not evaluated is shown as a question mark. -/

namespace LazyConfig

/-- A part of a text that is still to be written. -/
inductive Piece
  | text (text : String)
  | value (value : Value)
  | element (element : Visible)

/-- The number of list elements after which a text breaks off. -/
def displayLimit : Nat :=
  10000

/-- Pieces with commas between them. -/
def Piece.commas : List (List Piece) → List Piece
  | [] => []
  | [last] => last
  | first :: rest => first ++ .text ", " :: commas rest

namespace Store

/--
Writes pieces one after the other. Two dots stand for elements that are not evaluated or too many.
A value that contains itself has no text.
-/
def write (store : Store) : Nat → List Piece → String → Option String
  | 0, _, _ => none
  | _ + 1, [], out => some out
  | fuel + 1, .text text :: rest, out => write store fuel rest (out ++ text)
  | fuel + 1, .element element :: rest, out =>
    match store.visible? element with
    | some value => write store fuel (.value value :: rest) out
    | none => write store fuel rest (out ++ "?")
  | fuel + 1, .value value :: rest, out =>
    match value with
    | .int value => write store fuel rest (out ++ toString value.toInt)
    | .float value => write store fuel rest (out ++ floatText value)
    | .bool value => write store fuel rest (out ++ if value then "true" else "false")
    | .str text => write store fuel rest (out ++ Text.quote text)
    | .list items =>
      match store.elements? fuel (some displayLimit) items with
      | some (elements, complete) =>
        let shown := elements.toList.map fun element => [.element element]
        let pieces := Piece.commas (if complete then shown else shown ++ [[.text ".."]])
        write store fuel (.text "[" :: pieces ++ .text "]" :: rest) out
      | none => none
    | .record fields =>
      if fields.isEmpty then write store fuel rest (out ++ "\x7b\x7d")
      else
        let shown := fields.entries.map fun (name, id) =>
          [.text (name ++ " = "), .element (.thunk id)]
        write store fuel (.text "\x7b " :: Piece.commas shown ++ .text " \x7d" :: rest) out
    | .closure _ => write store fuel rest (out ++ "<function>")
    | .builtin op _ => write store fuel rest (out ++ "<builtin " ++ op.name ++ ">")
    | .host function => write store fuel rest (out ++ "<native " ++ function.name ++ ">")

/-- The text of a value. -/
def display? (store : Store) (fuel : Nat) (value : Value) : Option String :=
  store.write fuel [.value value] ""

/-- The text of a value as messages and notes of calls quote it; a value without a text is left out. -/
def quoted (store : Store) (value : Value) : String :=
  (store.display? ample value).getD ""

/-- The text of a value after the name of its kind. -/
def describe? (store : Store) (fuel : Nat) (value : Value) : Option String :=
  (store.display? fuel value).map fun text => value.kind.name ++ "(" ++ text ++ ")"

/-- The text of the state of a computation. -/
def describeThunk? (store : Store) (fuel : Nat) (id : ThunkId) : Option String :=
  let state := match store.cell id with
    | .suspended _ => some "<suspended>"
    | .inProgress => some "<in progress>"
    | .failed error => some ("<failed: " ++ error.message ++ ">")
    | .forced value => store.display? fuel value
  state.map fun text => "Thunk(" ++ text ++ ")"

end Store

end LazyConfig
