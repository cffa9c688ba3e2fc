import LazyConfig.Value.Walk

/-! Values as plain trees. -/

namespace LazyConfig

/-- A value with all its parts, functions being leaves. -/
inductive Data
  | int (value : Int64)
  | float (value : Float)
  | bool (value : Bool)
  | str (text : String)
  | list (items : List Data)
  | record (fields : List (String × Data))
  | closure
  /-- A primitive with the numbers of arguments that it holds and still misses. -/
  | builtin (op : Builtin) (held missing : Nat)
  | host (name : String)
  /-- Something that is left out. -/
  | omitted

namespace Store

/--
The tree of a value down to a depth, with at most `width` elements of each list. What lies deeper,
what comes after those elements and what is not evaluated is left out.
-/
def outline (store : Store) (width : Nat) : Nat → Value → Data
  | 0, _ => .omitted
  | depth + 1, value =>
    let part (element : Visible) : Data :=
      match store.visible? element with
      | some value => outline store width depth value
      | none => .omitted
    match value with
    | .int value => .int value
    | .float value => .float value
    | .bool value => .bool value
    | .str text => .str text
    | .list items =>
      match store.elements? ample (some width) items with
      | some (elements, complete) =>
        let shown := elements.toList.map part
        .list (if complete then shown else shown ++ [.omitted])
      | none => .list [.omitted]
    | .record fields => .record (fields.entries.map fun (name, id) => (name, part (.thunk id)))
    | .closure _ => .closure
    | .builtin op held => .builtin op held.length (op.missing held)
    | .host function => .host function.name

end Store

end LazyConfig
