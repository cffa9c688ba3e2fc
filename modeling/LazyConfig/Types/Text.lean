import LazyConfig.Types.Graph

/-! How resolved types are written: the outermost alias is opened, the others keep their names. -/

namespace LazyConfig.TypeGraph

/-- Puts parentheses around a text when they are needed. -/
def parens (needed : Bool) (text : String) : String :=
  if needed then "(" ++ text ++ ")" else text

/--
Writes a type. A list, a function and a generic type stand in parentheses inside a list and before
an arrow. What lies deeper than the given number of levels is left out.
-/
def write (graph : TypeGraph) (names : NameTable) : Nat → Bool → TypeId → String
  | 0, _, _ => ".."
  | fuel + 1, nested, id =>
    match graph.node id with
    | .num => "Num"
    | .str => "Str"
    | .bool => "Bool"
    | .dyn => "Dyn"
    | .list elem => parens nested ("List " ++ write graph names fuel true elem)
    | .record fields =>
      let entries := fields.map fun (name, type) =>
        names.lookup name ++ " : " ++ write graph names fuel false type
      "\x7b" ++ ", ".intercalate entries ++ "\x7d"
    | .dict elem => "\x7b_ : " ++ write graph names fuel false elem ++ "\x7d"
    | .fn param result =>
      parens nested (write graph names fuel true param ++ " -> " ++
        write graph names fuel false result)
    | .forAll var body =>
      parens nested ("forall " ++ names.lookup var ++ ". " ++ write graph names fuel false body)
    | .var name => names.lookup name
    | .aliasSlot name _ => names.lookup name

/-- A type as it is written in messages. -/
def display (graph : TypeGraph) (names : NameTable) (id : TypeId) : String :=
  -- Constructors refer to earlier nodes, so no type is nested deeper than the graph is large.
  graph.write names (graph.size + 1) false (graph.follow id)

end LazyConfig.TypeGraph
