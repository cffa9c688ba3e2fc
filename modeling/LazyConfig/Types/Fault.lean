/-! What can be wrong with the annotations of a program. -/

namespace LazyConfig

/-- A reason to reject the annotations of a program before it runs. -/
inductive TypeFault
  /-- An alias is used outside the scope of its definition. -/
  | unboundAlias (name : String)
  /-- Aliases that only refer to each other; the first and the last of the list are the same. -/
  | aliasCycle (names : List String)
  /-- A type variable is used outside the type that introduces it. -/
  | unboundVariable (name : String)
  /-- A node refers to itself or to a later node. -/
  | forwardReference
  deriving DecidableEq, Inhabited

/-- The text of a fault. -/
def TypeFault.message : TypeFault → String
  | unboundAlias name => "unbound type alias `" ++ name ++ "`"
  | aliasCycle names => "type alias cycle: " ++ " -> ".intercalate names
  | unboundVariable name => "unbound type variable `" ++ name ++ "`"
  | forwardReference => "type expression refers to a later one"

end LazyConfig
