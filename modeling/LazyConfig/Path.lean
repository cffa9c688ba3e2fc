/-! Where a checked value stands inside the annotated one. -/

namespace LazyConfig

/-- One step from a value to a part of it. -/
inductive Segment
  | field (name : String)
  | index (position : Nat)
  deriving DecidableEq, Inhabited

/-- The steps from the annotated value to a part of it, outermost first. -/
structure Path where
  segments : List Segment := []
  deriving DecidableEq, Inhabited

namespace Path

/-- The annotated value itself. -/
def root : Path :=
  {}

/-- Whether a path has no steps. -/
def isRoot (path : Path) : Bool :=
  path.segments.isEmpty

/-- One step further, to a field. -/
def field (path : Path) (name : String) : Path :=
  ⟨path.segments ++ [.field name]⟩

/-- One step further, to a list element. -/
def index (path : Path) (position : Nat) : Path :=
  ⟨path.segments ++ [.index position]⟩

/-- The text of a step after other steps; a point stands before a field name. -/
def inner : Segment → String
  | .field name => "." ++ name
  | .index position => "[" ++ toString position ++ "]"

/-- The text of the first step, where a field name stands alone. -/
def outer : Segment → String
  | .field name => name
  | .index position => "[" ++ toString position ++ "]"

/-- A path as it is written in messages, such as `items[2].name`. -/
def text (path : Path) : String :=
  match path.segments with
  | [] => "<value>"
  | first :: rest => rest.foldl (fun text step => text ++ inner step) (outer first)

end Path

end LazyConfig
