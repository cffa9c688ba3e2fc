import LazyConfig.Types.Graph

/-! Which alias a name stands for at a place in a program. -/

namespace LazyConfig

/-- The aliases of one group; the first entry of a name counts. -/
abbrev AliasFrame := List (Name × TypeId)

/-- The groups around a place, innermost first. -/
structure Scope where
  frames : List AliasFrame := []
  deriving DecidableEq, Inhabited

/-- The frame of a group of definitions, in which the last definition of a name counts. -/
def AliasFrame.ofDefinitions (entries : List (Name × TypeId)) : AliasFrame :=
  entries.reverse

namespace Scope

/-- The number of groups around a place. -/
def depth (scope : Scope) : Nat :=
  scope.frames.length

/-- The scope inside one more group. -/
def push (scope : Scope) (frame : AliasFrame) : Scope :=
  ⟨frame :: scope.frames⟩

/-- The scope around the innermost group. -/
def pop (scope : Scope) : Scope :=
  ⟨scope.frames.tail⟩

/-- The alias that a name stands for, in the innermost group that has the name. -/
def lookup (scope : Scope) (name : Name) : Option TypeId :=
  scope.frames.findSome? fun frame => frame.lookup name

end Scope

end LazyConfig
