import LazyConfig.Code

/-! Groups of aliases that refer to each other without a constructor in between. -/

namespace LazyConfig

namespace Code

/--
The alias that a type expression is, under any number of generic variables. References below a
structural constructor do not count: opening them always makes progress.
-/
def unguardedAlias (code : Code) : Nat → TypeExprId → Option Name
  | 0, _ => none
  | fuel + 1, id =>
    match code.type id with
    | .aliasRef name => some name
    | .forAll _ body => unguardedAlias code fuel body
    | _ => none

/-- The last definition of a name in a group. -/
def definitionOf (defs : List AliasDef) (name : Name) : Option Nat :=
  (defs.zipIdx.reverse.find? fun (definition, _) => definition.name == name).map Prod.snd

/-- The definition of the same group that a definition is merely another name for. -/
def successor (code : Code) (defs : List AliasDef) (position : Nat) : Option Nat := do
  let definition ← defs[position]?
  let name ← code.unguardedAlias (definition.type + 1) definition.type
  definitionOf defs name

end Code

/-- How far the search for a circle has come with a definition. -/
inductive Mark
  | unvisited
  /-- On the path that is being followed. -/
  | onPath
  /-- Followed to all ends, without coming to a circle. -/
  | done
  deriving DecidableEq, Repr

/--
A search for a circle: the marks of all definitions, and the path that is being followed, with the number of the
next edge at each definition, the last one first.
-/
structure CycleSearch where
  marks : Array Mark
  path : List (Nat × Nat)

namespace CycleSearch

/-- The part of a path from a definition on, with the definition at both ends. -/
def circle (path : List (Nat × Nat)) (position : Nat) : List Nat :=
  let positions := (path.map Prod.fst).reverse
  positions.drop ((positions.idxOf? position).getD 0) ++ [position]

/--
One turn of the search follows the next edge of the last definition on the path. The path is left at a definition
whose edges have all been followed, and there is a circle where an edge leads back to the path.
-/
def turn (edges : Nat → List Nat) (search : CycleSearch) : Except (List Nat) CycleSearch :=
  match search.path with
  | [] => .ok search
  | (position, next) :: path =>
    match (edges position)[next]? with
    | some other =>
      match search.marks[other]? with
      | some .unvisited =>
        .ok ⟨search.marks.setIfInBounds other .onPath, (other, 0) :: (position, next + 1) :: path⟩
      | some .onPath => .error (circle ((position, next + 1) :: path) other)
      | _ => .ok ⟨search.marks, (position, next + 1) :: path⟩
    | none => .ok ⟨search.marks.setIfInBounds position .done, path⟩

/-- Turns until there is no path any more. -/
def walk (edges : Nat → List Nat) : Nat → CycleSearch → Except (List Nat) CycleSearch
  | 0, search => .ok search
  | fuel + 1, search =>
    if search.path.isEmpty then .ok search
    else
      match search.turn edges with
      | .ok search => walk edges fuel search
      | .error circle => .error circle

/-- Searches for a circle from each of some definitions that has not been visited yet. -/
def search (edges : Nat → List Nat) (fuel : Nat) : List Nat → Array Mark → Option (List Nat)
  | [], _ => none
  | start :: starts, marks =>
    if marks[start]? = some .unvisited then
      match walk edges fuel ⟨marks.setIfInBounds start .onPath, [(start, 0)]⟩ with
      | .ok ended => search edges fuel starts ended.marks
      | .error circle => some circle
    else search edges fuel starts marks

end CycleSearch

/-- The first circle of aliases in a group, by the definition that leads into it. -/
def Code.aliasCycle (code : Code) (defs : List AliasDef) : Option (List Nat) :=
  -- Each definition is visited once and has one edge at most, which is followed before it is left.
  CycleSearch.search (fun position => (code.successor defs position).toList) (2 * defs.length)
    (List.range defs.length) (Array.replicate defs.length .unvisited)

end LazyConfig
