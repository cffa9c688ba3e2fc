import LazyConfig.Types.Resolve

/-! The types of all annotations of a program, found before the program runs. -/

namespace LazyConfig

/-- The resolved type of each annotation that occurs in a program. -/
structure Annotations where
  graph : TypeGraph := {}
  /-- By position of the type expression. -/
  types : Array (Option TypeId) := #[]
  deriving Inhabited

namespace Annotations

/-- The resolved type of an annotation. -/
def get? (annotations : Annotations) (type : TypeExprId) : Option TypeId :=
  (annotations.types[type]?).join

/-- The annotated type expressions with their resolved types, in increasing order. -/
def entries (annotations : Annotations) : List (TypeExprId × TypeId) :=
  annotations.types.toList.zipIdx.filterMap fun (resolved, type) =>
    resolved.map fun resolved => (type, resolved)

/-- The number of annotated type expressions. -/
def size (annotations : Annotations) : Nat :=
  annotations.entries.length

/-- Whether no type expression is annotated. -/
def isEmpty (annotations : Annotations) : Bool :=
  annotations.entries.isEmpty

/-- Notes the resolved type of an annotation; the latest note counts. -/
def insert (annotations : Annotations) (type : TypeExprId) (resolved : TypeId) : Annotations :=
  let missing := type + 1 - annotations.types.size
  { annotations with
    types := (annotations.types ++ Array.replicate missing none).setIfInBounds type
      (some resolved) }

/-- Carries out a step of resolving types on the graph of the annotations. -/
def perform {α : Type} (annotations : Annotations) (step : Resolution α) :
    Except TypeFault (α × Annotations) :=
  let ⟨graph, types⟩ := annotations
  match step graph with
  | (.ok result, graph) => .ok (result, ⟨graph, types⟩)
  | (.error fault, _) => .error fault

/-- Resolves one annotation in its scope. -/
def annotate (names : NameTable) (code : Code) (scope : Scope) (type : TypeExprId)
    (annotations : Annotations) : Except TypeFault Annotations := do
  let (resolved, annotations) ←
    annotations.perform (Resolution.resolve names code scope type)
  pure (annotations.insert type resolved)

/--
Resolves every annotation of an expression from left to right, the annotation of a value before
those inside it. An alias group is defined before its body is visited.
-/
def visit (names : NameTable) (code : Code) :
    Nat → Scope → ExprId → Annotations → Except TypeFault Annotations
  | 0, _, _, _ => .error .forwardReference
  | fuel + 1, scope, id, annotations =>
    match code.expr id with
    | .record fields =>
      fields.foldlM (fun annotations field => do
        let annotations ← match field.type with
          | some type => annotate names code scope type annotations
          | none => pure annotations
        visit names code fuel scope field.value annotations) annotations
    | .ascribe value type => do
      let annotations ← annotate names code scope type annotations
      visit names code fuel scope value annotations
    | .aliases defs body => do
      let (inside, annotations) ←
        annotations.perform (Resolution.defineAliases names code scope defs)
      visit names code fuel inside body annotations
    | node =>
      node.children.foldlM (fun annotations child =>
        visit names code fuel scope child annotations) annotations

/-- The annotations of the expression that is the root of a program. -/
def ofRoot (names : NameTable) (code : Code) (root : ExprId) : Except TypeFault Annotations :=
  -- Parts come before the whole, so no expression is nested deeper than its position.
  visit names code (root + 1) {} root {}

end Annotations

end LazyConfig
