import LazyConfig.Types.Cycle
import LazyConfig.Types.Fault
import LazyConfig.Types.Scope

/-! Turning written types into nodes of a type graph. -/

namespace LazyConfig

/-- A step of resolving types; nodes that were added stay, also when the step fails. -/
abbrev Resolution := ExceptT TypeFault (StateM TypeGraph)

namespace Resolution

/-- Adds a node. -/
def push (node : TypeNode) : Resolution TypeId :=
  fun graph => let (id, graph) := graph.push node; (.ok id, graph)

/-- Gives an alias slot its definition. -/
def define (slot target : TypeId) : Resolution Unit :=
  fun graph => (.ok (), graph.define slot target)

/--
Resolves a type expression under the generic variables around it. A node is added after its parts,
except that an alias adds none: every reference to it links to its slot.
-/
def resolveAt (names : NameTable) (code : Code) (scope : Scope) :
    Nat → List Name → TypeExprId → Resolution TypeId
  | 0, _, _ => throw .forwardReference
  | fuel + 1, vars, id =>
    match code.type id with
    | .num => push .num
    | .str => push .str
    | .bool => push .bool
    | .dyn => push .dyn
    | .list elem => do
      let elem ← resolveAt names code scope fuel vars elem
      push (.list elem)
    | .dict elem => do
      let elem ← resolveAt names code scope fuel vars elem
      push (.dict elem)
    | .record fields => do
      let fields ← fields.mapM fun (name, type) => do
        let type ← resolveAt names code scope fuel vars type
        pure (name, type)
      push (.record fields)
    | .fn param result => do
      let param ← resolveAt names code scope fuel vars param
      let result ← resolveAt names code scope fuel vars result
      push (.fn param result)
    | .forAll var body => do
      let body ← resolveAt names code scope fuel (var :: vars) body
      push (.forAll var body)
    | .var name =>
      if vars.contains name then push (.var name)
      else throw (.unboundVariable (names.lookup name))
    | .aliasRef name =>
      match scope.lookup name with
      | some slot => pure slot
      | none => throw (.unboundAlias (names.lookup name))

/-- Resolves a type expression in the scope of an annotation. -/
def resolve (names : NameTable) (code : Code) (scope : Scope) (id : TypeExprId) :
    Resolution TypeId :=
  -- Parts come before the whole, so no type expression is nested deeper than its position.
  resolveAt names code scope (id + 1) [] id

/-- Adds one empty slot for each definition. -/
def openSlots : List AliasDef → Resolution (List (Name × TypeId))
  | [] => pure []
  | definition :: rest => do
    let slot ← push (.aliasSlot definition.name none)
    let slots ← openSlots rest
    pure ((definition.name, slot) :: slots)

/-- Resolves each definition and fills its slot. -/
def fillSlots (names : NameTable) (code : Code) (scope : Scope) :
    List (AliasDef × Name × TypeId) → Resolution Unit
  | [] => pure ()
  | (definition, _, slot) :: rest => do
    let target ← resolve names code scope definition.type
    define slot target
    fillSlots names code scope rest

/--
Defines a group of aliases and gives the scope inside the group. Each definition sees the whole
group, and a group in which aliases only refer to each other is refused.
-/
def defineAliases (names : NameTable) (code : Code) (scope : Scope) (defs : List AliasDef) :
    Resolution Scope := do
  let slots ← openSlots defs
  match code.aliasCycle defs with
  | some cycle =>
    throw (.aliasCycle (cycle.map fun position => names.lookup (defs[position]?.getD default).name))
  | none =>
    let inside := scope.push (AliasFrame.ofDefinitions slots)
    fillSlots names code inside (defs.zip slots)
    pure inside

end Resolution

end LazyConfig
