import LazyConfig.Proofs.Types.Links
import LazyConfig.Proofs.Value.Entries

/-!
What types mean: trees that come of opening aliases, down to any depth. A written type is opened in the
groups of aliases around it, and a resolved type by following the links of its graph.
-/

namespace LazyConfig

/-- A type with its aliases opened, down to some depth. -/
inductive TypeTree
  | num | str | bool | dyn
  | list (elem : TypeTree)
  | record (fields : List (Name × TypeTree))
  | dict (elem : TypeTree)
  | fn (param result : TypeTree)
  | forAll (var : Name) (body : TypeTree)
  | var (name : Name)
  /-- An alias that has no definition. -/
  | undefined (name : Name)
  /-- What lies deeper. -/
  | omitted

/-! Resolved types. -/

/-- The tree of a node whose parts have the given trees. -/
def TypeNode.tree (part : TypeId → TypeTree) : TypeNode → TypeTree
  | .num => .num
  | .str => .str
  | .bool => .bool
  | .dyn => .dyn
  | .list elem => .list (part elem)
  | .record fields => .record (fields.map fun field => (field.1, part field.2))
  | .dict elem => .dict (part elem)
  | .fn param result => .fn (part param) (part result)
  | .forAll bound body => .forAll bound (part body)
  | .var name => .var name
  | .aliasSlot name _ => .undefined name

/-- A resolved type with its aliases opened, down to a depth. -/
def TypeGraph.unfold (graph : TypeGraph) : Nat → TypeId → TypeTree
  | 0, _ => .omitted
  | depth + 1, id => (graph.node (graph.follow id)).tree (graph.unfold depth)

namespace TypeGraph

variable {graph : TypeGraph} {count : Nat} {id shape : TypeId}

/-- Once all aliases of a chain are followed, one more step changes nothing. -/
theorem ReadsIn.followSteps_succ (reads : graph.ReadsIn count id shape) {steps : Nat}
    (enough : count ≤ steps) : graph.followSteps (steps + 1) id = graph.followSteps steps id := by
  obtain ⟨-, -, -, ends⟩ := reads.followSteps enough
  exact followSteps_add ends 1

/-- A defined alias is followed to where its definition is followed to. -/
theorem ReadsIn.follow_alias (reads : graph.ReadsIn count id shape) {name : Name} {target : TypeId}
    (found : graph.node id = .aliasSlot name (some target)) :
    graph.follow id = graph.follow target := by
  have linked : graph.link? id = some target := by simp [link?, found]
  cases reads with
  | shape plain => simp [plain] at linked
  | link other rest =>
    obtain rfl : _ = _ := Option.some.inj (linked.symm.trans other)
    -- One step is used up by the alias itself, and there are enough for the rest without it.
    rw [follow, TypeGraph.followSteps, found]
    exact (rest.followSteps_succ rest.count_le).symm

/-- A node that is no defined alias is not followed. -/
theorem follow_of_not_alias (plain : ∀ name target, graph.node id ≠ .aliasSlot name (some target)) :
    graph.follow id = id := by
  rw [follow, TypeGraph.followSteps]
  split
  · rename_i name target found
    exact absurd found (plain name target)
  · rfl

end TypeGraph

/-! Written types. -/

/-- Groups of aliases around a place, innermost first. -/
abbrev Groups := List (List AliasDef)

/--
The definition that a name stands for, and the groups around the definition: the last definition of
the name in the innermost group that has one. A definition sees its own group.
-/
def Groups.definition? : Groups → Name → Option (TypeExprId × Groups)
  | [], _ => none
  | defs :: outer, name =>
    match defs.reverse.find? fun definition => definition.name == name with
    | some definition => some (definition.type, defs :: outer)
    | none => Groups.definition? outer name

/-- A written type stands for the first type, by way of definitions, that is not just a name. -/
inductive Code.StandsFor (code : Code) : Groups → TypeExprId → Groups → TypeExprId → Prop
  | form {groups : Groups} {type : TypeExprId} (plain : ∀ name, code.type type ≠ .aliasRef name) :
    StandsFor code groups type groups type
  | name {groups around last : Groups} {type next shape : TypeExprId} {name : Name}
    (found : code.type type = .aliasRef name) (known : groups.definition? name = some (next, around))
    (rest : StandsFor code around next last shape) : StandsFor code groups type last shape

/-- A written type that is not just a name has a tree, if its parts have trees. -/
inductive TypeExpr.HasTree (part : TypeExprId → TypeTree → Prop) : TypeExpr → TypeTree → Prop
  | num : HasTree part .num .num
  | str : HasTree part .str .str
  | bool : HasTree part .bool .bool
  | dyn : HasTree part .dyn .dyn
  | list {elem : TypeExprId} {tree : TypeTree} (inner : part elem tree) :
    HasTree part (.list elem) (.list tree)
  | record {fields : List (Name × TypeExprId)} {trees : List (Name × TypeTree)}
    (inner : EntriesAgree part fields trees) : HasTree part (.record fields) (.record trees)
  | dict {elem : TypeExprId} {tree : TypeTree} (inner : part elem tree) :
    HasTree part (.dict elem) (.dict tree)
  | fn {param result : TypeExprId} {first second : TypeTree} (left : part param first)
    (right : part result second) : HasTree part (.fn param result) (.fn first second)
  | forAll (var : Name) {body : TypeExprId} {tree : TypeTree} (inner : part body tree) :
    HasTree part (.forAll var body) (.forAll var tree)
  | var (name : Name) : HasTree part (.var name) (.var name)

/-- A written type with its aliases opened in the groups around it, down to a depth. -/
def Code.Unfolds (code : Code) : Nat → Groups → TypeExprId → TypeTree → Prop
  | 0, _, _, tree => tree = .omitted
  | depth + 1, groups, type, tree => ∃ around shape, code.StandsFor groups type around shape ∧
    (code.type shape).HasTree (code.Unfolds depth around) tree

namespace Code

variable {code : Code} {groups : Groups} {type : TypeExprId}

/-- A written type stands for one type only. -/
theorem StandsFor.unique {around others : Groups} {shape other : TypeExprId}
    (left : code.StandsFor groups type around shape)
    (right : code.StandsFor groups type others other) : around = others ∧ shape = other := by
  induction left with
  | form plain =>
    cases right with
    | form => exact ⟨rfl, rfl⟩
    | name found => exact absurd found (plain _)
  | name found known _ ih =>
    cases right with
    | form plain => exact absurd found (plain _)
    | name again defined rest =>
      obtain rfl : _ = _ := TypeExpr.aliasRef.inj (found.symm.trans again)
      -- The groups around the name are the same, and so is the definition that they have for it.
      obtain ⟨rfl, rfl⟩ := Prod.mk.inj (Option.some.inj (known.symm.trans defined))
      exact ih rest

/-- Fields whose types have one tree each have one list of trees. -/
theorem fields_unique {part : TypeExprId → TypeTree → Prop}
    (unique : ∀ type first second, part type first → part type second → first = second)
    {fields : List (Name × TypeExprId)} {first second : List (Name × TypeTree)}
    (left : EntriesAgree part fields first) (right : EntriesAgree part fields second) :
    first = second := by
  induction left generalizing second with
  | nil =>
    cases right
    rfl
  | cons same _ ih =>
    cases right with
    | cons again others =>
      rw [ih others, Prod.ext (same.1.symm.trans again.1) (unique _ _ _ same.2 again.2)]

/-- A written type has one tree at each depth. -/
theorem Unfolds.unique {depth : Nat} {first second : TypeTree}
    (left : code.Unfolds depth groups type first)
    (right : code.Unfolds depth groups type second) : first = second := by
  induction depth generalizing groups type first second with
  | zero => exact left.trans right.symm
  | succ depth ih =>
    obtain ⟨around, shape, stands, has⟩ := left
    obtain ⟨others, other, again, more⟩ := right
    -- Both stand for the same form, whose parts have one tree each.
    obtain ⟨rfl, rfl⟩ := stands.unique again
    generalize code.type shape = form at has more
    cases has with
    | list inner | dict inner | forAll _ inner =>
      cases more
      rw [ih inner ‹_›]
    | fn left right =>
      cases more with
      | fn first second => rw [ih left first, ih right second]
    | record inner =>
      cases more with
      | record others =>
        have each : ∀ type first second, code.Unfolds depth around type first →
            code.Unfolds depth around type second → first = second := fun _ _ _ => ih
        rw [fields_unique each inner others]
    | _ =>
      cases more
      rfl

/-- A name unfolds as the definition does that it stands for. -/
theorem Unfolds.name {depth : Nat} {around : Groups} {next : TypeExprId} {name : Name}
    {tree : TypeTree} (found : code.type type = .aliasRef name)
    (known : groups.definition? name = some (next, around))
    (unfolds : code.Unfolds depth around next tree) : code.Unfolds depth groups type tree := by
  cases depth with
  | zero => exact unfolds
  | succ depth =>
    obtain ⟨last, shape, stands, has⟩ := unfolds
    exact ⟨last, shape, .name found known stands, has⟩

end Code

end LazyConfig
