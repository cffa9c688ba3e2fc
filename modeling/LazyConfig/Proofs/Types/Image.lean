import LazyConfig.Proofs.Types.Groups
import LazyConfig.Proofs.Types.Unfolding

/-!
What written types become in a graph. A node has the form that was written, and a name becomes the slot
of its definition, so that both unfold to the same trees.
-/

namespace LazyConfig

/-- A written type that is not just a name becomes a node, if its parts become nodes. -/
inductive TypeExpr.Becomes (part : TypeExprId → TypeId → Prop) : TypeExpr → TypeNode → Prop
  | num : Becomes part .num .num
  | str : Becomes part .str .str
  | bool : Becomes part .bool .bool
  | dyn : Becomes part .dyn .dyn
  | list {elem : TypeExprId} {id : TypeId} (inner : part elem id) :
    Becomes part (.list elem) (.list id)
  | record {fields : List (Name × TypeExprId)} {ids : List (Name × TypeId)}
    (inner : EntriesAgree part fields ids) : Becomes part (.record fields) (.record ids)
  | dict {elem : TypeExprId} {id : TypeId} (inner : part elem id) :
    Becomes part (.dict elem) (.dict id)
  | fn {param result : TypeExprId} {first second : TypeId} (left : part param first)
    (right : part result second) : Becomes part (.fn param result) (.fn first second)
  | forAll (var : Name) {body : TypeExprId} {id : TypeId} (inner : part body id) :
    Becomes part (.forAll var body) (.forAll var id)
  | var (name : Name) : Becomes part (.var name) (.var name)

namespace TypeExpr.Becomes

variable {part other : TypeExprId → TypeId → Prop} {form : TypeExpr} {node : TypeNode}

/-- What its parts become may be said in other words. -/
theorem imp (becomes : form.Becomes part node) (weaker : ∀ type id, part type id → other type id) :
    form.Becomes other node := by
  cases becomes with
  | list inner => exact .list (weaker _ _ inner)
  | record inner => exact .record (inner.imp fun _ _ same => ⟨same.1, weaker _ _ same.2⟩)
  | dict inner => exact .dict (weaker _ _ inner)
  | fn left right => exact .fn (weaker _ _ left) (weaker _ _ right)
  | forAll var inner => exact .forAll var (weaker _ _ inner)
  | _ => constructor

/-- The tree of a node is one that was written, if this holds of its parts. -/
theorem hasTree {opened : TypeExprId → TypeTree → Prop} {tree : TypeId → TypeTree}
    (becomes : form.Becomes part node) (parts : ∀ type id, part type id → opened type (tree id)) :
    form.HasTree opened (node.tree tree) := by
  cases becomes with
  | list inner => exact .list (parts _ _ inner)
  | record inner =>
    refine .record (List.forall₂_map_right_iff.mpr ?_)
    exact inner.imp fun _ _ same => ⟨same.1, parts _ _ same.2⟩
  | dict inner => exact .dict (parts _ _ inner)
  | fn left right => exact .fn (parts _ _ left) (parts _ _ right)
  | forAll var inner => exact .forAll var (parts _ _ inner)
  | _ => constructor

/-- What a form becomes is no alias. -/
theorem node_ne_alias (becomes : form.Becomes part node) (name : Name) (target : Option TypeId) :
    node ≠ .aliasSlot name target := by
  rintro rfl
  cases becomes

/-- What becomes a node is more than a name. -/
theorem form_ne_name (becomes : form.Becomes part node) (name : Name) :
    form ≠ .aliasRef name := by
  rintro rfl
  cases becomes

end TypeExpr.Becomes

namespace TypeGraph

/-- What a written type becomes that is not nested deeper than `fuel`: a name its slot, a form a node. -/
def Image (graph : TypeGraph) (code : Code) (scope : Scope) : Nat → TypeExprId → TypeId → Prop
  | 0, _, _ => False
  | fuel + 1, type, id =>
    (∃ name, code.type type = .aliasRef name ∧ scope.lookup name = some id) ∨
      id < graph.size ∧ (code.type type).Becomes (graph.Image code scope fuel) (graph.node id)

variable {graph before after : TypeGraph} {code : Code} {scope : Scope} {fuel : Nat}
  {type : TypeExprId} {id : TypeId}

/-- What a type has become stays when nodes are added and slots are filled. -/
theorem Image.refine (refined : before.Refines after) (image : before.Image code scope fuel type id) :
    after.Image code scope fuel type id := by
  induction fuel generalizing type id with
  | zero => exact image
  | succ fuel ih =>
    rcases image with named | ⟨inside, becomes⟩
    · exact .inl named
    · refine .inr ⟨Nat.lt_of_lt_of_le inside refined.size, ?_⟩
      -- A node that has become something is no empty slot, and only such slots change.
      rcases refined.kept id inside with same | ⟨name, target, empty, -⟩
      · rw [same]
        exact becomes.imp fun _ _ => ih
      · exact absurd empty (becomes.node_ne_alias name none)

/-- What a type becomes settles up to the slot that the type is merely a name for. -/
theorem Image.settles (known : Resolution.InScope graph scope)
    (image : graph.Image code scope fuel type id) :
    graph.Settles (Resolution.Names code scope fuel type) id := by
  induction fuel generalizing type id with
  | zero => exact image.elim
  | succ fuel ih =>
    -- A name settles at its slot, a form at itself unless it is generic.
    rcases image with ⟨name, found, slot⟩ | ⟨inside, becomes⟩
    · refine .goal (known name id slot) ⟨name, ?_, slot⟩
      rw [Code.unguardedAlias, found]
    · generalize written : code.type type = form at becomes
      generalize found : graph.node id = node at becomes
      cases becomes with
      | forAll var inner =>
        refine .link (by rw [link?, found]) ((ih inner).weaken ?_)
        rintro slot ⟨name, merely, defined⟩
        exact ⟨name, by rw [Code.unguardedAlias, written]; exact merely, defined⟩
      | _ => exact .shape inside (by rw [found]; rfl)

/-- The slots of a scope stand for the definitions of groups, which have become what they link to. -/
inductive Entered (code : Code) (graph : TypeGraph) : Scope → Groups → Prop
  | outside : Entered code graph {} []
  | group {scope : Scope} {groups : Groups} {defs : List AliasDef} {base : TypeId}
    (outer : Entered code graph scope groups) (free : code.aliasCycle defs = none)
    (filled : ∀ position (inside : position < defs.length), ∃ name target,
      graph.node (base + position) = .aliasSlot name (some target) ∧
        graph.Image code (Resolution.within scope defs base) (defs[position].type + 1)
          defs[position].type target) :
    Entered code graph (Resolution.within scope defs base) (defs :: groups)

/-- A slot stands for a definition, in the scope of the groups around that. -/
structure Defines (graph : TypeGraph) (code : Code) (slot : TypeId)
    (definition : TypeExprId × Groups) : Prop where
  linked : ∃ scope name target, Entered code graph scope definition.2 ∧
    graph.node slot = .aliasSlot name (some target) ∧
    graph.Image code scope (definition.1 + 1) definition.1 target

/-- An alias slot is there. -/
theorem lt_size_of_alias {name : Name} {target : Option TypeId}
    (found : graph.node id = .aliasSlot name target) : id < graph.size := by
  by_contra outside
  have absent : graph.nodes[id]? = none := Array.getElem?_eq_none (Nat.not_lt.mp outside)
  simp [node, absent] at found

/-- The last definition of a name is the one at the position that counts. -/
theorem find_definition (defs : List AliasDef) (name : Name) :
    (defs.reverse.find? fun definition => definition.name == name) =
      (Code.definitionOf defs name).bind fun position => defs[position]? := by
  -- The positions may be written beside the definitions, since only these are looked at.
  have numbered : defs.reverse = defs.zipIdx.reverse.map Prod.fst := by
    rw [List.map_reverse, List.zipIdx_map_fst]
  rw [numbered, List.find?_map, Code.definitionOf]
  show Option.map Prod.fst (defs.zipIdx.reverse.find? fun entry => entry.1.name == name) =
    (Option.map Prod.snd (defs.zipIdx.reverse.find? fun entry => entry.1.name == name)).bind _
  cases found : defs.zipIdx.reverse.find? fun entry => entry.1.name == name with
  | none => rfl
  | some entry =>
    have member := List.mem_reverse.mp (List.mem_of_find?_eq_some found)
    exact (List.mem_zipIdx_iff_getElem?.mp member).symm

namespace Entered

variable {groups : Groups}

/-- What has been entered stays so when nodes are added and other slots are filled. -/
theorem refine (refined : before.Refines after) (entered : Entered code before scope groups) :
    Entered code after scope groups := by
  induction entered with
  | outside => exact .outside
  | group _ free filled ih =>
    refine .group ih free fun position inside => ?_
    obtain ⟨name, target, found, image⟩ := filled position inside
    refine ⟨name, target, ?_, image.refine refined⟩
    -- The slot is not one of those that were still empty.
    rcases refined.kept _ (lt_size_of_alias found) with same | ⟨_, _, empty, -⟩
    · exact same.trans found
    · rw [found] at empty
      cases empty

/-- A name that is bound in a scope stands for its slot, and the slot for its definition. -/
theorem lookup (entered : Entered code graph scope groups) (name : Name) :
    Option.Rel (graph.Defines code) (scope.lookup name) (groups.definition? name) := by
  induction entered with
  | outside => exact .none
  | @group scope groups defs base outer free filled ih =>
    rw [Resolution.within, Scope.lookup, Scope.push, List.findSome?_cons, Resolution.lookup_slots,
      Groups.definition?, find_definition]
    -- A name that the innermost group does not define is looked up in the groups around.
    cases found : Code.definitionOf defs name with
    | none => exact ih
    | some position =>
      have inside := Code.lt_of_definitionOf found
      obtain ⟨_, target, slot, image⟩ := filled position inside
      rw [Option.map_some, Option.bind_some, List.getElem?_eq_getElem inside]
      exact .some ⟨_, _, target, .group outer free filled, slot, image⟩

/-- The slots of a scope are there. -/
theorem inScope (entered : Entered code graph scope groups) :
    Resolution.InScope graph scope := by
  intro name slot found
  have stands := entered.lookup name
  rw [found] at stands
  generalize groups.definition? name = definition at stands
  cases stands with
  | some defines =>
    obtain ⟨_, _, _, _, same, _⟩ := defines
    exact lt_size_of_alias same

/-- The slots of a scope settle, since no group has a circle. -/
theorem settles (entered : Entered code graph scope groups) {name : Name} {slot : TypeId}
    (found : scope.lookup name = some slot) : graph.Settles (fun _ => False) slot := by
  induction entered generalizing name slot with
  | outside => cases found
  | @group scope groups defs base outer free filled ih =>
    -- A slot of the innermost group links to others of it without a circle, or to one further out.
    rcases Resolution.lookup_inside found with ⟨position, defined, rfl⟩ | outside
    · have inside := Code.lt_of_definitionOf defined
      refine Resolution.settles_of_ends (fun position inside => ?_) (fun _ _ => ih)
        (Code.ends_of_aliasCycle free inside) inside
      obtain ⟨_, target, same, image⟩ := filled position inside
      exact .inr ⟨target, by rw [link?, same], image.settles (Entered.group outer free filled).inScope⟩
    · exact ih outside

end Entered

/-- A form unfolds as the node that it has become, if its parts do so one level less deep. -/
theorem unfolds_of_becomes {groups : Groups} {depth : Nat}
    (parts : ∀ type id, graph.Image code scope fuel type id →
      code.Unfolds depth groups type (graph.unfold depth id))
    (becomes : (code.type type).Becomes (graph.Image code scope fuel) (graph.node id)) :
    code.Unfolds (depth + 1) groups type (graph.unfold (depth + 1) id) := by
  refine ⟨groups, type, .form becomes.form_ne_name, ?_⟩
  rw [unfold, follow_of_not_alias fun name target => becomes.node_ne_alias name (some target)]
  exact becomes.hasTree parts

/-- A type that has become a node unfolds as the node does. -/
theorem Image.unfolds {groups : Groups} (entered : Entered code graph scope groups)
    (image : graph.Image code scope fuel type id) (depth : Nat) :
    code.Unfolds depth groups type (graph.unfold depth id) := by
  induction depth generalizing scope groups fuel type id with
  | zero => rfl
  | succ depth deeper =>
    obtain ⟨count, shape, reads, -⟩ := ((image.settles entered.inScope).bind fun slot named =>
      entered.settles named.choose_spec.2).reads
    -- Names are passed one after the other until there is a form.
    induction reads generalizing scope groups fuel type with
    | @shape id plain =>
      cases fuel with
      | zero => exact image.elim
      | succ fuel =>
        -- A shape is no slot, and so has become of a form.
        rcases image with ⟨name, found, slot⟩ | ⟨-, becomes⟩
        · have stands := entered.lookup name
          rw [slot] at stands
          generalize groups.definition? name = definition at stands
          cases stands with
          | some defines =>
            obtain ⟨_, _, target, _, same, _⟩ := defines
            simp [link?, same] at plain
        · exact unfolds_of_becomes (fun _ _ => deeper entered) becomes
    | @link count id next shape linked rest ih =>
      cases fuel with
      | zero => exact image.elim
      | succ fuel =>
        -- A slot is passed to what its definition has become, in the groups around that.
        rcases image with ⟨name, found, slot⟩ | ⟨-, becomes⟩
        · have stands := entered.lookup name
          rw [slot] at stands
          generalize known : groups.definition? name = definition at stands
          cases stands with
          | @some _ definition defines =>
            obtain ⟨inner, given, target, within, same, image⟩ := defines
            obtain rfl : target = next := by simpa [link?, same] using linked
            rw [unfold, (ReadsIn.link linked rest).follow_alias same, ← unfold]
            exact .name found known (ih within image)
        · exact unfolds_of_becomes (fun _ _ => deeper entered) becomes

end TypeGraph

end LazyConfig
