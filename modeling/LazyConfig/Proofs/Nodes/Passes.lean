import LazyConfig.Proofs.Nodes.Limited
import LazyConfig.Proofs.Types.Occurrences
import LazyConfig.Proofs.Types.Tidy
import Mathlib.Data.Finset.Lattice.Fold

/-!
The pass over a program that resolves its annotations, and the writing of types, with a limit on the recursion. In code
whose nodes come after their parts the pass ends within some limit and under every higher one, and so does writing a
type of a tidy graph.
-/

namespace LazyConfig

/-- A node of a type graph that is there is found. -/
theorem TypeGraph.getElem?_nodes {graph : TypeGraph} {id : TypeId} (inside : id < graph.size) :
    graph.nodes[id]? = some (graph.node id) := by
  have there : id < graph.nodes.size := inside
  rw [node, Array.getElem?_eq_getElem there, Option.getD_some]

/-- No group of aliases in some code has more definitions than a number that depends on the code only. -/
theorem Code.exists_widest (code : Code) :
    ∃ widest, ∀ id defs body, code.expr id = .aliases defs body → defs.length ≤ widest := by
  refine ⟨(Finset.range code.exprs.size).sup fun id => (code.expr id).types.length, fun id defs body found => ?_⟩
  by_cases inside : id < code.exprs.size
  · have least := @Finset.le_sup _ _ _ _ _ (fun id => (code.expr id).types.length) _ (Finset.mem_range.mpr inside)
    simpa only [found, Expr.types, List.length_map] using least
  · -- What is not there counts as an expression without a group.
    rw [Code.expr, Array.getElem?_eq_none (Nat.not_lt.mp inside)] at found
    cases found

namespace Limited

open TypeGraph (parens)

/-- A step of noting the types of annotations that may have no result. -/
abbrev Annotating := ExceptT TypeFault Option

/-- A step that has a result. -/
def noted {α : Type} (outcome : Except TypeFault α) : Annotating α :=
  some outcome

/-- Carries out a step of resolving types on the graph of some annotations. -/
def perform {α : Type} (annotations : Annotations) (step : Resolving α) : Annotating (α × Annotations) :=
  let ⟨graph, types⟩ := annotations
  match step graph with
  | none => none
  | some (.ok result, graph) => noted (.ok (result, ⟨graph, types⟩))
  | some (.error fault, _) => noted (.error fault)

/-- Resolves one annotation in its scope. -/
def annotate (names : NameTable) (code : Code) (scope : Scope) (limit : Nat) (type : TypeExprId)
    (annotations : Annotations) : Annotating Annotations := do
  let (resolved, annotations) ← perform annotations (resolve names code scope limit [] type)
  pure (annotations.insert type resolved)

/-- Resolves every annotation of an expression. -/
def visit (names : NameTable) (code : Code) : Nat → Scope → ExprId → Annotations → Annotating Annotations
  | 0, _, _, _ => none
  | limit + 1, scope, id, annotations =>
    match code.exprs[id]? with
    | none => none
    | some (.record fields) =>
      fields.foldlM (fun annotations field => do
        let annotations ← match field.type with
          | some type => annotate names code scope limit type annotations
          | none => pure annotations
        visit names code limit scope field.value annotations) annotations
    | some (.ascribe value type) => do
      let annotations ← annotate names code scope limit type annotations
      visit names code limit scope value annotations
    | some (.aliases defs body) => do
      let (inside, annotations) ← perform annotations (defineAliases names code scope limit defs)
      visit names code limit inside body annotations
    | some node =>
      node.children.foldlM (fun annotations child => visit names code limit scope child annotations) annotations

/-- The annotations of the expression that is the root of a program. -/
def annotations (names : NameTable) (code : Code) (limit : Nat) (root : ExprId) : Annotating Annotations :=
  visit names code limit {} root {}

/-- Writes a type, with the names of the aliases in it. -/
def write (graph : TypeGraph) (names : NameTable) : Nat → Bool → TypeId → Option String
  | 0, _, _ => none
  | limit + 1, nested, id =>
    match graph.nodes[id]? with
    | none => none
    | some .num => some "Num"
    | some .str => some "Str"
    | some .bool => some "Bool"
    | some .dyn => some "Dyn"
    | some (.list elem) => do
      let elem ← write graph names limit true elem
      pure (parens nested ("List " ++ elem))
    | some (.record fields) => do
      let entries ← fields.mapM fun (name, type) => do
        let type ← write graph names limit false type
        pure (names.lookup name ++ " : " ++ type)
      pure ("\x7b" ++ ", ".intercalate entries ++ "\x7d")
    | some (.dict elem) => do
      let elem ← write graph names limit false elem
      pure ("\x7b_ : " ++ elem ++ "\x7d")
    | some (.fn param result) => do
      let param ← write graph names limit true param
      let result ← write graph names limit false result
      pure (parens nested (param ++ " -> " ++ result))
    | some (.forAll var body) => do
      let body ← write graph names limit false body
      pure (parens nested ("forall " ++ names.lookup var ++ ". " ++ body))
    | some (.var name) => some (names.lookup name)
    | some (.aliasSlot name _) => some (names.lookup name)

/-- A type as it is written in messages. -/
def display (graph : TypeGraph) (names : NameTable) (limit : Nat) (id : TypeId) : Option String :=
  write graph names limit false (graph.follow id)

section

variable {α β : Type}

/-- Steps that have results have one together. -/
theorem noted_bind (outcome : Except TypeFault α) (next : α → Except TypeFault β) :
    noted (outcome >>= next) = noted outcome >>= fun result => noted (next result) := by
  cases outcome <;> rfl

/-- A step for each part in turn has a result when each step has one. -/
theorem noted_foldlM {step : β → α → Except TypeFault β} {other : β → α → Annotating β} {parts : List α}
    (each : ∀ part ∈ parts, ∀ before, other before part = noted (step before part)) (before : β) :
    parts.foldlM other before = noted (parts.foldlM step before) := by
  induction parts generalizing before with
  | nil => rfl
  | cons part rest ih =>
    rw [List.foldlM_cons, List.foldlM_cons, each part List.mem_cons_self, noted_bind]
    congr 1
    funext after
    exact ih (fun other member => each other (List.mem_cons_of_mem _ member)) after

/-- A step of resolving types that has a result has one on the graph of some annotations. -/
theorem perform_resolved (annotations : Annotations) (step : Resolution α) :
    perform annotations (resolved step) = noted (annotations.perform step) := by
  obtain ⟨graph, types⟩ := annotations
  rw [perform, Annotations.perform, resolved]
  rcases step graph with ⟨fault | result, later⟩ <;> rfl

end

variable {names : NameTable} {code : Code} {scope : Scope} {limit : Nat}

/-- Resolving an annotation goes no deeper than there are types. -/
theorem annotate_eq (ordered : code.ChildrenFirst) (room : code.types.size ≤ limit) {type : TypeExprId}
    (inside : type < code.types.size) (annotations : Annotations) :
    annotate names code scope limit type annotations =
      noted (Annotations.annotate names code scope type annotations) := by
  have below := Nat.lt_of_lt_of_le inside room
  rw [annotate, Annotations.annotate, resolve_eq ordered inside below (Nat.lt_succ_self type), perform_resolved,
    noted_bind]
  rfl

/--
The pass over an expression ends within every limit that leaves room for its position, besides the number of types and
the turns that the search for a circle may take in a group.
-/
theorem visit_eq (ordered : code.ChildrenFirst) {widest : Nat}
    (groups : ∀ id defs body, code.expr id = .aliases defs body → defs.length ≤ widest) {id fuel : Nat}
    (inside : id < code.exprs.size) (room : id + (code.types.size + 2 * widest) < limit) (enough : id < fuel)
    (annotations : Annotations) :
    visit names code limit scope id annotations = noted (Annotations.visit names code fuel scope id annotations) := by
  -- The parts of an expression come before it, so that there is as much room for them when the limit is nearer by one.
  induction limit generalizing scope id fuel annotations with
  | zero => exact absurd room (Nat.not_lt_zero _)
  | succ limit ih =>
    obtain ⟨fuel, rfl⟩ := Nat.exists_eq_succ_of_ne_zero (Nat.ne_zero_of_lt enough)
    have part {child : ExprId} (scope : Scope) (member : child ∈ (code.expr id).children) (annotations : Annotations) :
        visit names code limit scope child annotations =
          noted (Annotations.visit names code fuel scope child annotations) := by
      have less := ordered.expr_lt member
      have nearer := Nat.lt_of_lt_of_le (Nat.add_lt_add_right less _) (Nat.le_of_lt_succ room)
      exact ih (Nat.lt_trans less inside) nearer (Nat.lt_of_lt_of_le less (Nat.le_of_lt_succ enough)) annotations
    have known {type : TypeExprId} (member : type ∈ (code.expr id).types) : type < code.types.size := by
      rw [Code.expr, Array.getElem?_eq_getElem inside] at member
      exact ordered.annotations id inside type member
    have types : code.types.size ≤ limit := by omega
    rw [visit, Code.getElem?_exprs inside, Annotations.visit]
    cases found : code.expr id with
    | record fields =>
      rw [found] at part known
      refine noted_foldlM (fun field member before => ?_) annotations
      have value := part scope (List.mem_map_of_mem member)
      -- A field may be annotated, and its value may have annotations in it.
      cases typed : field.type with
      | none =>
        simp only [value, noted_bind]
        rfl
      | some type =>
        have there := known (List.mem_filterMap.mpr ⟨field, member, typed⟩)
        simp only [annotate_eq ordered types there, value, noted_bind]
    | ascribe value type =>
      rw [found] at part known
      simp only [annotate_eq ordered types (known (List.mem_singleton_self type)),
        part scope (List.mem_singleton_self value), noted_bind]
    | aliases defs body =>
      have turns : 2 * defs.length ≤ limit := by
        have wide := groups id defs body found
        omega
      rw [found] at part known
      have there (definition : AliasDef) (member : definition ∈ defs) : definition.type < code.types.size :=
        known (List.mem_map_of_mem member)
      simp only [defineAliases_eq ordered types there turns, perform_resolved, noted_bind]
      congr 1
      funext result
      exact part result.1 (List.mem_singleton_self body) result.2
    | _ =>
      rw [found] at part
      exact noted_foldlM (fun child member before => part scope member before) annotations

/-- The pass over a program ends within some limit, and within every higher one. -/
theorem annotations_eq (ordered : code.ChildrenFirst) (names : NameTable) {root : ExprId}
    (inside : root < code.exprs.size) :
    ∃ bound, ∀ limit ≥ bound, annotations names code limit root = some (Annotations.ofRoot names code root) := by
  obtain ⟨widest, groups⟩ := code.exists_widest
  exact ⟨root + (code.types.size + 2 * widest) + 1, fun limit room =>
    visit_eq ordered groups inside room (Nat.lt_succ_self root) {}⟩

/-- Writing a type goes no deeper than its position, although aliases may lead back to it. -/
theorem write_eq {graph : TypeGraph} (parts : ∀ id < graph.size, ∀ part ∈ (graph.node id).parts, part < id)
    {id fuel : TypeId} (inside : id < graph.size) (room : id < limit) (enough : id < fuel) (nested : Bool) :
    write graph names limit nested id = some (graph.write names fuel nested id) := by
  -- As a part has a smaller number, there is as much room for it when the limit is nearer by one.
  induction limit generalizing id fuel nested with
  | zero => exact absurd room (Nat.not_lt_zero _)
  | succ limit ih =>
    obtain ⟨fuel, rfl⟩ := Nat.exists_eq_succ_of_ne_zero (Nat.ne_zero_of_lt enough)
    have part {child : TypeId} (nested : Bool) (member : child ∈ (graph.node id).parts) :
        write graph names limit nested child = some (graph.write names fuel nested child) := by
      have less := parts id inside child member
      exact ih (Nat.lt_trans less inside) (Nat.lt_of_lt_of_le less (Nat.le_of_lt_succ room))
        (Nat.lt_of_lt_of_le less (Nat.le_of_lt_succ enough)) nested
    rw [write, TypeGraph.getElem?_nodes inside, TypeGraph.write]
    cases found : graph.node id with
    | record fields =>
      rw [found] at part
      have entries : (fields.mapM fun field : Name × TypeId => do
          let type ← write graph names limit false field.2
          pure (names.lookup field.1 ++ " : " ++ type)) = some (fields.map fun field =>
            names.lookup field.1 ++ " : " ++ graph.write names fuel false field.2) :=
        mapM_some fun field member => by
          rw [part false (List.mem_map_of_mem member)]
          rfl
      simp only
      rw [entries]
      rfl
    | list elem | dict elem | forAll var elem =>
      rw [found] at part
      simp only [part _ (List.mem_singleton_self _)]
      rfl
    | fn param result =>
      rw [found] at part
      simp only [part true List.mem_cons_self, part false (List.mem_cons_of_mem _ (List.mem_singleton_self _))]
      rfl
    -- The name of an alias is written, whatever the alias leads to.
    | num | str | bool | dyn | var | aliasSlot => rfl

/-- Writing a type in messages goes no deeper than there are types. -/
theorem display_eq {graph : TypeGraph} (tidy : graph.Tidy graph.EmptySlot) {id : TypeId} (inside : id < graph.size)
    (room : graph.size ≤ limit) : display graph names limit id = some (graph.display names id) := by
  -- Following aliases leads to a node that is there.
  obtain ⟨-, there⟩ := (tidy.settles id inside).follow_extends (.refl graph)
  exact write_eq tidy.parts there (Nat.lt_of_lt_of_le there room) (Nat.lt_succ_of_lt there) false

end Limited

end LazyConfig
