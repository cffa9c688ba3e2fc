import LazyConfig.Proofs.Types.Resolver

/-!
Resolving keeps the meaning of types: it fails for the first name or variable that is not bound, and
otherwise gives a node that unfolds as the written type does in the groups of aliases around it.
-/

namespace LazyConfig

/-- A place in a written type that can be wrong, with the generic variables around it. -/
inductive TypeLeaf
  | var (name : Name) (around : List Name)
  | aliasRef (name : Name)

namespace TypeLeaf

/-- Whether a leaf is bound: a variable by a generic type around it, a name by a group of aliases. -/
def isBound (known : Name → Bool) : TypeLeaf → Bool
  | var name around => around.contains name
  | aliasRef name => known name

/-- What is reported of a leaf that is not bound. -/
def fault (names : NameTable) : TypeLeaf → TypeFault
  | var name _ => .unboundVariable (names.lookup name)
  | aliasRef name => .unboundAlias (names.lookup name)

end TypeLeaf

/-- The names and variables of a written type, from left to right. -/
def Code.leaves (code : Code) : Nat → List Name → TypeExprId → List TypeLeaf
  | 0, _, _ => []
  | fuel + 1, vars, id =>
    match code.type id with
    | .num | .str | .bool | .dyn => []
    | .list elem | .dict elem => code.leaves fuel vars elem
    | .record fields => fields.flatMap fun field => code.leaves fuel vars field.2
    | .fn param result => code.leaves fuel vars param ++ code.leaves fuel vars result
    | .forAll var body => code.leaves fuel (var :: vars) body
    | .var name => [.var name vars]
    | .aliasRef name => [.aliasRef name]

/-- Whether some group around a place defines a name. -/
def Groups.binds (groups : Groups) (name : Name) : Bool :=
  (groups.definition? name).isSome

/-- The parts of a written type come before it. -/
theorem Code.ChildrenFirst.type_lt {code : Code} (ordered : code.ChildrenFirst)
    {id child : TypeExprId} (member : child ∈ (code.type id).children) : child < id := by
  by_cases inside : id < code.types.size
  · rw [Code.type, Array.getElem?_eq_getElem inside] at member
    exact ordered.types id inside child member
  · -- What is not there counts as a type without parts.
    rw [Code.type, Array.getElem?_eq_none (Nat.not_lt.mp inside)] at member
    cases member

namespace Resolution

/-- A step fails for the first of some leaves that is not bound, and succeeds if there is none. -/
def Reports {α : Type} (names : NameTable) (known : Name → Bool) (leaves : List TypeLeaf)
    (step : Resolution α) : Prop :=
  ∀ graph, match leaves.find? fun leaf => !leaf.isBound known with
    | some leaf => (step graph).1 = .error (leaf.fault names)
    | none => ∃ result, (step graph).1 = .ok result

section

variable {α β : Type} {names : NameTable} {known : Name → Bool} {first others : List TypeLeaf}

/-- Steps one after the other report the leaves of the one before those of the other. -/
theorem Reports.bind {step : Resolution α} {next : α → Resolution β}
    (left : Reports names known first step)
    (right : ∀ result, Reports names known others (next result)) :
    Reports names known (first ++ others) (step >>= next) := by
  intro graph
  have ran := left graph
  rw [List.find?_append]
  -- The second step is only taken if the first has nothing to report.
  rcases outcome : step graph with ⟨fault | result, middle⟩
  · rw [bind_of_error outcome]
    rw [outcome] at ran
    -- The first leaf that is not bound is one of the first step where that failed, and one of the
    -- second where it did not.
    cases found : first.find? fun leaf => !leaf.isBound known with
    | some leaf =>
      rw [found] at ran
      exact congrArg Except.error (Except.error.inj ran)
    | none =>
      rw [found] at ran
      obtain ⟨_, none⟩ := ran
      cases none
  · rw [bind_of_ok outcome]
    rw [outcome] at ran
    cases found : first.find? fun leaf => !leaf.isBound known with
    | some leaf =>
      rw [found] at ran
      cases ran
    | none => exact right result middle

/-- A step that always succeeds has nothing to report. -/
theorem Reports.succeeds {step : Resolution α} (ok : ∀ graph, ∃ result, (step graph).1 = .ok result) :
    Reports names known [] step :=
  ok

/-- A step followed by one that has nothing to report. -/
theorem Reports.then {step : Resolution α} {next : α → Resolution β}
    (left : Reports names known first step)
    (ok : ∀ result graph, ∃ last, (next result graph).1 = .ok last) :
    Reports names known first (step >>= next) := by
  have both := left.bind fun result => @Reports.succeeds _ names known _ (ok result)
  rwa [List.append_nil] at both

/-- A step for each part in turn reports the leaves of the parts in turn. -/
theorem Reports.mapM {step : α → Resolution β} {leaves : α → List TypeLeaf} {parts : List α}
    (each : ∀ part ∈ parts, Reports names known (leaves part) (step part)) :
    Reports names known (parts.flatMap leaves) (parts.mapM step) := by
  induction parts with
  | nil =>
    rw [List.mapM_nil]
    exact .succeeds fun _ => ⟨_, rfl⟩
  | cons part rest ih =>
    rw [List.mapM_cons, List.flatMap_cons]
    have remaining := ih fun other member => each other (List.mem_cons_of_mem _ member)
    exact (each part List.mem_cons_self).bind fun _ => remaining.then fun _ _ => ⟨_, rfl⟩

end

/-- Resolving a type reports its first leaf that is not bound. -/
theorem resolveAt_reports {names : NameTable} {code : Code} (ordered : code.ChildrenFirst)
    {scope : Scope} {fuel : Nat} {vars : List Name} {type : TypeExprId} (enough : type < fuel) :
    Reports names (fun name => (scope.lookup name).isSome) (code.leaves fuel vars type)
      (resolveAt names code scope fuel vars type) := by
  induction fuel generalizing vars type with
  | zero => exact absurd enough (Nat.not_lt_zero _)
  | succ fuel ih =>
    -- The parts of a type come before it, so that there is enough left for them.
    have part {vars : List Name} {child : TypeExprId}
        (member : child ∈ (code.type type).children) :=
      @ih vars child (Nat.lt_of_lt_of_le (ordered.type_lt member) (Nat.le_of_lt_succ enough))
    have pushes (node : TypeNode) (graph : TypeGraph) :
        ∃ result, (push node graph).1 = .ok result := ⟨_, rfl⟩
    rw [resolveAt, Code.leaves]
    cases found : code.type type with
    | num | str | bool | dyn => exact .succeeds (pushes _)
    | list elem | dict elem =>
      rw [found] at part
      exact (part List.mem_cons_self).then fun _ => pushes _
    | record fields =>
      rw [found] at part
      refine (Reports.mapM fun field member => ?_).then fun _ => pushes _
      exact (part (List.mem_map_of_mem member)).then fun _ _ => ⟨_, rfl⟩
    | fn param result =>
      rw [found] at part
      refine (part List.mem_cons_self).bind fun _ => ?_
      exact (part (List.mem_cons_of_mem _ List.mem_cons_self)).then fun _ => pushes _
    | forAll var body =>
      rw [found] at part
      exact (part List.mem_cons_self).then fun _ => pushes _
    -- A variable is reported if no generic type around it binds it.
    | var name =>
      intro graph
      cases bound : vars.contains name with
      | true =>
        simp only [TypeLeaf.isBound, bound, List.find?_cons]
        exact ⟨_, rfl⟩
      | false =>
        simp only [TypeLeaf.isBound, bound, List.find?_cons]
        rfl
    -- A name is reported if no group around binds it.
    | aliasRef name =>
      intro graph
      cases known : scope.lookup name with
      | some slot =>
        simp only [TypeLeaf.isBound, known, List.find?_cons]
        exact ⟨_, rfl⟩
      | none =>
        simp only [TypeLeaf.isBound, known, List.find?_cons]
        rfl

end Resolution

open Resolution TypeGraph

/-- A name is bound in a scope if some group around defines it. -/
theorem TypeGraph.Entered.binds {code : Code} {graph : TypeGraph} {scope : Scope} {groups : Groups}
    (entered : Entered code graph scope groups) :
    (fun name => (scope.lookup name).isSome) = groups.binds := by
  funext name
  have stands := entered.lookup name
  rw [Groups.binds]
  generalize scope.lookup name = slot at stands
  generalize groups.definition? name = definition at stands
  cases stands <;> rfl

/--
Resolving keeps meaning. Whatever groups were entered and left before, a type is resolved if all its
names and variables are bound, and otherwise the first that is not is reported. The node unfolds, now
and later, as the type does when each name stands for the definition that is visible where it is
written.
-/
theorem resolve_keeps_meaning {names : NameTable} {code : Code} (ordered : code.ChildrenFirst)
    {state : Resolver} (reached : Resolver.Reaches names code {} state) (type : TypeExprId) :
    let outcome := resolve names code state.scope type state.graph
    let leaves := code.leaves (type + 1) [] type
    ((∃ id, outcome.1 = .ok id) ↔ ∀ leaf ∈ leaves, leaf.isBound state.groups.binds = true) ∧
    (∀ before leaf after, leaves = before ++ leaf :: after →
      (∀ other ∈ before, other.isBound state.groups.binds = true) →
      leaf.isBound state.groups.binds = false → outcome.1 = .error (leaf.fault names)) ∧
    ∀ id, outcome.1 = .ok id → ∀ later,
      Resolver.Reaches names code { state with graph := outcome.2 } later → ∀ depth tree,
        code.Unfolds depth state.groups type tree ↔ tree = later.graph.unfold depth id := by
  intro outcome leaves
  have entered := reached.entered
  have reports := @resolveAt_reports names code ordered state.scope _ [] type (Nat.lt_succ_self type)
    state.graph
  rw [entered.binds] at reports
  refine ⟨⟨?_, ?_⟩, ?_, ?_⟩
  · -- A leaf that is not bound would have been reported.
    rintro ⟨id, resolved⟩ leaf member
    cases found : leaves.find? fun leaf => !leaf.isBound state.groups.binds with
    | some offending =>
      rw [found] at reports
      exact nomatch resolved.symm.trans reports
    | none => simpa using List.find?_eq_none.mp found leaf member
  · -- If nothing is to be reported, the type is resolved.
    intro bound
    have nothing : leaves.find? (fun leaf => !leaf.isBound state.groups.binds) = none :=
      List.find?_eq_none.mpr fun leaf member => by simp [bound leaf member]
    rwa [nothing] at reports
  · -- The leaves before the first offending one have nothing to report.
    intro before leaf after split bound unbound
    have nothing : before.find? (fun leaf => !leaf.isBound state.groups.binds) = none :=
      List.find?_eq_none.mpr fun other member => by simp [bound other member]
    have first : leaves.find? (fun leaf => !leaf.isBound state.groups.binds) = some leaf := by
      rw [split, List.find?_append, nothing, Option.none_or, List.find?_cons, unbound]
      rfl
    rwa [first] at reports
  · -- What the type has become unfolds as the type does, and later steps change neither.
    intro id resolved later further depth tree
    obtain ⟨extended, image⟩ := @resolveAt_image names code state.scope (type + 1) [] type state.graph
      outcome.2 id (Prod.ext resolved rfl)
    have whole := extended.trans further.extends
    have unfolds := (image.refine further.extends.refines).unfolds (entered.refine whole.refines) depth
    exact ⟨fun other => other.unique unfolds, fun same => same ▸ unfolds⟩

/-- The types `Num`, `List A`, `Str` and `A -> B`, for the aliases `A` and `B`. -/
def shadowedAlias : Code where
  types := #[.num, .aliasRef 1, .list 1, .str, .aliasRef 2, .fn 1 4]

/-- Inside `typealias A = Str`, inside `A = Num, B = List A`, the type `A -> B` is `Str -> List Num`. -/
theorem resolve_keeps_meaning_shadowedAlias :
    ∃ state : Resolver, state.groups = [[⟨1, 3⟩], [⟨1, 0⟩, ⟨2, 2⟩]] ∧
      ∃ id, (resolve {} shadowedAlias state.scope 5 state.graph).1 = .ok id ∧
        shadowedAlias.Unfolds 3 state.groups 5 (.fn .str (.list .num)) := by
  have ordered : shadowedAlias.ChildrenFirst := ⟨by decide, by decide, by decide⟩
  have outer : Resolver.Reaches {} shadowedAlias {} ⟨_, _, [[⟨1, 0⟩, ⟨2, 2⟩]]⟩ :=
    .tail .refl (.enter rfl)
  have reached : Resolver.Reaches {} shadowedAlias {} ⟨_, _, [[⟨1, 3⟩], [⟨1, 0⟩, ⟨2, 2⟩]]⟩ :=
    outer.tail (.enter rfl)
  obtain ⟨-, -, unfolds⟩ := resolve_keeps_meaning ordered reached 5
  exact ⟨_, rfl, _, rfl, (unfolds _ rfl _ .refl 3 _).mpr rfl⟩

end LazyConfig
