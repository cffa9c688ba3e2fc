import LazyConfig.Proofs.Types.Annotations
import LazyConfig.Proofs.Types.Meaning

/-!
Which groups of aliases an annotation is resolved in. The groups around an annotated expression are those
on the way to it from the root, and an expression or a type may be met on several ways. One type is kept
for each written annotation, and it is the one of the last place where that annotation is met.
-/

namespace LazyConfig

/-- The annotations that are written directly at an expression. -/
def Expr.annotations : Expr → List TypeExprId
  | record fields => fields.filterMap Field.type
  | ascribe _ type => [type]
  | _ => []

/-- A way from an expression to one in it, with the groups of aliases around that. -/
inductive Code.Leads (code : Code) (root : ExprId) : Groups → ExprId → Prop
  | root : Leads code root [] root
  | child {groups : Groups} {id child : ExprId} (above : Leads code root groups id)
    (plain : ∀ defs body, code.expr id ≠ .aliases defs body)
    (member : child ∈ (code.expr id).children) : Leads code root groups child
  | inside {groups : Groups} {id body : ExprId} {defs : List AliasDef}
    (above : Leads code root groups id) (found : code.expr id = .aliases defs body) :
    Leads code root (defs :: groups) body

/-- The annotations in an expression with the groups around them, in the order of walking over it. -/
def Code.occurrences (code : Code) : Nat → Groups → ExprId → List (TypeExprId × Groups)
  | 0, _, _ => []
  | fuel + 1, groups, id =>
    match code.expr id with
    | .record fields => fields.flatMap fun field =>
      field.type.toList.map (·, groups) ++ code.occurrences fuel groups field.value
    | .ascribe value type => (type, groups) :: code.occurrences fuel groups value
    | .aliases defs body => code.occurrences fuel (defs :: groups) body
    | node => node.children.flatMap (code.occurrences fuel groups)

/-- The groups around the last of some occurrences of an annotation. -/
def lastGroups (occurrences : List (TypeExprId × Groups)) (type : TypeExprId) : Option Groups :=
  occurrences.reverse.lookup type

theorem lastGroups_append (first others : List (TypeExprId × Groups)) (type : TypeExprId) :
    lastGroups (first ++ others) type = (lastGroups others type).or (lastGroups first type) := by
  rw [lastGroups, List.reverse_append, List.lookup_append, lastGroups, lastGroups]

theorem lastGroups_singleton (type other : TypeExprId) (groups : Groups) :
    lastGroups [(type, groups)] other = if other = type then some groups else none := by
  rw [lastGroups, List.reverse_singleton, List.lookup_cons]
  by_cases same : other = type
  · simp [same]
  · rw [if_neg same, beq_false_of_ne same]
    rfl

namespace Annotations

open Resolution TypeGraph

/-- The type of an annotation is the one that a resolver gave which had entered some groups. -/
def NotedIn (annotations : Annotations) (names : NameTable) (code : Code) (groups : Groups)
    (type : TypeExprId) : Prop :=
  ∃ state id later, Resolver.Reaches names code {} state ∧ state.groups = groups ∧
    resolve names code state.scope type state.graph = (.ok id, later) ∧
    later.Extends annotations.graph ∧ annotations.get? type = some id

/--
The type of an annotation is what resolving it in some groups gives: they can be entered, and every
resolver that has entered them gives a type that unfolds to the same trees.
-/
def ResolvedIn (annotations : Annotations) (names : NameTable) (code : Code) (groups : Groups)
    (type : TypeExprId) : Prop :=
  ∃ id, annotations.get? type = some id ∧
    (∃ state, Resolver.Reaches names code {} state ∧ state.groups = groups) ∧
    ∀ state, Resolver.Reaches names code {} state → state.groups = groups →
      ∃ other later, resolve names code state.scope type state.graph = (.ok other, later) ∧
        ∀ depth, later.unfold depth other = annotations.graph.unfold depth id

variable {names : NameTable} {code : Code} {scope : Scope} {groups : Groups}
  {before middle after : Annotations}

/-- What one resolver gives in some groups, every other gives as well. -/
theorem NotedIn.resolvedIn {annotations : Annotations} {type : TypeExprId}
    (ordered : code.ChildrenFirst) (noted : annotations.NotedIn names code groups type) :
    annotations.ResolvedIn names code groups type := by
  obtain ⟨state, id, later, reached, rfl, resolved, extended, known⟩ := noted
  refine ⟨id, known, ⟨state, reached, rfl⟩, fun other further same => ?_⟩
  -- Both resolvers have the same names bound, so that both succeed.
  have reports (state : Resolver) (reached : Resolver.Reaches names code {} state) :=
    reached.entered.binds ▸
      @resolveAt_reports names code ordered state.scope _ [] type (Nat.lt_succ_self type) state.graph
  have first := reports state reached
  have second := reports other further
  rw [same] at second
  have first_ok : (resolveAt names code state.scope (type + 1) [] type state.graph).1 = .ok id :=
    congrArg Prod.fst resolved
  cases found : (code.leaves (type + 1) [] type).find?
      fun leaf => !leaf.isBound state.groups.binds with
  | some leaf =>
    rw [found] at first
    exact nomatch first_ok.symm.trans first
  | none =>
    rw [found] at second
    obtain ⟨again, ok⟩ := second
    refine ⟨again, _, Prod.ext ok rfl, fun depth => ?_⟩
    -- Either gives a type that unfolds as the annotation does in these groups.
    obtain ⟨grown, image⟩ := resolveAt_image resolved
    obtain ⟨growth, reimage⟩ := resolveAt_image (Prod.ext ok rfl)
    have left := (image.refine extended.refines).unfolds
      (reached.entered.refine (grown.trans extended).refines) depth
    have right := reimage.unfolds (further.entered.refine growth.refines) depth
    rw [same] at right
    exact right.unique left

/-- A later note is kept in a graph that grows, as long as the annotation is not noted again. -/
theorem NotedIn.grow {type : TypeExprId} (noted : before.NotedIn names code groups type)
    (extended : before.graph.Extends after.graph) (same : after.get? type = before.get? type) :
    after.NotedIn names code groups type := by
  obtain ⟨state, id, later, reached, entered, resolved, grown, known⟩ := noted
  exact ⟨state, id, later, reached, entered, resolved, grown.trans extended, same.trans known⟩

/--
Annotations before and after a walk over some occurrences: each has the type of its last occurrence,
and a resolver in the groups around goes from the one graph to the other.
-/
structure Walked (names : NameTable) (code : Code) (scope : Scope) (groups : Groups)
    (occurrences : List (TypeExprId × Groups)) (before after : Annotations) : Prop where
  reached : Resolver.Reaches names code ⟨before.graph, scope, groups⟩ ⟨after.graph, scope, groups⟩
  kept : ∀ type, lastGroups occurrences type = none → after.get? type = before.get? type
  noted : ∀ type last, lastGroups occurrences type = some last → after.NotedIn names code last type

namespace Walked

variable {first others : List (TypeExprId × Groups)}

theorem refl (annotations : Annotations) : Walked names code scope groups [] annotations annotations :=
  ⟨.refl, fun _ _ => rfl, nofun⟩

/-- A walk over some occurrences and then over others. -/
theorem trans (left : Walked names code scope groups first before middle)
    (right : Walked names code scope groups others middle after) :
    Walked names code scope groups (first ++ others) before after := by
  refine ⟨left.reached.trans right.reached, fun type none => ?_, fun type last found => ?_⟩
  · rw [lastGroups_append, Option.or_eq_none_iff] at none
    exact (right.kept type none.1).trans (left.kept type none.2)
  · -- An annotation that is met again has the type of its later occurrence.
    rw [lastGroups_append] at found
    cases again : lastGroups others type with
    | some other =>
      rw [again, Option.some_or] at found
      exact right.noted type last (again.trans found)
    | none =>
      rw [again, Option.none_or] at found
      exact (left.noted type last found).grow right.reached.extends (right.kept type again)

end Walked

/-- Resolving an annotation is a walk over one occurrence. -/
theorem annotate_walked {type : TypeExprId}
    (reached : Resolver.Reaches names code {} ⟨before.graph, scope, groups⟩)
    (ran : annotate names code scope type before = .ok after) :
    Walked names code scope groups [(type, groups)] before after := by
  obtain ⟨resolved, middle, outcome, types, rfl⟩ := annotate_steps ran
  have step : Resolver.Next names code ⟨before.graph, scope, groups⟩ _ := .resolve _ scope type
  rw [outcome] at step
  -- What has been resolved is noted, and anything else stays as it is.
  refine ⟨.single step, fun other none => ?_, fun other last found => ?_⟩
  · rw [lastGroups_singleton] at none
    rw [get?_insert, if_neg fun same => by simp [same] at none, get?, get?, types]
  · rw [lastGroups_singleton] at found
    obtain ⟨rfl, rfl⟩ : other = type ∧ groups = last := by simpa using found
    exact ⟨_, resolved, middle.graph, reached, rfl, outcome, .refl _, by rw [get?_insert, if_pos rfl]⟩

/-- A walk over the parts one after another is one over the occurrences in each. -/
theorem foldlM_walked {α : Type} {step : Annotations → α → Except TypeFault Annotations}
    {occurrences : α → List (TypeExprId × Groups)} {parts : List α}
    (each : ∀ part ∈ parts, ∀ before after,
      Resolver.Reaches names code {} ⟨before.graph, scope, groups⟩ → step before part = .ok after →
      Walked names code scope groups (occurrences part) before after)
    (reached : Resolver.Reaches names code {} ⟨before.graph, scope, groups⟩)
    (ran : parts.foldlM step before = .ok after) :
    Walked names code scope groups (parts.flatMap occurrences) before after := by
  induction parts generalizing before with
  | nil =>
    cases ran
    exact .refl _
  | cons part rest ih =>
    rw [List.foldlM_cons] at ran
    rw [List.flatMap_cons]
    cases taken : step before part with
    | error fault =>
      rw [taken] at ran
      cases ran
    -- The parts after the first are walked over with what has been noted for it.
    | ok middle =>
      rw [taken] at ran
      have first := each part List.mem_cons_self before middle reached taken
      exact first.trans <| ih (fun other member => each other (List.mem_cons_of_mem _ member))
        (reached.trans first.reached) ran

/-- Visiting an expression is a walk over the annotations in it. -/
theorem visit_walked {fuel : Nat} {id : ExprId}
    (reached : Resolver.Reaches names code {} ⟨before.graph, scope, groups⟩)
    (ran : visit names code fuel scope id before = .ok after) :
    Walked names code scope groups (code.occurrences fuel groups id) before after := by
  induction fuel generalizing scope groups id before after with
  | zero => cases ran
  | succ fuel ih =>
    rw [Code.occurrences]
    cases found : code.expr id with
    | record fields =>
      -- The annotation of a field comes before its value.
      rw [visit] at ran
      simp only [found] at ran
      refine foldlM_walked (fun field _ before after reached taken => ?_) reached ran
      cases typed : field.type with
      | none =>
        simp only [typed, pure_bind] at taken
        exact ih reached taken
      | some type =>
        simp only [typed] at taken
        obtain ⟨middle, annotated, taken⟩ := steps_ok taken
        have first := annotate_walked reached annotated
        exact first.trans (ih (reached.trans first.reached) taken)
    | ascribe value type =>
      obtain ⟨middle, annotated, visited⟩ := visit_ascribe found ran
      have first := annotate_walked reached annotated
      exact first.trans (ih (reached.trans first.reached) visited)
    | aliases defs body =>
      obtain ⟨inner, middle, defined, types, visited⟩ := visit_aliases found ran
      -- The group is entered for the body only.
      have enter : Resolver.Next names code ⟨before.graph, scope, groups⟩ _ := .enter defined
      have body := ih (reached.tail enter) visited
      have leave : Resolver.Next names code ⟨after.graph, inner, defs :: groups⟩ _ := .leave rfl
      rw [defineAliases_pop defined] at leave
      refine ⟨(Relation.ReflTransGen.single enter).trans (body.reached.tail leave), ?_, body.noted⟩
      exact fun type none => (body.kept type none).trans (by rw [get?, get?, types])
    | _ =>
      rw [visit] at ran
      simp only [found] at ran
      exact foldlM_walked (fun child _ before after reached taken => ih reached taken) reached ran

end Annotations

/-- The parts of an expression come before it. -/
theorem Code.ChildrenFirst.expr_lt {code : Code} (ordered : code.ChildrenFirst) {id child : ExprId}
    (member : child ∈ (code.expr id).children) : child < id := by
  by_cases inside : id < code.exprs.size
  · rw [Code.expr, Array.getElem?_eq_getElem inside] at member
    exact ordered.exprs id inside child member
  · -- What is not there counts as an expression without parts.
    rw [Code.expr, Array.getElem?_eq_none (Nat.not_lt.mp inside)] at member
    cases member

namespace Code

variable {code : Code} {root : ExprId} {groups last : Groups} {type : TypeExprId}

/-- An occurrence in an expression is at the expression or in a part of it. -/
theorem mem_occurrences_succ {fuel : Nat} {id : ExprId} :
    (type, last) ∈ code.occurrences (fuel + 1) groups id ↔
      (type ∈ (code.expr id).annotations ∧ last = groups) ∨
      ((∀ defs body, code.expr id ≠ .aliases defs body) ∧
        ∃ child ∈ (code.expr id).children, (type, last) ∈ code.occurrences fuel groups child) ∨
      ∃ defs body, code.expr id = .aliases defs body ∧
        (type, last) ∈ code.occurrences fuel (defs :: groups) body := by
  rw [occurrences]
  cases found : code.expr id with
  | record fields =>
    -- The annotations of a record are those of its fields, and its parts are their values.
    simp only [Expr.annotations, Expr.children, List.mem_flatMap, List.mem_append, List.mem_map,
      Option.mem_toList, Prod.mk.injEq, List.mem_filterMap, ne_eq, reduceCtorEq, not_false_eq_true,
      implies_true, true_and, false_and, exists_false, or_false, exists_exists_and_eq_and]
    constructor
    · rintro ⟨field, member, ⟨_, written, rfl, rfl⟩ | inner⟩
      · exact .inl ⟨⟨field, member, written⟩, rfl⟩
      · exact .inr ⟨field, member, inner⟩
    · rintro (⟨⟨field, member, written⟩, rfl⟩ | ⟨field, member, inner⟩)
      · exact ⟨field, member, .inl ⟨type, written, rfl, rfl⟩⟩
      · exact ⟨field, member, .inr inner⟩
  | ascribe value other => simp [Expr.annotations, Expr.children]
  | aliases defs body => simp [Expr.annotations]
  | _ => simp [Expr.annotations]

/-- Every way leads to occurrences of the annotations at its end. -/
theorem Leads.occurrences (ordered : code.ChildrenFirst) {id : ExprId}
    (leads : code.Leads root groups id) :
    ∃ fuel, id ≤ fuel ∧
      code.occurrences (fuel + 1) groups id ⊆ code.occurrences (root + 1) [] root := by
  induction leads with
  | root => exact ⟨root, Nat.le_refl root, List.Subset.refl _⟩
  | child _ plain member ih =>
    obtain ⟨fuel, enough, subset⟩ := ih
    -- A part comes before the whole, so that there is enough left to walk over it.
    have less := Nat.lt_of_lt_of_le (ordered.expr_lt member) enough
    obtain ⟨rest, rfl⟩ := Nat.exists_eq_succ_of_ne_zero (Nat.ne_zero_of_lt less)
    refine ⟨rest, Nat.le_of_lt_succ less, fun _ inside => subset ?_⟩
    exact mem_occurrences_succ.mpr (.inr (.inl ⟨plain, _, member, inside⟩))
  | @inside groups id body defs _ found ih =>
    obtain ⟨fuel, enough, subset⟩ := ih
    have member : body ∈ (code.expr id).children := by
      rw [found]
      exact List.mem_singleton_self body
    have less := Nat.lt_of_lt_of_le (ordered.expr_lt member) enough
    obtain ⟨rest, rfl⟩ := Nat.exists_eq_succ_of_ne_zero (Nat.ne_zero_of_lt less)
    refine ⟨rest, Nat.le_of_lt_succ less, fun _ inside => subset ?_⟩
    exact mem_occurrences_succ.mpr (.inr (.inr ⟨defs, body, found, inside⟩))

/-- Every occurrence is at the end of a way. -/
theorem leads_of_mem_occurrences {fuel : Nat} {id : ExprId} (above : code.Leads root groups id)
    (member : (type, last) ∈ code.occurrences fuel groups id) :
    ∃ id, code.Leads root last id ∧ type ∈ (code.expr id).annotations := by
  induction fuel generalizing groups id with
  | zero => cases member
  | succ fuel ih =>
    rcases mem_occurrences_succ.mp member with ⟨here, rfl⟩ | ⟨plain, child, part, inner⟩ |
      ⟨defs, body, found, inner⟩
    · -- The annotation is written here, or in a part, or in the body of a group.
      exact ⟨id, above, here⟩
    · exact ih (above.child plain part) inner
    · exact ih (above.inside found) inner

/-- The occurrences of annotations are those at the ends of ways. -/
theorem mem_occurrences (ordered : code.ChildrenFirst) :
    (type, last) ∈ code.occurrences (root + 1) [] root ↔
      ∃ id, code.Leads root last id ∧ type ∈ (code.expr id).annotations := by
  refine ⟨leads_of_mem_occurrences .root, fun ⟨id, leads, annotated⟩ => ?_⟩
  obtain ⟨_, -, subset⟩ := leads.occurrences ordered
  exact subset (mem_occurrences_succ.mpr (.inl ⟨annotated, rfl⟩))

end Code

/-- The last of some occurrences is one of them. -/
theorem lastGroups_mem {occurrences : List (TypeExprId × Groups)} {type : TypeExprId}
    {last : Groups} (found : lastGroups occurrences type = some last) :
    (type, last) ∈ occurrences := by
  obtain ⟨first, rest, split, -⟩ := List.lookup_eq_some_iff.mp found
  rw [← List.mem_reverse, split]
  exact List.mem_append_right _ List.mem_cons_self

/-- An annotation that occurs has a last occurrence. -/
theorem lastGroups_of_mem {occurrences : List (TypeExprId × Groups)} {type : TypeExprId}
    {groups : Groups} (member : (type, groups) ∈ occurrences) :
    ∃ last, lastGroups occurrences type = some last := by
  refine Option.isSome_iff_exists.mp (List.lookup_isSome_iff.mpr ?_)
  exact ⟨(type, groups), List.mem_reverse.mpr member, beq_self_eq_true type⟩

/--
The type that an annotation is checked against is what resolving it gives in the groups on the way to
the last place where the annotation is met. So wherever all ways to an annotation enter the same
groups, it has the type that is meant there.
-/
theorem annotation_resolved_last {names : NameTable} {code : Code} (ordered : code.ChildrenFirst)
    {root : ExprId} {annotations : Annotations}
    (resolved : Annotations.ofRoot names code root = .ok annotations) {groups : Groups} {id : ExprId}
    {type : TypeExprId} (leads : code.Leads root groups id)
    (annotated : type ∈ (code.expr id).annotations) :
    (∃ last, lastGroups (code.occurrences (root + 1) [] root) type = some last ∧
      annotations.ResolvedIn names code last type) ∧
    ((∀ others other, code.Leads root others other → type ∈ (code.expr other).annotations →
      others = groups) → annotations.ResolvedIn names code groups type) := by
  have walked : Annotations.Walked names code {} [] (code.occurrences (root + 1) [] root) {}
      annotations := Annotations.visit_walked .refl resolved
  obtain ⟨last, found⟩ := lastGroups_of_mem ((Code.mem_occurrences ordered).mpr ⟨id, leads, annotated⟩)
  have noted := (walked.noted type last found).resolvedIn ordered
  refine ⟨⟨last, found, noted⟩, fun same => ?_⟩
  obtain ⟨other, path, meets⟩ := (Code.mem_occurrences ordered).mp (lastGroups_mem found)
  rwa [same last other path meets] at noted

/-- The program `typealias A = Num in [1 : A, typealias A = Str in "" : A]`, with `A` written once. -/
def annotationShared : Code where
  exprs := #[.int 1, .ascribe 0 0, .str 0, .ascribe 2 0, .aliases [⟨1, 2⟩] 3, .list [1, 4],
    .aliases [⟨1, 1⟩] 5]
  types := #[.aliasRef 1, .num, .str]

theorem annotationShared_ordered : annotationShared.ChildrenFirst :=
  ⟨by decide, by decide, by decide⟩

/-- The annotation that is written once is met in the inner group last, and means what it does there. -/
theorem annotation_resolved_last_annotationShared :
    ∃ annotations, Annotations.ofRoot {} annotationShared 6 = .ok annotations ∧
      annotations.ResolvedIn {} annotationShared [[⟨1, 2⟩], [⟨1, 1⟩]] 0 := by
  have leads : annotationShared.Leads 6 [[⟨1, 1⟩]] 1 :=
    (Code.Leads.root.inside rfl).child nofun List.mem_cons_self
  obtain ⟨⟨last, found, noted⟩, -⟩ :=
    annotation_resolved_last annotationShared_ordered rfl leads List.mem_cons_self
  obtain rfl : [[⟨1, 2⟩], [⟨1, 1⟩]] = last := Option.some.inj found
  exact ⟨_, rfl, noted⟩

/-- Where it is met first, the same annotation has a type that it does not have in the groups there. -/
theorem annotation_outer_lost :
    ∃ annotations, Annotations.ofRoot {} annotationShared 6 = .ok annotations ∧
      annotationShared.Leads 6 [[⟨1, 1⟩]] 1 ∧ 0 ∈ (annotationShared.expr 1).annotations ∧
      ¬ annotations.ResolvedIn {} annotationShared [[⟨1, 1⟩]] 0 := by
  refine ⟨_, rfl, (Code.Leads.root.inside rfl).child nofun List.mem_cons_self, List.mem_cons_self,
    fun ⟨id, known, _, each⟩ => ?_⟩
  -- A resolver that has entered the outer group resolves the annotation to numbers.
  have reached : Resolver.Reaches {} annotationShared {} ⟨_, _, [[⟨1, 1⟩]]⟩ :=
    .tail .refl (.enter rfl)
  obtain ⟨other, later, resolved, same⟩ := each _ reached rfl
  obtain rfl := Option.some.inj known
  -- The type that is kept for the annotation is that of texts, which unfolds otherwise.
  cases resolved
  exact nomatch same 1

end LazyConfig
