import LazyConfig.Proofs.Types.Groups
import LazyConfig.Types.Annotations

/-!
What resolving all annotations of a program leaves behind: a sound graph, and a type for every
annotation that evaluation can come across.
-/

namespace LazyConfig.Annotations

open TypeGraph Resolution

/-- Every annotation in an expression has a type; the expression is not nested deeper than `fuel`. -/
def Covers (annotations : Annotations) (code : Code) : Nat → ExprId → Prop
  | 0, _ => False
  | fuel + 1, id =>
    match code.expr id with
    | .record fields => ∀ field ∈ fields,
      (∀ type, field.type = some type → (annotations.get? type).isSome = true) ∧
        Covers annotations code fuel field.value
    | .ascribe value type =>
      (annotations.get? type).isSome = true ∧ Covers annotations code fuel value
    | .aliases _ body => Covers annotations code fuel body
    | node => ∀ child ∈ node.children, Covers annotations code fuel child

/-- Later annotations, over more nodes and with types for at least the same type expressions. -/
structure Grown (before after : Annotations) : Prop where
  extended : before.graph.Extends after.graph
  sound : before.graph.Sound → after.graph.Sound
  keeps : ∀ type, (before.get? type).isSome = true → (after.get? type).isSome = true

namespace Grown

variable {before middle after : Annotations}

theorem refl (annotations : Annotations) : Grown annotations annotations :=
  ⟨.refl _, id, fun _ => id⟩

theorem trans (left : Grown before middle) (right : Grown middle after) : Grown before after :=
  ⟨left.extended.trans right.extended, right.sound ∘ left.sound,
    fun type => right.keeps type ∘ left.keeps type⟩

/-- A graph that grows by itself, with the same types for all type expressions. -/
theorem of_graph (extended : before.graph.Extends after.graph)
    (sound : before.graph.Sound → after.graph.Sound) (same : after.types = before.types) :
    Grown before after :=
  ⟨extended, sound, fun type known => by rwa [get?, same]⟩

end Grown

variable {annotations before after : Annotations} {names : NameTable} {code : Code} {scope : Scope}

/-! What has been done when a step has succeeded. -/

/-- Steps that succeed one after the other. -/
theorem steps_ok {α β : Type} {first : Except TypeFault α} {next : α → Except TypeFault β} {result : β}
    (ran : first >>= next = .ok result) : ∃ value, first = .ok value ∧ next value = .ok result := by
  cases first with
  | error fault => cases ran
  | ok value => exact ⟨value, rfl, ran⟩

/-- A step on the graph of annotations leaves their types as they are. -/
theorem perform_ok {α : Type} {step : Resolution α} {result : α}
    (ran : before.perform step = .ok (result, after)) :
    step before.graph = (.ok result, after.graph) ∧ after.types = before.types := by
  obtain ⟨graph, types⟩ := before
  simp only [perform] at ran
  split at ran
  · rename_i outcome
    cases ran
    exact ⟨outcome, rfl⟩
  · cases ran

/-- What an annotation has been resolved to is noted. -/
theorem annotate_steps {type : TypeExprId} (ran : annotate names code scope type before = .ok after) :
    ∃ (resolved : TypeId) (middle : Annotations),
      resolve names code scope type before.graph = (.ok resolved, middle.graph) ∧
      middle.types = before.types ∧ after = middle.insert type resolved := by
  obtain ⟨⟨resolved, middle⟩, performed, noted⟩ := steps_ok ran
  obtain ⟨outcome, same⟩ := perform_ok performed
  cases noted
  exact ⟨resolved, middle, outcome, same, rfl⟩

/-- The annotation of a value is resolved before those inside the value. -/
theorem visit_ascribe {fuel : Nat} {id value : ExprId} {type : TypeExprId}
    (found : code.expr id = .ascribe value type)
    (ran : visit names code (fuel + 1) scope id before = .ok after) :
    ∃ middle, annotate names code scope type before = .ok middle ∧
      visit names code fuel scope value middle = .ok after := by
  rw [visit] at ran
  simp only [found] at ran
  exact steps_ok ran

/-- The aliases of a group are defined, and its body is visited in their scope. -/
theorem visit_aliases {fuel : Nat} {id body : ExprId} {defs : List AliasDef}
    (found : code.expr id = .aliases defs body)
    (ran : visit names code (fuel + 1) scope id before = .ok after) :
    ∃ (inner : Scope) (middle : Annotations),
      defineAliases names code scope defs before.graph = (.ok inner, middle.graph) ∧
        middle.types = before.types ∧ visit names code fuel inner body middle = .ok after := by
  rw [visit] at ran
  simp only [found] at ran
  obtain ⟨⟨inner, middle⟩, performed, visited⟩ := steps_ok ran
  obtain ⟨outcome, same⟩ := perform_ok performed
  exact ⟨inner, middle, outcome, same, visited⟩

/-! Covered expressions. -/

/-- An expression is covered as soon as its parts and its own annotations are. -/
theorem Covers.imp {fuel more : Nat} {id : ExprId}
    (types : ∀ type, (before.get? type).isSome = true → (after.get? type).isSome = true)
    (parts : ∀ id, before.Covers code fuel id → after.Covers code more id)
    (covers : before.Covers code (fuel + 1) id) : after.Covers code (more + 1) id := by
  rw [Covers] at covers ⊢
  split
  · rename_i fields found
    simp only [found] at covers
    intro field member
    obtain ⟨typed, inner⟩ := covers field member
    exact ⟨fun type same => types type (typed type same), parts _ inner⟩
  · rename_i value type found
    simp only [found] at covers
    exact ⟨types type covers.1, parts _ covers.2⟩
  · rename_i body found
    simp only [found] at covers
    exact parts _ covers
  · -- Any other expression has no annotations of its own.
    rename_i node notRecord notAscribe notAliases
    split at covers
    · exact (notRecord _ ‹_›).elim
    · exact (notAscribe _ _ ‹_›).elim
    · exact (notAliases _ _ ‹_›).elim
    · exact fun child member => parts _ (covers child member)

/-- An expression that is covered stays so when annotations are added. -/
theorem Covers.grow (grown : Grown before after) {fuel : Nat} {id : ExprId}
    (covers : before.Covers code fuel id) : after.Covers code fuel id := by
  induction fuel generalizing id with
  | zero => exact covers
  | succ fuel ih => exact covers.imp grown.keeps fun _ => ih

/-- An expression that is covered is so with more room for nesting. -/
theorem Covers.mono {fuel more : Nat} (less : fuel ≤ more) {id : ExprId}
    (covers : annotations.Covers code fuel id) : annotations.Covers code more id := by
  induction fuel generalizing more id with
  | zero => exact covers.elim
  | succ fuel ih =>
    obtain ⟨rest, rfl⟩ : ∃ rest, more = rest + 1 := ⟨more - 1, by omega⟩
    exact covers.imp (fun _ known => known) fun _ => ih (by omega)

/-- Noting a type changes what is known of that type expression only. -/
theorem get?_insert (annotations : Annotations) (type other : TypeExprId) (resolved : TypeId) :
    (annotations.insert type resolved).get? other =
      if other = type then some resolved else annotations.get? other := by
  simp only [get?, insert]
  by_cases same : other = type
  · subst same
    rw [if_pos rfl, Array.getElem?_setIfInBounds_self_of_lt]
    · rfl
    · simp only [Array.size_append, Array.size_replicate]
      omega
  · rw [if_neg same, Array.getElem?_setIfInBounds_ne (Ne.symm same), Array.getElem?_append]
    split
    · rfl
    · -- Where there was no entry, there now is an empty one or still none.
      rename_i outside
      rw [Array.getElem?_replicate, Array.getElem?_eq_none (Nat.not_lt.mp outside)]
      split <;> rfl

/-- Noting a type adds an annotation over the same graph. -/
theorem insert_grown (annotations : Annotations) (type : TypeExprId) (resolved : TypeId) :
    Grown annotations (annotations.insert type resolved) := by
  refine ⟨.refl _, id, fun other known => ?_⟩
  rw [get?_insert]
  split
  · rfl
  · exact known

/-- Resolving an annotation gives it a type. -/
theorem annotate_ok {type : TypeExprId} (sound : before.graph.Sound)
    (inside : InScope before.graph scope)
    (ran : annotate names code scope type before = .ok after) :
    Grown before after ∧ (after.get? type).isSome = true := by
  obtain ⟨resolved, middle, outcome, same, rfl⟩ := annotate_steps ran
  -- The graph grows as the type is resolved, and after that the type is noted.
  have adds := resolveAt_adds sound inside outcome
  have first : Grown before middle := .of_graph adds.extended (fun _ => adds.sound) same
  refine ⟨first.trans (insert_grown _ type resolved), ?_⟩
  rw [get?_insert, if_pos rfl]
  rfl

/-- Steps for one part after another add what each of them adds. -/
theorem foldlM_ok {α : Type} {step : Annotations → α → Except TypeFault Annotations}
    (done : α → Annotations → Prop) {parts : List α}
    (keep : ∀ part before after, Grown before after → done part before → done part after)
    (each : ∀ part ∈ parts, ∀ before after, before.graph.Sound → InScope before.graph scope →
      step before part = .ok after → Grown before after ∧ done part after)
    (sound : before.graph.Sound) (inside : InScope before.graph scope)
    (ran : parts.foldlM step before = .ok after) :
    Grown before after ∧ ∀ part ∈ parts, done part after := by
  -- By induction on the parts: what an earlier part has added is kept by the later ones.
  induction parts generalizing before with
  | nil =>
    cases ran
    exact ⟨.refl _, nofun⟩
  | cons part rest ih =>
    rw [List.foldlM_cons] at ran
    cases taken : step before part with
    | error fault =>
      rw [taken] at ran
      cases ran
    | ok middle =>
      rw [taken] at ran
      obtain ⟨grown, first⟩ := each part List.mem_cons_self before middle sound inside taken
      obtain ⟨further, others⟩ := ih (fun part member => each part (List.mem_cons_of_mem _ member))
        (grown.sound sound) (inside.refine grown.extended.refines) ran
      refine ⟨grown.trans further, fun other member => ?_⟩
      rcases List.mem_cons.mp member with rfl | member
      · exact keep _ _ _ further first
      · exact others other member

/-- Visiting an expression gives all annotations in it types, over a graph that stays sound. -/
theorem visit_ok {fuel : Nat} {id : ExprId} (sound : before.graph.Sound)
    (inside : InScope before.graph scope)
    (ran : visit names code fuel scope id before = .ok after) :
    Grown before after ∧ after.Covers code fuel id := by
  induction fuel generalizing scope id before after with
  | zero => cases ran
  | succ fuel ih =>
    rw [Covers]
    cases found : code.expr id with
    | record fields =>
      -- The annotation of a field comes before its value.
      rw [visit] at ran
      simp only [found] at ran
      refine foldlM_ok (fun field later =>
        (∀ type, field.type = some type → (later.get? type).isSome = true) ∧
          later.Covers code fuel field.value)
        (fun field before after grown done => ?_) ?_ sound inside ran
      · exact ⟨fun type same => grown.keeps type (done.1 type same), done.2.grow grown⟩
      · intro field _ before after sound inside taken
        cases typed : field.type with
        | none =>
          simp only [typed, pure_bind] at taken
          obtain ⟨grown, covers⟩ := ih sound inside taken
          exact ⟨grown, nofun, covers⟩
        | some type =>
          simp only [typed] at taken
          obtain ⟨middle, annotated, taken⟩ := steps_ok taken
          obtain ⟨first, known⟩ := annotate_ok sound inside annotated
          obtain ⟨grown, covers⟩ :=
            ih (first.sound sound) (inside.refine first.extended.refines) taken
          refine ⟨first.trans grown, fun other same => ?_, covers⟩
          cases same
          exact grown.keeps type known
    -- The type of an ascription is resolved before the value is visited.
    | ascribe value type =>
      obtain ⟨middle, annotated, visited⟩ := visit_ascribe found ran
      obtain ⟨first, known⟩ := annotate_ok sound inside annotated
      obtain ⟨grown, covers⟩ :=
        ih (first.sound sound) (inside.refine first.extended.refines) visited
      exact ⟨first.trans grown, grown.keeps type known, covers⟩
    -- Inside the group, its aliases are in scope, and the graph they are defined in is sound.
    | aliases defs body =>
      obtain ⟨inner, middle, defined, same, visited⟩ := visit_aliases found ran
      obtain ⟨extended, kept, known⟩ := defineAliases_ok sound inside defined
      obtain ⟨grown, covers⟩ := ih kept known visited
      have first : Grown before middle := .of_graph extended (fun _ => kept) same
      exact ⟨first.trans grown, covers⟩
    -- Without annotations of its own, an expression is covered with its parts.
    | _ =>
      rw [visit] at ran
      simp only [found] at ran
      exact foldlM_ok (fun child later => later.Covers code fuel child)
        (fun _ _ _ grown done => done.grow grown)
        (fun child _ before after sound inside taken => ih sound inside taken) sound inside ran

/-- A program whose annotations are resolved has a sound graph and a type for every annotation. -/
theorem ofRoot_ok {root : ExprId} (resolved : ofRoot names code root = .ok annotations) :
    annotations.graph.Sound ∧ annotations.Covers code (root + 1) root := by
  have none : TypeGraph.Sound {} := fun id inside => absurd inside (Nat.not_lt_zero id)
  have empty : InScope {} {} := by
    intro name slot known
    cases known
  obtain ⟨grown, covers⟩ := visit_ok none empty resolved
  exact ⟨grown.sound none, covers⟩

end LazyConfig.Annotations
