import LazyConfig.Proofs.Types.Cycle
import LazyConfig.Proofs.Types.Sound
import LazyConfig.Types.Resolve

/-!
What resolving types does to a graph. Old nodes stay, new ones settle, and an alias settles wherever
the definition that it is merely a name for does.
-/

namespace LazyConfig

namespace TypeGraph

variable {graph : TypeGraph} {goal : TypeId → Prop}

/-- The node that was added last. -/
theorem node_push_self (graph : TypeGraph) (node : TypeNode) :
    (graph.push node).2.node (graph.push node).1 = node := by
  simp [push, TypeGraph.node]

/-- Adding a node leaves the others as they are. -/
theorem push_extends (graph : TypeGraph) (node : TypeNode) :
    graph.Extends (graph.push node).2 := by
  refine ⟨by simp [push, size], fun id inside => ?_⟩
  have other : id ≠ graph.nodes.size := Nat.ne_of_lt inside
  simp [push, TypeGraph.node, Array.getElem?_push, other]

/-- A node that was added is there. -/
theorem push_inside (graph : TypeGraph) (node : TypeNode) :
    (graph.push node).1 < (graph.push node).2.size := by
  simp [push, size]

/-- A graph stays sound when a node that settles is added. -/
theorem SoundUpTo.push (sound : graph.SoundUpTo goal) {node : TypeNode}
    (settles : (graph.push node).2.Settles goal (graph.push node).1) :
    (graph.push node).2.SoundUpTo goal := by
  refine sound.extend (graph.push_extends node).refines fun id old inside => ?_
  -- Only the new node comes after the old ones.
  have same : id = (graph.push node).1 := by
    simp only [TypeGraph.push, size, Array.size_push] at old inside ⊢
    omega
  rwa [same]

/-- Filling an empty slot leaves the other nodes as they are. -/
theorem define_node {slot target : TypeId} {name : Name}
    (empty : graph.node slot = .aliasSlot name none) (inside : slot < graph.size) (id : TypeId) :
    (graph.define slot target).node id =
      if id = slot then .aliasSlot name (some target) else graph.node id := by
  simp only [define, empty]
  by_cases same : id = slot
  · subst same
    have bound : id < graph.nodes.size := inside
    simp [TypeGraph.node, bound]
  · have other : slot ≠ id := fun equal => same equal.symm
    simp [TypeGraph.node, other, same]

/-- Filling an empty slot is a refinement. -/
theorem define_refines {slot target : TypeId} {name : Name}
    (empty : graph.node slot = .aliasSlot name none) (inside : slot < graph.size) :
    graph.Refines (graph.define slot target) := by
  refine ⟨by simp [define, empty, size], fun id _ => ?_⟩
  rw [define_node empty inside]
  split
  · rename_i same
    exact .inr ⟨name, target, same ▸ empty, rfl⟩
  · exact .inl rfl

end TypeGraph

namespace Resolution

open TypeGraph

/-- Two steps that succeed one after the other. -/
theorem bind_ok {α β : Type} {step : Resolution α} {next : α → Resolution β}
    {graph later : TypeGraph} {result : β} (ran : (step >>= next) graph = (.ok result, later)) :
    ∃ value middle, step graph = (.ok value, middle) ∧ next value middle = (.ok result, later) := by
  have unfolded : (step >>= next) graph =
      ExceptT.bindCont next (step graph).1 (step graph).2 := rfl
  rw [unfolded] at ran
  cases outcome : (step graph).1 with
  | ok value =>
    rw [outcome] at ran
    exact ⟨value, (step graph).2, Prod.ext outcome rfl, ran⟩
  | error fault =>
    rw [outcome] at ran
    cases ran

/-- The aliases in scope are there. -/
def InScope (graph : TypeGraph) (scope : Scope) : Prop :=
  ∀ name slot, scope.lookup name = some slot → slot < graph.size

/-- The slot that a type expression is merely a name for. -/
def Names (code : Code) (scope : Scope) (fuel : Nat) (type : TypeExprId) (slot : TypeId) : Prop :=
  ∃ name, code.unguardedAlias fuel type = some name ∧ scope.lookup name = some slot

/-- A step that adds nodes that settle, and gives one that settles up to other goals. -/
structure Adds (goal named : TypeId → Prop) (before after : TypeGraph) (result : TypeId) : Prop where
  extended : before.Extends after
  sound : after.SoundUpTo goal
  settles : after.Settles named result

/-- Adding a node that says what a value must be. -/
theorem adds_push {graph later : TypeGraph} {goal named : TypeId → Prop} {node : TypeNode}
    {result : TypeId} (sound : graph.SoundUpTo goal) (plain : node.isShape = true)
    (ran : push node graph = (.ok result, later)) : Adds goal named graph later result := by
  obtain ⟨rfl, rfl⟩ : (graph.push node).1 = result ∧ (graph.push node).2 = later := by
    cases ran
    exact ⟨rfl, rfl⟩
  have shape {goal : TypeId → Prop} : (graph.push node).2.Settles goal (graph.push node).1 :=
    .shape (graph.push_inside node) (by rwa [node_push_self])
  exact ⟨graph.push_extends node, sound.push shape, shape⟩

/-- A step that only reports a fault does not succeed. -/
theorem throw_not_ok {α : Type} {fault : TypeFault} {graph later : TypeGraph} {result : α}
    (ran : (throw fault : Resolution α) graph = (.ok result, later)) : False := by
  cases ran

/-- A step after another adds what both add. -/
theorem Adds.after {goal first named : TypeId → Prop} {before middle after : TypeGraph}
    {part result : TypeId} (adds : Adds goal first before middle part)
    (others : Adds goal named middle after result) : Adds goal named before after result :=
  ⟨adds.extended.trans others.extended, others.sound, others.settles⟩

/-- Aliases stay in scope. -/
theorem InScope.refine {before after : TypeGraph} {scope : Scope} (inside : InScope before scope)
    (refined : before.Refines after) : InScope after scope :=
  fun name slot found => Nat.lt_of_lt_of_le (inside name slot found) refined.size

/-- A step taken for each part in turn adds what it adds for each of them. -/
theorem mapM_extends {α β : Type} {scope : Scope} {goal : TypeId → Prop} {step : α → Resolution β}
    (each : ∀ part graph later result, graph.SoundUpTo goal → InScope graph scope →
      step part graph = (.ok result, later) → graph.Extends later ∧ later.SoundUpTo goal)
    {parts : List α} {results : List β} {graph later : TypeGraph} (sound : graph.SoundUpTo goal)
    (inside : InScope graph scope) (ran : parts.mapM step graph = (.ok results, later)) :
    graph.Extends later ∧ later.SoundUpTo goal := by
  -- By induction on the parts, each of which is taken in the graph that the parts before it have
  -- left.
  induction parts generalizing graph results with
  | nil =>
    rw [List.mapM_nil] at ran
    cases ran
    exact ⟨.refl _, sound⟩
  | cons part rest ih =>
    rw [List.mapM_cons] at ran
    obtain ⟨first, middle, taken, others⟩ := bind_ok ran
    obtain ⟨last, next, more, final⟩ := bind_ok others
    obtain ⟨extended, kept⟩ := each part graph middle first sound inside taken
    cases final
    obtain ⟨further, stays⟩ := ih kept (inside.refine extended.refines) more
    exact ⟨extended.trans further, stays⟩

/-- Resolving a type expression adds nodes that settle. -/
theorem resolveAt_adds {names : NameTable} {code : Code} {scope : Scope} {goal : TypeId → Prop}
    {fuel : Nat} {vars : List Name} {type : TypeExprId} {graph later : TypeGraph} {result : TypeId}
    (sound : graph.SoundUpTo goal) (inside : InScope graph scope)
    (ran : resolveAt names code scope fuel vars type graph = (.ok result, later)) :
    Adds goal (Names code scope fuel type) graph later result := by
  induction fuel generalizing vars type graph later result with
  | zero => exact (throw_not_ok ran).elim
  | succ fuel ih =>
    rw [resolveAt] at ran
    cases found : code.type type with
    | num | str | bool | dyn =>
      rw [found] at ran
      exact adds_push sound rfl ran
    -- The part comes first, so that the new node is a form over nodes that are there.
    | list elem | dict elem =>
      rw [found] at ran
      obtain ⟨part, middle, first, rest⟩ := bind_ok ran
      have adds := ih sound inside first
      exact adds.after (adds_push adds.sound rfl rest)
    -- Fields are resolved in order, and then the record is added.
    | record fields =>
      rw [found] at ran
      obtain ⟨parts, middle, first, rest⟩ := bind_ok ran
      obtain ⟨extended, kept⟩ := mapM_extends (fun field graph later result sound inside taken => by
        obtain ⟨part, middle, first, rest⟩ := bind_ok taken
        have adds := ih sound inside first
        cases rest
        exact ⟨adds.extended, adds.sound⟩) sound inside first
      have adds := @adds_push _ _ goal (Names code scope (fuel + 1) type) _ _ kept rfl rest
      exact ⟨extended.trans adds.extended, adds.sound, adds.settles⟩
    | fn param output =>
      rw [found] at ran
      obtain ⟨part, middle, first, rest⟩ := bind_ok ran
      have adds := ih sound inside first
      obtain ⟨other, next, second, last⟩ := bind_ok rest
      have others := ih adds.sound (inside.refine adds.extended.refines) second
      exact adds.after (others.after (adds_push others.sound rfl last))
    | forAll var body =>
      rw [found] at ran
      obtain ⟨part, middle, first, rest⟩ := bind_ok ran
      have adds := ih sound inside first
      obtain ⟨rfl, rfl⟩ : (middle.push (.forAll var part)).1 = result ∧
          (middle.push (.forAll var part)).2 = later := by
        cases rest
        exact ⟨rfl, rfl⟩
      have extended := middle.push_extends (.forAll var part)
      have linked : (middle.push (.forAll var part)).2.link? (middle.push (.forAll var part)).1 =
          some part := by
        rw [link?, node_push_self]
      -- The new node settles where its body does.
      refine ⟨adds.extended.trans extended, adds.sound.push (.link linked ?_), .link linked ?_⟩
      · exact (adds.sound part adds.settles.inside).refine extended.refines
      · refine (adds.settles.refine extended.refines).weaken ?_
        rintro slot ⟨name, merely, known⟩
        exact ⟨name, by rw [Code.unguardedAlias, found]; exact merely, known⟩
    | var name =>
      rw [found] at ran
      by_cases bound : vars.contains name = true
      · simp only [if_pos bound] at ran
        exact adds_push sound rfl ran
      · simp only [if_neg bound] at ran
        exact (throw_not_ok ran).elim
    | aliasRef name =>
      rw [found] at ran
      cases known : scope.lookup name with
      -- Nothing is added for a name in scope: it settles up to the slot that it stands for.
      | some slot =>
        simp only [known] at ran
        cases ran
        refine ⟨.refl _, sound, .goal (inside name _ known) ⟨name, ?_, known⟩⟩
        rw [Code.unguardedAlias, found]
      | none =>
        simp only [known] at ran
        exact (throw_not_ok ran).elim

end Resolution

end LazyConfig
