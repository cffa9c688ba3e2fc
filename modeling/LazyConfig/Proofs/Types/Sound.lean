import LazyConfig.Proofs.Types.Links
import Mathlib.Logic.Relation

/-!
Type graphs in which every node reads as something. While a group of aliases is defined, a node may
also read as one of the slots that are still to be filled.
-/

namespace LazyConfig.TypeGraph

/-- The links of a node end at a node that says what a value must be, or at one of some goals. -/
inductive Settles (graph : TypeGraph) (goal : TypeId → Prop) : TypeId → Prop
  | goal {id : TypeId} (inside : id < graph.size) (reached : goal id) : Settles graph goal id
  | shape {id : TypeId} (inside : id < graph.size) (plain : (graph.node id).isShape = true) :
    Settles graph goal id
  | link {id next : TypeId} (linked : graph.link? id = some next)
    (rest : Settles graph goal next) : Settles graph goal id

/-- All nodes of a graph settle. -/
def SoundUpTo (graph : TypeGraph) (goal : TypeId → Prop) : Prop :=
  ∀ id < graph.size, graph.Settles goal id

/-- A graph without loose ends. -/
abbrev Sound (graph : TypeGraph) : Prop :=
  graph.SoundUpTo fun _ => False

/-- A graph with more nodes, in which the old ones are as they were. -/
structure Extends (before after : TypeGraph) : Prop where
  size : before.size ≤ after.size
  same : ∀ id < before.size, after.node id = before.node id

/-- A graph with more nodes, in which the old ones are as they were but for slots that got filled. -/
structure Refines (before after : TypeGraph) : Prop where
  size : before.size ≤ after.size
  kept : ∀ id < before.size, after.node id = before.node id ∨
    ∃ name target, before.node id = .aliasSlot name none ∧
      after.node id = .aliasSlot name (some target)

variable {graph before after : TypeGraph} {goal : TypeId → Prop} {id : TypeId}

namespace Extends

theorem refl (graph : TypeGraph) : graph.Extends graph :=
  ⟨Nat.le_refl _, fun _ _ => rfl⟩

theorem trans {middle : TypeGraph} (left : before.Extends middle) (right : middle.Extends after) :
    before.Extends after :=
  ⟨Nat.le_trans left.size right.size, fun id inside =>
    (right.same id (Nat.lt_of_lt_of_le inside left.size)).trans (left.same id inside)⟩

/-- Nothing but new nodes is a special case of slots that got filled. -/
theorem refines (extended : before.Extends after) : before.Refines after :=
  ⟨extended.size, fun id inside => .inl (extended.same id inside)⟩

end Extends

namespace Refines

theorem refl (graph : TypeGraph) : graph.Refines graph :=
  (Extends.refl graph).refines

theorem trans {middle : TypeGraph} (left : before.Refines middle) (right : middle.Refines after) :
    before.Refines after := by
  refine ⟨Nat.le_trans left.size right.size, fun id inside => ?_⟩
  have later := right.kept id (Nat.lt_of_lt_of_le inside left.size)
  rcases left.kept id inside with same | ⟨name, target, empty, filled⟩
  · rwa [same] at later
  · -- A slot that is filled stays filled.
    rcases later with same | ⟨other, last, stillEmpty, -⟩
    · exact .inr ⟨name, target, empty, same.trans filled⟩
    · rw [filled] at stillEmpty
      cases stillEmpty

/-- Links stay. -/
theorem link {next : TypeId} (refined : before.Refines after) (linked : before.link? id = some next) :
    after.link? id = some next := by
  rcases refined.kept id (lt_size_of_link linked) with same | ⟨name, target, empty, -⟩
  · rwa [link?, same]
  · simp [link?, empty] at linked

end Refines

namespace Settles

/-- A node that settles is there. -/
theorem inside (settles : graph.Settles goal id) : id < graph.size := by
  cases settles with
  | goal inside => exact inside
  | shape inside => exact inside
  | link linked => exact lt_size_of_link linked

/-- What settles still settles after slots got filled. -/
theorem refine (refined : before.Refines after) (settles : before.Settles goal id) :
    after.Settles goal id := by
  induction settles with
  | goal inside reached => exact .goal (Nat.lt_of_lt_of_le inside refined.size) reached
  | shape inside plain =>
    refine .shape (Nat.lt_of_lt_of_le inside refined.size) ?_
    -- A node that says what a value must be is no slot.
    rcases refined.kept _ inside with same | ⟨name, target, empty, -⟩
    · rwa [same]
    · rw [empty] at plain
      cases plain
  | link linked _ ih => exact .link (refined.link linked) ih

/-- What settles up to goals that settle settles. -/
theorem bind {later : TypeId → Prop} (settles : graph.Settles goal id)
    (goals : ∀ id, goal id → graph.Settles later id) : graph.Settles later id := by
  induction settles with
  | goal _ reached => exact goals _ reached
  | shape inside plain => exact .shape inside plain
  | link linked _ ih => exact .link linked ih

/-- What settles up to some goals settles up to more. -/
theorem weaken {later : TypeId → Prop} (settles : graph.Settles goal id)
    (weaker : ∀ id, goal id → later id) : graph.Settles later id := by
  induction settles with
  | goal inside reached => exact .goal inside (weaker _ reached)
  | shape inside plain => exact .shape inside plain
  | link linked _ ih => exact .link linked ih

/-- A node that settles without goals reads as a node that says what a value must be. -/
theorem reads (settles : graph.Settles (fun _ => False) id) :
    ∃ count shape, graph.ReadsIn count id shape ∧ (graph.node shape).isShape = true := by
  induction settles with
  | goal _ reached => exact reached.elim
  | @shape id inside plain =>
    refine ⟨0, id, .shape ?_, plain⟩
    cases found : graph.node id <;> simp_all [link?, TypeNode.isShape]
  | link linked _ ih =>
    obtain ⟨count, shape, reads, plain⟩ := ih
    exact ⟨count + 1, shape, .link linked reads, plain⟩

end Settles

/-- In a graph without loose ends every type reads as something; what is not there accepts everything. -/
theorem Sound.reads (sound : graph.Sound) (id : TypeId) :
    ∃ count, graph.ReadsIn count id (graph.shape id) ∧
      (graph.node (graph.shape id)).isShape = true := by
  -- Beyond the nodes of the graph everything reads as the type that accepts all values.
  by_cases inside : id < graph.size
  · obtain ⟨count, shape, reads, plain⟩ := (sound id inside).reads
    rw [reads.shape_eq]
    exact ⟨count, reads, plain⟩
  · have absent : graph.node id = .dyn := by
      rw [node, Array.getElem?_eq_none (Nat.not_lt.mp inside)]
      rfl
    have reads : graph.ReadsIn 0 id id := .shape (by simp [link?, absent])
    refine ⟨0, ?_, ?_⟩
    · rwa [reads.shape_eq]
    · rw [reads.shape_eq, absent]
      rfl

/-- Each link brings a reading nearer to its end. -/
theorem ReadsIn.advance {count : Nat} {shape next : TypeId} (reads : graph.ReadsIn count id shape)
    (linked : graph.link? id = some next) : ∃ left < count, graph.ReadsIn left next shape := by
  cases reads with
  | shape plain => exact nomatch plain.symm.trans linked
  | @link left _ found _ other rest =>
    obtain rfl : found = next := Option.some.inj (other.symm.trans linked)
    exact ⟨left, Nat.lt_succ_self left, rest⟩

/-- In a graph without loose ends no links lead from a type back to it. -/
theorem Sound.acyclic (sound : graph.Sound) (id : TypeId) :
    ¬ Relation.TransGen (fun type next => graph.link? type = some next) id id := by
  intro circle
  obtain ⟨count, reads, -⟩ := sound.reads id
  have nearer {last : TypeId}
      (links : Relation.TransGen (fun type next => graph.link? type = some next) id last) :
      ∃ left < count, graph.ReadsIn left last (graph.shape id) := by
    induction links with
    | single linked => exact reads.advance linked
    | tail _ linked ih =>
      obtain ⟨left, less, rest⟩ := ih
      obtain ⟨fewer, lesser, others⟩ := rest.advance linked
      exact ⟨fewer, Nat.lt_trans lesser less, others⟩
  -- The type would read through fewer nodes than it does.
  obtain ⟨left, less, again⟩ := nearer circle
  exact Nat.ne_of_lt less (again.unique reads).1

/--
In a graph without loose ends aliases are followed to a node that is none, and no more steps are needed
than there are nodes.
-/
theorem Sound.follow_ends (sound : graph.Sound) (id : TypeId) :
    (∀ name target, graph.node (graph.follow id) ≠ .aliasSlot name target) ∧
      ∀ steps, graph.size ≤ steps → graph.followSteps steps id = graph.follow id := by
  obtain ⟨count, reads, plain⟩ := sound.reads id
  constructor
  · intro name target found
    obtain ⟨left, -, rest, ends⟩ := reads.followSteps (Nat.le_succ_of_le reads.count_le)
    rw [follow] at found
    cases target with
    | some target => exact ends name target found
    | none =>
      -- An empty slot would be the end of the reading, which says what a value must be.
      have last : graph.link? (graph.followSteps (graph.size + 1) id) = none := by rw [link?, found]
      have same := (rest.unique (.shape last)).2
      rw [same] at plain
      exact absurd ((congrArg TypeNode.isShape found).symm.trans plain) Bool.false_ne_true
  · intro steps enough
    -- So further steps, as many as there are, leave the place where the aliases end.
    have ends (many : Nat) (enough : graph.size ≤ many) (name : Name) (target : TypeId) :
        graph.node (graph.followSteps many id) ≠ .aliasSlot name (some target) := by
      obtain ⟨-, -, -, ends⟩ := reads.followSteps (Nat.le_trans reads.count_le enough)
      exact ends name target
    have short := followSteps_add (ends graph.size (Nat.le_refl _))
    have first := short (steps - graph.size)
    rw [Nat.add_sub_cancel' enough] at first
    exact first.trans (short 1).symm

/-- The nodes that were there keep settling in a graph with more nodes. -/
theorem SoundUpTo.extend (sound : before.SoundUpTo goal) (extended : before.Refines after)
    (new : ∀ id, before.size ≤ id → id < after.size → after.Settles goal id) :
    after.SoundUpTo goal := by
  intro id inside
  by_cases old : id < before.size
  · exact (sound id old).refine extended
  · exact new id (Nat.not_lt.mp old) inside

end LazyConfig.TypeGraph
