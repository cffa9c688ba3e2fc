import LazyConfig.Types.Graph
import Mathlib.Data.Finset.Card
import Mathlib.Dynamics.PeriodicPts.Defs
import Mathlib.Logic.Relation

/-!
Following aliases in any graph. A chain of filled slots that comes to an end does so before it has passed more nodes
than there are, so that following it finds its end; a chain without an end is left at one of its slots.
-/

namespace LazyConfig.TypeGraph

/-- All links of a graph lead to nodes that are there. -/
def Closed (graph : TypeGraph) : Prop :=
  ∀ id < graph.size, ∀ link ∈ (graph.node id).links, link < graph.size

instance (graph : TypeGraph) : Decidable graph.Closed :=
  inferInstanceAs (Decidable (∀ id < graph.size, ∀ link ∈ (graph.node id).links, link < graph.size))

/-- What a filled alias slot stands for. -/
def target? (graph : TypeGraph) (id : TypeId) : Option TypeId :=
  match graph.node id with
  | .aliasSlot _ target => target
  | _ => none

/-- The filled slots and the last node that a type is a name for, one after the other. -/
abbrev Chain (graph : TypeGraph) : TypeId → TypeId → Prop :=
  Relation.ReflTransGen fun id next => graph.target? id = some next

/-- The next node of a chain; what is no filled slot stays. -/
def opened (graph : TypeGraph) (id : TypeId) : TypeId :=
  (graph.target? id).getD id

variable {graph : TypeGraph} {id last : TypeId}

/-- A filled slot is opened to its definition. -/
theorem opened_of_target {next : TypeId} (filled : graph.target? id = some next) : graph.opened id = next := by
  rw [opened, filled, Option.getD_some]

/-- What is no filled slot stays where it is opened. -/
theorem opened_of_end (ends : graph.target? id = none) : graph.opened id = id := by
  rw [opened, ends, Option.getD_none]

/-- Following some steps is opening as many times. -/
theorem followSteps_eq_iterate (graph : TypeGraph) (steps : Nat) (id : TypeId) :
    graph.followSteps steps id = graph.opened^[steps] id := by
  induction steps generalizing id with
  | zero => rfl
  | succ steps ih =>
    rw [followSteps, Function.iterate_succ_apply]
    split
    · rename_i name target found
      rw [opened_of_target (by rw [target?, found]), ih]
    · -- The walk stops here, and opening the node again changes nothing.
      rename_i other
      have ends : graph.target? id = none := by
        rw [target?]
        split
        · rename_i name target found
          exact Option.eq_none_iff_forall_ne_some.mpr fun next same => other name next (same ▸ found)
        · rfl
      rw [opened_of_end ends, Function.iterate_fixed (opened_of_end ends)]

/-- Every node of a chain comes after some number of openings. -/
theorem Chain.exists_iterate (chain : graph.Chain id last) : ∃ steps, graph.opened^[steps] id = last := by
  induction chain with
  | refl => exact ⟨0, rfl⟩
  | tail _ filled ih =>
    obtain ⟨steps, rfl⟩ := ih
    exact ⟨steps + 1, (Function.iterate_succ_apply' ..).trans (opened_of_target filled)⟩

/-- However often a type is opened, it comes to a node of its chain. -/
theorem chain_iterate (graph : TypeGraph) (id : TypeId) (steps : Nat) : graph.Chain id (graph.opened^[steps] id) := by
  induction steps with
  | zero => exact .refl
  | succ steps ih =>
    rw [Function.iterate_succ_apply']
    cases filled : graph.target? (graph.opened^[steps] id) with
    | none => rwa [opened_of_end filled]
    | some next => exact opened_of_target filled ▸ ih.tail filled

namespace Closed

/-- A chain does not leave a closed graph. -/
theorem chain (closed : graph.Closed) (inside : id < graph.size) (chain : graph.Chain id last) : last < graph.size := by
  induction chain with
  | refl => exact inside
  | @tail middle next _ filled ih =>
    refine closed middle ih next ?_
    rw [target?] at filled
    split at filled
    · rename_i name target found
      rw [found, TypeNode.links, filled]
      exact List.mem_singleton_self next
    · cases filled

/-- Opening a type more often than there are nodes comes to some node twice. -/
theorem exists_again (closed : graph.Closed) (inside : id < graph.size) :
    ∃ first ≤ graph.size, ∃ period > 0, Function.IsPeriodicPt graph.opened period (graph.opened^[first] id) := by
  have maps : Set.MapsTo (fun steps => graph.opened^[steps] id) (Finset.range (graph.size + 1))
      (Finset.range graph.size) := fun steps _ =>
    Finset.mem_coe.mpr (Finset.mem_range.mpr (closed.chain inside (graph.chain_iterate id steps)))
  have fewer : (Finset.range graph.size).card < (Finset.range (graph.size + 1)).card := by simp
  obtain ⟨left, among, right, also, differ, same⟩ := Finset.exists_ne_map_eq_of_card_lt_of_maps_to fewer maps
  have bounds := And.intro (Finset.mem_range.mp among) (Finset.mem_range.mp also)
  -- Whichever of the two comes first, the other one is a period later.
  rcases Nat.lt_or_gt_of_ne differ with less | less
  · refine ⟨left, by omega, right - left, by omega, ?_⟩
    rw [Function.IsPeriodicPt, Function.IsFixedPt, ← Function.iterate_add_apply, Nat.sub_add_cancel less.le]
    exact same.symm
  · refine ⟨right, by omega, left - right, by omega, ?_⟩
    rw [Function.IsPeriodicPt, Function.IsFixedPt, ← Function.iterate_add_apply, Nat.sub_add_cancel less.le]
    exact same

/-- A chain that ends has come to its end after as many steps as there are nodes, and any more change nothing. -/
theorem followSteps_eq (closed : graph.Closed) (inside : id < graph.size) (chain : graph.Chain id last)
    (ends : graph.target? last = none) {steps : Nat} (enough : graph.size ≤ steps) :
    graph.followSteps steps id = last := by
  obtain ⟨count, counted⟩ := chain.exists_iterate
  have stays (more : Nat) : graph.opened^[more] last = last := Function.iterate_fixed (opened_of_end ends) more
  obtain ⟨first, early, period, positive, again⟩ := closed.exists_again inside
  -- The node that comes again is the end: it comes again when the chain has ended.
  have behind : count ≤ period * count + first := by
    have more := Nat.le_mul_of_pos_left count positive
    omega
  have ended : graph.opened^[first] id = last := by
    calc
      graph.opened^[first] id = graph.opened^[period * count] (graph.opened^[first] id) := (again.mul_const count).symm
      _ = graph.opened^[period * count + first] id := (Function.iterate_add_apply ..).symm
      _ = graph.opened^[period * count + first - count] (graph.opened^[count] id) := by
        rw [← Function.iterate_add_apply, Nat.sub_add_cancel behind]
      _ = last := by rw [counted, stays]
  rw [followSteps_eq_iterate, ← Nat.sub_add_cancel (Nat.le_trans early enough), Function.iterate_add_apply, ended, stays]

end Closed

/--
In a graph whose links stay inside, whatever their directions, following a type stays inside too. If the chain of
filled slots comes to a node that is none, then that node is found: as many steps as there are nodes lead there, no
more steps lead on, and following again changes nothing. If it never does, some slot of the chain is found.
-/
theorem follow_finds_end (closed : graph.Closed) (inside : id < graph.size) :
    (∀ last, graph.Chain id last → last < graph.size) ∧
    (∀ last, graph.Chain id last → graph.target? last = none →
      graph.follow id = last ∧ graph.follow (graph.follow id) = graph.follow id ∧
        ∀ steps, graph.size ≤ steps → graph.followSteps steps id = last) ∧
    ((∀ last, graph.Chain id last → (graph.target? last).isSome = true) →
      graph.Chain id (graph.follow id) ∧ (graph.target? (graph.follow id)).isSome = true) := by
  have followed : graph.Chain id (graph.follow id) := by
    rw [follow, followSteps_eq_iterate]
    exact graph.chain_iterate id (graph.size + 1)
  refine ⟨fun last => closed.chain inside, fun last chain ends => ?_, fun endless => ⟨followed, endless _ followed⟩⟩
  have found : graph.follow id = last := closed.followSteps_eq inside chain ends (Nat.le_succ _)
  refine ⟨found, ?_, fun steps enough => closed.followSteps_eq inside chain ends enough⟩
  rw [found]
  exact closed.followSteps_eq (closed.chain inside chain) .refl ends (Nat.le_succ _)

/-- A chain of slots through all of a graph, in no order, and two slots that stand for each other. -/
def crossedSlots : TypeGraph :=
  ⟨#[.aliasSlot 0 (some 2), .num, .aliasSlot 0 (some 3), .aliasSlot 0 (some 1), .aliasSlot 0 (some 5),
    .aliasSlot 0 (some 4)]⟩

/-- The end of a chain is found from its first slot, and one of two slots from the other. -/
theorem follow_finds_end_crossedSlots :
    crossedSlots.follow 0 = 1 ∧ crossedSlots.follow (crossedSlots.follow 0) = 1 ∧
      crossedSlots.Chain 4 (crossedSlots.follow 4) ∧ (crossedSlots.target? (crossedSlots.follow 4)).isSome = true := by
  have closed : crossedSlots.Closed := by decide
  have front : crossedSlots.Chain 0 3 := (Relation.ReflTransGen.single rfl : crossedSlots.Chain 0 2).tail rfl
  have whole : crossedSlots.Chain 0 1 := front.tail rfl
  obtain ⟨-, finds, -⟩ := follow_finds_end closed (by decide : 0 < crossedSlots.size)
  obtain ⟨found, again, -⟩ := finds 1 whole rfl
  -- The chain from the fifth node goes round between it and the sixth.
  have round {last : TypeId} (chain : crossedSlots.Chain 4 last) : last = 4 ∨ last = 5 := by
    induction chain with
    | refl => exact .inl rfl
    | tail _ filled ih =>
      rcases ih with rfl | rfl
      · exact .inr (Option.some.inj filled).symm
      · exact .inl (Option.some.inj filled).symm
  obtain ⟨-, -, endless⟩ := follow_finds_end closed (by decide : 4 < crossedSlots.size)
  have slots := endless fun last chain => by rcases round chain with rfl | rfl <;> rfl
  exact ⟨found, again.trans found, slots⟩

end LazyConfig.TypeGraph
