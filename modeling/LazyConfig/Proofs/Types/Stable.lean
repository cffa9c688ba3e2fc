import LazyConfig.Proofs.Types.Groups
import LazyConfig.Proofs.Types.Unfolding
import LazyConfig.Types.Text

/-!
What stays in a growing type graph. In a graph whose nodes come after their parts and whose links all end, types
are followed, written and opened as before when nodes are added.
-/

namespace LazyConfig

/-- The tree of a node depends on the trees of its parts only. -/
theorem TypeNode.tree_congr {node : TypeNode} {left right : TypeId → TypeTree}
    (same : ∀ part ∈ node.parts, left part = right part) : node.tree left = node.tree right := by
  cases node with
  | record fields =>
    simp only [TypeNode.tree, TypeTree.record.injEq]
    exact List.map_congr_left fun field member => by rw [same field.2 (List.mem_map_of_mem member)]
  | _ => simp_all [TypeNode.tree, TypeNode.parts]

namespace TypeGraph

/-- An alias slot that is still to be filled. -/
def EmptySlot (graph : TypeGraph) (id : TypeId) : Prop :=
  ∃ name, graph.node id = .aliasSlot name none

/-- Nodes come after their parts, and links end at a node without one, or at one of some goals. -/
structure Tidy (goal : TypeId → Prop) (graph : TypeGraph) : Prop where
  parts : ∀ id < graph.size, ∀ part ∈ (graph.node id).parts, part < id
  settles : graph.SoundUpTo goal

variable {graph before after : TypeGraph} {goal : TypeId → Prop} {id : TypeId}

/-- A type whose links end reads as something. -/
theorem Settles.readsIn (settles : graph.Settles graph.EmptySlot id) :
    ∃ count shape, graph.ReadsIn count id shape := by
  induction settles with
  | goal _ empty =>
    obtain ⟨name, found⟩ := empty
    exact ⟨0, _, .shape (by simp [link?, found])⟩
  | @shape id _ plain =>
    refine ⟨0, id, .shape ?_⟩
    cases found : graph.node id <;> simp_all [link?, TypeNode.isShape]
  | link linked _ ih =>
    obtain ⟨count, shape, reads⟩ := ih
    exact ⟨count + 1, shape, .link linked reads⟩

/-- How a type is written depends on its node and on how the parts of it are written. -/
theorem write_congr {names : NameTable} {fuel more : Nat} (same : after.node id = before.node id) (nested : Bool)
    (parts : ∀ nested, ∀ child ∈ (before.node id).parts,
      after.write names fuel nested child = before.write names more nested child) :
    after.write names (fuel + 1) nested id = before.write names (more + 1) nested id := by
  rw [write, write, same]
  cases found : before.node id with
  | record fields =>
    rw [found] at parts
    refine congrArg (fun entries => "\x7b" ++ ", ".intercalate entries ++ "\x7d") (List.map_congr_left ?_)
    rintro ⟨name, type⟩ member
    exact congrArg (names.lookup name ++ " : " ++ ·) (parts false type (List.mem_map_of_mem member))
  | list elem | dict elem | forAll var elem =>
    rw [found] at parts
    simp only [parts _ elem (List.mem_singleton_self _)]
  | fn param result =>
    rw [found] at parts
    simp only [parts true param List.mem_cons_self,
      parts false result (List.mem_cons_of_mem _ (List.mem_singleton_self _))]
  | _ => rfl

section

variable (extended : before.Extends after)

include extended

/-- Aliases are followed as before, to a node that was there. -/
theorem Settles.followSteps_extends (settles : before.Settles before.EmptySlot id) (steps : Nat) :
    after.followSteps steps id = before.followSteps steps id ∧ before.followSteps steps id < before.size := by
  induction steps generalizing id with
  | zero => exact ⟨rfl, settles.inside⟩
  | succ steps ih =>
    rw [followSteps, followSteps, extended.same id settles.inside]
    split
    · rename_i name target found
      have linked : before.link? id = some target := by simp [link?, found]
      cases settles with
      | goal _ empty =>
        obtain ⟨other, open'⟩ := empty
        cases found.symm.trans open'
      | shape _ plain => simp [found, TypeNode.isShape] at plain
      | link other rest =>
        obtain rfl : _ = _ := Option.some.inj (other.symm.trans linked)
        exact ih rest
    · exact ⟨rfl, settles.inside⟩

/-- A type is followed to the same node as before. -/
theorem Settles.follow_extends (settles : before.Settles before.EmptySlot id) :
    after.follow id = before.follow id ∧ before.follow id < before.size := by
  obtain ⟨same, -⟩ := settles.followSteps_extends extended (after.size + 1)
  obtain ⟨-, inside⟩ := settles.followSteps_extends extended (before.size + 1)
  refine ⟨?_, inside⟩
  -- The steps that there are more of now lead no further.
  obtain ⟨count, shape, reads⟩ := settles.readsIn
  obtain ⟨-, -, -, ends⟩ := reads.followSteps (Nat.le_succ_of_le reads.count_le)
  have further := followSteps_add ends (after.size - before.size)
  have size := extended.size
  rw [follow, same, follow, ← further]
  congr 1
  omega

/-- A type is opened as before, down to any depth. -/
theorem Tidy.unfold_extends (tidy : before.Tidy before.EmptySlot) (depth : Nat) (inside : id < before.size) :
    after.unfold depth id = before.unfold depth id := by
  induction depth generalizing id with
  | zero => rfl
  | succ depth ih =>
    obtain ⟨same, there⟩ := (tidy.settles id inside).follow_extends extended
    rw [unfold, unfold, same, extended.same _ there]
    exact TypeNode.tree_congr fun part member => ih (Nat.lt_trans (tidy.parts _ there part member) there)

/-- With the same levels a type is written as before. -/
theorem Tidy.write_extends (tidy : before.Tidy goal) (names : NameTable) (fuel : Nat) (nested : Bool)
    (inside : id < before.size) : after.write names fuel nested id = before.write names fuel nested id := by
  induction fuel generalizing id nested with
  | zero => rfl
  | succ fuel ih =>
    exact write_congr (extended.same id inside) nested fun nested child member =>
      ih nested (Nat.lt_trans (tidy.parts id inside child member) inside)

end

/-- Levels beyond the depth of a type do not change how it is written. -/
theorem Tidy.write_levels (tidy : graph.Tidy goal) (names : NameTable) {fuel more : Nat} (nested : Bool)
    (enough : id < fuel) (enough' : id < more) (inside : id < graph.size) :
    graph.write names fuel nested id = graph.write names more nested id := by
  induction fuel generalizing id more nested with
  | zero => exact absurd enough (Nat.not_lt_zero _)
  | succ fuel ih =>
    obtain ⟨more, rfl⟩ := Nat.exists_eq_succ_of_ne_zero (Nat.ne_zero_of_lt enough')
    -- A part has a smaller number than the type it is a part of, so one level less is enough for it.
    refine write_congr rfl nested fun nested child member => ?_
    have less := tidy.parts id inside child member
    exact ih nested (Nat.lt_of_lt_of_le less (Nat.le_of_lt_succ enough))
      (Nat.lt_of_lt_of_le less (Nat.le_of_lt_succ enough')) (Nat.lt_trans less inside)

/-- A type is written in messages as before. -/
theorem Tidy.display_extends (tidy : before.Tidy before.EmptySlot) (extended : before.Extends after)
    (names : NameTable) (inside : id < before.size) : after.display names id = before.display names id := by
  obtain ⟨same, there⟩ := (tidy.settles id inside).follow_extends extended
  rw [display, display, same, tidy.write_extends extended names _ false there]
  exact tidy.write_levels names false (Nat.lt_succ_of_lt (Nat.lt_of_lt_of_le there extended.size))
    (Nat.lt_succ_of_lt there) there

end TypeGraph

end LazyConfig
