import LazyConfig.Value.Check
import Mathlib.Data.List.Nodup
import Mathlib.Data.List.Perm.Subperm

/-! Links between types: what an alias or a generic type stands for, and that it is always found. -/

namespace LazyConfig

/-- Whether a node says what a value must be, and is no name for another one. -/
def TypeNode.isShape : TypeNode → Bool
  | aliasSlot _ _ | forAll _ _ => false
  | _ => true

namespace TypeGraph

/-- The node that a node merely stands for, if that is known. -/
def link? (graph : TypeGraph) (id : TypeId) : Option TypeId :=
  match graph.node id with
  | .aliasSlot _ target => target
  | .forAll _ body => some body
  | _ => none

/-- A type reads as the first node without a link, which comes after a number of links. -/
inductive ReadsIn (graph : TypeGraph) : Nat → TypeId → TypeId → Prop
  | shape {id : TypeId} (plain : graph.link? id = none) : ReadsIn graph 0 id id
  | link {count : Nat} {id next shape : TypeId} (linked : graph.link? id = some next)
    (rest : ReadsIn graph count next shape) : ReadsIn graph (count + 1) id shape

variable {graph : TypeGraph} {count : Nat} {id shape : TypeId}

/-- Only nodes that are there have links. -/
theorem lt_size_of_link {next : TypeId} (linked : graph.link? id = some next) :
    id < graph.size := by
  -- A node that is not there counts as one that accepts everything.
  by_contra outside
  have absent : graph.nodes[id]? = none := Array.getElem?_eq_none (Nat.not_lt.mp outside)
  simp [link?, node, absent] at linked

/-- A type reads in one way only. -/
theorem ReadsIn.unique {other : Nat} {last : TypeId} (left : graph.ReadsIn count id shape)
    (right : graph.ReadsIn other id last) : count = other ∧ shape = last := by
  -- By induction on the links: a node is either an alias with a definition or it is none.
  induction left generalizing other with
  | shape plain =>
    cases right with
    | shape => exact ⟨rfl, rfl⟩
    | link linked => simp [plain] at linked
  | link linked _ ih =>
    cases right with
    | shape plain => simp [plain] at linked
    | link found rest =>
      obtain rfl : _ = _ := Option.some.inj (linked.symm.trans found)
      obtain ⟨rfl, rfl⟩ := ih rest
      exact ⟨rfl, rfl⟩

/-- The nodes that a type reads through are all different, and all are there. -/
theorem ReadsIn.passed (reads : graph.ReadsIn count id shape) :
    ∃ passed : List TypeId, passed.length = count ∧ passed.Nodup ∧
      ∀ node ∈ passed, node < graph.size ∧ ∃ left, 0 < left ∧ left ≤ count ∧
        graph.ReadsIn left node shape := by
  induction reads with
  | shape => exact ⟨[], rfl, .nil, nofun⟩
  | @link count id next shape linked rest ih =>
    obtain ⟨passed, length, nodup, behind⟩ := ih
    have whole : graph.ReadsIn (count + 1) id shape := .link linked rest
    refine ⟨id :: passed, by simp [length], nodup.cons fun member => ?_, fun node member => ?_⟩
    · -- A node that comes again would be as far from the end as before.
      obtain ⟨-, left, -, less, again⟩ := behind id member
      have same := (whole.unique again).1
      omega
    · rcases List.mem_cons.mp member with rfl | member
      · exact ⟨lt_size_of_link linked, count + 1, by omega, by omega, whole⟩
      · obtain ⟨inside, left, positive, less, reads⟩ := behind node member
        exact ⟨inside, left, positive, by omega, reads⟩

/-- No type reads through more nodes than there are. -/
theorem ReadsIn.count_le (reads : graph.ReadsIn count id shape) : count ≤ graph.size := by
  obtain ⟨passed, rfl, nodup, inside⟩ := reads.passed
  have among : passed ⊆ List.range graph.size := fun node member =>
    List.mem_range.mpr (inside node member).1
  simpa using (nodup.subperm among).length_le

/-- Following aliases comes to a node that reads in the same way and is no defined alias. -/
theorem ReadsIn.followSteps (reads : graph.ReadsIn count id shape) {steps : Nat}
    (enough : count ≤ steps) :
    ∃ left ≤ count, graph.ReadsIn left (graph.followSteps steps id) shape ∧
      ∀ name target, graph.node (graph.followSteps steps id) ≠ .aliasSlot name (some target) := by
  -- By induction on the steps: each of them takes one link, until there is none.
  induction steps generalizing count id with
  | zero =>
    obtain rfl : count = 0 := by omega
    cases reads with
    | shape plain =>
      refine ⟨0, Nat.le_refl _, .shape plain, fun name target found => ?_⟩
      rw [TypeGraph.followSteps] at found
      simp [link?, found] at plain
  | succ steps ih =>
    rw [TypeGraph.followSteps]
    split
    · -- A defined alias links to its definition.
      rename_i name target found
      have linked : graph.link? id = some target := by simp [link?, found]
      cases reads with
      | shape plain => simp [plain] at linked
      | link other rest =>
        obtain rfl : _ = _ := Option.some.inj (other.symm.trans linked)
        obtain ⟨left, less, reads, ends⟩ := ih rest (by omega)
        exact ⟨left, by omega, reads, ends⟩
    · rename_i other
      exact ⟨_, Nat.le_refl _, reads, fun name target found => other name target found⟩

/-- What is no defined alias is followed no further. -/
theorem followSteps_add {steps : Nat} (ends : ∀ name target,
    graph.node (graph.followSteps steps id) ≠ .aliasSlot name (some target)) (more : Nat) :
    graph.followSteps (steps + more) id = graph.followSteps steps id := by
  -- The node that is reached is no alias with a definition, so that each further step stays there.
  induction steps generalizing id with
  | zero =>
    cases more with
    | zero => rfl
    | succ more =>
      rw [Nat.zero_add, followSteps, followSteps]
      split
      · rename_i name target found
        exact absurd found (ends name target)
      · rfl
  | succ steps ih =>
    rw [Nat.add_right_comm, followSteps, followSteps]
    split
    · rename_i name target found
      refine ih ?_
      rwa [followSteps, found] at ends
    · rfl

/-- Looking through aliases and generic variables comes to the end of the links. -/
theorem ReadsIn.settle (reads : graph.ReadsIn count id shape) {fuel : Nat}
    (enough : count < fuel) : graph.settle fuel id = shape := by
  induction fuel generalizing count id with
  | zero => omega
  | succ fuel ih =>
    obtain ⟨left, less, reads, ends⟩ :=
      reads.followSteps (Nat.le_succ_of_le reads.count_le)
    rw [TypeGraph.settle, follow]
    cases reads with
    | shape plain =>
      -- Without a link the node is no generic type either.
      split
      · rename_i var body found
        simp [link?, found] at plain
      · rfl
    | @link rest _ next _ linked others =>
      split
      · rename_i var body found
        obtain rfl : body = next := by simpa [link?, found] using linked
        exact ih others (by omega)
      · -- The only other nodes with links are defined aliases, which were followed.
        rename_i plain
        cases found : graph.node (graph.followSteps (graph.size + 1) id) with
        | forAll var body => exact absurd found (plain var body)
        | aliasSlot name target =>
          cases target with
          | some target => exact absurd found (ends name target)
          | none => simp [link?, found] at linked
        | _ => simp [link?, found] at linked

/-- The shape of a type is what it reads as. -/
theorem ReadsIn.shape_eq (reads : graph.ReadsIn count id shape) : graph.shape id = shape :=
  reads.settle (Nat.lt_succ_of_le reads.count_le)

/-- A type that accepts everything reads as the node that says so. -/
theorem ReadsIn.acceptsAll (reads : graph.ReadsIn count id shape)
    (accepts : graph.acceptsAll id = true) :
    graph.node shape = .dyn ∨ ∃ name, graph.node shape = .var name := by
  obtain ⟨left, -, reads, -⟩ := reads.followSteps (Nat.le_succ_of_le reads.count_le)
  rw [TypeGraph.acceptsAll, follow] at accepts
  -- Such a node has no link, so that it is the end itself.
  cases reads with
  | shape plain =>
    split at accepts
    · rename_i found
      exact .inl found
    · rename_i name found
      exact .inr ⟨name, found⟩
    · cases accepts
  | link linked =>
    split at accepts
    · rename_i found
      simp [link?, found] at linked
    · rename_i name found
      simp [link?, found] at linked
    · cases accepts

end TypeGraph

end LazyConfig
