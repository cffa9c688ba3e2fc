import LazyConfig.Proofs.Types.Resolver
import LazyConfig.Proofs.Types.Stable

/-!
Resolving keeps a type graph tidy, whatever it comes to. What a group that was refused leaves behind are slots that
are still empty, and slots that lead to one of those or to a type.
-/

namespace LazyConfig

namespace TypeGraph.Tidy

variable {graph : TypeGraph} {goal : TypeId → Prop}

/-- A graph stays tidy when a node is added that comes after its parts and is no alias. -/
theorem push (tidy : graph.Tidy goal) {node : TypeNode} (parts : ∀ part ∈ node.parts, part < graph.size)
    (plain : node.isShape = true ∨ ∃ var body, node = .forAll var body) : (graph.push node).2.Tidy goal := by
  have extended := graph.push_extends node
  have last := graph.node_push_self node
  have size : (graph.push node).2.size = (graph.push node).1 + 1 := by simp [TypeGraph.push, TypeGraph.size]
  refine ⟨fun id inside => ?_, tidy.settles.push ?_⟩
  · rw [size] at inside
    rcases Nat.lt_succ_iff_lt_or_eq.mp inside with old | rfl
    · rw [extended.same id old]
      exact tidy.parts id old
    · rw [last]
      exact parts
  · -- A generic type settles where its body does, and any other node says what a value must be.
    rcases plain with shape | ⟨var, body, rfl⟩
    · exact .shape (graph.push_inside node) (by rwa [last])
    · have linked : (graph.push (.forAll var body)).2.link? (graph.push (.forAll var body)).1 = some body := by
        rw [link?, last]
      exact .link linked ((tidy.settles body (parts body (List.mem_singleton_self body))).refine extended.refines)

/-- A graph stays tidy when an empty slot is filled. -/
theorem define (tidy : graph.Tidy goal) {slot target : TypeId} {name : Name}
    (empty : graph.node slot = .aliasSlot name none) (inside : slot < graph.size) :
    (graph.define slot target).Tidy goal := by
  have size : (graph.define slot target).size = graph.size := by simp [TypeGraph.define, empty, TypeGraph.size]
  refine ⟨fun id among part member => ?_, tidy.settles.extend (define_refines empty inside) fun id old new => ?_⟩
  · rw [define_node empty inside] at member
    split at member
    · exact absurd member List.not_mem_nil
    · exact tidy.parts id (size ▸ among) part member
  · exact absurd new (size ▸ Nat.not_lt.mpr old)

/-- What is tidy up to goals that settle is tidy. -/
theorem bind {later : TypeId → Prop} (tidy : graph.Tidy goal) (goals : ∀ id, goal id → graph.Settles later id) :
    graph.Tidy later :=
  ⟨tidy.parts, fun id inside => (tidy.settles id inside).bind goals⟩

end TypeGraph.Tidy

namespace Resolution

open TypeGraph

variable {α β : Type} {goal : TypeId → Prop} {size : Nat} {names : NameTable} {code : Code} {scope : Scope}

/-- A step that keeps a graph tidy whatever it comes to, and that only gives types that are there. -/
def Tidies (goal : TypeId → Prop) (size : Nat) (given : α → List TypeId) (step : Resolution α) : Prop :=
  ∀ graph : TypeGraph, size ≤ graph.size → graph.Tidy goal →
    size ≤ (step graph).2.size ∧ (step graph).2.Tidy goal ∧
      ∀ result, (step graph).1 = .ok result → ∀ id ∈ given result, id < (step graph).2.size

namespace Tidies

variable {given : α → List TypeId} {later : β → List TypeId}

/-- Giving types that are there keeps a graph tidy. -/
theorem pure {result : α} (there : ∀ id ∈ given result, id < size) :
    Tidies goal size given (pure result : Resolution α) := by
  intro graph room tidy
  refine ⟨room, tidy, fun other same id member => ?_⟩
  obtain rfl : result = other := Except.ok.inj same
  exact Nat.lt_of_lt_of_le (there id member) room

/-- Failing keeps a graph tidy. -/
theorem throw (fault : TypeFault) : Tidies goal size given (throw fault : Resolution α) :=
  fun _ room tidy => ⟨room, tidy, fun _ same => nomatch same⟩

/-- Steps one after the other keep a graph tidy when each does where the types of the first are there. -/
theorem bind {step : Resolution α} {next : α → Resolution β} (first : Tidies goal size given step)
    (others : ∀ result more, size ≤ more → (∀ id ∈ given result, id < more) → Tidies goal more later (next result)) :
    Tidies goal size later (step >>= next) := by
  intro graph room tidy
  obtain ⟨grown, kept, there⟩ := first graph room tidy
  rcases outcome : step graph with ⟨fault | result, middle⟩
  · rw [outcome] at grown kept
    rw [bind_of_error outcome]
    exact ⟨grown, kept, fun _ same => nomatch same⟩
  · rw [outcome] at grown kept there
    rw [bind_of_ok outcome]
    obtain ⟨further, stays, results⟩ :=
      others result middle.size grown (there result rfl) middle (Nat.le_refl _) kept
    exact ⟨Nat.le_trans grown further, stays, results⟩

/-- Adding a node over types that are there keeps a graph tidy. -/
theorem push {node : TypeNode} (parts : ∀ part ∈ node.parts, part < size)
    (plain : node.isShape = true ∨ ∃ var body, node = .forAll var body) :
    Tidies goal size (fun id => [id]) (push node) := by
  intro graph room tidy
  have kept := tidy.push (fun part member => Nat.lt_of_lt_of_le (parts part member) room) plain
  refine ⟨Nat.le_trans room (graph.push_extends node).size, kept, fun result same id member => ?_⟩
  obtain rfl : (graph.push node).1 = result := Except.ok.inj same
  obtain rfl := List.mem_singleton.mp member
  exact graph.push_inside node

/-- Adding a node without parts keeps a graph tidy. -/
theorem leaf {node : TypeNode} (none : node.parts = []) (plain : node.isShape = true) :
    Tidies goal size (fun id => [id]) (Resolution.push node) :=
  push (none ▸ List.forall_mem_nil _) (.inl plain)

/-- Fields whose types are resolved one after another are there in the end. -/
theorem mapM_fields {step : TypeExprId → Resolution TypeId}
    (each : ∀ type more, size ≤ more → Tidies goal more (fun id => [id]) (step type))
    (fields : List (Name × TypeExprId)) {more : Nat} (room : size ≤ more) :
    Tidies goal more (fun ids => ids.map Prod.snd) (fields.mapM fun field : Name × TypeExprId => do
      let id ← step field.2
      Pure.pure (field.1, id)) := by
  -- By induction on the fields; the room grows with each of them, and what was there stays.
  induction fields generalizing more with
  | nil =>
    rw [List.mapM_nil]
    exact .pure nofun
  | cons field rest ih =>
    rw [List.mapM_cons]
    have first : Tidies goal more (fun entry : Name × TypeId => [entry.2]) (do
        let id ← step field.2
        Pure.pure (field.1, id)) :=
      (each field.2 more room).bind fun _ _ _ there => .pure there
    refine first.bind fun entry next grown there => ?_
    refine (ih (Nat.le_trans room grown)).bind fun entries last further others => .pure fun id member => ?_
    rcases List.mem_cons.mp member with rfl | member
    · exact Nat.lt_of_lt_of_le (there _ (List.mem_singleton_self _)) further
    · exact others id member

end Tidies

/-- Resolving a type keeps a graph tidy, whatever it comes to. -/
theorem resolveAt_tidies (inside : ∀ name slot, scope.lookup name = some slot → slot < size) (fuel : Nat)
    (vars : List Name) (type : TypeExprId) {more : Nat} (room : size ≤ more) :
    Tidies goal more (fun id => [id]) (resolveAt names code scope fuel vars type) := by
  induction fuel generalizing vars type more with
  | zero => exact .throw _
  | succ fuel ih =>
    have single {part : TypeId} {more : Nat} (there : ∀ id ∈ [part], id < more) : part < more :=
      there part (List.mem_singleton_self part)
    rw [resolveAt]
    -- Each form resolves its parts and then adds one node over them.
    split
    · exact .leaf rfl rfl
    · exact .leaf rfl rfl
    · exact .leaf rfl rfl
    · exact .leaf rfl rfl
    · exact (ih vars _ room).bind fun part _ _ there => .push there (.inl rfl)
    · exact (ih vars _ room).bind fun part _ _ there => .push there (.inl rfl)
    · exact (Tidies.mapM_fields (fun type more grown => ih vars type grown) _ room).bind fun fields _ _ there =>
        .push there (.inl rfl)
    · refine (ih vars _ room).bind fun param middle grown there => ?_
      refine (ih vars _ (Nat.le_trans room grown)).bind fun result next further others => .push ?_ (.inl rfl)
      intro part member
      rcases List.mem_cons.mp member with rfl | member
      · exact Nat.lt_of_lt_of_le (single there) further
      · exact others part member
    · exact (ih _ _ room).bind fun body _ _ there => .push there (.inr ⟨_, _, rfl⟩)
    · split
      · exact .leaf rfl rfl
      · exact .throw _
    · -- A name gives the slot that it stands for, which is there.
      split
      · rename_i slot found
        refine .pure fun id member => ?_
        obtain rfl := List.mem_singleton.mp member
        exact Nat.lt_of_lt_of_le (inside _ _ found) room
      · exact .throw _

/-- A slot that is still empty, or that links to what its definition came to. -/
def Linked (code : Code) (scope : Scope) (graph : TypeGraph) (entry : AliasDef × Name × TypeId) : Prop :=
  graph.EmptySlot entry.2.2 ∨ ∃ target, graph.link? entry.2.2 = some target ∧
    graph.Settles (Names code scope (entry.1.type + 1) entry.1.type) target

/-- Slots are filled from the first one on, and where a definition is refused the others stay empty. -/
theorem fillSlots_linked {todo : List (AliasDef × Name × TypeId)} {graph : TypeGraph} (tidy : graph.Tidy goal)
    (inside : InScope graph scope) (vacant : Vacant graph todo)
    (distinct : (todo.map fun entry => entry.2.2).Nodup) {later : TypeGraph}
    (ran : (fillSlots names code scope todo graph).2 = later) :
    graph.Refines later ∧ later.Tidy goal ∧ ∀ entry ∈ todo, Linked code scope later entry := by
  induction todo generalizing graph with
  | nil =>
    obtain rfl : graph = later := ran
    exact ⟨.refl _, tidy, nofun⟩
  | cons entry rest ih =>
    obtain ⟨definition, name, slot⟩ := entry
    obtain ⟨-, kept, -⟩ := @resolveAt_tidies goal graph.size names code scope inside (definition.type + 1) []
      definition.type graph.size (Nat.le_refl _) graph (Nat.le_refl _) tidy
    have extended := resolve_extends names code scope definition.type graph
    rcases resolved : resolve names code scope definition.type graph with ⟨fault | target, middle⟩
    · -- Nothing has been filled.
      rw [fillSlots, bind_of_error resolved] at ran
      obtain rfl : middle = later := ran
      rw [resolved] at extended
      rw [← resolve, resolved] at kept
      refine ⟨extended.refines, kept, fun entry member => .inl ?_⟩
      obtain ⟨here, given, found⟩ := vacant entry member
      exact ⟨given, (extended.same _ here).trans found⟩
    · rw [fillSlots, bind_of_ok resolved] at ran
      rw [resolved] at extended
      rw [← resolve, resolved] at kept
      obtain ⟨here, given, found⟩ := vacant _ List.mem_cons_self
      have there : slot < middle.size := Nat.lt_of_lt_of_le here extended.size
      have empty : middle.node slot = .aliasSlot given none := (extended.same slot here).trans found
      have refined : middle.Refines (middle.define slot target) := define_refines empty there
      rw [List.map_cons, List.nodup_cons] at distinct
      have others : Vacant graph rest := fun entry member => vacant entry (List.mem_cons_of_mem _ member)
      obtain ⟨further, stays, linked⟩ := ih (kept.define empty there)
        (inside.refine (extended.refines.trans refined)) (others.define extended empty there distinct.1) distinct.2
        ran
      refine ⟨(extended.refines.trans refined).trans further, stays, fun entry member => ?_⟩
      rcases List.mem_cons.mp member with rfl | member
      · -- The slot links to what its definition came to, and goes on doing so.
        have adds := resolveAt_adds tidy.settles inside resolved
        refine .inr ⟨target, further.link ?_, adds.settles.refine (refined.trans further)⟩
        rw [link?, define_node empty there, if_pos rfl]
      · exact linked entry member

end Resolution

end LazyConfig
