import LazyConfig.Proofs.Types.Image
import Mathlib.Logic.Relation

/-!
The states of a resolver: types are resolved and groups of aliases are entered and left, also when some
of that fails. The slots in scope always stand for the definitions of the groups that were entered.
-/

namespace LazyConfig.Resolution

open TypeGraph

/-! Steps keep the nodes that are there, whatever they come to. -/

/-- A step that leaves all nodes below a position as they are. -/
def KeepsBelow {α : Type} (base : TypeId) (step : Resolution α) : Prop :=
  ∀ graph : TypeGraph, base ≤ graph.size →
    graph.size ≤ (step graph).2.size ∧ ∀ id < base, (step graph).2.node id = graph.node id

section Keeping

variable {α β : Type} {base : TypeId} {names : NameTable} {code : Code} {scope : Scope}

/-- A step that has come to a result is followed by the next. -/
theorem bind_of_ok {step : Resolution α} {next : α → Resolution β} {graph middle : TypeGraph}
    {result : α} (ran : step graph = (.ok result, middle)) :
    (step >>= next) graph = next result middle := by
  have unfolded : (step >>= next) graph =
      ExceptT.bindCont next (step graph).1 (step graph).2 := rfl
  rw [unfolded, ran]
  rfl

/-- A step that fails is followed by no other. -/
theorem bind_of_error {step : Resolution α} {next : α → Resolution β} {graph middle : TypeGraph}
    {fault : TypeFault} (ran : step graph = (.error fault, middle)) :
    (step >>= next) graph = (.error fault, middle) := by
  have unfolded : (step >>= next) graph =
      ExceptT.bindCont next (step graph).1 (step graph).2 := rfl
  rw [unfolded, ran]
  rfl

/-- Giving a result keeps all nodes. -/
theorem KeepsBelow.pure (result : α) : KeepsBelow base (pure result : Resolution α) :=
  fun _ _ => ⟨Nat.le_refl _, fun _ _ => rfl⟩

/-- Failing keeps all nodes. -/
theorem KeepsBelow.throw (fault : TypeFault) : KeepsBelow base (throw fault : Resolution α) :=
  fun _ _ => ⟨Nat.le_refl _, fun _ _ => rfl⟩

/-- Steps one after the other keep what each of them keeps. -/
theorem KeepsBelow.bind {step : Resolution α} {next : α → Resolution β}
    (first : KeepsBelow base step) (others : ∀ result, KeepsBelow base (next result)) :
    KeepsBelow base (step >>= next) := by
  intro graph room
  obtain ⟨grown, kept⟩ := first graph room
  -- If the first step fails, it is the only one, and otherwise both keep what is below.
  rcases outcome : step graph with ⟨result | result, middle⟩
  · rw [bind_of_error outcome]
    rw [outcome] at grown kept
    exact ⟨grown, kept⟩
  · rw [bind_of_ok outcome]
    rw [outcome] at grown kept
    obtain ⟨further, same⟩ := others result middle (Nat.le_trans room grown)
    exact ⟨Nat.le_trans grown further, fun id old => (same id old).trans (kept id old)⟩

/-- A step for each part in turn keeps what the step keeps. -/
theorem KeepsBelow.mapM {step : α → Resolution β} (each : ∀ part, KeepsBelow base (step part))
    (parts : List α) : KeepsBelow base (parts.mapM step) := by
  induction parts with
  | nil =>
    rw [List.mapM_nil]
    exact .pure []
  | cons part rest ih =>
    rw [List.mapM_cons]
    exact (each part).bind fun _ => ih.bind fun _ => .pure _

/-- Adding a node keeps all others. -/
theorem push_keeps (node : TypeNode) : KeepsBelow base (push node) := by
  intro graph room
  have extended := graph.push_extends node
  exact ⟨extended.size, fun id old => extended.same id (Nat.lt_of_lt_of_le old room)⟩

/-- Resolving a type keeps all nodes. -/
theorem resolveAt_keeps (names : NameTable) (code : Code) (scope : Scope) (fuel : Nat)
    (vars : List Name) (type : TypeExprId) :
    KeepsBelow base (resolveAt names code scope fuel vars type) := by
  induction fuel generalizing vars type with
  | zero => exact .throw _
  | succ fuel ih =>
    rw [resolveAt]
    -- Each form resolves its parts and then adds one node.
    split
    · exact push_keeps _
    · exact push_keeps _
    · exact push_keeps _
    · exact push_keeps _
    · exact (ih vars _).bind fun _ => push_keeps _
    · exact (ih vars _).bind fun _ => push_keeps _
    · refine (KeepsBelow.mapM ?_ _).bind fun _ => push_keeps _
      exact fun field => (ih vars field.2).bind fun _ => .pure _
    · exact (ih vars _).bind fun _ => (ih vars _).bind fun _ => push_keeps _
    · exact (ih _ _).bind fun _ => push_keeps _
    · split
      · exact push_keeps _
      · exact .throw _
    · split
      · exact .pure _
      · exact .throw _

/-- Filling a slot keeps the nodes below it. -/
theorem define_keeps {slot : TypeId} (above : base ≤ slot) (target : TypeId) :
    KeepsBelow base (define slot target) := by
  intro graph _
  have filled : (define slot target graph).2 = graph.define slot target := rfl
  rw [filled, TypeGraph.define]
  -- The slot is there, or filling it does nothing.
  split
  · refine ⟨by simp [TypeGraph.size], fun id old => ?_⟩
    have other : slot ≠ id := Nat.ne_of_gt (Nat.lt_of_lt_of_le old above)
    simp [TypeGraph.node, other]
  · exact ⟨Nat.le_refl _, fun _ _ => rfl⟩

/-- Filling slots keeps the nodes below all of them. -/
theorem fillSlots_keeps (names : NameTable) (code : Code) (scope : Scope)
    {todo : List (AliasDef × Name × TypeId)} (above : ∀ entry ∈ todo, base ≤ entry.2.2) :
    KeepsBelow base (fillSlots names code scope todo) := by
  induction todo with
  | nil => exact .pure ()
  | cons entry rest ih =>
    refine (resolveAt_keeps names code scope _ [] _).bind fun target => ?_
    refine (define_keeps (above entry List.mem_cons_self) target).bind fun _ => ?_
    exact ih fun other member => above other (List.mem_cons_of_mem _ member)

/-- Opening slots does not fail. -/
theorem openSlots_succeeds (defs : List AliasDef) (graph : TypeGraph) :
    ∃ slots later, openSlots defs graph = (.ok slots, later) := by
  induction defs generalizing graph with
  | nil => exact ⟨[], graph, rfl⟩
  | cons definition rest ih =>
    -- The first slot is opened, and then the others.
    obtain ⟨slots, later, ran⟩ := ih (graph.push (.aliasSlot definition.name none)).2
    refine ⟨(definition.name, (graph.push (.aliasSlot definition.name none)).1) :: slots, later, ?_⟩
    exact (bind_of_ok rfl).trans (bind_of_ok ran)

/-- Resolving a type leaves the nodes as they are, whatever it comes to. -/
theorem resolve_extends (names : NameTable) (code : Code) (scope : Scope) (type : TypeExprId)
    (graph : TypeGraph) : graph.Extends (resolve names code scope type graph).2 := by
  obtain ⟨grown, kept⟩ := resolveAt_keeps names code scope (type + 1) [] type graph (Nat.le_refl _)
  exact ⟨grown, kept⟩

/-- Defining a group of aliases leaves the nodes as they are, whatever it comes to. -/
theorem defineAliases_extends (names : NameTable) (code : Code) (scope : Scope)
    (defs : List AliasDef) (graph : TypeGraph) :
    graph.Extends (defineAliases names code scope defs graph).2 := by
  obtain ⟨slots, middle, opened⟩ := openSlots_succeeds defs graph
  obtain ⟨rfl, extended, -, -⟩ := openSlots_ok opened
  have step : defineAliases names code scope defs graph = _ := bind_of_ok opened
  rw [step]
  cases code.aliasCycle defs with
  | some cycle => exact extended
  | none =>
    -- Only the new slots are filled.
    have fills : KeepsBelow graph.size (fillSlots names code (within scope defs graph.size)
        (defs.zip (slotsFrom defs graph.size))) :=
      fillSlots_keeps names code _ fun entry member => (bounds_of_mem_zip_slots member).1
    have kept := fills.bind fun _ => KeepsBelow.pure (within scope defs graph.size)
    obtain ⟨grown, same⟩ := kept middle extended.size
    exact ⟨Nat.le_trans extended.size grown,
      fun id old => (same id old).trans (extended.same id old)⟩

end Keeping

/-! What types become. -/

variable {names : NameTable} {code : Code} {scope : Scope}

/-- A node that has been added is there, and nothing else has changed. -/
theorem push_ok {node : TypeNode} {graph later : TypeGraph} {id : TypeId}
    (ran : push node graph = (.ok id, later)) :
    graph.Extends later ∧ id < later.size ∧ later.node id = node := by
  obtain ⟨rfl, rfl⟩ : (graph.push node).1 = id ∧ (graph.push node).2 = later := by
    cases ran
    exact ⟨rfl, rfl⟩
  exact ⟨graph.push_extends node, graph.push_inside node, graph.node_push_self node⟩

/-- Fields whose types are resolved one after another become what each of them becomes. -/
theorem mapM_fields {step : TypeExprId → Resolution TypeId}
    {becomes : TypeGraph → TypeExprId → TypeId → Prop}
    (stays : ∀ before after type id, before.Extends after → becomes before type id →
      becomes after type id)
    (each : ∀ type graph id later, step type graph = (.ok id, later) →
      graph.Extends later ∧ becomes later type id)
    {fields : List (Name × TypeExprId)} {ids : List (Name × TypeId)} {graph later : TypeGraph}
    (ran : (fields.mapM fun field : Name × TypeExprId => do
      let id ← step field.2
      pure (field.1, id)) graph = (.ok ids, later)) :
    graph.Extends later ∧ EntriesAgree (becomes later) fields ids := by
  -- By induction on the fields: what a field becomes stays when the later ones are resolved.
  induction fields generalizing graph ids with
  | nil =>
    rw [List.mapM_nil] at ran
    cases ran
    exact ⟨.refl _, .nil⟩
  | cons field rest ih =>
    rw [List.mapM_cons] at ran
    obtain ⟨first, middle, taken, others⟩ := bind_ok ran
    obtain ⟨last, next, more, final⟩ := bind_ok others
    obtain ⟨id, inner, resolved, named⟩ := bind_ok taken
    obtain ⟨extended, image⟩ := each _ _ _ _ resolved
    cases named
    cases final
    obtain ⟨further, images⟩ := ih more
    exact ⟨extended.trans further, .cons ⟨rfl, stays _ _ _ _ further image⟩ images⟩

/-- Resolving a type makes what the type becomes. -/
theorem resolveAt_image {fuel : Nat} {vars : List Name} {type : TypeExprId}
    {graph later : TypeGraph} {id : TypeId}
    (ran : resolveAt names code scope fuel vars type graph = (.ok id, later)) :
    graph.Extends later ∧ later.Image code scope fuel type id := by
  induction fuel generalizing vars type graph later id with
  | zero => exact (throw_not_ok ran).elim
  | succ fuel ih =>
    -- A form is the node that is added last.
    have form {middle : TypeGraph} {node : TypeNode} (extended : graph.Extends middle)
        (becomes : (code.type type).Becomes (middle.Image code scope fuel) node)
        (added : push node middle = (.ok id, later)) :
        graph.Extends later ∧ later.Image code scope (fuel + 1) type id := by
      obtain ⟨further, inside, same⟩ := push_ok added
      refine ⟨extended.trans further, .inr ⟨inside, ?_⟩⟩
      rw [same]
      exact becomes.imp fun _ _ => Image.refine further.refines
    rw [resolveAt] at ran
    -- The form decides which parts have been resolved before the node was added.
    cases found : code.type type with
    | num | str | bool | dyn =>
      rw [found] at ran form
      exact form (.refl _) (by constructor) ran
    | list elem | dict elem =>
      rw [found] at ran form
      obtain ⟨part, middle, first, rest⟩ := bind_ok ran
      obtain ⟨extended, image⟩ := ih first
      exact form extended (by constructor; exact image) rest
    | record fields =>
      rw [found] at ran form
      obtain ⟨parts, middle, first, rest⟩ := bind_ok ran
      obtain ⟨extended, images⟩ := @mapM_fields (resolveAt names code scope fuel vars)
        (fun graph type id => graph.Image code scope fuel type id)
        (fun _ _ _ _ extended => Image.refine extended.refines) (fun _ _ _ _ => ih) _ _ _ _ first
      exact form extended (.record images) rest
    | fn param output =>
      rw [found] at ran form
      obtain ⟨part, middle, first, rest⟩ := bind_ok ran
      obtain ⟨other, next, second, last⟩ := bind_ok rest
      obtain ⟨extended, image⟩ := ih first
      obtain ⟨further, images⟩ := ih second
      exact form (extended.trans further) (.fn (image.refine further.refines) images) last
    | forAll var body =>
      rw [found] at ran form
      obtain ⟨part, middle, first, rest⟩ := bind_ok ran
      obtain ⟨extended, image⟩ := ih first
      exact form extended (.forAll var image) rest
    | var name =>
      rw [found] at ran form
      -- A variable is there only inside the generic type that binds it.
      by_cases bound : vars.contains name = true
      · simp only [if_pos bound] at ran
        exact form (.refl _) (.var name) ran
      · simp only [if_neg bound] at ran
        exact (throw_not_ok ran).elim
    | aliasRef name =>
      -- A name adds no node, and becomes the slot that it is bound to.
      rw [found] at ran
      cases known : scope.lookup name with
      | some slot =>
        simp only [known] at ran
        cases ran
        exact ⟨.refl _, .inl ⟨name, found, known⟩⟩
      | none =>
        simp only [known] at ran
        exact (throw_not_ok ran).elim

/-- Filled slots link to what their definitions become. -/
theorem fillSlots_images {todo : List (AliasDef × Name × TypeId)} {graph later : TypeGraph}
    (vacant : Vacant graph todo) (distinct : (todo.map fun entry => entry.2.2).Nodup)
    (ran : fillSlots names code scope todo graph = (.ok (), later)) :
    graph.Refines later ∧ ∀ entry ∈ todo, ∃ name target,
      later.node entry.2.2 = .aliasSlot name (some target) ∧
        later.Image code scope (entry.1.type + 1) entry.1.type target := by
  induction todo generalizing graph with
  | nil =>
    cases ran
    exact ⟨.refl _, nofun⟩
  | cons entry rest ih =>
    obtain ⟨definition, name, slot⟩ := entry
    obtain ⟨target, middle, resolved, others⟩ := bind_ok ran
    obtain ⟨_, filled, defined, more⟩ := bind_ok others
    obtain ⟨extended, image⟩ := resolveAt_image resolved
    -- The slot that is filled now was opened before, and nothing has filled it since.
    obtain ⟨here, given, found⟩ := vacant _ List.mem_cons_self
    have there : slot < middle.size := Nat.lt_of_lt_of_le here extended.size
    have open_slot : middle.node slot = .aliasSlot given none :=
      (extended.same slot here).trans found
    obtain rfl : middle.define slot target = filled := by
      cases defined
      rfl
    have refined : middle.Refines (middle.define slot target) := define_refines open_slot there
    rw [List.map_cons, List.nodup_cons] at distinct
    have others_vacant : Vacant graph rest := fun entry member =>
      vacant entry (List.mem_cons_of_mem _ member)
    have still : Vacant (middle.define slot target) rest :=
      others_vacant.define extended open_slot there distinct.1
    obtain ⟨further, images⟩ := ih still distinct.2 more
    refine ⟨(extended.refines.trans refined).trans further, fun entry member => ?_⟩
    rcases List.mem_cons.mp member with rfl | member
    · -- Once a slot is filled, filling others leaves it as it is.
      have now : (middle.define slot target).node slot = .aliasSlot given (some target) := by
        rw [define_node open_slot there, if_pos rfl]
      refine ⟨given, target, ?_, image.refine (refined.trans further)⟩
      rcases further.kept slot (lt_size_of_alias now) with same | ⟨_, _, vacant, -⟩
      · exact same.trans now
      · rw [now] at vacant
        cases vacant
    · exact images entry member

/-- A group that is defined is entered, inside the groups that were. -/
theorem defineAliases_entered {groups : Groups} {inner : Scope} {defs : List AliasDef}
    {graph later : TypeGraph} (entered : Entered code graph scope groups)
    (ran : defineAliases names code scope defs graph = (.ok inner, later)) :
    Entered code later inner (defs :: groups) := by
  obtain ⟨rfl, free, middle, extended, -, vacant, fills⟩ := defineAliases_steps ran
  obtain ⟨refined, images⟩ := fillSlots_images vacant (zip_slots_nodup defs graph.size) fills
  refine .group (entered.refine (extended.refines.trans refined)) free fun position inside => ?_
  exact images _ (mem_zip_slots inside)

/-- The scope around a group is left when the group was entered. -/
theorem defineAliases_pop {inner : Scope} {defs : List AliasDef} {graph later : TypeGraph}
    (ran : defineAliases names code scope defs graph = (.ok inner, later)) : inner.pop = scope := by
  obtain ⟨rfl, -⟩ := defineAliases_steps ran
  rfl

end LazyConfig.Resolution

namespace LazyConfig

open TypeGraph Resolution

/-- A state of a resolver, with the groups of aliases that were entered and not yet left. -/
structure Resolver where
  graph : TypeGraph := {}
  scope : Scope := {}
  groups : Groups := []

namespace Resolver

/-- What a resolver can be asked for. -/
inductive Next (names : NameTable) (code : Code) : Resolver → Resolver → Prop
  /-- Some type is resolved in some scope, or is found to be wrong. -/
  | resolve (state : Resolver) (scope : Scope) (type : TypeExprId) :
    Next names code state { state with graph := (resolve names code scope type state.graph).2 }
  | enter {state : Resolver} {defs : List AliasDef} {inner : Scope} {later : TypeGraph}
    (ran : defineAliases names code state.scope defs state.graph = (.ok inner, later)) :
    Next names code state ⟨later, inner, defs :: state.groups⟩
  /-- A group that is refused is not entered. -/
  | refuse {state : Resolver} {defs : List AliasDef} {fault : TypeFault} {later : TypeGraph}
    (ran : defineAliases names code state.scope defs state.graph = (.error fault, later)) :
    Next names code state { state with graph := later }
  | leave {state : Resolver} {defs : List AliasDef} {outer : Groups}
    (inside : state.groups = defs :: outer) :
    Next names code state ⟨state.graph, state.scope.pop, outer⟩

variable {names : NameTable} {code : Code} {state later : Resolver}

/-- Nothing that a resolver is asked for changes the nodes that are there. -/
theorem Next.extends (next : Next names code state later) : state.graph.Extends later.graph := by
  cases next with
  | resolve scope type => exact resolve_extends names code scope type state.graph
  | @enter defs inner graph ran | @refuse defs fault graph ran =>
    have extended := defineAliases_extends names code state.scope defs state.graph
    rw [ran] at extended
    exact extended
  | leave => exact .refl _

/-- The slots in scope go on standing for the definitions of the groups. -/
theorem Next.entered (next : Next names code state later)
    (entered : Entered code state.graph state.scope state.groups) :
    Entered code later.graph later.scope later.groups := by
  have extended := next.extends
  cases next with
  | enter ran => exact defineAliases_entered entered ran
  | @leave defs outer inside =>
    -- The group that is left was the last one that was entered.
    rw [inside] at entered
    generalize state.scope = scope at entered
    cases entered with
    | group around => exact around
  | _ => exact entered.refine extended.refines

/-- A resolver goes from state to state, starting with nothing. -/
abbrev Reaches (names : NameTable) (code : Code) : Resolver → Resolver → Prop :=
  Relation.ReflTransGen (Next names code)

/-- Nothing that a resolver is ever asked for changes the nodes that are there. -/
theorem Reaches.extends (reached : Reaches names code state later) :
    state.graph.Extends later.graph := by
  induction reached with
  | refl => exact .refl _
  | tail _ next ih => exact ih.trans next.extends

/-- In every state of a resolver the slots in scope stand for the definitions of the groups. -/
theorem Reaches.entered (reached : Reaches names code {} state) :
    Entered code state.graph state.scope state.groups := by
  induction reached with
  | refl => exact .outside
  | tail _ next ih => exact next.entered ih

end Resolver

end LazyConfig
