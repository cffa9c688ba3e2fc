import LazyConfig.Proofs.Types.Circles
import LazyConfig.Proofs.Types.Tidy

/-!
Sessions of a resolver: one graph of types that grows, and scopes that groups of aliases are defined in. A group is
defined whole or not at all, and the types that were there stay what they were.
-/

namespace LazyConfig

open TypeGraph Resolution

namespace TypeGraph

variable {graph before after : TypeGraph} {id : TypeId}

/-- An empty slot is there. -/
theorem EmptySlot.inside (empty : graph.EmptySlot id) : id < graph.size := by
  obtain ⟨name, found⟩ := empty
  by_contra outside
  have absent : graph.node id = .dyn := by
    rw [node, Array.getElem?_eq_none (Nat.not_lt.mp outside)]
    rfl
  cases absent.symm.trans found

/-- Where nodes are only added, empty slots stay empty. -/
theorem EmptySlot.extends (empty : before.EmptySlot id) (extended : before.Extends after) : after.EmptySlot id := by
  obtain ⟨name, found⟩ := empty
  exact ⟨name, (extended.same id (EmptySlot.inside ⟨name, found⟩)).trans found⟩

/-- Where nodes are only added, links end as before. -/
theorem Tidy.settles_extends (tidy : before.Tidy before.EmptySlot) (extended : before.Extends after)
    (inside : id < before.size) : after.Settles after.EmptySlot id :=
  ((tidy.settles id inside).refine extended.refines).weaken fun _ empty => empty.extends extended

end TypeGraph

namespace Resolution

variable {names : NameTable} {code : Code} {scope : Scope} {defs : List AliasDef} {graph later : TypeGraph}

/-- Resolving a type keeps a graph tidy. -/
theorem resolve_tidy (tidy : graph.Tidy graph.EmptySlot) (known : InScope graph scope) (type : TypeExprId)
    (ran : (resolve names code scope type graph).2 = later) : later.Tidy later.EmptySlot := by
  have extended := resolve_extends names code scope type graph
  obtain ⟨-, kept, -⟩ := @resolveAt_tidies graph.EmptySlot graph.size names code scope known (type + 1) [] type
    graph.size (Nat.le_refl _) graph (Nat.le_refl _) tidy
  rw [← resolve, ran] at kept
  rw [ran] at extended
  exact kept.bind fun id empty => tidy.settles_extends extended empty.inside

/-- A graph with new empty slots is as tidy as it was without them. -/
theorem openSlots_tidy {slots : List (Name × TypeId)} (tidy : graph.Tidy graph.EmptySlot)
    (ran : openSlots defs graph = (.ok slots, later)) : later.Tidy later.EmptySlot := by
  obtain ⟨-, extended, -, empty⟩ := openSlots_ok ran
  refine ⟨fun id inside part member => ?_, fun id inside => ?_⟩
  · by_cases old : id < graph.size
    · rw [extended.same id old] at member
      exact tidy.parts id old part member
    · obtain ⟨name, found⟩ := empty id (Nat.not_lt.mp old) inside
      rw [found] at member
      exact absurd member List.not_mem_nil
  · by_cases old : id < graph.size
    · exact tidy.settles_extends extended old
    · exact .goal inside (empty id (Nat.not_lt.mp old) inside)

/-- Filling slots in the scope of their group keeps a graph tidy, also where a definition is refused. -/
theorem fillSlots_tidy {middle : TypeGraph} {slots : List (Name × TypeId)} (tidy : graph.Tidy graph.EmptySlot)
    (known : InScope graph scope) (opened : openSlots defs graph = (.ok slots, middle))
    (free : code.aliasCycle defs = none)
    (ran : (fillSlots names code (within scope defs graph.size) (defs.zip (slotsFrom defs graph.size)) middle).2 =
      later)
    (extended : graph.Extends later) : later.Tidy later.EmptySlot := by
  obtain ⟨rfl, opens, count, -⟩ := openSlots_ok opened
  have vacant := vacant_of_openSlots opened
  -- A name of the group is bound to one of its slots, and any other name to what it was bound to
  -- outside.
  have inScope : InScope middle (within scope defs graph.size) := by
    intro name slot found
    rcases lookup_inside found with ⟨position, defined, rfl⟩ | outside
    · rw [count]
      exact Nat.add_lt_add_left (Code.lt_of_definitionOf defined) _
    · exact Nat.lt_of_lt_of_le (known name slot outside) opens.size
  obtain ⟨refined, kept, linked⟩ :=
    fillSlots_linked (openSlots_tidy tidy opened) inScope vacant (zip_slots_nodup defs graph.size) ran
  -- What settles at an old empty slot still does, and a slot of the group settles where it leads to.
  refine kept.bind fun id open' => ?_
  by_cases old : id < graph.size
  · exact tidy.settles_extends extended old
  · obtain ⟨position, rfl⟩ := Nat.exists_eq_add_of_le (Nat.not_lt.mp old)
    have among : position < defs.length := by
      have bound := open'.inside
      rw [count] at bound
      exact Nat.lt_of_add_lt_add_left bound
    have outer (name : Name) (slot : TypeId) (found : scope.lookup name = some slot) :
        later.Settles later.EmptySlot slot := tidy.settles_extends extended (known name slot found)
    refine settles_of_ends (fun position among => ?_) outer (Code.ends_of_aliasCycle free among) among
    exact (linked _ (mem_zip_slots among)).imp (fun empty => .goal empty.inside empty) id

/-- Defining a group of aliases keeps a graph tidy, whatever it comes to. -/
theorem defineAliases_tidy (tidy : graph.Tidy graph.EmptySlot) (known : InScope graph scope)
    (ran : (defineAliases names code scope defs graph).2 = later) : later.Tidy later.EmptySlot := by
  have extended := defineAliases_extends names code scope defs graph
  obtain ⟨slots, middle, opened⟩ := openSlots_succeeds defs graph
  have step : defineAliases names code scope defs graph = _ := bind_of_ok opened
  rw [ran] at extended
  rw [step] at ran
  obtain ⟨rfl, -⟩ := openSlots_ok opened
  -- A circle is refused before any slot is filled; else the slots are filled one after the other.
  cases free : code.aliasCycle defs with
  | some cycle =>
    simp only [free] at ran
    obtain rfl : middle = later := ran
    exact openSlots_tidy tidy opened
  | none =>
    simp only [free] at ran
    refine @fillSlots_tidy names _ _ _ _ _ _ _ tidy known opened free ?_ extended
    rcases fills : fillSlots names code (within scope defs graph.size) (defs.zip (slotsFrom defs graph.size)) middle
      with ⟨fault | filled, last⟩
    · rw [bind_of_error fills] at ran
      exact ran
    · rw [bind_of_ok fills] at ran
      exact ran

/-- A slot is opened under the name of its definition. -/
theorem openSlots_node {slots : List (Name × TypeId)} (ran : openSlots defs graph = (.ok slots, later))
    {position : Nat} (inside : position < defs.length) :
    later.node (graph.size + position) = .aliasSlot defs[position].name none := by
  -- By induction on the definitions: the first slot gets the next place, and the others come after
  -- it.
  induction defs generalizing graph slots position with
  | nil => exact absurd inside (Nat.not_lt_zero _)
  | cons definition rest ih =>
    obtain ⟨slot, middle, first, others⟩ := bind_ok ran
    obtain ⟨more, last, opened, final⟩ := bind_ok others
    cases final
    obtain ⟨rfl, rfl⟩ : (graph.push (.aliasSlot definition.name none)).1 = slot ∧
        (graph.push (.aliasSlot definition.name none)).2 = middle := by
      cases first
      exact ⟨rfl, rfl⟩
    have size : (graph.push (.aliasSlot definition.name none)).2.size = graph.size + 1 := by
      simp [TypeGraph.push, TypeGraph.size]
    cases position with
    | zero =>
      -- The slots after the first one leave it as it is.
      obtain ⟨-, further, -, -⟩ := openSlots_ok opened
      have same := further.same graph.size (by rw [size]; exact Nat.lt_succ_self _)
      exact same.trans (graph.node_push_self _)
    | succ position =>
      have found := ih opened (Nat.lt_of_succ_lt_succ inside)
      have place : graph.size + (position + 1) = graph.size + 1 + position := by omega
      rw [place, List.getElem_cons_succ, ← size]
      exact found

end Resolution

/-- The types that a resolver has made so far, and the scope that it is used with. -/
structure TypeSession where
  graph : TypeGraph := {}
  scope : Scope := {}

namespace TypeSession

variable {names : NameTable} {code : Code} {session later : TypeSession} {defs : List AliasDef}

/-- Fills the slots of a group whose frame is on the scope; where a definition is refused, the frame is taken off. -/
def fill (names : NameTable) (code : Code) : List (AliasDef × Name × TypeId) → TypeSession → Except TypeFault Unit × TypeSession
  | [], session => (.ok (), session)
  | (definition, _, slot) :: rest, session =>
    match resolve names code session.scope definition.type session.graph with
    | (.ok target, graph) => fill names code rest ⟨graph.define slot target, session.scope⟩
    | (.error fault, graph) => (.error fault, ⟨graph, session.scope.pop⟩)

/-- Defines a group in place: its frame goes onto the scope before its definitions are resolved. -/
def defineAliases (names : NameTable) (code : Code) (defs : List AliasDef) (session : TypeSession) :
    Except TypeFault Unit × TypeSession :=
  match openSlots defs session.graph with
  | (.error fault, graph) => (.error fault, ⟨graph, session.scope⟩)
  | (.ok slots, graph) =>
    match code.aliasCycle defs with
    | some cycle =>
      (.error (.aliasCycle (cycle.map fun position => names.lookup (defs[position]?.getD default).name)),
        ⟨graph, session.scope⟩)
    | none => fill names code (defs.zip slots) ⟨graph, session.scope.push (AliasFrame.ofDefinitions slots)⟩

/-- Filling slots in place is filling them in the scope that stays in place until a definition is refused. -/
theorem fill_eq (todo : List (AliasDef × Name × TypeId)) (session : TypeSession) :
    session.fill names code todo =
      match fillSlots names code session.scope todo session.graph with
      | (.ok (), graph) => (.ok (), ⟨graph, session.scope⟩)
      | (.error fault, graph) => (.error fault, ⟨graph, session.scope.pop⟩) := by
  induction todo generalizing session with
  | nil => rfl
  | cons entry rest ih =>
    obtain ⟨definition, name, slot⟩ := entry
    rw [fill, fillSlots]
    rcases resolved : resolve names code session.scope definition.type session.graph with ⟨fault | target, graph⟩
    · rw [bind_of_error resolved]
    · rw [bind_of_ok resolved]
      exact ih _

/-- Defining a group in place leaves the scope inside it, or the scope that there was. -/
theorem defineAliases_eq (session : TypeSession) :
    session.defineAliases names code defs =
      match Resolution.defineAliases names code session.scope defs session.graph with
      | (.ok inner, graph) => (.ok (), ⟨graph, inner⟩)
      | (.error fault, graph) => (.error fault, ⟨graph, session.scope⟩) := by
  obtain ⟨slots, middle, opened⟩ := openSlots_succeeds defs session.graph
  have step : Resolution.defineAliases names code session.scope defs session.graph = _ := bind_of_ok opened
  rw [step, defineAliases, opened]
  -- Both open the same slots and look for the same circle; the scope inside is only put in place at
  -- the end.
  cases code.aliasCycle defs with
  | some cycle => rfl
  | none =>
    simp only [fill_eq]
    rcases fills : fillSlots names code (session.scope.push (AliasFrame.ofDefinitions slots)) (defs.zip slots) middle
      with ⟨fault | filled, last⟩
    · rw [bind_of_error fills]
      rfl
    · rw [bind_of_ok fills]
      rfl

/-- A group that is defined in place is entered, or the scope stays what it is. -/
theorem defineAliases_cases {outcome : Except TypeFault Unit}
    (ran : session.defineAliases names code defs = (outcome, later)) :
    (outcome = .ok () ∧ Resolution.defineAliases names code session.scope defs session.graph =
      (.ok later.scope, later.graph)) ∨
    ∃ fault, outcome = .error fault ∧ later.scope = session.scope ∧
      Resolution.defineAliases names code session.scope defs session.graph = (.error fault, later.graph) := by
  rw [defineAliases_eq] at ran
  rcases resolved : Resolution.defineAliases names code session.scope defs session.graph with ⟨fault | inner, graph⟩
  · rw [resolved] at ran
    obtain ⟨rfl, rfl⟩ := Prod.mk.inj ran
    exact .inr ⟨fault, rfl, rfl, rfl⟩
  · rw [resolved] at ran
    obtain ⟨rfl, rfl⟩ := Prod.mk.inj ran
    exact .inl ⟨rfl, rfl⟩

/-- The graph after a group was defined in place is that after it was defined. -/
theorem defineAliases_graph (session : TypeSession) : (session.defineAliases names code defs).2.graph =
    (Resolution.defineAliases names code session.scope defs session.graph).2 := by
  rcases ran : session.defineAliases names code defs with ⟨outcome, later⟩
  rcases defineAliases_cases ran with ⟨-, resolved⟩ | ⟨fault, -, -, resolved⟩ <;> rw [resolved]

/-- All aliases of a scope are in a graph. -/
def Knows (graph : TypeGraph) (scope : Scope) : Prop :=
  ∀ frame ∈ scope.frames, ∀ entry ∈ frame, entry.2 < graph.size

section

variable {graph before after : TypeGraph} {scope : Scope}

/-- The aliases of a known scope are in scope. -/
theorem Knows.inScope (known : Knows graph scope) : InScope graph scope := by
  intro name slot found
  obtain ⟨frame, member, bound⟩ := List.exists_of_findSome?_eq_some found
  exact known frame member (name, slot) (mem_of_lookup bound)

/-- A scope stays known. -/
theorem Knows.extends (known : Knows before scope) (extended : before.Extends after) : Knows after scope :=
  fun frame member entry among => Nat.lt_of_lt_of_le (known frame member entry among) extended.size

/-- A scope is known when its innermost frame and the scope around it are. -/
theorem Knows.push (known : Knows graph scope) {frame : AliasFrame} (new : ∀ entry ∈ frame, entry.2 < graph.size) :
    Knows graph (scope.push frame) := by
  intro other member
  rcases List.mem_cons.mp member with rfl | member
  · exact new
  · exact known other member

/-- The scope around a known one is known. -/
theorem Knows.pop (known : Knows graph scope) : Knows graph scope.pop :=
  fun frame member => known frame (List.mem_of_mem_tail member)

end

/-- What a resolver and a scope can be asked for. -/
inductive Next (names : NameTable) (code : Code) : TypeSession → TypeSession → Prop
  /-- A type is resolved, or found to be wrong. -/
  | resolve (session : TypeSession) (type : TypeExprId) :
    Next names code session { session with graph := (resolve names code session.scope type session.graph).2 }
  /-- A group is defined, or refused. -/
  | define (session : TypeSession) (defs : List AliasDef) :
    Next names code session (session.defineAliases names code defs).2
  | push (session : TypeSession) (frame : AliasFrame) (known : ∀ entry ∈ frame, entry.2 < session.graph.size) :
    Next names code session { session with scope := session.scope.push frame }
  | pop (session : TypeSession) : Next names code session { session with scope := session.scope.pop }
  /-- Another scope is used from now on. -/
  | switch (session : TypeSession) (scope : Scope) (known : Knows session.graph scope) :
    Next names code session { session with scope := scope }

/-- What holds of every session: aliases lead to empty slots or to types, and the slots in scope are there. -/
structure Orderly (session : TypeSession) : Prop where
  tidy : session.graph.Tidy session.graph.EmptySlot
  known : Knows session.graph session.scope

/-- Nothing that a session is asked for changes the nodes that are there. -/
theorem Next.extends (next : Next names code session later) : session.graph.Extends later.graph := by
  cases next with
  | resolve type => exact resolve_extends names code session.scope type session.graph
  | define defs =>
    rw [defineAliases_graph]
    exact defineAliases_extends names code session.scope defs session.graph
  | push | pop | switch => exact .refl _

/-- The slots of a group that was entered are known. -/
theorem knows_within {graph : TypeGraph} {scope inner : Scope} (known : Knows session.graph scope)
    (ran : Resolution.defineAliases names code scope defs session.graph = (.ok inner, graph)) : Knows graph inner := by
  obtain ⟨rfl, -, middle, extended, count, -, fills⟩ := defineAliases_steps ran
  have whole := defineAliases_extends names code scope defs session.graph
  rw [ran] at whole
  have grown : middle.size ≤ graph.size := by
    have kept := fillSlots_keeps names code (within scope defs session.graph.size)
      (fun entry member => (@bounds_of_mem_zip_slots defs session.graph.size entry member).1)
    obtain ⟨grown, -⟩ := kept middle extended.size
    rwa [fills] at grown
  -- The slots lie within the graph whose slots have been opened, and filling them adds nodes only.
  refine (known.extends whole).push fun entry member => ?_
  obtain ⟨⟨definition, slot⟩, numbered, rfl⟩ := List.mem_map.mp (List.mem_reverse.mp member)
  have bound := (List.mem_zipIdx numbered).2.1
  exact Nat.lt_of_lt_of_le bound (count ▸ grown)

/-- Whatever a session is asked for, aliases go on leading to empty slots or to types. -/
theorem Next.orderly (next : Next names code session later) (orderly : session.Orderly) : later.Orderly := by
  have extended := next.extends
  cases next with
  | resolve type => exact ⟨resolve_tidy orderly.tidy orderly.known.inScope type rfl, orderly.known.extends extended⟩
  | define defs =>
    rcases ran : session.defineAliases names code defs with ⟨outcome, after⟩
    rw [ran] at extended
    have tidy : after.graph.Tidy after.graph.EmptySlot := by
      have graph := @defineAliases_graph names code defs session
      rw [ran] at graph
      exact defineAliases_tidy orderly.tidy orderly.known.inScope graph.symm
    refine ⟨tidy, ?_⟩
    -- A group that was entered is known in the graph after it; a refused one leaves the scope as it
    -- was.
    rcases defineAliases_cases ran with ⟨-, resolved⟩ | ⟨fault, -, same, -⟩
    · exact knows_within orderly.known resolved
    · rw [same]
      exact orderly.known.extends extended
  | push frame known => exact ⟨orderly.tidy, orderly.known.push known⟩
  | pop => exact ⟨orderly.tidy, orderly.known.pop⟩
  | switch scope known => exact ⟨orderly.tidy, known⟩

/-- A session goes from state to state. -/
abbrev Reaches (names : NameTable) (code : Code) : TypeSession → TypeSession → Prop :=
  Relation.ReflTransGen (Next names code)

/-- Nothing that a session is ever asked for changes the nodes that are there. -/
theorem Reaches.extends (reached : Reaches names code session later) : session.graph.Extends later.graph := by
  induction reached with
  | refl => exact .refl _
  | tail _ next ih => exact ih.trans next.extends

/-- In every state of a session aliases lead to empty slots or to types. -/
theorem Reaches.orderly (reached : Reaches names code {} session) : session.Orderly := by
  induction reached with
  | refl => exact ⟨⟨nofun, nofun⟩, nofun⟩
  | tail _ next ih => exact next.orderly ih

/-- A group that is entered binds each name to the slot of its last definition, which is filled. -/
theorem entered_of_defineAliases {scope inner : Scope} {graph after : TypeGraph}
    (ran : Resolution.defineAliases names code scope defs graph = (.ok inner, after)) :
    ∃ frame, inner = scope.push frame ∧
      (∀ name position, Code.IsLast defs name position → frame.lookup name = some (graph.size + position)) ∧
      (∀ name, (∀ definition ∈ defs, definition.name ≠ name) → frame.lookup name = none) ∧
      ∀ position (inside : position < defs.length), ∃ target,
        after.node (graph.size + position) = .aliasSlot defs[position].name (some target) ∧
          after.Image code inner (defs[position].type + 1) defs[position].type target := by
  obtain ⟨rfl, -, middle, opened, fills⟩ := defineAliases_opens ran
  have vacant := vacant_of_openSlots opened
  refine ⟨AliasFrame.ofDefinitions (slotsFrom defs graph.size), rfl, fun name position last => ?_,
    fun name absent => ?_, fun position inside => ?_⟩
  · rw [lookup_slots, Code.definitionOf_eq_some_iff.mpr last]
    rfl
  · rw [lookup_slots, Option.map_eq_none_iff]
    by_contra found
    obtain ⟨position, found⟩ := Option.ne_none_iff_exists'.mp found
    obtain ⟨⟨definition, here, named⟩, -⟩ := Code.definitionOf_eq_some_iff.mp found
    exact absent definition (List.mem_of_getElem? here) named
  · obtain ⟨refined, images⟩ := fillSlots_images vacant (zip_slots_nodup defs graph.size) fills
    have entry := @mem_zip_slots defs graph.size position inside
    obtain ⟨name, target, filled, image⟩ := images _ entry
    -- A slot is filled under the name that it was opened with.
    rcases refined.kept _ (vacant _ entry).1 with same | ⟨given, _, empty, named⟩
    · cases (filled.symm.trans same).trans (openSlots_node opened inside)
    · cases empty.symm.trans (openSlots_node opened inside)
      cases filled.symm.trans named
      exact ⟨target, filled, image⟩

/--
Groups of aliases are defined whole or not at all, and types are only added. A group that is refused leaves the scope
as it was. One that is not adds one frame, which binds each name to the slot of its last definition, and the slot is
filled with what the definition becomes. Whether a group is defined or refused and a type resolved or found to be
wrong, the nodes that were there stay as they were, so that in all that follows their aliases are followed, and they
are written and opened, as before.
-/
theorem defineAliases_atomic (reached : Reaches names code {} session) (defs : List AliasDef)
    {outcome : Except TypeFault Unit} (ran : session.defineAliases names code defs = (outcome, later)) :
    (∀ fault, outcome = .error fault → later.scope = session.scope) ∧
    (outcome = .ok () → ∃ frame, later.scope = session.scope.push frame ∧
      (∀ name position, Code.IsLast defs name position → frame.lookup name = some (session.graph.size + position)) ∧
      (∀ name, (∀ definition ∈ defs, definition.name ≠ name) → frame.lookup name = none) ∧
      ∀ position (inside : position < defs.length), ∃ target,
        later.graph.node (session.graph.size + position) = .aliasSlot defs[position].name (some target) ∧
          later.graph.Image code later.scope (defs[position].type + 1) defs[position].type target) ∧
    session.graph.Extends later.graph ∧
    (∀ scope type, session.graph.Extends (resolve names code scope type session.graph).2) ∧
    ∀ last, Reaches names code session last → ∀ id < session.graph.size,
      last.graph.node id = session.graph.node id ∧ last.graph.follow id = session.graph.follow id ∧
        last.graph.display names id = session.graph.display names id ∧
        ∀ depth, last.graph.unfold depth id = session.graph.unfold depth id := by
  have tidy := reached.orderly.tidy
  have defined : Next names code session later := by
    have next : Next names code session (session.defineAliases names code defs).2 := .define session defs
    rwa [ran] at next
  refine ⟨fun fault refused => ?_, fun entered => ?_, defined.extends,
    fun scope type => resolve_extends names code scope type session.graph, fun last further id inside => ?_⟩
  · rcases defineAliases_cases ran with ⟨entered, -⟩ | ⟨-, -, same, -⟩
    · cases refused.symm.trans entered
    · exact same
  · rcases defineAliases_cases ran with ⟨-, resolved⟩ | ⟨fault, refused, -⟩
    · exact entered_of_defineAliases resolved
    · cases refused.symm.trans entered
  · have extended := further.extends
    exact ⟨extended.same id inside, ((tidy.settles id inside).follow_extends extended).1,
      tidy.display_extends extended names inside, fun depth => tidy.unfold_extends extended depth inside⟩

/-- The types `Num`, `B`, `C`, `A` and `List A`, for the aliases `A`, `B` and `C`. -/
def partialAliases : Code where
  types := #[.num, .aliasRef 2, .aliasRef 3, .aliasRef 1, .list 3]

/--
The group `A = B, B = C` is refused when `A` has been linked already. In the session that goes on, `A = List A` is
defined, and what is left of the first group is followed and written as before.
-/
theorem defineAliases_atomic_partialAliases :
    let names : NameTable := ⟨#["", "A", "B", "C"]⟩
    let session : TypeSession := ((⟨{}, {}⟩ : TypeSession).defineAliases names partialAliases [⟨1, 1⟩, ⟨2, 2⟩]).2
    let later : TypeSession := (session.defineAliases names partialAliases [⟨1, 4⟩]).2
    session.scope = {} ∧ session.graph.node 0 = .aliasSlot 1 (some 1) ∧ session.graph.node 1 = .aliasSlot 2 none ∧
      later.scope.depth = 1 ∧ later.scope.lookup 1 = some 2 ∧ later.graph.follow 0 = 1 ∧
      later.graph.display names 0 = "B" := by
  intro names session later
  have first : Reaches names partialAliases {} session := .single (.define {} _)
  have next : Reaches names partialAliases session later := .single (.define session _)
  obtain ⟨refused, -⟩ := @defineAliases_atomic names partialAliases {} session .refl [⟨1, 1⟩, ⟨2, 2⟩] _ rfl
  obtain ⟨-, entered, -, -, stays⟩ := @defineAliases_atomic names partialAliases session later first [⟨1, 4⟩] _ rfl
  obtain ⟨frame, scope, binds, -⟩ := entered rfl
  obtain ⟨-, followed, written, -⟩ := stays later next 0 (by decide)
  have empty : session.scope = {} := refused _ rfl
  have last : Code.IsLast [⟨1, 4⟩] 1 0 := Code.definitionOf_eq_some_iff.mp rfl
  refine ⟨empty, rfl, rfl, ?_, ?_, followed.trans rfl, written.trans rfl⟩
  · rw [scope, empty]
    rfl
  · rw [scope, Scope.lookup, Scope.push, List.findSome?_cons, binds 1 0 last]
    rfl

end TypeSession

end LazyConfig
