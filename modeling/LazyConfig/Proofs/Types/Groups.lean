import LazyConfig.Proofs.Types.Resolve

/-!
Groups of aliases. Their slots are filled with definitions that may name other slots of the group,
and since no alias leads back to itself all of them settle in the end.
-/

namespace LazyConfig.Resolution

open TypeGraph

/-- The slots of a group, from a position on, under the names of the definitions. -/
abbrev slotsFrom (defs : List AliasDef) (base : TypeId) : List (Name × TypeId) :=
  (defs.zipIdx base).map fun entry => (entry.1.name, entry.2)

/-- The scope inside a group whose slots begin at a position. -/
abbrev within (scope : Scope) (defs : List AliasDef) (base : TypeId) : Scope :=
  scope.push (AliasFrame.ofDefinitions (slotsFrom defs base))

section

variable {defs : List AliasDef} {base : TypeId}

/-- Each definition goes with the slot at its position. -/
theorem mem_zip_slots {position : Nat} (inside : position < defs.length) :
    (defs[position], defs[position].name, base + position) ∈ defs.zip (slotsFrom defs base) := by
  refine List.mem_iff_getElem.mpr ⟨position, by simpa using inside, ?_⟩
  simp

/-- The slots of a group are as many as the definitions. -/
theorem bounds_of_mem_zip_slots {entry : AliasDef × Name × TypeId}
    (member : entry ∈ defs.zip (slotsFrom defs base)) :
    base ≤ entry.2.2 ∧ entry.2.2 < base + defs.length := by
  obtain ⟨⟨definition, slot⟩, numbered, same⟩ := List.mem_map.mp (List.of_mem_zip member).2
  have bounds := List.mem_zipIdx numbered
  rw [← same]
  exact ⟨bounds.1, bounds.2.1⟩

/-- The slots of a group are all different. -/
theorem zip_slots_nodup (defs : List AliasDef) (base : TypeId) :
    ((defs.zip (slotsFrom defs base)).map fun entry => entry.2.2).Nodup := by
  have numbers : ((defs.zip (slotsFrom defs base)).map fun entry => entry.2.2) =
      List.range' base defs.length := by
    rw [← List.zipIdx_map_snd base defs]
    apply List.ext_getElem <;> simp
  rw [numbers]
  exact List.nodup_range'

end

/-- The slots of a group are new, empty and in the order of the definitions. -/
theorem openSlots_ok {defs : List AliasDef} {graph later : TypeGraph} {slots : List (Name × TypeId)}
    (ran : openSlots defs graph = (.ok slots, later)) :
    slots = slotsFrom defs graph.size ∧
      graph.Extends later ∧ later.size = graph.size + defs.length ∧
      ∀ id, graph.size ≤ id → id < later.size → ∃ name, later.node id = .aliasSlot name none := by
  -- By induction on the definitions: each of them opens the next slot.
  induction defs generalizing graph slots with
  | nil =>
    cases ran
    exact ⟨rfl, .refl _, rfl, fun id old new => absurd new (Nat.not_lt.mpr old)⟩
  | cons definition rest ih =>
    obtain ⟨slot, middle, first, others⟩ := bind_ok ran
    obtain ⟨more, last, opened, final⟩ := bind_ok others
    cases final
    obtain ⟨rfl, rfl⟩ : (graph.push (.aliasSlot definition.name none)).1 = slot ∧
        (graph.push (.aliasSlot definition.name none)).2 = middle := by
      cases first
      exact ⟨rfl, rfl⟩
    have size : (graph.push (.aliasSlot definition.name none)).2.size = graph.size + 1 := by
      simp [TypeGraph.push, TypeGraph.size]
    have extended := graph.push_extends (.aliasSlot definition.name none)
    obtain ⟨rfl, further, count, empty⟩ := ih opened
    refine ⟨?_, extended.trans further, ?_, fun id old new => ?_⟩
    · rw [size, slotsFrom, slotsFrom, List.zipIdx_cons, List.map_cons]
      rfl
    · rw [count, size, List.length_cons]
      omega
    · -- The first slot is the node that was added first.
      rcases Nat.eq_or_lt_of_le old with rfl | other
      · refine ⟨definition.name, ?_⟩
        rw [further.same _ (by omega)]
        exact graph.node_push_self _
      · exact empty id (by omega) new

/-- The slots of some definitions are there and still to be filled. -/
def Vacant (graph : TypeGraph) (todo : List (AliasDef × Name × TypeId)) : Prop :=
  ∀ entry ∈ todo, entry.2.2 < graph.size ∧ ∃ name, graph.node entry.2.2 = .aliasSlot name none

/-- When one slot is filled, the others are still to be filled. -/
theorem Vacant.define {graph middle : TypeGraph} {todo : List (AliasDef × Name × TypeId)}
    {slot target : TypeId} {given : Name} (vacant : Vacant graph todo)
    (extended : graph.Extends middle) (empty : middle.node slot = .aliasSlot given none)
    (there : slot < middle.size) (others : slot ∉ todo.map fun entry => entry.2.2) :
    Vacant (middle.define slot target) todo := by
  intro entry member
  obtain ⟨among, name, before⟩ := vacant entry member
  have other : entry.2.2 ≠ slot := fun same => others (List.mem_map.mpr ⟨entry, member, same⟩)
  have refined : graph.Refines (middle.define slot target) :=
    extended.refines.trans (define_refines empty there)
  refine ⟨Nat.lt_of_lt_of_le among refined.size, name, ?_⟩
  rw [define_node empty there, if_neg other, extended.same _ among, before]

/-- Filling slots refines the graph, and each slot links to a type that settles. -/
theorem fillSlots_ok {names : NameTable} {code : Code} {scope : Scope} {goal : TypeId → Prop}
    {todo : List (AliasDef × Name × TypeId)} {graph later : TypeGraph}
    (sound : graph.SoundUpTo goal) (inside : InScope graph scope) (vacant : Vacant graph todo)
    (distinct : (todo.map fun entry => entry.2.2).Nodup)
    (ran : fillSlots names code scope todo graph = (.ok (), later)) :
    graph.Refines later ∧ later.SoundUpTo goal ∧ ∀ entry ∈ todo, ∃ target,
      later.link? entry.2.2 = some target ∧
        later.Settles (Names code scope (entry.1.type + 1) entry.1.type) target := by
  -- By induction on the slots that are left: each is filled with a type that settles, and stays so.
  induction todo generalizing graph with
  | nil =>
    cases ran
    exact ⟨.refl _, sound, nofun⟩
  | cons entry rest ih =>
    obtain ⟨definition, name, slot⟩ := entry
    obtain ⟨target, middle, resolved, others⟩ := bind_ok ran
    obtain ⟨_, filled, defined, more⟩ := bind_ok others
    -- Resolving the definition leaves the slot open, which is then filled with what it came to.
    have adds := resolveAt_adds sound inside resolved
    obtain ⟨here, given, found⟩ := vacant _ List.mem_cons_self
    have there : slot < middle.size := Nat.lt_of_lt_of_le here adds.extended.size
    have open_slot : middle.node slot = .aliasSlot given none :=
      (adds.extended.same slot here).trans found
    obtain rfl : middle.define slot target = filled := by
      cases defined
      rfl
    have refined : middle.Refines (middle.define slot target) := define_refines open_slot there
    have size : (middle.define slot target).size = middle.size := by
      simp [TypeGraph.define, open_slot, TypeGraph.size]
    have kept : (middle.define slot target).SoundUpTo goal :=
      adds.sound.extend refined fun id old new => absurd new (by omega)
    rw [List.map_cons, List.nodup_cons] at distinct
    have others_vacant : Vacant graph rest := fun entry member =>
      vacant entry (List.mem_cons_of_mem _ member)
    have still : Vacant (middle.define slot target) rest :=
      others_vacant.define adds.extended open_slot there distinct.1
    have inScope := inside.refine (adds.extended.refines.trans refined)
    obtain ⟨further, stays, filled⟩ := ih kept inScope still distinct.2 more
    refine ⟨(adds.extended.refines.trans refined).trans further, stays, fun entry member => ?_⟩
    rcases List.mem_cons.mp member with rfl | member
    · refine ⟨target, further.link ?_, adds.settles.refine (refined.trans further)⟩
      rw [link?, define_node open_slot there, if_pos rfl]
    · exact filled entry member

/-- In the scope of a group, a name stands for its last definition. -/
theorem lookup_slots (defs : List AliasDef) (base : Nat) (name : Name) :
    (AliasFrame.ofDefinitions (slotsFrom defs base)).lookup name =
      (Code.definitionOf defs name).map (base + ·) := by
  -- Both look through the definitions from the last to the first.
  have search : ∀ entries : List (AliasDef × Nat),
      ((entries.map fun entry => (entry.1, base + entry.2)).map
        fun entry => (entry.1.name, entry.2)).lookup name =
      ((entries.find? fun entry => entry.1.name == name).map Prod.snd).map (base + ·) := by
    intro entries
    induction entries with
    | nil => rfl
    | cons entry rest ih =>
      rw [List.map_cons, List.map_cons, List.lookup_cons, List.find?_cons]
      by_cases same : entry.1.name = name
      · subst same
        simp
      · have other : ¬ name = entry.1.name := fun equal => same equal.symm
        simp only [beq_eq_false_iff_ne.mpr same, beq_eq_false_iff_ne.mpr other]
        exact ih
  have shifted : defs.zipIdx base =
      (defs.zipIdx 0).map fun entry => (entry.1, base + entry.2) := by
    rw [List.zipIdx_eq_map_add]
  rw [AliasFrame.ofDefinitions, slotsFrom, shifted, ← List.map_reverse, ← List.map_reverse, search]
  rfl

/-- In the scope inside a group, a name stands for its last definition or for what it stood for. -/
theorem lookup_inside {scope : Scope} {defs : List AliasDef} {base : Nat} {name : Name}
    {slot : TypeId} (known : (within scope defs base).lookup name = some slot) :
    (∃ position, Code.definitionOf defs name = some position ∧ slot = base + position) ∨
      scope.lookup name = some slot := by
  rw [within, Scope.lookup, Scope.push, List.findSome?_cons, lookup_slots] at known
  cases found : Code.definitionOf defs name with
  | some position =>
    rw [found] at known
    exact .inl ⟨position, rfl, (Option.some.inj known).symm⟩
  | none =>
    rw [found] at known
    exact .inr known

/-- In a group without circles every slot settles, by way of the definitions that it leads to. -/
theorem settles_of_ends {code : Code} {scope : Scope} {defs : List AliasDef} {base : Nat}
    {graph : TypeGraph} {goal : TypeId → Prop}
    (defined : ∀ position (inside : position < defs.length), graph.Settles goal (base + position) ∨
      ∃ target, graph.link? (base + position) = some target ∧
        graph.Settles (Names code (within scope defs base)
          (defs[position].type + 1) defs[position].type) target)
    (outer : ∀ name slot, scope.lookup name = some slot → graph.Settles goal slot)
    {position : Nat} (ends : Ends (code.successor defs) position)
    (inside : position < defs.length) : graph.Settles goal (base + position) := by
  induction ends with
  -- The definition is not merely a name for another one of the group.
  | @last position final =>
    rcases defined position inside with settled | ⟨target, linked, settles⟩
    · exact settled
    refine .link linked (settles.bind ?_)
    rintro slot ⟨name, merely, found⟩
    rcases lookup_inside found with ⟨next, definition, rfl⟩ | outside
    · -- A definition of the group would be a successor.
      simp [Code.successor, inside, merely, definition] at final
    · exact outer name slot outside
  | @step position next follows _ ih =>
    rcases defined position inside with settled | ⟨target, linked, settles⟩
    · exact settled
    refine .link linked (settles.bind ?_)
    rintro slot ⟨name, merely, found⟩
    rcases lookup_inside found with ⟨other, definition, rfl⟩ | outside
    · -- The definition is merely a name for the next one, which settles by induction.
      obtain rfl : other = next := by
        simpa [Code.successor, inside, merely, definition] using follows
      exact ih (Code.lt_of_definitionOf definition)
    · exact outer name slot outside

/-- A graph that refines a sound one has the same old nodes, since there was no slot to fill. -/
theorem extends_of_refines {before after : TypeGraph} (sound : before.Sound)
    (refined : before.Refines after) : before.Extends after := by
  refine ⟨refined.size, fun id inside => ?_⟩
  rcases refined.kept id inside with same | ⟨name, target, empty, -⟩
  · exact same
  · cases sound id inside with
    | goal _ reached => exact reached.elim
    -- In a sound graph an empty slot is neither a form nor a link, so there is none.
    | shape _ plain =>
      rw [empty] at plain
      cases plain
    | link linked => simp [link?, empty] at linked

/-- A group that is defined has no circle; its slots are opened and then filled in its own scope. -/
theorem defineAliases_opens {names : NameTable} {code : Code} {scope inner : Scope}
    {defs : List AliasDef} {graph later : TypeGraph}
    (ran : defineAliases names code scope defs graph = (.ok inner, later)) :
    inner = within scope defs graph.size ∧ code.aliasCycle defs = none ∧
      ∃ middle, openSlots defs graph = (.ok (slotsFrom defs graph.size), middle) ∧
        fillSlots names code inner (defs.zip (slotsFrom defs graph.size)) middle = (.ok (), later) := by
  obtain ⟨slots, middle, opened, others⟩ := bind_ok ran
  obtain ⟨rfl, -⟩ := openSlots_ok opened
  -- Where there is a circle the group is refused, which it was not.
  cases free : code.aliasCycle defs with
  | some cycle =>
    simp only [free] at others
    exact (throw_not_ok others).elim
  | none =>
    simp only [free] at others
    obtain ⟨_, filled, fills, final⟩ := bind_ok others
    obtain ⟨rfl, rfl⟩ : within scope defs graph.size = inner ∧ filled = later := by
      cases final
      exact ⟨rfl, rfl⟩
    exact ⟨rfl, rfl, middle, opened, fills⟩

/-- The slots of a group are still to be filled once they have been opened. -/
theorem vacant_of_openSlots {defs : List AliasDef} {graph middle : TypeGraph} {slots : List (Name × TypeId)}
    (opened : openSlots defs graph = (.ok slots, middle)) :
    Vacant middle (defs.zip (slotsFrom defs graph.size)) := by
  obtain ⟨-, -, count, empty⟩ := openSlots_ok opened
  intro entry member
  obtain ⟨new, among⟩ := bounds_of_mem_zip_slots member
  rw [← count] at among
  exact ⟨among, empty _ new among⟩

/-- What defining a group does between opening its slots and filling them. -/
theorem defineAliases_steps {names : NameTable} {code : Code} {scope inner : Scope}
    {defs : List AliasDef} {graph later : TypeGraph}
    (ran : defineAliases names code scope defs graph = (.ok inner, later)) :
    inner = within scope defs graph.size ∧ code.aliasCycle defs = none ∧
      ∃ middle, graph.Extends middle ∧ middle.size = graph.size + defs.length ∧
        Vacant middle (defs.zip (slotsFrom defs graph.size)) ∧
        fillSlots names code inner (defs.zip (slotsFrom defs graph.size)) middle = (.ok (), later) := by
  obtain ⟨rfl, free, middle, opened, fills⟩ := defineAliases_opens ran
  obtain ⟨-, extended, count, -⟩ := openSlots_ok opened
  exact ⟨rfl, free, middle, extended, count, vacant_of_openSlots opened, fills⟩

/-- Defining a group of aliases leaves a sound graph, in which the old nodes are as they were. -/
theorem defineAliases_ok {names : NameTable} {code : Code} {scope inner : Scope}
    {defs : List AliasDef} {graph later : TypeGraph} (sound : graph.Sound)
    (known : InScope graph scope)
    (ran : defineAliases names code scope defs graph = (.ok inner, later)) :
    graph.Extends later ∧ later.Sound ∧ InScope later inner := by
  obtain ⟨rfl, free, middle, extended, count, vacant, fills⟩ := defineAliases_steps ran
  -- While the group is filled, its slots may be ends of links.
  have partly : middle.SoundUpTo fun id => graph.size ≤ id ∧ id < middle.size := by
    intro id inside
    by_cases old : id < graph.size
    · exact ((sound id old).refine extended.refines).weaken fun _ => False.elim
    · exact .goal inside ⟨Nat.not_lt.mp old, inside⟩
  have inScope : InScope middle (within scope defs graph.size) := by
    intro name slot found
    rcases lookup_inside found with ⟨position, defined, rfl⟩ | outside
    · show graph.size + position < middle.size
      rw [count]
      exact Nat.add_lt_add_left (Code.lt_of_definitionOf defined) _
    · exact Nat.lt_of_lt_of_le (known name slot outside) extended.size
  obtain ⟨refined, stays, defined⟩ :=
    fillSlots_ok partly inScope vacant (zip_slots_nodup defs graph.size) fills
  have whole := extended.refines.trans refined
  have settled : ∀ position, position < defs.length →
      later.Settles (fun _ => False) (graph.size + position) := by
    intro position inside
    have outer : ∀ name slot, scope.lookup name = some slot → later.Settles (fun _ => False) slot :=
      fun name slot found => (sound slot (known name slot found)).refine whole
    exact settles_of_ends (fun position inside => .inr (defined _ (mem_zip_slots inside))) outer
      (Code.ends_of_aliasCycle free inside) inside
  -- What still read as a slot of the group reads on where that slot settles.
  refine ⟨extends_of_refines sound whole, ?_, inScope.refine refined⟩
  intro id inside
  refine (stays id inside).bind fun slot new => ?_
  obtain ⟨position, rfl⟩ := Nat.exists_eq_add_of_le new.1
  have defines : position < defs.length := by
    have bound := new.2
    rw [count] at bound
    exact Nat.lt_of_add_lt_add_left bound
  exact settled position defines

end LazyConfig.Resolution
