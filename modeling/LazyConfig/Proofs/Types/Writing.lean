import LazyConfig.Proofs.Types.Atomic
import LazyConfig.Proofs.Types.Signatures

/-!
Types in messages. What a resolver makes is a tree below the outer aliases, and it is written out whole; so two types
have the same text only if the same is seen of both.
-/

namespace LazyConfig

open Resolution

/-- A node as messages show it, with what is shown of its parts. -/
def TypeNode.signature (names : NameTable) (part : TypeId → Signature) : TypeNode → Signature
  | .num => .num
  | .str => .str
  | .bool => .bool
  | .dyn => .dyn
  | .list elem => .list (part elem)
  | .record fields => .record (fields.map fun field => (names.lookup field.1, part field.2))
  | .dict elem => .dict (part elem)
  | .fn param result => .fn (part param) (part result)
  | .forAll bound body => .forAll (names.lookup bound) (part body)
  | .var name | .aliasSlot name _ => .named (names.lookup name)

/-- What is shown of a node depends on what is shown of its parts only. -/
theorem TypeNode.signature_congr {node : TypeNode} {names : NameTable} {left right : TypeId → Signature}
    (same : ∀ part ∈ node.parts, left part = right part) : node.signature names left = node.signature names right := by
  cases node with
  | record fields =>
    simp only [TypeNode.signature, Signature.record.injEq]
    exact List.map_congr_left fun field member => by rw [same field.2 (List.mem_map_of_mem member)]
  | _ => simp_all [TypeNode.signature, TypeNode.parts]

namespace TypeGraph

/-- What is shown of a type, which stands for its node as it is: only the outer aliases are followed. -/
inductive Displays (graph : TypeGraph) (names : NameTable) : TypeId → Signature → Prop
  | node {id : TypeId} {part : TypeId → Signature}
    (inner : ∀ child ∈ (graph.node id).parts, Displays graph names child (part child)) :
    Displays graph names id ((graph.node id).signature names part)

/-- What messages show of a type. The outer aliases are followed to their end, and all that is below is written. -/
structure Shows (graph : TypeGraph) (names : NameTable) (id : TypeId) (type : Signature) : Prop where
  ends : ∀ name target, graph.node (graph.follow id) ≠ .aliasSlot name (some target)
  displays : ∀ tree, graph.Displays names (graph.follow id) tree ↔ tree = type
  written : graph.display names id = type.text

variable {graph : TypeGraph} {names : NameTable} {goal : TypeId → Prop} {id : TypeId} {type other : Signature}

/-- One tree is shown of a type. -/
theorem Displays.unique (displays : graph.Displays names id type) (also : graph.Displays names id other) :
    type = other := by
  induction displays generalizing other with
  | node inner ih =>
    cases also with
    | node others => exact TypeNode.signature_congr fun child member => ih child member (others child member)

/-- Where nodes come after their parts, there is a tree to be shown. -/
theorem Tidy.displays (tidy : graph.Tidy goal) (names : NameTable) (inside : id < graph.size) :
    ∃ type, graph.Displays names id type := by
  induction id using Nat.strongRecOn with
  | ind id ih =>
    have parts (child : TypeId) : ∃ type, child ∈ (graph.node id).parts → graph.Displays names child type := by
      by_cases member : child ∈ (graph.node id).parts
      · have less := tidy.parts id inside child member
        obtain ⟨type, displays⟩ := ih child less (Nat.lt_trans less inside)
        exact ⟨type, fun _ => displays⟩
      · exact ⟨.num, fun among => absurd among member⟩
    choose part displays using parts
    exact ⟨_, .node displays⟩

/-- A type is written as the text of what is shown of it, in parentheses where it needs them. -/
theorem Displays.write (displays : graph.Displays names id type) (tidy : graph.Tidy goal) (inside : id < graph.size)
    {fuel : Nat} (enough : id < fuel) (nested : Bool) :
    graph.write names fuel nested id = parens (nested && type.grouped) type.text := by
  -- By induction on what is shown; a part has a smaller number, so the levels left are enough for
  -- it.
  induction displays generalizing fuel nested with
  | @node id part inner ih =>
    obtain ⟨fuel, rfl⟩ := Nat.exists_eq_succ_of_ne_zero (Nat.ne_zero_of_lt enough)
    have parts {child : TypeId} (nested : Bool) (member : child ∈ (graph.node id).parts) :
        graph.write names fuel nested child = parens (nested && (part child).grouped) (part child).text := by
      have less := tidy.parts id inside child member
      exact ih child member (Nat.lt_trans less inside) (Nat.lt_of_lt_of_le less (Nat.le_of_lt_succ enough)) nested
    -- Lists, functions and generic types are written in parentheses inside others, the rest never are.
    have grouped (type : Signature) (group : type.grouped = true) :
        parens nested type.text = parens (nested && type.grouped) type.text := by
      rw [group, Bool.and_true]
    have alone (type : Signature) (single : type.grouped = false) :
        type.text = parens (nested && type.grouped) type.text := by
      rw [single, Bool.and_false]
      rfl
    rw [TypeGraph.write]
    cases found : graph.node id with
    | num => exact alone .num rfl
    | str => exact alone .str rfl
    | bool => exact alone .bool rfl
    | dyn => exact alone .dyn rfl
    | var name | aliasSlot name target => exact alone (.named (names.lookup name)) rfl
    | list elem =>
      rw [found] at parts
      have inner := parts true (List.mem_singleton_self elem)
      exact (congrArg (fun text => parens nested ("List " ++ text)) inner).trans (grouped (.list (part elem)) rfl)
    | dict elem =>
      rw [found] at parts
      have inner := parts false (List.mem_singleton_self elem)
      exact (congrArg (fun text => "\x7b_ : " ++ text ++ "\x7d") inner).trans (alone (.dict (part elem)) rfl)
    | forAll var body =>
      rw [found] at parts
      have inner := parts false (List.mem_singleton_self body)
      exact (congrArg (fun text => parens nested ("forall " ++ names.lookup var ++ ". " ++ text)) inner).trans
        (grouped (.forAll (names.lookup var) (part body)) rfl)
    | fn param result =>
      rw [found] at parts
      have first := parts true List.mem_cons_self
      have second := parts false (List.mem_cons_of_mem param (List.mem_singleton_self result))
      exact (congrArg₂ (fun left right => parens nested (left ++ " -> " ++ right)) first second).trans
        (grouped (.fn (part param) (part result)) rfl)
    | record fields =>
      rw [found] at parts
      have entries : (fields.map fun field => names.lookup field.1 ++ " : " ++ graph.write names fuel false field.2) =
          Signature.entries (fields.map fun field => (names.lookup field.1, part field.2)) := by
        rw [Signature.entries_eq, List.map_map]
        refine List.map_congr_left fun field member => ?_
        exact congrArg (names.lookup field.1 ++ " : " ++ ·) (parts false (List.mem_map_of_mem member))
      exact (congrArg (fun entries => "\x7b" ++ ", ".intercalate entries ++ "\x7d") entries).trans
        (alone (.record _) rfl)

/-- What messages show of a type of a graph that a resolver has made. -/
theorem Tidy.shows (tidy : graph.Tidy graph.EmptySlot) (names : NameTable) (inside : id < graph.size) :
    ∃ type, graph.Shows names id type := by
  have settles := tidy.settles id inside
  obtain ⟨-, there⟩ := settles.follow_extends (.refl graph)
  obtain ⟨count, shape, reads⟩ := settles.readsIn
  obtain ⟨-, -, -, ends⟩ := reads.followSteps (Nat.le_succ_of_le reads.count_le)
  obtain ⟨type, displays⟩ := tidy.displays names there
  refine ⟨type, ends, fun tree => ⟨fun also => also.unique displays, fun same => same ▸ displays⟩, ?_⟩
  exact displays.write tidy there (Nat.lt_succ_of_lt there) false

end TypeGraph

namespace TypeSession

/--
What a resolver has made is displayed as a tree, and the text tells which one: two types that are displayed alike, of the
same or of different resolvers, show the same tree as long as all names in both are identifiers.
-/
theorem display_unambiguous {names others : NameTable} {code program : Code} {session other : TypeSession}
    (reached : Reaches names code {} session) (also : Reaches others program {} other) (texts words : NameTable)
    {id image : TypeId} (inside : id < session.graph.size) (there : image < other.graph.size) :
    ∃ type same, session.graph.Shows texts id type ∧ other.graph.Shows words image same ∧
      (type.Clear → same.Clear → session.graph.display texts id = other.graph.display words image → type = same) := by
  obtain ⟨type, shows⟩ := reached.orderly.tidy.shows texts inside
  obtain ⟨same, shown⟩ := also.orderly.tidy.shows words there
  refine ⟨type, same, shows, shown, fun clear plain alike => clear.text_inj plain ?_⟩
  rw [← shows.written, ← shown.written, alike]

/-- The types `Num`, `T` and `List T`, for the alias `T`. -/
def listOfAlias : Code where
  types := #[.num, .aliasRef 1, .list 1]

/-- The types `T`, `List T` and `forall T. List T`. -/
def listOfVariable : Code where
  types := #[.var 2, .list 0, .forAll 2 1]

/-- A list of an alias and a list of a variable are displayed alike if the names are, and the same is shown of both. -/
theorem display_unambiguous_sameName :
    let texts : NameTable := ⟨#["", "T"]⟩
    let words : NameTable := ⟨#["", "a", "T"]⟩
    let defined : TypeSession := ((⟨{}, {}⟩ : TypeSession).defineAliases texts listOfAlias [⟨1, 0⟩]).2
    let session : TypeSession := ⟨(resolve texts listOfAlias defined.scope 2 defined.graph).2, defined.scope⟩
    let other : TypeSession := ⟨(resolve words listOfVariable {} 2 {}).2, {}⟩
    session.graph.display texts 2 = "List T" ∧ session.graph.display texts 2 = other.graph.display words 1 ∧
      ∃ type : Signature, session.graph.Shows texts 2 type ∧ other.graph.Shows words 1 type := by
  intro texts words defined session other
  have reached : Reaches texts listOfAlias {} session := (Relation.ReflTransGen.single (.define {} _)).tail (.resolve defined 2)
  have also : Reaches words listOfVariable {} other := .single (.resolve {} 2)
  have name : Signature.Identifier "T" := .of_alphanumeric (by decide) (by decide) (by decide)
  have clear : Signature.Clear (.list (.named "T")) := .list (.named name)
  obtain ⟨type, same, shows, shown, tells⟩ := display_unambiguous reached also texts words
    (show 2 < session.graph.size by decide) (show 1 < other.graph.size by decide)
  have first : session.graph.Displays texts (session.graph.follow 2) (.list (.named "T")) :=
    @TypeGraph.Displays.node _ _ 2 (fun _ => .named "T") fun child member => by
      obtain rfl : child = 0 := List.mem_singleton.mp member
      exact @TypeGraph.Displays.node _ _ 0 (fun _ => .num) nofun
  have second : other.graph.Displays words (other.graph.follow 1) (.list (.named "T")) :=
    @TypeGraph.Displays.node _ _ 1 (fun _ => .named "T") fun child member => by
      obtain rfl : child = 0 := List.mem_singleton.mp member
      exact @TypeGraph.Displays.node _ _ 0 (fun _ => .num) nofun
  have alike : session.graph.display texts 2 = other.graph.display words 1 := rfl
  obtain rfl : type = same :=
    tells ((shows.displays _).mp first ▸ clear) ((shown.displays _).mp second ▸ clear) alike
  exact ⟨rfl, alike, type, shows, shown⟩

end TypeSession

end LazyConfig
