import LazyConfig.Proofs.Nodes.Calls
import LazyConfig.Proofs.Nodes.Passes
import LazyConfig.Proofs.Types.Atomic

/-!
The order of nodes. What a builder makes and what resolving types makes refers to what was there before, except that
aliases may lead to types that were made after them. For this reason every pass over code and types comes to an end.
-/

namespace LazyConfig

/-- All nodes that a node of a tidy graph refers to are there. -/
theorem TypeGraph.Tidy.links {graph : TypeGraph} (tidy : graph.Tidy graph.EmptySlot) {id link : TypeId}
    (inside : id < graph.size) (member : link ∈ (graph.node id).links) : link < graph.size := by
  cases found : graph.node id with
  | aliasSlot name target =>
    -- An alias that is defined settles where its definition does.
    rw [found] at member
    obtain rfl : target = some link := Option.mem_toList.mp member
    have linked : graph.link? id = some link := by rw [link?, found]
    cases tidy.settles id inside with
    | goal _ empty =>
      obtain ⟨other, empty⟩ := empty
      cases found.symm.trans empty
    | shape _ plain => simp [found, TypeNode.isShape] at plain
    | link other rest =>
      cases linked.symm.trans other
      exact rest.inside
  | _ =>
    -- Any other node refers to its parts only.
    have part : link ∈ (graph.node id).parts := by
      rw [found] at member ⊢
      exact member
    exact Nat.lt_trans (tidy.parts id inside link part) inside

/--
Nodes come after their parts, so that passes end. However calls of a builder follow one another, each node refers to
nodes that were made before it, and no call changes a node that is there. Whatever is resolved or found to be wrong,
types are made of types that were made before them, and aliases lead to types that are there. Hence recursions end in
all code that a builder makes: looking for an alias and resolving a type go no deeper than the position of the type,
and defining a group and resolving the annotations of a program have a result under every limit that is high enough.
Writing a type goes no deeper than its position either, although aliases may lead back to it. These results are the
ones of the definitions in which the recursion is bounded.
-/
theorem passes_end {names others : NameTable} {session : BuildSession} {code : Code} {types : TypeSession}
    (built : BuildSession.Reaches (.start names) session) (resolved : TypeSession.Reaches others code {} types) :
    (session.code.ChildrenFirst ∧ ∀ later, session.Reaches later → session.code.Extends later.code) ∧
    (∀ id < types.graph.size, (∀ part ∈ (types.graph.node id).parts, part < id) ∧
      ∀ link ∈ (types.graph.node id).links, link < types.graph.size) ∧
    (∀ id < session.code.types.size, ∀ limit > id,
      Limited.merelyNames session.code limit id = some (session.code.unguardedAlias (id + 1) id) ∧
      ∀ names scope vars, Limited.resolve names session.code scope limit vars id =
        Limited.resolved (Resolution.resolveAt names session.code scope (id + 1) vars id)) ∧
    (∀ names scope defs, (∀ definition ∈ defs, definition.type < session.code.types.size) →
      ∀ limit, session.code.types.size ≤ limit → 2 * defs.length ≤ limit →
        Limited.defineAliases names session.code scope limit defs =
          Limited.resolved (Resolution.defineAliases names session.code scope defs)) ∧
    (∀ names, ∀ root < session.code.exprs.size, ∃ bound, ∀ limit ≥ bound,
      Limited.annotations names session.code limit root = some (Annotations.ofRoot names session.code root)) ∧
    ∀ names, ∀ id < types.graph.size,
      (∀ limit > id, ∀ nested,
        Limited.write types.graph names limit nested id = some (types.graph.write names (id + 1) nested id)) ∧
      ∀ limit ≥ types.graph.size,
        Limited.display types.graph names limit id = some (types.graph.display names id) := by
  -- Everything rests on two facts: nodes come after their parts, and in the graph types come after
  -- theirs.
  obtain ⟨⟨ordered, known⟩, -⟩ := (BuildSession.start_orderly names).reaches built
  have tidy := resolved.orderly.tidy
  refine ⟨⟨ordered, fun later further => ?_⟩, fun id inside => ⟨tidy.parts id inside, fun link => tidy.links inside⟩,
    fun id inside limit room => ⟨?_, fun names scope vars => ?_⟩, fun names scope defs inside limit room turns => ?_,
    fun names root inside => ?_, fun names id inside => ⟨fun limit room nested => ?_, fun limit room => ?_⟩⟩
  · exact (BuildSession.Orderly.reaches ⟨ordered, known⟩ further).2
  · exact Limited.merelyNames_eq ordered inside room (Nat.lt_succ_self id)
  · exact Limited.resolve_eq ordered inside room (Nat.lt_succ_self id)
  · exact Limited.defineAliases_eq ordered room inside turns
  · exact Limited.annotations_eq ordered names inside
  · exact Limited.write_eq tidy.parts inside room (Nat.lt_succ_self id) nested
  · exact Limited.display_eq tidy inside room

/-- The calls that build `typealias T = List T in ([] : T)`. -/
def recursiveListCalls : List BuildCall :=
  [.type (.aliasRef 1), .type (.list 0), .list [], .ascribe 0 0, .expr (.aliases [⟨1, 1⟩] 1)]

/-- A program with a recursive alias: its annotation is resolved, and its type is written although it is a circle. -/
theorem passes_end_recursiveList :
    let names : NameTable := ⟨#["", "T"]⟩
    let session := recursiveListCalls.foldl BuildSession.perform (.start names)
    let types := ((⟨{}, {}⟩ : TypeSession).defineAliases names session.code [⟨1, 1⟩]).2
    types.graph.node 0 = .aliasSlot 1 (some 1) ∧ types.graph.node 1 = .list 0 ∧
      (∀ limit ≥ 2, Limited.display types.graph names limit 0 = some "List T") ∧
      ∃ annotations bound, (∀ limit ≥ bound, Limited.annotations names session.code limit 2 = some (.ok annotations)) ∧
        annotations.get? 0 = some 0 := by
  intro names session types
  have built : BuildSession.Reaches (.start names) session := by
    refine .head (.call _ (.type (.aliasRef 1)) ?_) <| .head (.call _ (.type (.list 0)) ?_) <|
      .head (.call _ (.list []) ?_) <| .head (.call _ (.ascribe 0 0) ?_) <|
      .head (.call _ (.expr (.aliases [⟨1, 1⟩] 1)) ?_) .refl
    -- Each call is given what the calls before it gave.
    all_goals decide
  have resolved : TypeSession.Reaches names session.code {} types := .single (.define _ _)
  obtain ⟨-, -, -, -, pass, writes⟩ := passes_end built resolved
  obtain ⟨bound, ends⟩ := pass names 2 (by decide)
  exact ⟨rfl, rfl, (writes names 0 (by decide)).2, _, bound, ends, rfl⟩

end LazyConfig
