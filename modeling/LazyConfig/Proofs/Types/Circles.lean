import LazyConfig.Proofs.Types.Cycle
import LazyConfig.Proofs.Types.Meaning
import Mathlib.Logic.Relation

/-!
Which groups of aliases are refused for a circle: those in which some definition, seen through any number of
generic variables, is a reference to a definition of the group, that to the next one, and so on back to itself.
-/

namespace LazyConfig

namespace Code

variable {code : Code} {defs : List AliasDef}

/-- A type that is, under zero or more generic variables, a reference to an alias. -/
inductive Unguarded (code : Code) : TypeExprId → Name → Prop
  | here {id : TypeExprId} {name : Name} (found : code.type id = .aliasRef name) : Unguarded code id name
  | under {id body : TypeExprId} {var name : Name} (found : code.type id = .forAll var body)
    (rest : Unguarded code body name) : Unguarded code id name

/-- A definition of a name that no other definition of the name comes after. -/
def IsLast (defs : List AliasDef) (name : Name) (position : Nat) : Prop :=
  (∃ definition, defs[position]? = some definition ∧ definition.name = name) ∧
    ∀ later definition, position < later → defs[later]? = some definition → definition.name ≠ name

/-- The type of a definition is an unguarded reference to a name that means another definition of the group. -/
def Refers (code : Code) (defs : List AliasDef) (position next : Nat) : Prop :=
  ∃ definition name, defs[position]? = some definition ∧ code.Unguarded definition.type name ∧
    IsLast defs name next

/-- The search for an unguarded reference finds it, since the parts of a type come before it. -/
theorem unguardedAlias_eq_some_iff (ordered : code.ChildrenFirst) {fuel : Nat} {id : TypeExprId} {name : Name}
    (enough : id < fuel) : code.unguardedAlias fuel id = some name ↔ code.Unguarded id name := by
  -- By induction on the turns that are left: a part has a smaller number than the type, so that one
  -- turn less is enough.
  induction fuel generalizing id with
  | zero => exact absurd enough (Nat.not_lt_zero _)
  | succ fuel ih =>
    have part {child : TypeExprId} (member : child ∈ (code.type id).children) : child < fuel :=
      Nat.lt_of_lt_of_le (ordered.type_lt member) (Nat.le_of_lt_succ enough)
    rw [unguardedAlias]
    constructor
    · intro found
      split at found
      · rename_i written
        exact .here (Option.some.inj found ▸ written)
      · rename_i var body written
        refine .under written ((ih (part ?_)).mp found)
        rw [written]
        exact List.mem_singleton_self _
      · cases found
    · intro refers
      cases refers with
      | here written => rw [written]
      | under written rest =>
        rw [written]
        refine (ih (part ?_)).mpr rest
        rw [written]
        exact List.mem_singleton_self _

/-- There is at most one last definition of a name. -/
theorem IsLast.unique {name : Name} {position other : Nat} (left : IsLast defs name position)
    (right : IsLast defs name other) : position = other := by
  obtain ⟨⟨definition, found, named⟩, last⟩ := left
  obtain ⟨⟨definition', found', named'⟩, last'⟩ := right
  rcases Nat.lt_trichotomy position other with less | same | less
  · exact absurd named' (last other definition' less found')
  · exact same
  · exact absurd named (last' position definition less found)

/-- Definitions with their positions, from the last one on. -/
theorem zipIdx_reverse_pairwise (defs : List AliasDef) :
    defs.zipIdx.reverse.Pairwise fun earlier later => later.2 < earlier.2 := by
  have ordered : (defs.zipIdx.map Prod.snd).Pairwise (· < ·) := by
    rw [List.zipIdx_map_snd]
    exact List.pairwise_lt_range'
  exact List.pairwise_reverse.mpr (List.pairwise_map.mp ordered)

/-- The definition that counts for a name is the last one. -/
theorem definitionOf_eq_some_iff {name : Name} {position : Nat} :
    definitionOf defs name = some position ↔ IsLast defs name position := by
  have sound {position : Nat} (found : definitionOf defs name = some position) : IsLast defs name position := by
    rw [definitionOf, Option.map_eq_some_iff] at found
    obtain ⟨⟨definition, other⟩, picked, rfl⟩ := found
    obtain ⟨named, passed, rest, split, others⟩ := List.find?_eq_some_iff_append.mp picked
    have member := List.mem_reverse.mp (List.mem_of_find?_eq_some picked)
    refine ⟨⟨definition, List.mem_zipIdx_iff_getElem?.mp member, by simpa using named⟩, ?_⟩
    intro later definition' less found' same
    -- What has been passed is defined under another name, and what has not comes earlier.
    have among : (definition', later) ∈ defs.zipIdx.reverse :=
      List.mem_reverse.mpr (List.mem_zipIdx_iff_getElem?.mpr found')
    have sorted := zipIdx_reverse_pairwise defs
    rw [split] at among sorted
    rcases List.mem_append.mp among with front | back
    · simpa [same] using others _ front
    · rcases List.mem_cons.mp back with here | behind
      · cases here
        exact absurd less (Nat.lt_irrefl _)
      · have earlier := (List.pairwise_cons.mp (List.pairwise_append.mp sorted).2.1).1 _ behind
        exact absurd less (Nat.not_lt.mpr (Nat.le_of_lt earlier))
  -- The search cannot miss a name that is defined, since its last definition is among those
  -- searched.
  refine ⟨sound, fun last => ?_⟩
  cases found : definitionOf defs name with
  | some other => rw [last.unique (sound found)]
  | none =>
    obtain ⟨⟨definition, here, named⟩, -⟩ := last
    rw [definitionOf, Option.map_eq_none_iff, List.find?_eq_none] at found
    have among : (definition, position) ∈ defs.zipIdx.reverse :=
      List.mem_reverse.mpr (List.mem_zipIdx_iff_getElem?.mpr here)
    exact absurd (found _ among) (by simp [named])

/-- A definition is merely another name for one that it refers to. -/
theorem successor_eq_some_iff (ordered : code.ChildrenFirst) {position next : Nat} :
    code.successor defs position = some next ↔ code.Refers defs position next := by
  simp only [successor, bind, Option.bind_eq_some_iff, definitionOf_eq_some_iff,
    unguardedAlias_eq_some_iff ordered (Nat.lt_succ_self _), Refers]
  constructor
  · rintro ⟨definition, here, name, refers, last⟩
    exact ⟨definition, name, here, refers, last⟩
  · rintro ⟨definition, name, here, refers, last⟩
    exact ⟨definition, here, name, refers, last⟩

end Code

/-- A chain from one position to another one leads there. -/
theorem transGen_of_isChain {leads : Nat → Nat → Prop} {first last : Nat} {between : List Nat}
    (chain : (first :: between ++ [last]).IsChain leads) : Relation.TransGen leads first last := by
  induction between generalizing first with
  | nil => exact .single chain.rel
  | cons next between ih => exact .head chain.rel (ih chain.tail)

/-- From a position from which all chains end, no chain leads back. -/
theorem not_transGen_self {leads : Nat → Nat → Prop} {position : Nat}
    (ends : Acc (fun other earlier => leads earlier other) position) : ¬ Relation.TransGen leads position position := by
  intro circle
  have closure := ends.transGen
  induction closure with
  | intro position _ ih =>
    exact ih position (Relation.transGen_swap.mpr circle) ends circle

namespace TypeLeaf

/-- What is wrong with a leaf is no circle. -/
theorem fault_ne_aliasCycle (leaf : TypeLeaf) (names : NameTable) (texts : List String) :
    leaf.fault names ≠ .aliasCycle texts := by
  cases leaf <;> exact nofun

end TypeLeaf

namespace Resolution

variable {names : NameTable} {code : Code} {scope : Scope} {defs : List AliasDef} {graph later : TypeGraph}

/-- A step that reports no circle, whatever else may be wrong. -/
def NoCircle {α : Type} (step : Resolution α) : Prop :=
  ∀ graph texts, (step graph).1 ≠ .error (.aliasCycle texts)

/-- Steps one after the other report no circle when neither does. -/
theorem NoCircle.bind {α β : Type} {step : Resolution α} {next : α → Resolution β} (left : NoCircle step)
    (right : ∀ result, NoCircle (next result)) : NoCircle (step >>= next) := by
  intro graph texts
  have own := left graph texts
  rcases ran : step graph with ⟨fault | result, middle⟩
  · rw [ran] at own
    rw [bind_of_error ran]
    exact fun failed => own (congrArg Except.error (Except.error.inj failed))
  · rw [bind_of_ok ran]
    exact right result middle texts

/-- Resolving a type reports no circle. -/
theorem noCircle_resolve (ordered : code.ChildrenFirst) (type : TypeExprId) :
    NoCircle (resolve names code scope type) := by
  intro graph texts failed
  have reports := @resolveAt_reports names code ordered scope (type + 1) [] type (Nat.lt_succ_self type) graph
  split at reports
  · rename_i leaf _
    exact leaf.fault_ne_aliasCycle names texts (Except.error.inj (reports.symm.trans failed))
  · obtain ⟨result, succeeds⟩ := reports
    cases succeeds.symm.trans failed

/-- Filling slots reports no circle. -/
theorem noCircle_fillSlots (ordered : code.ChildrenFirst) (entries : List (AliasDef × Name × TypeId)) :
    NoCircle (fillSlots names code scope entries) := by
  induction entries with
  | nil => exact nofun
  | cons entry entries ih =>
    obtain ⟨definition, name, slot⟩ := entry
    have filled (target : TypeId) : NoCircle (define slot target) := nofun
    exact (noCircle_resolve ordered definition.type).bind fun target => (filled target).bind fun _ => ih

/-- A group is refused for a circle exactly where the search comes to one, which is what is reported. -/
theorem defineAliases_aliasCycle (ordered : code.ChildrenFirst) (texts : List String) :
    (defineAliases names code scope defs graph).1 = .error (.aliasCycle texts) ↔
      ∃ circle, code.aliasCycle defs = some circle ∧
        texts = circle.map fun position => names.lookup (defs[position]?.getD default).name := by
  obtain ⟨slots, middle, opened⟩ := openSlots_succeeds defs graph
  have step : defineAliases names code scope defs graph = _ := bind_of_ok opened
  rw [step]
  -- A circle is refused at once, and neither filling slots nor entering their frame reports one.
  cases code.aliasCycle defs with
  | some circle =>
    constructor
    · intro failed
      exact ⟨circle, rfl, (TypeFault.aliasCycle.inj (Except.error.inj failed)).symm⟩
    · rintro ⟨other, same, rfl⟩
      obtain rfl := Option.some.inj same
      rfl
  | none =>
    let inside := scope.push (AliasFrame.ofDefinitions slots)
    have fills : NoCircle (fillSlots names code inside (defs.zip slots)) := noCircle_fillSlots ordered _
    have given : NoCircle (pure inside : Resolution Scope) := nofun
    have rest := fills.bind fun _ => given
    exact ⟨fun failed => absurd failed (rest middle texts), fun ⟨_, found, _⟩ => nomatch found⟩

end Resolution

section

variable {code : Code} {defs : List AliasDef}

/-- A definition that refers to another one is one of the group. -/
theorem Code.Refers.lt_length {position next : Nat} (refers : code.Refers defs position next) :
    position < defs.length := by
  obtain ⟨definition, -, found, -⟩ := refers
  exact (List.getElem?_eq_some_iff.mp found).1

/-- The search for a circle is exact, and what it comes to is one. -/
theorem Code.aliasCycle_exact (ordered : code.ChildrenFirst) (defs : List AliasDef) :
    ((code.aliasCycle defs).isSome ↔ ∃ position, Relation.TransGen (code.Refers defs) position position) ∧
      ∀ circle, code.aliasCycle defs = some circle → IsCircle (code.Refers defs) circle := by
  have spec := code.aliasCycle_spec defs
  simp only [code.successor_eq_some_iff ordered] at spec
  cases found : code.aliasCycle defs with
  | some circle =>
    rw [found] at spec
    refine ⟨⟨fun _ => ?_, fun _ => rfl⟩, fun other same => Option.some.inj same ▸ spec⟩
    obtain ⟨first, between, rfl, -, chain⟩ := spec
    exact ⟨first, transGen_of_isChain chain⟩
  | none =>
    rw [found] at spec
    refine ⟨⟨nofun, fun ⟨position, circle⟩ => ?_⟩, nofun⟩
    obtain ⟨next, refers, -⟩ := Relation.TransGen.head'_iff.mp circle
    exact absurd circle (not_transGen_self (spec position refers.lt_length))

/--
A group of aliases is refused for a circle exactly when some definition leads back to itself by unguarded
references within the group. The names that are reported are those of such a circle: the first one stands at both
ends, no other definition stands there twice, and each refers to the next one. The search comes to its end: more
turns than it is given do not change what it comes to.
-/
theorem alias_cycles_exact (ordered : code.ChildrenFirst) (names : NameTable) (scope : Scope)
    (defs : List AliasDef) (graph : TypeGraph) :
    let outcome := (Resolution.defineAliases names code scope defs graph).1
    ((∃ texts, outcome = .error (.aliasCycle texts)) ↔
      ∃ position, Relation.TransGen (code.Refers defs) position position) ∧
    (∀ texts, outcome = .error (.aliasCycle texts) → ∃ circle, IsCircle (code.Refers defs) circle ∧
      texts = circle.map fun position => names.lookup (defs[position]?.getD default).name) ∧
    ∀ fuel, 2 * defs.length ≤ fuel →
      CycleSearch.search (fun position => (code.successor defs position).toList) fuel (List.range defs.length)
        (Array.replicate defs.length .unvisited) = code.aliasCycle defs := by
  intro outcome
  obtain ⟨exact', circles⟩ := Code.aliasCycle_exact ordered defs
  have reported (texts : List String) := @Resolution.defineAliases_aliasCycle names code scope defs graph ordered texts
  refine ⟨⟨fun ⟨texts, failed⟩ => ?_, fun around => ?_⟩, fun texts failed => ?_, fun fuel enough => ?_⟩
  · obtain ⟨circle, found, -⟩ := (reported texts).mp failed
    exact exact'.mp (by rw [found]; rfl)
  · obtain ⟨circle, found⟩ := Option.isSome_iff_exists.mp (exact'.mpr around)
    exact ⟨_, (reported _).mpr ⟨circle, found, rfl⟩⟩
  · obtain ⟨circle, found, rfl⟩ := (reported texts).mp failed
    exact ⟨circle, circles circle found, rfl⟩
  · exact code.aliasCycle_stable defs enough

/-- The types `A`, `forall a. B` and `List A`, for the aliases `A` and `B`. -/
def circularAliases : Code where
  types := #[.aliasRef 1, .aliasRef 2, .forAll 3 1, .list 0]

/-- `A = forall a. B, B = A` is refused with its names, and `A = forall a. B, B = List A` is not. -/
theorem alias_cycles_exact_circularAliases :
    (∃ circle, IsCircle (circularAliases.Refers [⟨1, 2⟩, ⟨2, 0⟩]) circle ∧
      ["A", "B", "A"] = circle.map fun position =>
        NameTable.lookup ⟨#["", "A", "B"]⟩ (([⟨1, 2⟩, ⟨2, 0⟩] : List AliasDef)[position]?.getD default).name) ∧
    ¬ ∃ position, Relation.TransGen (circularAliases.Refers [⟨1, 2⟩, ⟨2, 3⟩]) position position := by
  have ordered : circularAliases.ChildrenFirst := ⟨by decide, by decide, by decide⟩
  obtain ⟨-, circles, -⟩ := alias_cycles_exact ordered ⟨#["", "A", "B"]⟩ {} [⟨1, 2⟩, ⟨2, 0⟩] {}
  obtain ⟨around, -, -⟩ := alias_cycles_exact ordered ⟨#["", "A", "B"]⟩ {} [⟨1, 2⟩, ⟨2, 3⟩] {}
  refine ⟨circles _ rfl, fun circle => ?_⟩
  obtain ⟨texts, refused⟩ := around.mpr circle
  cases refused

end

end LazyConfig
