import LazyConfig.Proofs.Types.Meaning

/-!
Resolving types with a limit on the recursion. There is no result when the recursion goes deeper than the limit, or
when it comes to a node that is not there, so that a recursion without end has none under any limit. Where nodes come
after their parts there always is a result, under every limit that is above the position of the node.
-/

namespace LazyConfig

/-- An expression that is there is found. -/
theorem Code.getElem?_exprs {code : Code} {id : ExprId} (inside : id < code.exprs.size) :
    code.exprs[id]? = some (code.expr id) := by
  rw [Code.expr, Array.getElem?_eq_getElem inside, Option.getD_some]

/-- A type expression that is there is found. -/
theorem Code.getElem?_types {code : Code} {id : TypeExprId} (inside : id < code.types.size) :
    code.types[id]? = some (code.type id) := by
  rw [Code.type, Array.getElem?_eq_getElem inside, Option.getD_some]

namespace Limited

/-- The alias that a type expression is, under any number of generic variables. -/
def merelyNames (code : Code) : Nat → TypeExprId → Option (Option Name)
  | 0, _ => none
  | limit + 1, id =>
    match code.types[id]? with
    | none => none
    | some (.aliasRef name) => some (some name)
    | some (.forAll _ body) => merelyNames code limit body
    | some _ => some none

/-- A step of resolving types that may have no result. -/
abbrev Resolving := ExceptT TypeFault (StateT TypeGraph Option)

/-- A step that has a result. -/
def resolved {α : Type} (step : Resolution α) : Resolving α :=
  fun graph => some (step graph)

/-- A step without a result. -/
def lost {α : Type} : Resolving α :=
  fun _ => none

/-- Resolves a type expression under the generic variables around it. -/
def resolve (names : NameTable) (code : Code) (scope : Scope) : Nat → List Name → TypeExprId → Resolving TypeId
  | 0, _, _ => lost
  | limit + 1, vars, id =>
    match code.types[id]? with
    | none => lost
    | some .num => resolved (Resolution.push .num)
    | some .str => resolved (Resolution.push .str)
    | some .bool => resolved (Resolution.push .bool)
    | some .dyn => resolved (Resolution.push .dyn)
    | some (.list elem) => do
      let elem ← resolve names code scope limit vars elem
      resolved (Resolution.push (.list elem))
    | some (.dict elem) => do
      let elem ← resolve names code scope limit vars elem
      resolved (Resolution.push (.dict elem))
    | some (.record fields) => do
      let fields ← fields.mapM fun (name, type) => do
        let type ← resolve names code scope limit vars type
        pure (name, type)
      resolved (Resolution.push (.record fields))
    | some (.fn param result) => do
      let param ← resolve names code scope limit vars param
      let result ← resolve names code scope limit vars result
      resolved (Resolution.push (.fn param result))
    | some (.forAll var body) => do
      let body ← resolve names code scope limit (var :: vars) body
      resolved (Resolution.push (.forAll var body))
    | some (.var name) =>
      if vars.contains name then resolved (Resolution.push (.var name))
      else throw (.unboundVariable (names.lookup name))
    | some (.aliasRef name) =>
      match scope.lookup name with
      | some slot => pure slot
      | none => throw (.unboundAlias (names.lookup name))

/-- Resolves each definition and fills its slot. -/
def fillSlots (names : NameTable) (code : Code) (scope : Scope) (limit : Nat) :
    List (AliasDef × Name × TypeId) → Resolving Unit
  | [] => pure ()
  | (definition, _, slot) :: rest => do
    let target ← resolve names code scope limit [] definition.type
    resolved (Resolution.define slot target)
    fillSlots names code scope limit rest

/-- Turns of a search for a circle until there is no path any more. -/
def walk (edges : Nat → List Nat) : Nat → CycleSearch → Option (Except (List Nat) CycleSearch)
  | 0, search => if search.path.isEmpty then some (.ok search) else none
  | limit + 1, search =>
    if search.path.isEmpty then some (.ok search)
    else
      match search.turn edges with
      | .ok search => walk edges limit search
      | .error circle => some (.error circle)

/-- Searches for a circle from each of some definitions that has not been visited yet. -/
def search (edges : Nat → List Nat) (limit : Nat) : List Nat → Array Mark → Option (Option (List Nat))
  | [], _ => some none
  | start :: starts, marks =>
    if marks[start]? = some .unvisited then
      match walk edges limit ⟨marks.setIfInBounds start .onPath, [(start, 0)]⟩ with
      | none => none
      | some (.ok ended) => search edges limit starts ended.marks
      | some (.error circle) => some (some circle)
    else search edges limit starts marks

/-- The definitions of the same group that each definition is merely another name for. -/
def successors (code : Code) (limit : Nat) (defs : List AliasDef) : Option (List (List Nat)) :=
  defs.mapM fun definition => do
    let merely ← merelyNames code limit definition.type
    pure (merely.bind (Code.definitionOf defs)).toList

/-- The first circle of aliases in a group. -/
def aliasCycle (code : Code) (limit : Nat) (defs : List AliasDef) : Option (Option (List Nat)) := do
  let edges ← successors code limit defs
  search (fun position => edges[position]?.getD []) limit (List.range defs.length)
    (Array.replicate defs.length .unvisited)

/-- Defines a group of aliases and gives the scope inside the group. -/
def defineAliases (names : NameTable) (code : Code) (scope : Scope) (limit : Nat) (defs : List AliasDef) :
    Resolving Scope := do
  let slots ← resolved (Resolution.openSlots defs)
  match aliasCycle code limit defs with
  | none => lost
  | some (some cycle) =>
    throw (.aliasCycle (cycle.map fun position => names.lookup (defs[position]?.getD default).name))
  | some none =>
    let inside := scope.push (AliasFrame.ofDefinitions slots)
    fillSlots names code inside limit (defs.zip slots)
    pure inside

/-! Steps that have a result. -/

section

variable {α β : Type}

/-- Steps that have results have one together. -/
theorem resolved_bind (step : Resolution α) (next : α → Resolution β) :
    resolved (step >>= next) = resolved step >>= fun result => resolved (next result) := by
  funext graph
  have whole : (resolved step >>= fun result => resolved (next result)) graph =
      ExceptT.bindCont (fun result => resolved (next result)) (step graph).1 (step graph).2 := rfl
  rw [whole]
  -- The second step is only taken if the first gives something.
  rcases ran : step graph with ⟨fault | result, later⟩
  · exact congrArg some (Resolution.bind_of_error ran)
  · exact congrArg some (Resolution.bind_of_ok ran)

/-- A step for each part in turn has a result when each step has one. -/
theorem resolved_mapM {step : α → Resolution β} {other : α → Resolving β} {parts : List α}
    (each : ∀ part ∈ parts, other part = resolved (step part)) :
    parts.mapM other = resolved (parts.mapM step) := by
  induction parts with
  | nil => rfl
  | cons part rest ih =>
    rw [List.mapM_cons, List.mapM_cons, each part List.mem_cons_self,
      ih fun other member => each other (List.mem_cons_of_mem _ member)]
    simp only [resolved_bind]
    rfl

/-- A step for each part in turn gives a result for each. -/
theorem mapM_some {step : α → Option β} {result : α → β} {parts : List α}
    (each : ∀ part ∈ parts, step part = some (result part)) : parts.mapM step = some (parts.map result) := by
  induction parts with
  | nil => rfl
  | cons part rest ih =>
    rw [List.mapM_cons, each part List.mem_cons_self, ih fun other member => each other (List.mem_cons_of_mem _ member)]
    rfl

end

variable {names : NameTable} {code : Code} {scope : Scope} {limit : Nat}

/-- Looking for an alias goes no deeper than the position of the type. -/
theorem merelyNames_eq (ordered : code.ChildrenFirst) {id fuel : TypeExprId} (inside : id < code.types.size)
    (room : id < limit) (enough : id < fuel) : merelyNames code limit id = some (code.unguardedAlias fuel id) := by
  -- The part of a generic type comes before it, so that each step leads to an earlier node.
  induction limit generalizing id fuel with
  | zero => exact absurd room (Nat.not_lt_zero _)
  | succ limit ih =>
    obtain ⟨fuel, rfl⟩ := Nat.exists_eq_succ_of_ne_zero (Nat.ne_zero_of_lt enough)
    rw [merelyNames, Code.getElem?_types inside, Code.unguardedAlias]
    cases found : code.type id with
    | forAll var body =>
      have less : body < id := ordered.type_lt (found ▸ List.mem_singleton_self body)
      exact ih (Nat.lt_trans less inside) (Nat.lt_of_lt_of_le less (Nat.le_of_lt_succ room))
        (Nat.lt_of_lt_of_le less (Nat.le_of_lt_succ enough))
    | _ => rfl

/-- Looking for an alias in a generic type that is its own part has no end: it is the order of nodes that it needs. -/
theorem merelyNames_self {id : TypeExprId} {var : Name} (circle : code.types[id]? = some (.forAll var id)) :
    merelyNames code limit id = none := by
  induction limit with
  | zero => rfl
  | succ limit ih =>
    rw [merelyNames, circle]
    exact ih

/-- Resolving a type goes no deeper than the position of the type. -/
theorem resolve_eq (ordered : code.ChildrenFirst) {vars : List Name} {id fuel : TypeExprId}
    (inside : id < code.types.size) (room : id < limit) (enough : id < fuel) :
    resolve names code scope limit vars id = resolved (Resolution.resolveAt names code scope fuel vars id) := by
  induction limit generalizing vars id fuel with
  | zero => exact absurd room (Nat.not_lt_zero _)
  | succ limit ih =>
    obtain ⟨fuel, rfl⟩ := Nat.exists_eq_succ_of_ne_zero (Nat.ne_zero_of_lt enough)
    have part {child : TypeExprId} (vars : List Name) (member : child ∈ (code.type id).children) :
        resolve names code scope limit vars child =
          resolved (Resolution.resolveAt names code scope fuel vars child) := by
      have less := ordered.type_lt member
      exact ih (Nat.lt_trans less inside) (Nat.lt_of_lt_of_le less (Nat.le_of_lt_succ room))
        (Nat.lt_of_lt_of_le less (Nat.le_of_lt_succ enough))
    rw [resolve, Code.getElem?_types inside, Resolution.resolveAt]
    cases found : code.type id with
    | num | str | bool | dyn => rfl
    | list elem | dict elem =>
      rw [found] at part
      simp only [part vars (List.mem_singleton_self _), resolved_bind]
    | forAll var body =>
      rw [found] at part
      simp only [part (var :: vars) (List.mem_singleton_self _), resolved_bind]
    | fn param result =>
      rw [found] at part
      simp only [part vars List.mem_cons_self, part vars (List.mem_cons_of_mem _ (List.mem_singleton_self _)),
        resolved_bind]
    | record fields =>
      -- The types of the fields are resolved one after another, and each is a part.
      rw [found] at part
      simp only
      rw [resolved_bind, resolved_mapM fun field member => ?_]
      rw [part vars (List.mem_map_of_mem member), resolved_bind]
      rfl
    -- What is not bound is found to be wrong, which is a result too.
    | var name => cases bound : vars.contains name <;> simp only [bound] <;> rfl
    | aliasRef name => cases known : scope.lookup name <;> simp only [known] <;> rfl

/-- Filling slots goes no deeper than there are types. -/
theorem fillSlots_eq (ordered : code.ChildrenFirst) (room : code.types.size ≤ limit)
    {todo : List (AliasDef × Name × TypeId)} (inside : ∀ entry ∈ todo, entry.1.type < code.types.size) :
    fillSlots names code scope limit todo = resolved (Resolution.fillSlots names code scope todo) := by
  induction todo with
  | nil => rfl
  | cons entry rest ih =>
    obtain ⟨definition, name, slot⟩ := entry
    have here : definition.type < code.types.size := inside _ List.mem_cons_self
    have first := @resolve_eq names code scope limit ordered [] _ _ here (Nat.lt_of_lt_of_le here room)
      (Nat.lt_succ_self _)
    have others := ih fun other member => inside other (List.mem_cons_of_mem _ member)
    rw [fillSlots, Resolution.fillSlots, first, others]
    simp only [Resolution.resolve, resolved_bind]

section

variable {edges : Nat → List Nat}

/-- A search that comes to the end of its path is not cut off. -/
theorem walk_eq {begun : CycleSearch}
    (ends : ∀ ended, CycleSearch.walk edges limit begun = .ok ended → ended.path = []) :
    walk edges limit begun = some (CycleSearch.walk edges limit begun) := by
  -- By induction on the limit; at its end the search would still be on its path if it were cut off.
  induction limit generalizing begun with
  | zero =>
    have none : begun.path = [] := ends begun rfl
    rw [walk, none]
    rfl
  | succ limit ih =>
    rw [walk, CycleSearch.walk]
    rw [CycleSearch.walk] at ends
    split
    · rfl
    · rename_i more
      rw [if_neg more] at ends
      cases turned : begun.turn edges with
      | error circle => rfl
      | ok later =>
        rw [turned] at ends
        exact ih ends

/-- Searching in a group is not cut off, as no edge is followed twice. -/
theorem search_eq {degree : Nat} {starts : List Nat} {marks : Array Mark}
    (free : ∀ position : Nat, marks[position]? ≠ some .onPath)
    (done : ∀ position : Nat, marks[position]? = some .done → Acc (fun other earlier => other ∈ edges earlier) position)
    (bounded : ∀ position, ∀ other ∈ edges position, other < marks.size)
    (few : ∀ position, (edges position).length ≤ degree) (enough : (degree + 1) * marks.size ≤ limit) :
    search edges limit starts marks = some (CycleSearch.search edges limit starts marks) := by
  -- By induction on the starts, each of which leaves the search in a state it may begin in.
  induction starts generalizing marks with
  | nil => rfl
  | cons start starts ih =>
    rw [search, CycleSearch.search]
    split
    · rename_i found
      have walked := CycleSearch.walk_spec limit (CycleSearch.Sound.single free done found) (by simpa using bounded) few
        (CycleSearch.left_single_le found few enough)
      have ends (ended : CycleSearch)
          (came : CycleSearch.walk edges limit ⟨marks.setIfInBounds start .onPath, [(start, 0)]⟩ = .ok ended) :
          ended.path = [] := by
        rw [came] at walked
        exact walked.1
      rw [walk_eq ends]
      cases came : CycleSearch.walk edges limit ⟨marks.setIfInBounds start .onPath, [(start, 0)]⟩ with
      | error circle => rfl
      | ok ended =>
        -- What is left behind is as it was at the beginning, except that less is unvisited.
        rw [came] at walked
        obtain ⟨-, settles⟩ := walked
        have size : ended.marks.size = marks.size := settles.size.trans Array.size_setIfInBounds
        exact ih settles.left settles.done (size ▸ bounded) (size ▸ enough)
    · exact ih free done bounded enough

end

/-- The definitions that those of a group are merely other names for are found. -/
theorem successors_eq (ordered : code.ChildrenFirst) (room : code.types.size ≤ limit) {defs : List AliasDef}
    (inside : ∀ definition ∈ defs, definition.type < code.types.size) :
    ∃ edges, successors code limit defs = some edges ∧
      ∀ position, edges[position]?.getD [] = (code.successor defs position).toList := by
  let others := fun definition : AliasDef =>
    ((code.unguardedAlias (definition.type + 1) definition.type).bind (Code.definitionOf defs)).toList
  have found : successors code limit defs = some (defs.map others) := mapM_some fun definition member => by
    have here := inside definition member
    rw [merelyNames_eq ordered here (Nat.lt_of_lt_of_le here room) (Nat.lt_succ_self _)]
    rfl
  -- Past the last definition there are no edges either way.
  refine ⟨_, found, fun position => ?_⟩
  rw [List.getElem?_map, Code.successor]
  cases defs[position]? <;> rfl

/-- Searching for a circle in a group takes two turns for each definition at most. -/
theorem aliasCycle_eq (ordered : code.ChildrenFirst) (room : code.types.size ≤ limit) {defs : List AliasDef}
    (inside : ∀ definition ∈ defs, definition.type < code.types.size) (turns : 2 * defs.length ≤ limit) :
    aliasCycle code limit defs = some (code.aliasCycle defs) := by
  obtain ⟨edges, found, same⟩ := successors_eq ordered room inside
  have searched := @search_eq limit (fun position => (code.successor defs position).toList) 1
    (List.range defs.length) (Array.replicate defs.length .unvisited)
    (fun position => Code.unvisited_replicate _ position nofun)
    (fun position found => absurd found (Code.unvisited_replicate _ position nofun))
    (fun position other member => by simpa using Code.lt_of_successor (Option.mem_toList.mp member))
    (Code.length_successor_le code defs) (by simpa using turns)
  rw [aliasCycle, found, ← Code.aliasCycle_stable code defs turns, ← searched]
  exact congrArg (fun edges => search edges limit _ _) (funext same)

/-- Defining a group is not cut off. -/
theorem defineAliases_eq (ordered : code.ChildrenFirst) (room : code.types.size ≤ limit) {defs : List AliasDef}
    (inside : ∀ definition ∈ defs, definition.type < code.types.size) (turns : 2 * defs.length ≤ limit) :
    defineAliases names code scope limit defs = resolved (Resolution.defineAliases names code scope defs) := by
  rw [defineAliases, Resolution.defineAliases, resolved_bind, aliasCycle_eq ordered room inside turns]
  congr 1
  funext slots
  cases code.aliasCycle defs with
  | some cycle => rfl
  | none =>
    have fills := @fillSlots_eq names code (scope.push (AliasFrame.ofDefinitions slots)) limit ordered room
      (defs.zip slots) fun entry member => inside entry.1 (List.of_mem_zip member).1
    simp only [fills, resolved_bind]
    rfl

end Limited

end LazyConfig
