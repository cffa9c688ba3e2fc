import LazyConfig.Proofs.Conformance.Violations
import LazyConfig.Proofs.Store.Contents

/-!
What a check leaves behind: a value whose parts are put off, each to be checked against the type that
the whole type asks of it. A check fails only if the data differ from the type, and it says where.
-/

namespace LazyConfig

/-- A value and data of the same outermost form. -/
inductive Value.Outlines : Value → Data → Prop
  | leaf {value : Value} {data : Data} (leaf : value.Leaf data) : Outlines value data
  | list (items : LazyList) (parts : List Data) : Outlines (.list items) (.list parts)
  | record {fields : Record} {parts : List (String × Data)}
    (same : parts.map Prod.fst = fields.names) : Outlines (.record fields) (.record parts)

/-- A part of a checked value, and what is asked of it if the whole is to pass. -/
inductive Part
  /-- A part that may be anything is left as it is. -/
  | free (id : ThunkId) (demand : Demand)
  /-- A part that a computation of its own checks. -/
  | check (cell inner : ThunkId) (demand : Demand)

namespace Part

/-- The part before the check. -/
def inner : Part → ThunkId
  | free id _ => id
  | check _ inner _ => inner

/-- The part after the check. -/
def outer : Part → ThunkId
  | free id _ => id
  | check cell _ _ => cell

/-- What is asked of the part. -/
def demand : Part → Demand
  | free _ demand | check _ _ demand => demand

/-- The computation that checks the part. -/
def cell? : Part → Option ThunkId
  | free _ _ => none
  | check cell _ _ => some cell

/-- The part may be anything, or its check is still put off. -/
def Stands (names : NameTable) (graph : TypeGraph) (store : Store) : Part → Prop
  | free _ demand => ∀ data, Conforms names graph demand.type data
  | check cell inner demand => store.cell cell = .suspended (.check inner demand.type demand.path)

/-- The computation that checks a part is there. -/
theorem Stands.inside {names : NameTable} {graph : TypeGraph} {store : Store} {part : Part}
    (stands : part.Stands names graph store) {cell : ThunkId} (found : part.cell? = some cell) :
    cell < store.cells.size := by
  cases part with
  | free id demand => cases found
  | check other inner demand =>
    cases found
    exact Store.lt_size_of_cell stands nofun

/-- A check stays put off as long as its computation is left alone. -/
theorem Stands.keep {names : NameTable} {graph : TypeGraph} {before after : Store} {part : Part}
    (stands : part.Stands names graph before)
    (same : ∀ cell, part.cell? = some cell → after.cell cell = before.cell cell) :
    part.Stands names graph after := by
  cases part with
  | free id demand => exact stands
  | check cell inner demand => exact (same cell rfl).trans stands

end Part

/-- A value whose outermost form has passed a check, with the computations that check its parts. -/
inductive Guards (names : NameTable) (graph : TypeGraph) (store : Store) :
    Demand → Value → Value → List ThunkId → Prop
  /-- Everything belongs to the type. -/
  | free {demand : Demand} (value : Value) (accepts : ∀ data, Conforms names graph demand.type data) :
    Guards names graph store demand value value []
  | leaf {demand : Demand} {value : Value} {data : Data} (leaf : value.Leaf data)
    (conforms : Conforms names graph demand.type data) : Guards names graph store demand value value []
  | list {demand : Demand} {elem : TypeId} {items : LazyList} {cell : ThunkId}
    (reads : ∀ parts, Conforms names graph demand.type (.list parts) ↔
      ∀ part ∈ parts, Conforms names graph elem part)
    (blames : ∀ {parts position part fault}, parts[position]? = some part →
      Demand.Blames names graph ⟨demand.path.index position, elem⟩ part fault →
        demand.Blames names graph (.list parts) fault)
    (waits : store.cell cell = .suspended (.checkList items elem demand.path 0)) :
    Guards names graph store demand (.list items) (.list (.concat .empty cell)) [cell]
  | record {demand : Demand} {fields checked : Record} (parts : List (String × Part))
    (inner : fields.entries = parts.map fun part => (part.1, part.2.inner))
    (outer : checked.entries = parts.map fun part => (part.1, part.2.outer))
    (stand : ∀ part ∈ parts, part.2.Stands names graph store)
    (reads : ∀ named, named.map Prod.fst = fields.names →
      (Conforms names graph demand.type (.record named) ↔
        List.Forall₂ (fun part data => Conforms names graph part.2.demand.type data) parts
          (named.map Prod.snd)))
    (blames : ∀ named fault, named.map Prod.fst = fields.names →
      Demand.BlamesOne names graph (parts.map fun part => part.2.demand) (named.map Prod.snd) fault →
        demand.Blames names graph (.record named) fault) :
    Guards names graph store demand (.record fields) (.record checked)
      (parts.filterMap fun part => part.2.cell?)

/-- What is guarded stays so as long as the computations that guard it are left alone. -/
theorem Guards.keep {names : NameTable} {graph : TypeGraph} {before after : Store} {demand : Demand}
    {value checked : Value} {cells : List ThunkId}
    (guards : Guards names graph before demand value checked cells)
    (same : ∀ cell ∈ cells, after.cell cell = before.cell cell) :
    Guards names graph after demand value checked cells := by
  cases guards with
  | free _ accepts => exact .free value accepts
  | leaf leaf conforms => exact .leaf leaf conforms
  | list reads blames waits => exact .list reads blames ((same _ List.mem_cons_self).trans waits)
  | record parts inner outer stand reads blames =>
    -- The computations of a record are those of its parts, so that each part is left alone.
    refine .record parts inner outer (fun part member => ?_) reads blames
    exact (stand part member).keep fun cell found => same cell (List.mem_filterMap.mpr ⟨part, member, found⟩)

/-- The computations that guard a value are there. -/
theorem Guards.inside {names : NameTable} {graph : TypeGraph} {store : Store} {demand : Demand}
    {value checked : Value} {cells : List ThunkId}
    (guards : Guards names graph store demand value checked cells) :
    ∀ cell ∈ cells, cell < store.cells.size := by
  -- Only a list that waits and the fields of a record are guarded by computations.
  intro cell member
  cases guards with
  | free _ _ | leaf _ _ => cases member
  | list reads blames waits =>
    obtain rfl := List.mem_singleton.mp member
    exact Store.lt_size_of_cell waits (by simp)
  | record parts inner outer stand reads blames =>
    obtain ⟨part, among, found⟩ := List.mem_filterMap.mp member
    exact (stand part among).inside found

namespace Store

variable {graph : TypeGraph} {store : Store}

/-- A part that is put off stands for itself, checked by a new computation unless it may be anything. -/
theorem wrap_part (names : NameTable) (sound : graph.Sound) (store : Store) (inner : ThunkId)
    (type : TypeId) (path : Path) :
    ∃ part : Part, part.inner = inner ∧ part.demand = ⟨path, type⟩ ∧
      part.outer = (store.wrap graph inner type path).1 ∧
      part.Stands names graph (store.wrap graph inner type path).2 ∧
      ∀ cell, part.cell? = some cell →
        store.cells.size ≤ cell ∧ cell < (store.wrap graph inner type path).2.cells.size := by
  by_cases accepts : graph.acceptsAll type = true
  · -- A type that accepts everything leaves the part as it is, without a computation of its own.
    rw [wrap, if_pos accepts]
    exact ⟨.free inner ⟨path, type⟩, rfl, rfl, rfl, Conforms.of_acceptsAll sound accepts, nofun⟩
  · -- Any other type gets a computation for its check, behind all that are there.
    rw [wrap, if_neg accepts]
    refine ⟨.check store.cells.size inner ⟨path, type⟩, rfl, rfl, (alloc_fst _ _).symm, ?_, ?_⟩
    · exact store.suspend_cell (.check inner type path)
    · intro cell same
      cases same
      have grown := alloc_size store (.suspended (.check inner type path))
      exact ⟨Nat.le_refl _, grown ▸ Nat.lt_succ_self _⟩

/-- Parts that have been put off one after another, under their names. -/
structure Wrapped (names : NameTable) (graph : TypeGraph) (before after : Store)
    (parts : List (String × Part)) : Prop where
  grown : before.Extends after
  stand : ∀ part ∈ parts, part.2.Stands names graph after
  fresh : ∀ part ∈ parts, ∀ cell, part.2.cell? = some cell →
    before.cells.size ≤ cell ∧ cell < after.cells.size
  /-- A computation checks the part of one name. -/
  apart : ∀ part ∈ parts, ∀ other ∈ parts, ∀ cell, part.2.cell? = some cell →
    other.2.cell? = some cell → part.1 = other.1

end Store

/-- A check that is put off stays so when computations are added. -/
theorem Part.Stands.extend {names : NameTable} {graph : TypeGraph} {before after : Store} {part : Part}
    (grown : before.Extends after) (stands : part.Stands names graph before) :
    part.Stands names graph after :=
  stands.keep fun cell found => grown.2 cell (stands.inside found)

namespace Store

namespace Wrapped

variable {names : NameTable} {graph : TypeGraph} {before middle after : Store}
  {parts : List (String × Part)}

theorem nil (names : NameTable) (graph : TypeGraph) (store : Store) :
    Wrapped names graph store store [] :=
  ⟨.refl _, nofun, nofun, nofun⟩

/-- One more part, put off before the others. -/
theorem cons {name : String} {part : Part} (grown : before.Extends middle)
    (stands : part.Stands names graph middle)
    (fresh : ∀ cell, part.cell? = some cell →
      before.cells.size ≤ cell ∧ cell < middle.cells.size)
    (others : Wrapped names graph middle after parts) :
    Wrapped names graph before after ((name, part) :: parts) := by
  -- The computations of the others come after that of the first.
  have later : ∀ other ∈ parts, ∀ cell, other.2.cell? = some cell → part.cell? ≠ some cell := by
    intro other member cell found first
    exact absurd (fresh cell first).2 (Nat.not_lt.mpr (others.fresh other member cell found).1)
  refine ⟨grown.trans others.grown, ?_, ?_, ?_⟩
  · -- A check that is put off stays so while the others are added.
    intro other member
    rcases List.mem_cons.mp member with rfl | member
    · exact stands.extend others.grown
    · exact others.stand other member
  · intro other member cell found
    rcases List.mem_cons.mp member with rfl | member
    · have bounds := fresh cell found
      exact ⟨bounds.1, Nat.lt_of_lt_of_le bounds.2 others.grown.1⟩
    · have bounds := others.fresh other member cell found
      exact ⟨Nat.le_trans grown.1 bounds.1, bounds.2⟩
  · -- Two parts are checked by one computation only if they are the same one.
    intro first one second two cell found same
    rcases List.mem_cons.mp one with rfl | one
    · rcases List.mem_cons.mp two with rfl | two
      · rfl
      · exact absurd found (later second two cell same)
    · rcases List.mem_cons.mp two with rfl | two
      · exact absurd same (later first one cell found)
      · exact others.apart first one second two cell found same

/-- Some of the parts that have been put off. -/
theorem subset {others : List (String × Part)} (wrapped : Wrapped names graph before after parts)
    (among : ∀ part ∈ others, part ∈ parts) : Wrapped names graph before after others :=
  ⟨wrapped.grown, fun part member => wrapped.stand part (among part member),
    fun part member => wrapped.fresh part (among part member),
    fun part one other two => wrapped.apart part (among part one) other (among other two)⟩

end Wrapped

/-- All fields of a record are put off, each to be checked against the same type. -/
theorem wrapAll_parts (names : NameTable) (sound : graph.Sound) (type : TypeId) (path : Path)
    (entries : List Entry) (store : Store) :
    ∃ parts : List (String × Part),
      Wrapped names graph store (store.wrapAll graph type path entries).2 parts ∧
      entries = parts.map (fun part => (part.1, part.2.inner)) ∧
      (store.wrapAll graph type path entries).1 = parts.map (fun part => (part.1, part.2.outer)) ∧
      ∀ part ∈ parts, part.2.demand = ⟨path.field part.1, type⟩ := by
  -- The first field is wrapped, and the others in the store that this leaves.
  induction entries generalizing store with
  | nil => exact ⟨[], .nil names graph store, rfl, rfl, nofun⟩
  | cons entry rest ih =>
    obtain ⟨name, inner⟩ := entry
    obtain ⟨part, own, asked, outer, stands, fresh⟩ :=
      wrap_part names sound store inner type (path.field name)
    obtain ⟨parts, others, inners, outers, demands⟩ :=
      ih (store.wrap graph inner type (path.field name)).2
    refine ⟨(name, part) :: parts, .cons (wrap_extends store graph inner type _) stands fresh others,
      ?_, ?_, ?_⟩
    · rw [List.map_cons, ← inners, own]
    · rw [List.map_cons, ← outers, outer, wrapAll]
    · intro other member
      rcases List.mem_cons.mp member with rfl | member
      · exact asked
      · exact demands other member

/-- The declared fields are put off, each to be checked against its type, or one of them is missing. -/
theorem wrapDeclared_parts (names : NameTable) (sound : graph.Sound) (record : Record) (path : Path)
    (declared : List (Name × TypeId)) (store : Store) :
    (∃ missing type after, (missing, type) ∈ declared ∧ record.get? (names.lookup missing) = none ∧
      store.wrapDeclared names graph record path declared =
        (.error (.typeMismatch (.missing (graph.display names type)) (path.field (names.lookup missing))), after)) ∨
    ∃ parts after, Wrapped names graph store after parts ∧
      store.wrapDeclared names graph record path declared =
        (.ok (parts.map fun part => (part.1, part.2.outer)), after) ∧
      declared.map (fun (name, type) => (names.lookup name, type)) =
        parts.map (fun part => (part.1, part.2.demand.type)) ∧
      ∀ part ∈ parts, record.get? part.1 = some part.2.inner ∧ part.2.demand.path = path.field part.1 := by
  induction declared generalizing store with
  | nil => exact .inr ⟨[], store, .nil names graph store, rfl, rfl, nofun⟩
  | cons field rest ih =>
    obtain ⟨name, type⟩ := field
    cases found : record.get? (names.lookup name) with
    | none =>
      -- The check fails at the first declared field that is missing.
      refine .inl ⟨name, type, store, List.mem_cons_self, found, ?_⟩
      simp [wrapDeclared, found]
    | some inner =>
      obtain ⟨part, own, asked, outer, stands, fresh⟩ :=
        wrap_part names sound store inner type (path.field (names.lookup name))
      rcases ih (store.wrap graph inner type (path.field (names.lookup name))).2 with
        ⟨missing, other, after, member, absent, failed⟩ |
        ⟨parts, after, others, passed, types, inners⟩
      · -- A field that is missing later fails the check as a whole.
        refine .inl ⟨missing, other, after, List.mem_cons_of_mem _ member, absent, ?_⟩
        simp [wrapDeclared, found, failed]
      · refine .inr ⟨(names.lookup name, part) :: parts, after,
          .cons (wrap_extends store graph inner type _) stands fresh others, ?_, ?_, ?_⟩
        · simp [wrapDeclared, found, passed, outer]
        · simp [types, asked]
        · intro other member
          rcases List.mem_cons.mp member with rfl | member
          · exact ⟨by rw [found, own], by rw [asked]⟩
          · exact inners other member

end Store

/-! Records of parts. -/

section Parts

variable {names : NameTable} {declared : List (Name × TypeId)} {fields : Record}
  {parts : List (String × Part)}

/-- The record of the checked parts. -/
theorem ofEntries_outer (parts : List (String × Part)) :
    (Record.ofEntries (parts.map fun part => (part.1, part.2.outer))).entries =
      (placeAll [] parts).map fun part => (part.1, part.2.outer) := by
  have none : EntriesAgree (fun (id : ThunkId) (part : Part) => id = part.outer)
      ([] : List Entry) ([] : List (String × Part)) := .nil
  rw [Record.entries_ofEntries]
  exact (none.placeAll (.map Part.outer parts)).eq_map

/-- Parts under different names are checked by different computations. -/
theorem cells_nodup (sorted : Sorted parts)
    (apart : ∀ part ∈ parts, ∀ other ∈ parts, ∀ cell, part.2.cell? = some cell →
      other.2.cell? = some cell → part.1 = other.1) :
    (parts.filterMap fun part => part.2.cell?).Nodup := by
  rw [List.Nodup, List.pairwise_filterMap]
  -- Of two parts the first has the lesser name, and so not the same computation.
  refine sorted.imp_of_mem ?_
  intro part other first second less cell found another same equal
  subst equal
  have name := apart part first other second cell found same
  rw [name] at less
  exact String.lt_irrefl _ less

/-- What is asked of each declared field is asked of the parts, one by one. -/
theorem forall₂_of_declared {type? : String → Option TypeId} {accepts : TypeId → Data → Prop}
    (declared : ∀ part ∈ parts, type? part.1 = some part.2.demand.type) {named : List (String × Data)}
    (same : named.map Prod.fst = parts.map Prod.fst) :
    (∀ field ∈ named, ∀ type, type? field.1 = some type → accepts type field.2) ↔
      List.Forall₂ (fun part data => accepts part.2.demand.type data) parts (named.map Prod.snd) := by
  -- Both lists are gone through together, since the parts have the names of the data.
  induction parts generalizing named with
  | nil =>
    obtain rfl : named = [] := by simpa using same
    simp
  | cons part rest ih =>
    cases named with
    | nil => cases same
    | cons field others =>
      rw [List.map_cons, List.map_cons, List.cons.injEq] at same
      have first := declared part List.mem_cons_self
      rw [List.map_cons, List.forall₂_cons,
        ← ih (fun other member => declared other (List.mem_cons_of_mem _ member)) same.2,
        List.forall_mem_cons, same.1, first]
      simp

/-- When one of several parts is blamed, it is that of a name. -/
theorem part_blamed {graph : TypeGraph} {named : List (String × Data)} {fault : Fault}
    (same : named.map Prod.fst = parts.map Prod.fst)
    (blames : Demand.BlamesOne names graph (parts.map fun part => part.2.demand) (named.map Prod.snd) fault) :
    ∃ part ∈ parts, ∃ data, (part.1, data) ∈ named ∧ part.2.demand.Blames names graph data fault := by
  induction parts generalizing named with
  | nil =>
    obtain ⟨pair, member, -⟩ := blames
    simp at member
  | cons part rest ih =>
    cases named with
    | nil => cases same
    | cons field others =>
      rw [List.map_cons, List.map_cons, List.cons.injEq] at same
      -- The part that is blamed is the first or one of the others.
      rcases Demand.blamesOne_cons.mp blames with first | later
      · exact ⟨part, List.mem_cons_self, field.2, same.1 ▸ List.mem_cons_self, first⟩
      · obtain ⟨other, among, data, member, blamed⟩ := ih same.2 later
        exact ⟨other, List.mem_cons_of_mem _ among, data, List.mem_cons_of_mem _ member, blamed⟩

/-- A field is found in a record if its name is one of the record. -/
theorem Record.isSome_get?_iff {name : String} : (fields.get? name).isSome = true ↔ name ∈ fields.names :=
  isSome_lookup_iff

/-- The declared names are those of the parts that are declared for them. -/
theorem keys_of_declared
    (types : declared.map (fun (name, type) => (names.lookup name, type)) =
      parts.map fun part => (part.1, part.2.demand.type)) :
    declared.map (fun field => names.lookup field.1) = parts.map Prod.fst := by
  have first := congrArg (List.map Prod.fst) types
  rw [List.map_map, List.map_map] at first
  exact first

/-- The fields of a record are what its parts were before their checks, if no field is without a part. -/
theorem agree_placed (inners : ∀ part ∈ parts, fields.get? part.1 = some part.2.inner)
    (all : ∀ name ∈ fields.names, name ∈ parts.map Prod.fst) :
    EntriesAgree (fun id part => id = Part.inner part) fields.entries (placeAll [] parts) := by
  refine .of_lookup fields.sorted (placeAll_sorted .nil) fun name => ?_
  -- Of several parts of one name, the last is put into its place.
  rw [lookup_placeAll, List.lookup_nil, Option.or_none]
  cases last : parts.reverse.lookup name with
  | some part =>
    have field := inners (name, part) (List.mem_reverse.mp (mem_of_lookup last))
    rw [Record.get?] at field
    rw [field]
    exact .some rfl
  | none =>
    -- A field of the record that is no part would be one too many.
    have absent : fields.entries.lookup name = none := by
      rw [← Option.not_isSome_iff_eq_none]
      intro present
      have among := all name (Record.isSome_get?_iff.mp present)
      rw [← List.mem_reverse, ← List.map_reverse, ← isSome_lookup_iff, last] at among
      cases among
    rw [absent]
    exact .none

/-- The part in the place of a field is checked against the last type that is declared for it. -/
theorem declared?_of_placed
    (types : declared.map (fun (name, type) => (names.lookup name, type)) =
      parts.map fun part => (part.1, part.2.demand.type)) {part : String × Part}
    (member : part ∈ placeAll [] parts) :
    TypeGraph.declared? names declared part.1 = some part.2.demand.type := by
  have last := lookup_of_mem (placeAll_sorted .nil) member
  rw [lookup_placeAll, List.lookup_nil, Option.or_none] at last
  rw [TypeGraph.declared?, types, ← List.map_reverse]
  refine (lookup_map (fun part : Part => part.demand.type) parts.reverse part.1).trans ?_
  rw [last, Option.map_some]

end Parts

/-! Checks. -/

/-- What a check comes to, for a value of which the data are known. -/
inductive Verdict (names : NameTable) (graph : TypeGraph) (store : Store) (demand : Demand)
    (value : Value) (data : Data) : Except Fault Value × Store → Prop
  | passes {checked : Value} {cells : List ThunkId} {after : Store} (grown : store.Extends after)
    (guards : Guards names graph after demand value checked cells) (nodup : cells.Nodup)
    (fresh : ∀ cell ∈ cells, store.cells.size ≤ cell) :
    Verdict names graph store demand value data (.ok checked, after)
  | fails {fault : Fault} {after : Store} (blames : demand.Blames names graph data fault) :
    Verdict names graph store demand value data (.error fault, after)

/-- A value is of the kind that its data are of. -/
theorem Value.Outlines.kind {value : Value} {data : Data} (outlines : value.Outlines data) :
    data.kind? = some value.kind := by
  cases outlines with
  | leaf leaf => cases leaf <;> rfl
  | list | record => rfl

namespace Verdict

variable {names : NameTable} {graph : TypeGraph} {store : Store} {demand : Demand} {value : Value}
  {data : Data}

/-- A value that stays as it is. -/
theorem same (guards : Guards names graph store demand value value []) :
    Verdict names graph store demand value data (.ok value, store) :=
  .passes (.refl store) guards .nil nofun

/-- Parts that have been put off under the names of the fields are a checked record. -/
theorem ofParts {fields checked : Record} {after : Store} {parts : List (String × Part)}
    (sorted : Sorted parts) (wrapped : Store.Wrapped names graph store after parts)
    (inner : fields.entries = parts.map fun part => (part.1, part.2.inner))
    (outer : checked.entries = parts.map fun part => (part.1, part.2.outer))
    (reads : ∀ named, named.map Prod.fst = fields.names →
      (Conforms names graph demand.type (.record named) ↔
        List.Forall₂ (fun part data => Conforms names graph part.2.demand.type data) parts
          (named.map Prod.snd)))
    (blames : ∀ part ∈ parts, ∀ named data fault, (part.1, data) ∈ named →
      part.2.demand.Blames names graph data fault → demand.Blames names graph (.record named) fault) :
    Verdict names graph store demand (.record fields) data (.ok (.record checked), after) := by
  have keys : fields.names = parts.map Prod.fst := by
    rw [Record.names, inner, List.map_map]
    rfl
  refine .passes wrapped.grown (.record parts inner outer wrapped.stand reads ?_)
    (cells_nodup sorted wrapped.apart) fun cell member => ?_
  · -- The record is blamed for the part that is.
    intro named fault same blamed
    obtain ⟨part, among, data, member, own⟩ := part_blamed (same.trans keys) blamed
    exact blames part among named data fault member own
  · obtain ⟨part, among, found⟩ := List.mem_filterMap.mp member
    exact (wrapped.fresh part among cell found).1

/-- Checking a dictionary. -/
theorem ofDict (sound : graph.Sound) {elem : TypeId}
    (found : graph.node (graph.shape demand.type) = .dict elem) (fields : Record) :
    Verdict names graph store demand (.record fields) data
      (.ok (.record (.ofEntries (store.wrapAll graph elem demand.path fields.entries).1)),
        (store.wrapAll graph elem demand.path fields.entries).2) := by
  obtain ⟨parts, wrapped, inner, outer, demands⟩ :=
    Store.wrapAll_parts names sound elem demand.path fields.entries store
  -- A dictionary asks every field for the same type, so the parts have the names of the fields.
  have keys : fields.entries.map Prod.fst = parts.map Prod.fst := by
    rw [inner, List.map_map]
    rfl
  have sorted : Sorted parts := sorted_of_names fields.sorted keys
  refine .ofParts sorted wrapped inner ?_ ?_ ?_
  · rw [outer, ofEntries_outer, placeAll_of_sorted sorted, List.nil_append]
  · intro named same
    have together : named.map Prod.fst = parts.map Prod.fst := same.trans keys
    have each := @forall₂_of_declared parts (fun _ => some elem) (Conforms names graph)
      (fun part member => by rw [demands part member]) named together
    rw [Conforms.dict_iff sound found, ← each]
    constructor
    · rintro ⟨others, equal, elems⟩ field member type same
      cases equal
      cases same
      exact elems field member
    · exact fun elems => ⟨named, rfl, fun field member => elems field member elem rfl⟩
  · intro part among named data fault member blames
    rw [demands part among] at blames
    exact .entry sound found member blames

section Record

variable {declared : List (Name × TypeId)} {fields : Record} {parts : List (String × Part)}

/-- A record whose fields are just the declared ones, all of them put off, has passed. -/
theorem ofDeclared (sound : graph.Sound) (found : graph.node (graph.shape demand.type) = .record declared)
    {after : Store} (wrapped : Store.Wrapped names graph store after parts)
    (types : declared.map (fun (name, type) => (names.lookup name, type)) =
      parts.map fun part => (part.1, part.2.demand.type))
    (inners : ∀ part ∈ parts, fields.get? part.1 = some part.2.inner ∧
      part.2.demand.path = demand.path.field part.1)
    (all : ∀ name ∈ fields.names, name ∈ parts.map Prod.fst) :
    Verdict names graph store demand (.record fields) data
      (.ok (.record (.ofEntries (parts.map fun part => (part.1, part.2.outer)))), after) := by
  have inner := agree_placed (fun part among => (inners part among).1) all
  refine .ofParts (placeAll_sorted .nil) (wrapped.subset fun _ => mem_placeAll) inner.eq_map
    (ofEntries_outer parts) (fun named same => ?_) fun part among named data fault member blames => ?_
  · rw [Conforms.record_iff sound found,
      ← forall₂_of_declared (fun part => declared?_of_placed types) (same.trans inner.keys)]
    constructor
    · rintro ⟨_, equal, -, elems⟩
      cases equal
      exact elems
    · refine fun elems => ⟨named, rfl, fun name => ?_, elems⟩
      rw [declared?_isSome_iff, keys_of_declared types, same]
      refine ⟨all name, fun member => ?_⟩
      obtain ⟨part, among, rfl⟩ := List.mem_map.mp member
      rw [← Record.isSome_get?_iff, (inners part among).1]
      rfl
  · -- The type that counts for the field is that of the part in its place.
    have asked : part.2.demand = ⟨demand.path.field part.1, part.2.demand.type⟩ := by
      rw [← (inners part (mem_placeAll among)).2]
    rw [asked] at blames
    exact .field sound found (declared?_of_placed types among) member blames

/-- Checking a record. -/
theorem ofRecord (sound : graph.Sound) (found : graph.node (graph.shape demand.type) = .record declared)
    {named : List (String × Data)} (same : named.map Prod.fst = fields.names) :
    Verdict names graph store demand (.record fields) (.record named)
      (store.checkRecord names graph fields declared demand.path) := by
  rw [Store.checkRecord]
  rcases Store.wrapDeclared_parts names sound fields demand.path declared store with
    ⟨missing, type, after, member, absent, failed⟩ |
    ⟨parts, after, wrapped, passed, types, inners⟩
  · -- A declared field is missing.
    rw [failed]
    have lacks : names.lookup missing ∉ named.map Prod.fst := by
      rw [same, ← Record.isSome_get?_iff, absent]
      exact Bool.false_ne_true
    exact .fails (.of_shape sound (.here (.missing found member lacks)))
  · rw [passed]
    dsimp only
    have listed (name : String) :
        ((parts.map fun part => (part.1, part.2.outer)).any fun entry => entry.1 == name) = true ↔
          name ∈ parts.map Prod.fst := by
      simp
    split
    · -- A field is not declared.
      rename_i name extra
      have member : name ∈ named.map Prod.fst := same ▸ List.mem_of_find?_eq_some extra
      have undeclared : TypeGraph.declared? names declared name = none := by
        have unlisted := List.find?_some extra
        rw [Bool.not_eq_true', ← Bool.not_eq_true, listed] at unlisted
        rw [← Option.not_isSome_iff_eq_none, declared?_isSome_iff, keys_of_declared types]
        exact unlisted
      exact .fails (.of_shape sound (.here (.unexpected found member undeclared)))
    · -- Every field is declared, and every declared field is there.
      rename_i extra
      refine ofDeclared sound found wrapped types inners fun name present => ?_
      have among := List.find?_eq_none.mp extra name present
      rwa [Bool.not_eq_true, Bool.not_eq_false', listed] at among

end Record

/-- Types whose values are looked at as a whole, with the kind of these. -/
def scalar? : TypeNode → Option Kind
  | .num => some .num
  | .str => some .str
  | .bool => some .bool
  | .fn _ _ => some .function
  | _ => none

/-- A type whose values are looked at as a whole asks for values of their kind. -/
theorem kind?_of_scalar {node : TypeNode} {kind : Kind} (asks : scalar? node = some kind) :
    node.kind? = some kind := by
  cases node <;> first | exact asks | cases asks

/-- A value of such a kind has no parts that are looked at. -/
theorem leaf_of_scalar {node : TypeNode} (asks : scalar? node = some value.kind)
    (outlines : value.Outlines data) : value.Leaf data := by
  cases outlines with
  | leaf leaf => exact leaf
  | list items parts | record same => cases node <;> cases asks

/-- What is of the kind of such a type belongs to it. -/
theorem conforms_of_scalar (sound : graph.Sound)
    (asks : scalar? (graph.node (graph.shape demand.type)) = some value.kind) (leaf : value.Leaf data) :
    Conforms names graph demand.type data := by
  rw [Conforms.shape_iff sound]
  -- Only one type of this kind asks for the kind of the value.
  generalize found : graph.node (graph.shape demand.type) = node at asks
  cases leaf with
  | int number => cases node <;> first | exact .int found number | cases asks
  | float number => cases node <;> first | exact .float found number | cases asks
  | bool truth => cases node <;> first | exact .bool found truth | cases asks
  | str text => cases node <;> first | exact .str found text | cases asks
  | closure function => cases node <;> first | exact .closure found | cases asks
  | builtin op held => cases node <;> first | exact .builtin found op _ _ | cases asks
  | host function => cases node <;> first | exact .host found _ | cases asks

/-- A value that the type asks another kind of fails the check. -/
theorem ofMismatch (sound : graph.Sound) {kind : Kind}
    (asks : (graph.node (graph.shape demand.type)).kind? = some kind) (outlines : value.Outlines data)
    (other : value.kind ≠ kind) :
    Verdict names graph store demand value data
      (.error (Store.kindMismatch names graph (graph.shape demand.type) value.kind demand.path), store) := by
  have violates : Violates names graph (graph.shape demand.type) data [] _ _ := .kind asks outlines.kind other
  have blames : Demand.Blames names graph ⟨demand.path, graph.shape demand.type⟩ data _ :=
    @Demand.Blames.here _ _ _ _ _ (.kind (graph.display names (graph.shape demand.type)) value.kind) violates
  rw [List.append_nil] at blames
  exact .fails (.of_shape sound blames)

/-- Checking the kind of a value. -/
theorem ofKind (sound : graph.Sound) {kind : Kind}
    (asks : scalar? (graph.node (graph.shape demand.type)) = some kind) (outlines : value.Outlines data) :
    Verdict names graph store demand value data
      (if value.kind = kind then (.ok value, store)
        else (.error (Store.kindMismatch names graph (graph.shape demand.type) value.kind demand.path), store)) := by
  split
  · rename_i same
    subst same
    have leaf := leaf_of_scalar asks outlines
    exact .same (.leaf leaf (conforms_of_scalar sound asks leaf))
  · rename_i other
    exact ofMismatch sound (kind?_of_scalar asks) outlines other

/-- Checking a list. -/
theorem ofList (sound : graph.Sound) {elem : TypeId}
    (found : graph.node (graph.shape demand.type) = .list elem) (items : LazyList) :
    Verdict names graph store demand (.list items) data
      (.ok (.list (.concat .empty (store.suspend (.checkList items elem demand.path 0)).1)),
        (store.suspend (.checkList items elem demand.path 0)).2) := by
  -- A list belongs to the type as soon as all its elements belong to the type of the elements.
  have reads (parts : List Data) : Conforms names graph demand.type (.list parts) ↔
      ∀ part ∈ parts, Conforms names graph elem part := by
    rw [Conforms.list_iff sound found]
    constructor
    · rintro ⟨others, equal, elems⟩
      cases equal
      exact elems
    · exact fun elems => ⟨parts, rfl, elems⟩
  refine .passes (store.alloc_extends _) (.list reads (.elem sound found) (store.suspend_cell _))
    (List.nodup_singleton _) ?_
  -- The only new computation is the check of the cells of the list.
  intro cell member
  have last : cell = store.cells.size := List.mem_singleton.mp member
  exact Nat.le_of_eq last.symm

/-- Every check passes with a value whose parts are guarded, or fails and blames the data. -/
theorem ofCheck (sound : graph.Sound) (outlines : value.Outlines data) (demand : Demand) :
    Verdict names graph store demand value data (store.check names graph value demand.type demand.path) := by
  obtain ⟨count, reads, plain⟩ := sound.reads demand.type
  -- A value of another kind than the type asks for fails the check.
  have differs (kind : Kind) (asks : (graph.node (graph.shape demand.type)).kind? = some kind)
      (other : value.kind ≠ kind) := @ofMismatch names graph store demand value data sound kind asks outlines other
  unfold Store.check
  dsimp only
  -- The shape decides which of the checks is made.
  cases found : graph.node (graph.shape demand.type) with
  | dyn => exact .same (.free value fun other => (Conforms.shape_iff sound).mpr (.dyn found other))
  | var name => exact .same (.free value fun other => (Conforms.shape_iff sound).mpr (.var found other))
  -- A shape has no link to read on.
  | aliasSlot name target | forAll name body =>
    rw [found] at plain
    cases plain
  | num | str | bool | fn param result => exact ofKind sound (by rw [found]; rfl) outlines
  | list elem =>
    rw [found] at differs
    cases outlines with
    | list items parts => exact ofList sound found items
    | leaf leaf => cases leaf <;> exact differs .list rfl nofun
    | record same => exact differs .list rfl nofun
  | record declared =>
    rw [found] at differs
    cases outlines with
    | record same => exact ofRecord sound found same
    | leaf leaf => cases leaf <;> exact differs .record rfl nofun
    | list items parts => exact differs .record rfl nofun
  | dict elem =>
    rw [found] at differs
    cases outlines with
    | record same => exact ofDict sound found _
    | leaf leaf => cases leaf <;> exact differs .record rfl nofun
    | list items parts => exact differs .record rfl nofun

end Verdict

end LazyConfig
