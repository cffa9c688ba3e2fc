import LazyConfig.Proofs.Store.Extension
import LazyConfig.Proofs.Records.Bytes
import LazyConfig.Proofs.Value.Entries

/-!
Reading the fields of a record. The names of a record are sorted, a field is found under each of them, and a function
that is put off for every field makes a record with the same names.
-/

namespace LazyConfig

/-- What is related one by one is related to something. -/
theorem exists_of_forall₂ {α β : Type} {related : α → β → Prop} {left : List α} {right : List β}
    (pairs : List.Forall₂ related left right) {value : α} (member : value ∈ left) :
    ∃ other ∈ right, related value other := by
  induction pairs with
  | nil => cases member
  | cons here _ ih =>
    rcases List.mem_cons.mp member with rfl | later
    · exact ⟨_, List.mem_cons_self, here⟩
    · obtain ⟨other, among, holds⟩ := ih later
      exact ⟨other, List.mem_cons_of_mem _ among, holds⟩

namespace Record

variable {record other : Record} {name : String}

/-- A record has the fields that are found in it. -/
theorem contains_iff : record.contains name = true ↔ name ∈ record.names :=
  isSome_lookup_iff

/-- A field is found exactly under the names of a record. -/
theorem get?_isSome_iff : (∃ field, record.get? name = some field) ↔ name ∈ record.names := by
  rw [← contains_iff, contains, Option.isSome_iff_exists]

/-- The names of a record are in the order of their bytes, so that each of them is there once. -/
theorem names_ordered (record : Record) : (record.names.map bytes).Pairwise (· < ·) := by
  rw [names, List.map_map, List.pairwise_map]
  exact record.sorted.imp bytes_lt

end Record

namespace Store

/-- A field is put off as the application of a function to its name and to another computation. -/
structure Defers (store : Store) (func : ThunkId) (name : String) (original key field : ThunkId) : Prop where
  named : store.cell key = .forced (.str name)
  waits : store.cell field = .suspended (.apply func [key, original])

variable {store after : Store}

/-- Field names are there as texts. -/
theorem readyAll_cells (values : List Value) (store : Store) :
    List.Forall₂ (fun id value => (store.readyAll values).2.cell id = .forced value) (store.readyAll values).1 values := by
  induction values generalizing store with
  | nil => exact .nil
  | cons value rest ih =>
    -- The first value stays where it is when the others are added.
    have first : (store.ready value).2.cell store.cells.size = .forced value := by
      rw [ready, cell_alloc, if_pos rfl]
    have stays := readyAll_extends rest (store.ready value).2
    exact .cons ((stays.2 _ (lt_size_of_cell first nofun)).trans first) (ih _)

theorem Defers.later {func original key field : ThunkId} {name : String}
    (defers : store.Defers func name original key field) (grown : store.Extends after) :
    after.Defers func name original key field :=
  ⟨(grown.2 _ (lt_size_of_cell defers.named nofun)).trans defers.named,
    (grown.2 _ (lt_size_of_suspended defers.waits)).trans defers.waits⟩

/-- Each entry gets a new computation, the application of the function to its name and its value. -/
theorem mapEntries_entries (func : ThunkId) (entries : List Entry) (store : Store) :
    List.Forall₂ (fun mapped entry => mapped.1 = entry.1 ∧ store.cells.size ≤ mapped.2 ∧
        ∃ key, (store.mapEntries func entries).2.Defers func entry.1 entry.2 key mapped.2)
      (store.mapEntries func entries).1 entries := by
  -- Each entry adds two computations, its name and the application; the later ones disturb neither.
  induction entries generalizing store with
  | nil => exact .nil
  | cons entry rest ih =>
    let key := store.ready (.str entry.1)
    let field := key.2.suspend (.apply func [key.1, entry.2])
    have named : key.2.cell key.1 = .forced (.str entry.1) := (cell_alloc ..).trans (if_pos rfl)
    have added : field.2.Defers func entry.1 entry.2 key.1 field.1 := by
      refine ⟨?_, suspend_cell ..⟩
      exact ((suspend_extends _ _).2 _ (lt_size_of_cell named nofun)).trans named
    have size : store.cells.size ≤ field.1 := (store.ready_extends (.str entry.1)).1
    have grown : store.Extends field.2 := (store.ready_extends _).trans (suspend_extends _ _)
    refine .cons ⟨rfl, size, key.1, added.later (mapEntries_extends func rest field.2)⟩ ?_
    exact (ih field.2).imp fun mapped entry ⟨same, less, defers⟩ => ⟨same, Nat.le_trans grown.1 less, defers⟩

/-- The entries of a mapped record are those that are put off, under the names of the record. -/
theorem mapFields_entries (func : ThunkId) (record : Record) (store : Store) :
    (store.mapFields func record).1.entries = (store.mapEntries func record.entries).1 := by
  have names : record.entries.map Prod.fst = (store.mapEntries func record.entries).1.map Prod.fst := by
    have same := (mapEntries_entries func record.entries store).imp fun _ _ mapped => mapped.1
    rw [eq_comm, ← List.forall₂_eq_eq_eq, List.forall₂_map_left_iff, List.forall₂_map_right_iff]
    exact same
  -- They are in place already, for the names are sorted.
  have sorted := sorted_of_names record.sorted names
  show (Record.ofEntries (store.mapEntries func record.entries).1).entries = _
  rw [Record.entries_ofEntries]
  have placed : placeAll [] (store.mapEntries func record.entries).1 = [] ++ _ := placeAll_of_sorted sorted
  exact placed

/-- A mapped record has the names of the record, and each field is the application to the field of that name. -/
theorem mapFields_fields (func : ThunkId) (record : Record) (store : Store) :
    (store.mapFields func record).1.names = record.names ∧
      ∀ name field, (store.mapFields func record).1.get? name = some field → store.cells.size ≤ field ∧
        ∃ original key, record.get? name = some original ∧
          (store.mapFields func record).2.Defers func name original key field := by
  have mapped := mapEntries_entries func record.entries store
  rw [← mapFields_entries] at mapped
  constructor
  · rw [Record.names, Record.names]
    have same := mapped.imp fun _ _ entry => entry.1
    rwa [← List.forall₂_eq_eq_eq, List.forall₂_map_left_iff, List.forall₂_map_right_iff]
  · intro name field found
    obtain ⟨entry, member, rfl, less, key, defers⟩ := exists_of_forall₂ mapped (mem_of_lookup found)
    exact ⟨less, entry.2, key, lookup_of_mem record.sorted member, defers⟩

end Store

end LazyConfig
