import LazyConfig.Proofs.Machine.Moves
import LazyConfig.Proofs.Records.Reading
import LazyConfig.Proofs.Twins.Exchange

/-!
Record literals. The fields are put off from left to right and come into the order of their names; so the order in
which they are written makes no difference, and a name that comes again is an error.
-/

namespace LazyConfig

/-! Entries in another order. -/

section

variable {α : Type} {entries others : List (String × α)}

/-- Where each name is there once, an entry is what is found under its name. -/
theorem lookup_eq_some_iff_mem (distinct : (entries.map Prod.fst).Nodup) {name : String} {value : α} :
    entries.lookup name = some value ↔ (name, value) ∈ entries := by
  refine ⟨mem_of_lookup, fun member => ?_⟩
  obtain ⟨other, found⟩ := Option.isSome_iff_exists.mp (isSome_lookup_iff.mpr (List.mem_map_of_mem member))
  rw [found, (Prod.mk.inj (List.inj_on_of_nodup_map distinct (mem_of_lookup found) member rfl)).2]

/-- Entries under different names come into the same places in any order. -/
theorem placeAll_perm (perm : entries.Perm others) (distinct : (entries.map Prod.fst).Nodup) :
    placeAll [] entries = placeAll [] others := by
  have distinct_others := (perm.map Prod.fst).nodup_iff.mp distinct
  -- Under different names, what is found by a name is the entry that has it.
  have found (entries : List (String × α)) (distinct : (entries.map Prod.fst).Nodup) (name : String) (value : α) :
      (placeAll [] entries).lookup name = some value ↔ (name, value) ∈ entries := by
    have reversed : (entries.reverse.map Prod.fst).Nodup := by
      rwa [List.map_reverse, List.nodup_reverse]
    rw [lookup_placeAll, List.lookup_nil, Option.or_none, lookup_eq_some_iff_mem reversed, List.mem_reverse]
  have agree : EntriesAgree (· = ·) (placeAll [] entries) (placeAll [] others) := by
    refine .of_lookup (placeAll_sorted .nil) (placeAll_sorted .nil) fun name => ?_
    have same : (placeAll [] entries).lookup name = (placeAll [] others).lookup name :=
      Option.ext fun value => by
        rw [found entries distinct, found others distinct_others, perm.mem_iff]
    rw [same]
    cases (placeAll [] others).lookup name with
    | none => exact .none
    | some value => exact .some rfl
  refine agree.eq_map.trans ?_
  exact List.map_id' _

/-- A list in which something comes again has a first place where that happens. -/
theorem exists_first_again {names : List α} (again : ¬ names.Nodup) :
    ∃ before name rest, names = before ++ name :: rest ∧ before.Nodup ∧ name ∈ before := by
  induction names using List.reverseRecOn with
  | nil => exact absurd .nil again
  | append_singleton names name ih =>
    by_cases distinct : names.Nodup
    · refine ⟨names, name, [], rfl, distinct, Classical.byContradiction fun new => again ?_⟩
      exact List.nodup_append.mpr ⟨distinct, List.nodup_singleton name, by grind⟩
    · obtain ⟨before, earlier, rest, rfl, parts⟩ := ih distinct
      exact ⟨before, earlier, rest ++ [name], by simp, parts⟩

end

/-- A record that is made of entries has the names of the entries. -/
theorem Record.mem_names_ofEntries {entries : List Entry} {name : String} :
    name ∈ (Record.ofEntries entries).names ↔ name ∈ entries.map Prod.fst := by
  rw [names, entries_ofEntries, ← isSome_lookup_iff, lookup_placeAll, List.lookup_nil, Option.or_none,
    isSome_lookup_iff, List.map_reverse, List.mem_reverse]

/-! Putting off fields. -/

namespace Context

variable (context : Context) (env : Env)

/-- The name of a field, as it is written. -/
def nameOf (field : Field) : String :=
  context.names.lookup field.name

/-- Puts off the value of a field, with the check that its annotation asks for. -/
def suspendField (field : Field) (store : Store) : ThunkId × Store :=
  let value := context.suspend store field.value env
  match field.type.bind context.annotations.get? with
  | none => value
  | some type => value.2.suspend (.check value.1 type (Path.root.field (context.nameOf field)))

/-- Puts off fields, from left to right. -/
def suspendEntries : List Field → Store → List Entry × Store
  | [], store => ([], store)
  | field :: rest, store =>
    let put := context.suspendField env field store
    let others := suspendEntries rest put.2
    ((context.nameOf field, put.1) :: others.1, others.2)

/-- The annotation of a field, if it has one, has been read. -/
def Annotates (field : Field) : Prop :=
  ∀ type, field.type = some type → ∃ resolved, context.annotations.get? type = some resolved

variable {context} {env} {field : Field} {fields rest : List Field} {record : Record} {store : Store}

@[simp] theorem suspendEntries_cons : context.suspendEntries env (field :: rest) store =
    ((context.nameOf field, (context.suspendField env field store).1) ::
      (context.suspendEntries env rest (context.suspendField env field store).2).1,
      (context.suspendEntries env rest (context.suspendField env field store).2).2) :=
  rfl

/-- Fields are put off under their names. -/
theorem suspendEntries_names (fields : List Field) (store : Store) :
    (context.suspendEntries env fields store).1.map Prod.fst = fields.map context.nameOf := by
  induction fields generalizing store with
  | nil => rfl
  | cons field rest ih => rw [suspendEntries_cons, List.map_cons, List.map_cons, ih]

/-- A field whose annotation has been read is put off, and its name must be new. -/
theorem suspendFields_cons (reads : context.Annotates field) :
    let put := context.suspendField env field store
    context.suspendFields env (field :: rest) record store =
      if record.contains (context.nameOf field) then (.error (.duplicateField (context.nameOf field)), put.2)
      else context.suspendFields env rest (record.insert (context.nameOf field) put.1) put.2 := by
  simp only [suspendFields, suspendField, nameOf]
  cases typed : field.type with
  | none => rfl
  | some type =>
    obtain ⟨known, found⟩ := reads type typed
    simp only [Option.bind_some, found, Option.map_some]

/-- Fields under new names that differ are put off and come into their places, and the others follow. -/
theorem suspendFields_append (reads : ∀ field ∈ fields, context.Annotates field)
    (distinct : (fields.map context.nameOf).Nodup) (new : ∀ field ∈ fields, context.nameOf field ∉ record.names) :
    context.suspendFields env (fields ++ rest) record store =
      context.suspendFields env rest
        ((context.suspendEntries env fields store).1.foldl (fun record entry => record.insert entry.1 entry.2) record)
        (context.suspendEntries env fields store).2 := by
  induction fields generalizing record store with
  | nil => rfl
  | cons field fields ih =>
    obtain ⟨first, others⟩ := List.nodup_cons.mp distinct
    have absent : ¬ record.contains (context.nameOf field) = true := fun found =>
      new field List.mem_cons_self (Record.contains_iff.mp found)
    rw [List.cons_append, suspendFields_cons (reads field List.mem_cons_self), if_neg absent, suspendEntries_cons,
      List.foldl_cons]
    refine ih (fun other member => reads other (List.mem_cons_of_mem _ member)) others fun other member placed => ?_
    -- The name of a later field is neither that of this one nor one that was there before.
    obtain ⟨entry, among, same⟩ := List.mem_map.mp placed
    rcases Record.mem_place among with this | before
    · exact first (this ▸ same ▸ List.mem_map_of_mem member)
    · exact new other (List.mem_cons_of_mem _ member) (same ▸ List.mem_map_of_mem before)

/-- Fields under names that differ are put off and make a record. -/
theorem suspendFields_distinct (reads : ∀ field ∈ fields, context.Annotates field)
    (distinct : (fields.map context.nameOf).Nodup) :
    context.suspendFields env fields .empty store =
      (.ok (.ofEntries (context.suspendEntries env fields store).1), (context.suspendEntries env fields store).2) := by
  have all : context.suspendFields env (fields ++ []) .empty store = _ :=
    suspendFields_append reads distinct fun _ _ => List.not_mem_nil
  rwa [List.append_nil] at all

/-- The first name that comes again is an error. -/
theorem suspendFields_again {before : List Field} (reads : ∀ other ∈ before ++ field :: rest, context.Annotates other)
    (distinct : (before.map context.nameOf).Nodup) (again : context.nameOf field ∈ before.map context.nameOf) :
    (context.suspendFields env (before ++ field :: rest) .empty store).1 =
      .error (.duplicateField (context.nameOf field)) := by
  have earlier : ∀ other ∈ before, context.Annotates other := fun other member =>
    reads other (List.mem_append_left _ member)
  have there : (Record.ofEntries (context.suspendEntries env before store).1).contains (context.nameOf field) = true := by
    rw [Record.contains_iff, Record.mem_names_ofEntries, suspendEntries_names]
    exact again
  rw [suspendFields_append earlier distinct fun _ _ => List.not_mem_nil, suspendFields_cons (reads field (by simp))]
  exact congrArg Prod.fst (if_pos there)

end Context

end LazyConfig
