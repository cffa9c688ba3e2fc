/-! Records: fields sorted by name, each name once. -/

namespace LazyConfig

/-- The position of a suspended computation or its outcome in a store. -/
abbrev ThunkId := Nat

/-- A field of a record by its name. -/
abbrev Entry := String × ThunkId

/-- Field names and where their values are, in increasing order of the names. -/
structure Record where
  entries : List Entry := []
  sorted : entries.Pairwise fun left right => left.1 < right.1 := by exact .nil

namespace Record

/-- The record without fields. -/
def empty : Record :=
  {}

instance : Inhabited Record := ⟨empty⟩

/-- Puts a field into its place among sorted ones; a field of the same name is replaced. -/
def place {α : Type} (name : String) (value : α) : List (String × α) → List (String × α)
  | [] => [(name, value)]
  | entry :: rest =>
    if name < entry.1 then (name, value) :: entry :: rest
    else if entry.1 < name then entry :: place name value rest
    else (name, value) :: rest

/-- Placing a field adds no other name. -/
theorem mem_place {α : Type} {name : String} {value : α} {entries : List (String × α)}
    {entry : String × α} (member : entry ∈ place name value entries) : entry.1 = name ∨ entry ∈ entries := by
  -- The new field is the only one that was not there before.
  induction entries with
  | nil => simp_all [place]
  | cons first rest ih =>
    simp only [place] at member
    split at member
    · grind
    · split at member
      · grind
      · grind

/-- Placing a field keeps the names in increasing order. -/
theorem place_sorted {α : Type} {name : String} {value : α} {entries : List (String × α)}
    (sorted : entries.Pairwise fun left right => left.1 < right.1) :
    (place name value entries).Pairwise fun left right => left.1 < right.1 := by
  -- Only the entries passed on the way stand before the new one.
  induction entries with
  | nil => simp [place]
  | cons first rest ih =>
    obtain ⟨least, tail⟩ := List.pairwise_cons.mp sorted
    simp only [place]
    split
    · rename_i before
      refine List.pairwise_cons.mpr ⟨fun entry member => ?_, sorted⟩
      rcases List.mem_cons.mp member with rfl | later
      · exact before
      · exact String.lt_trans before (least entry later)
    · rename_i notBefore
      split
      · rename_i after
        refine List.pairwise_cons.mpr ⟨fun entry member => ?_, ih tail⟩
        rcases mem_place member with same | later
        · exact same ▸ after
        · exact least entry later
      · rename_i notAfter
        have same : name = first.1 :=
          String.le_antisymm (String.not_lt.mp notAfter) (String.not_lt.mp notBefore)
        exact List.pairwise_cons.mpr ⟨fun entry later => same ▸ least entry later, tail⟩

/-- A record with one more field, or with a new value for a field that it has. -/
def insert (record : Record) (name : String) (value : ThunkId) : Record :=
  ⟨place name value record.entries, place_sorted record.sorted⟩

/-- The record with the given fields; the last entry of a name counts. -/
def ofEntries (entries : List Entry) : Record :=
  entries.foldl (fun record entry => record.insert entry.1 entry.2) empty

/-- The value of a field. -/
def get? (record : Record) (name : String) : Option ThunkId :=
  record.entries.lookup name

/-- Whether a record has a field. -/
def contains (record : Record) (name : String) : Bool :=
  (record.get? name).isSome

/-- The number of fields. -/
def size (record : Record) : Nat :=
  record.entries.length

/-- Whether a record has no fields. -/
def isEmpty (record : Record) : Bool :=
  record.entries.isEmpty

/-- The field names in increasing order. -/
def names (record : Record) : List String :=
  record.entries.map Prod.fst

/-- The values of the fields, in the order of the names. -/
def thunks (record : Record) : List ThunkId :=
  record.entries.map Prod.snd

end Record

end LazyConfig
