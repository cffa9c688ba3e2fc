import LazyConfig.Value.Record
import Mathlib.Data.List.Forall2
import Mathlib.Data.List.Lookmap
import Mathlib.Data.Option.Basic

/-! Lists of entries under names: what is found in them, and when they agree. -/

namespace LazyConfig

/-- Entries under the same names, with values that are related. -/
abbrev EntriesAgree {Key α β : Type} (related : α → β → Prop) :
    List (Key × α) → List (Key × β) → Prop :=
  List.Forall₂ fun left right => left.1 = right.1 ∧ related left.2 right.2

/-- Entries with names in increasing order. -/
abbrev Sorted {α : Type} (entries : List (String × α)) : Prop :=
  entries.Pairwise fun left right => left.1 < right.1

/-- What is found under a key is an entry of that key. -/
theorem mem_of_lookup {Key α : Type} [BEq Key] [LawfulBEq Key] {entries : List (Key × α)} {key : Key}
    {value : α} (found : entries.lookup key = some value) : (key, value) ∈ entries := by
  obtain ⟨before, after, split, -⟩ := List.lookup_eq_some_iff.mp found
  rw [split]
  simp

/-- The entries of a list put into place one after another; the last of a name counts. -/
def placeAll {α : Type} (start entries : List (String × α)) : List (String × α) :=
  entries.foldl (fun placed entry => Record.place entry.1 entry.2 placed) start

namespace EntriesAgree

section

variable {Key α β : Type} {related : α → β → Prop} {left : List (Key × α)} {right : List (Key × β)}

/-- Entries that agree are found under the same keys. -/
theorem lookup [BEq Key] (agree : EntriesAgree related left right) (key : Key) :
    Option.Rel related (left.lookup key) (right.lookup key) := by
  induction agree with
  | nil => exact .none
  | @cons entry other _ _ same _ ih =>
    obtain ⟨name, value⟩ := entry
    obtain ⟨_, image⟩ := other
    obtain ⟨rfl, holds⟩ := same
    simp only [List.lookup_cons]
    split
    · exact .some holds
    · exact ih

/-- Entries that agree have the same keys to be found. -/
theorem isSome_lookup [BEq Key] (agree : EntriesAgree related left right) (key : Key) :
    (left.lookup key).isSome = (right.lookup key).isSome := by
  have found := agree.lookup key
  generalize left.lookup key = first at found
  generalize right.lookup key = second at found
  cases found <;> rfl

/-- Entries that agree have the same keys. -/
theorem keys (agree : EntriesAgree related left right) :
    left.map Prod.fst = right.map Prod.fst := by
  induction agree with
  | nil => rfl
  | cons same _ ih => simp [same.1, ih]

/-- Entries that agree have values that are related. -/
theorem values (agree : EntriesAgree related left right) :
    List.Forall₂ related (left.map Prod.snd) (right.map Prod.snd) := by
  induction agree with
  | nil => exact .nil
  | cons same _ ih => exact .cons same.2 ih

/-- Entries agree when they have the same keys and related values. -/
theorem of_parts (keys : left.map Prod.fst = right.map Prod.fst)
    (values : List.Forall₂ related (left.map Prod.snd) (right.map Prod.snd)) :
    EntriesAgree related left right := by
  induction left generalizing right with
  | nil =>
    cases right with
    | nil => exact .nil
    | cons => cases keys
  | cons entry rest ih =>
    cases right with
    | nil => cases keys
    | cons other others =>
      rw [List.map_cons, List.map_cons, List.cons.injEq] at keys
      rw [List.map_cons, List.map_cons, List.forall₂_cons] at values
      exact .cons ⟨keys.1, values.1⟩ (ih keys.2 values.2)

/-- Entries agree with those whose values they are images of. -/
theorem eq_map {f : β → α} (agree : EntriesAgree (fun value source => value = f source) left right) :
    left = right.map fun entry => (entry.1, f entry.2) := by
  induction agree with
  | nil => rfl
  | @cons entry other _ _ same _ ih =>
    obtain ⟨key, value⟩ := entry
    obtain ⟨rfl, rfl⟩ := same
    rw [List.map_cons, ← ih]

/-- Entries whose values are images agree with those that they come from. -/
theorem map (f : β → α) (entries : List (Key × β)) :
    EntriesAgree (fun value source => value = f source)
      (entries.map fun entry => (entry.1, f entry.2)) entries := by
  rw [EntriesAgree, List.forall₂_map_left_iff, List.forall₂_same]
  exact fun _ _ => ⟨rfl, rfl⟩

end

variable {α β : Type} {related : α → β → Prop} {left : List (String × α)}
  {right : List (String × β)}

/-- An entry takes the same place among entries that agree. -/
theorem place {name : String} {value : α} {image : β} (holds : related value image)
    (agree : EntriesAgree related left right) :
    EntriesAgree related (Record.place name value left) (Record.place name image right) := by
  induction agree with
  | nil => exact .cons ⟨rfl, holds⟩ .nil
  | cons same rest ih =>
    simp only [Record.place, same.1]
    split
    · exact .cons ⟨rfl, holds⟩ (.cons same rest)
    · split
      · exact .cons same ih
      · exact .cons ⟨rfl, holds⟩ rest

/-- Entries that agree, put into place among entries that agree. -/
theorem placeAll {entries : List (String × α)} {images : List (String × β)}
    (start : EntriesAgree related left right) (agree : EntriesAgree related entries images) :
    EntriesAgree related (placeAll left entries) (placeAll right images) := by
  induction agree generalizing left right with
  | nil => exact start
  | @cons entry image _ _ same _ ih =>
    refine ih ?_
    show EntriesAgree related (Record.place entry.1 entry.2 left) (Record.place image.1 image.2 right)
    rw [same.1]
    exact start.place same.2

end EntriesAgree

/-- What is found among images is the image of what is found. -/
theorem lookup_map {Key α β : Type} [BEq Key] (f : α → β) (entries : List (Key × α)) (key : Key) :
    (entries.map fun entry => (entry.1, f entry.2)).lookup key = (entries.lookup key).map f := by
  induction entries with
  | nil => rfl
  | cons entry rest ih =>
    obtain ⟨name, value⟩ := entry
    rw [List.map_cons, List.lookup_cons, List.lookup_cons]
    cases key == name with
    | true => rfl
    | false => exact ih

/-- An image takes the same place among images. -/
theorem place_map {α β : Type} (f : α → β) (name : String) (value : α) (entries : List (String × α)) :
    Record.place name (f value) (entries.map fun entry => (entry.1, f entry.2)) =
      (Record.place name value entries).map fun entry => (entry.1, f entry.2) := by
  have placed : EntriesAgree (fun value source => value = f source)
      (Record.place name (f value) (entries.map fun entry => (entry.1, f entry.2)))
      (Record.place name value entries) := .place rfl (.map f entries)
  exact placed.eq_map

/-- Images put into place are the images of what is put into place. -/
theorem placeAll_map {α β : Type} (f : α → β) (entries : List (String × α)) :
    placeAll [] (entries.map fun entry => (entry.1, f entry.2)) =
      (placeAll [] entries).map fun entry => (entry.1, f entry.2) := by
  have none : EntriesAgree (fun value source => value = f source) ([] : List (String × β)) [] := .nil
  exact (none.placeAll (.map f entries)).eq_map

section

variable {α β : Type} {entries : List (String × α)}

/-- Looking for another name than the first passes the first entry. -/
theorem lookup_cons_of_ne {name : String} {entry : String × α} (other : name ≠ entry.1) :
    (entry :: entries).lookup name = entries.lookup name := by
  rw [List.lookup_cons, beq_eq_false_iff_ne.mpr other]

/-- What is found after an entry was put into place. -/
theorem lookup_place (name other : String) (value : α) :
    (Record.place name value entries).lookup other =
      if other = name then some value else entries.lookup other := by
  induction entries with
  | nil =>
    by_cases same : other = name
    · subst same
      simp [Record.place]
    · rw [Record.place, lookup_cons_of_ne same, if_neg same]
  | cons entry rest ih =>
    rw [Record.place]
    by_cases same : other = name
    · subst same
      rw [if_pos rfl] at ih ⊢
      split
      · exact List.lookup_cons_self
      · split
        · -- The name comes later, behind a smaller one.
          rename_i before
          have different : other ≠ entry.1 := fun same => String.lt_irrefl other (same ▸ before)
          rw [lookup_cons_of_ne different, ih]
        · exact List.lookup_cons_self
    · rw [if_neg same] at ih ⊢
      split
      · exact lookup_cons_of_ne same
      · rename_i notBefore
        split
        · by_cases first : other = entry.1
          · subst first
            rw [List.lookup_cons_self, List.lookup_cons_self]
          · rw [lookup_cons_of_ne first, lookup_cons_of_ne first, ih]
        · -- The entry that is replaced has the name that is not looked for.
          rename_i notAfter
          have equal : name = entry.1 :=
            String.le_antisymm (String.not_lt.mp notAfter) (String.not_lt.mp notBefore)
          rw [lookup_cons_of_ne same, lookup_cons_of_ne (equal ▸ same)]

/-- Entries put into place keep the names in increasing order. -/
theorem placeAll_sorted {start : List (String × α)} (sorted : Sorted start) :
    Sorted (placeAll start entries) := by
  induction entries generalizing start with
  | nil => exact sorted
  | cons entry rest ih => exact ih (Record.place_sorted sorted)

/-- Among entries put into place, the last of a name is found. -/
theorem lookup_placeAll (start : List (String × α)) (name : String) :
    (placeAll start entries).lookup name = (entries.reverse.lookup name).or (start.lookup name) := by
  induction entries generalizing start with
  | nil => rfl
  | cons entry rest ih =>
    have step : placeAll start (entry :: rest) =
        placeAll (Record.place entry.1 entry.2 start) rest := rfl
    rw [step, ih, lookup_place, List.reverse_cons, List.lookup_append]
    -- A name is found under the entry that is placed last, which is the first one of the reversed
    -- list.
    by_cases same : name = entry.1
    · subst same
      rw [if_pos rfl, List.lookup_cons_self]
      cases rest.reverse.lookup entry.1 <;> rfl
    · rw [if_neg same, lookup_cons_of_ne same]
      cases rest.reverse.lookup name <;> rfl

/-- An entry with a name after all others is put at the end. -/
theorem place_of_last {name : String} {value : α} (after : ∀ entry ∈ entries, entry.1 < name) :
    Record.place name value entries = entries ++ [(name, value)] := by
  induction entries with
  | nil => rfl
  | cons entry rest ih =>
    have first := after entry List.mem_cons_self
    have notBefore : ¬ name < entry.1 := fun less =>
      String.lt_irrefl name (String.lt_trans less first)
    rw [Record.place, if_neg notBefore, if_pos first,
      ih fun other member => after other (List.mem_cons_of_mem _ member)]
    rfl

/-- Sorted entries are where they belong. -/
theorem placeAll_of_sorted {start : List (String × α)} (sorted : Sorted (start ++ entries)) :
    placeAll start entries = start ++ entries := by
  induction entries generalizing start with
  | nil => rw [List.append_nil]; rfl
  | cons entry rest ih =>
    -- The next entry comes after all that are in place, so it is put at the end.
    have before : ∀ other ∈ start, other.1 < entry.1 := fun other member =>
      (List.pairwise_append.mp sorted).2.2 other member entry List.mem_cons_self
    have step : placeAll start (entry :: rest) =
        placeAll (Record.place entry.1 entry.2 start) rest := rfl
    have split : start ++ entry :: rest = start ++ [entry] ++ rest := by simp
    rw [step, place_of_last before, split]
    exact ih (split ▸ sorted)

/-- Entries with the same names are sorted together. -/
theorem sorted_of_names {images : List (String × β)} (sorted : Sorted entries)
    (names : entries.map Prod.fst = images.map Prod.fst) : Sorted images := by
  -- Being sorted is a fact about the names alone.
  have ordered : (entries.map Prod.fst).Pairwise (· < ·) := List.pairwise_map.mpr sorted
  rw [names] at ordered
  exact List.pairwise_map.mp ordered

/-- An entry among sorted ones is what is found under its name. -/
theorem lookup_of_mem (sorted : Sorted entries) {entry : String × α} (member : entry ∈ entries) :
    entries.lookup entry.1 = some entry.2 := by
  induction entries with
  | nil => cases member
  | cons first rest ih =>
    obtain ⟨least, tail⟩ := List.pairwise_cons.mp sorted
    rcases List.mem_cons.mp member with rfl | later
    · exact List.lookup_cons_self
    · -- A later entry has a larger name.
      have other : entry.1 ≠ first.1 := fun same => by
        have less := least entry later
        rw [same] at less
        exact String.lt_irrefl _ less
      rw [lookup_cons_of_ne other, ih tail later]

/-- Something is found under the names of entries only. -/
theorem isSome_lookup_iff {name : String} :
    (entries.lookup name).isSome = true ↔ name ∈ entries.map Prod.fst := by
  constructor
  · intro some
    obtain ⟨value, found⟩ := Option.isSome_iff_exists.mp some
    exact List.mem_map_of_mem (mem_of_lookup found)
  · intro member
    obtain ⟨entry, among, rfl⟩ := List.mem_map.mp member
    rw [Option.isSome_iff_ne_none]
    intro absent
    have other := List.lookup_eq_none_iff.mp absent entry among
    simp at other

/-- Only entries that were put into place are there. -/
theorem mem_placeAll {entry : String × α} (member : entry ∈ placeAll [] entries) :
    entry ∈ entries := by
  -- What is in place is found under its name, and only the last of a name is found.
  have found := lookup_of_mem (placeAll_sorted .nil) member
  rw [lookup_placeAll, List.lookup_nil, Option.or_none] at found
  exact List.mem_reverse.mp (mem_of_lookup found)

/-- Nothing is found under a name that comes before all others. -/
theorem lookup_eq_none_of_lt {name : String} (before : ∀ entry ∈ entries, name < entry.1) :
    entries.lookup name = none := by
  rw [List.lookup_eq_none_iff]
  intro entry member
  have different : name ≠ entry.1 := fun same => String.lt_irrefl name (same ▸ before entry member)
  simpa using different

/-- In sorted entries, no name before the first one is found. -/
theorem lookup_eq_none_of_lt_head {entry : String × α} (least : ∀ other ∈ entries, entry.1 < other.1) {name : String}
    (less : name < entry.1) : (entry :: entries).lookup name = none :=
  lookup_eq_none_of_lt (List.forall_mem_cons.mpr ⟨less, fun other member => String.lt_trans less (least other member)⟩)

/-- Sorted entries agree as soon as the same is found in both. -/
theorem EntriesAgree.of_lookup {related : α → β → Prop} {images : List (String × β)}
    (sorted : Sorted entries) (ordered : Sorted images)
    (same : ∀ name, Option.Rel related (entries.lookup name) (images.lookup name)) :
    EntriesAgree related entries images := by
  induction entries generalizing images with
  | nil =>
    cases images with
    | nil => exact .nil
    | cons image others =>
      have found := same image.1
      rw [List.lookup_cons_self] at found
      cases found
  | cons entry rest ih =>
    obtain ⟨least, tail⟩ := List.pairwise_cons.mp sorted
    cases images with
    | nil =>
      have found := same entry.1
      rw [List.lookup_cons_self] at found
      cases found
    | cons image others =>
      obtain ⟨first, remaining⟩ := List.pairwise_cons.mp ordered
      -- A first name that is smaller than the other would not be found on the other side.
      have name : entry.1 = image.1 := by
        refine String.le_antisymm (String.not_lt.mp fun less => ?_) (String.not_lt.mp fun less => ?_)
        · have found := same image.1
          rw [List.lookup_cons_self, lookup_eq_none_of_lt_head least less] at found
          cases found
        · have found := same entry.1
          rw [List.lookup_cons_self, lookup_eq_none_of_lt_head first less] at found
          cases found
      -- The first entries agree, and under any other name both sides find what comes after.
      have head := same entry.1
      rw [List.lookup_cons_self, name, List.lookup_cons_self] at head
      cases head with
      | some holds =>
        refine .cons ⟨name, holds⟩ (ih tail remaining fun other => ?_)
        by_cases equal : other = entry.1
        · rw [equal, lookup_eq_none_of_lt least, name, lookup_eq_none_of_lt first]
          exact .none
        · have found := same other
          rwa [lookup_cons_of_ne equal, lookup_cons_of_ne (name ▸ equal)] at found

end

/-- The fields of a record are put into place one after another. -/
theorem Record.entries_ofEntries (entries : List Entry) :
    (Record.ofEntries entries).entries = placeAll [] entries := by
  have built : ∀ record : Record,
      (entries.foldl (fun record entry => record.insert entry.1 entry.2) record).entries =
        placeAll record.entries entries := by
    induction entries with
    | nil => exact fun _ => rfl
    | cons entry rest ih => exact fun record => ih (record.insert entry.1 entry.2)
  exact built .empty

end LazyConfig
