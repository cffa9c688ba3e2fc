import LazyConfig.Proofs.Erasure.Relation

/-!
A check that succeeds gives a value that erases to the same value as the one that was checked, and a
check that fails fails for the type.
-/

namespace LazyConfig.ByName

variable {source : Annotated}

/-- Lists that erase to lists, one after the other. -/
theorem ListErases.append {first second bares others : List Segment}
    (left : ListErases source first bares) (right : ListErases source second others) :
    ListErases source (first ++ second) (bares ++ others) := by
  -- The first list is gone through; what its segments stand for comes before the second list.
  induction first generalizing bares with
  | nil =>
    cases left
    exact right
  | cons segment rest ih =>
    cases left with
    | item erases more => exact .item erases (ih more)
    | range next stop more => exact .range next stop (ih more)
    -- A checked list that is unrolled stands for several stretches of the unchecked one.
    | unrolled erases more =>
      have rest := ih more
      rw [List.append_assoc] at rest
      exact .unrolled erases rest
    | joint erases more => exact .joint erases (ih more)
    | checked erases more =>
      rw [List.append_assoc]
      exact .checked erases (ih more)

/-- Stretches of a range, if there are any. -/
theorem ListErases.span (next stop : Int64) {rest others : List Segment}
    (more : ListErases source rest others) :
    ListErases source (Segment.span next stop ++ rest) (Segment.span next stop ++ others) := by
  rw [Segment.span]
  split
  · exact .range next stop more
  · exact more

/-- Elements that erase to elements, as a list. -/
theorem ListErases.ofItems {promises bares : List Promise}
    (erases : List.Forall₂ (PromiseErases source) promises bares) :
    ListErases source (promises.map .item) (bares.map .item) := by
  induction erases with
  | nil => exact .nil
  | cons first _ ih => exact .item first ih

/-- The fields of a record, as a list. -/
theorem ListErases.ofFields {fields bares : Fields} (agree : EntriesErase source fields bares) :
    ListErases source (Segment.ofFields fields) (Segment.ofFields bares) := by
  induction agree with
  | nil => exact .nil
  | cons same _ ih => exact .item same.2 ih

/-- The names of the fields of a record, as a list. -/
theorem ListErases.ofNames {fields bares : Fields} (agree : EntriesErase source fields bares) :
    ListErases source (fields.map fun field => .item (.ready (.str field.1)))
      (bares.map fun field => .item (.ready (.str field.1))) := by
  induction agree with
  | nil => exact .nil
  | cons same _ ih =>
    rw [List.map_cons, List.map_cons, same.1]
    exact .item (.ready (.str _)) ih

namespace ValueErases

/-- Records erase to records under the same names. -/
theorem ofFields {fields bares : Fields} (sorted : Sorted fields)
    (agree : EntriesErase source fields bares) :
    ValueErases source (.record fields) (.record bares) :=
  .record sorted agree.keys agree.values

variable {value bare : Value}

/-- A value is the same to operators. -/
theorem outer (erases : ValueErases source value bare) : value.outer = bare.outer := by
  cases erases <;> rfl

/-- A value is of the same kind. -/
theorem kind (erases : ValueErases source value bare) : value.kind = bare.kind := by
  rw [Value.kind, Value.kind, erases.outer]

end ValueErases

/-- A part whose check is put off gives what the part gives. -/
theorem PromiseErases.wrap {inner bare : Promise} (erases : PromiseErases source inner bare)
    (graph : TypeGraph) (type : TypeId) : PromiseErases source (inner.wrap graph type) bare := by
  rw [Promise.wrap]
  split
  · exact erases
  · exact .check erases

/-- The declared fields are fields of the record, put off to be checked; only a type can be wrong. -/
theorem wrapDeclared_cases (names : NameTable) (graph : TypeGraph) (fields : Fields)
    (declared : List (Name × TypeId)) :
    fields.wrapDeclared names graph declared = .error .typeMismatch ∨
      ∃ checked, fields.wrapDeclared names graph declared = .ok checked ∧
        ∀ entry ∈ checked, ∃ inner type, fields.lookup entry.1 = some inner ∧
          entry.2 = inner.wrap graph type := by
  induction declared with
  | nil => exact .inr ⟨[], rfl, nofun⟩
  -- The declared fields are looked up one by one; the first that is missing fails the check.
  | cons field rest ih =>
    obtain ⟨name, type⟩ := field
    rw [Fields.wrapDeclared]
    cases found : fields.lookup (names.lookup name) with
    | none => exact .inl rfl
    | some inner =>
      -- A field that is there is put off; the rest of the fields decides.
      rcases ih with failed | ⟨checked, passed, wrapped⟩
      · exact .inl (by rw [failed]; rfl)
      · refine .inr ⟨(names.lookup name, inner.wrap graph type) :: checked, by rw [passed]; rfl, ?_⟩
        intro entry member
        rcases List.mem_cons.mp member with rfl | member
        · exact ⟨inner, type, found, rfl⟩
        · exact wrapped entry member

/-- A record with exactly the declared fields erases to what it was before. -/
theorem checked_erases {fields bares checked : Fields} {graph : TypeGraph}
    (sorted : Sorted fields) (agree : EntriesErase source fields bares)
    (wrapped : ∀ entry ∈ checked, ∃ inner type, fields.lookup entry.1 = some inner ∧
      entry.2 = inner.wrap graph type)
    (exact : fields.all (fun field => checked.any fun entry => entry.1 == field.1) = true) :
    EntriesErase source checked.ofEntries bares := by
  refine .of_lookup (placeAll_sorted .nil) (sorted_of_names sorted agree.keys) fun name => ?_
  have placed : checked.ofEntries.lookup name = (checked.reverse.lookup name).or none :=
    lookup_placeAll [] name
  have same := agree.lookup name
  rw [placed, Option.or_none]
  cases found : checked.reverse.lookup name with
  | some promise =>
    -- What is found is the check of the field of that name.
    have member : (name, promise) ∈ checked := List.mem_reverse.mp (mem_of_lookup found)
    obtain ⟨inner, type, known, rfl⟩ := wrapped _ member
    rw [known] at same
    cases bare : bares.lookup name with
    | none =>
      rw [bare] at same
      cases same
    | some other =>
      rw [bare] at same
      cases same with
      | some erases => exact .some (erases.wrap graph type)
  | none =>
    -- A field that is not declared would not have passed.
    have absent : fields.lookup name = none := by
      rw [List.lookup_eq_none_iff] at found ⊢
      intro field member
      have listed := List.all_eq_true.mp exact field member
      obtain ⟨entry, among, equal⟩ := List.any_eq_true.mp listed
      have other := found entry (List.mem_reverse.mpr among)
      rw [beq_iff_eq] at equal
      rwa [equal] at other
    rw [absent] at same
    cases bare : bares.lookup name with
    | none => exact .none
    | some other =>
      rw [bare] at same
      cases same

/-- Fields that are put off to be checked are the same fields without checks. -/
theorem EntriesErase.wrap {fields bares : Fields} (agree : EntriesErase source fields bares)
    (graph : TypeGraph) (type : TypeId) :
    EntriesErase source (fields.map fun (name, inner) => (name, inner.wrap graph type)) bares := by
  rw [EntriesErase, EntriesAgree, List.forall₂_map_left_iff]
  exact agree.imp fun _ _ same => ⟨same.1, same.2.wrap graph type⟩

/-- A checked value is the same value without checks, or the check fails for the type. -/
theorem ValueErases.check {value bare : Value} (erases : ValueErases source value bare)
    (names : NameTable) {graph : TypeGraph} (sound : graph.Sound) (type : TypeId) :
    (∃ checked, value.check names graph type = .ok checked ∧ ValueErases source checked bare) ∨
      value.check names graph type = .error .typeMismatch := by
  -- In a sound graph every type is read as a form, so that no unresolved type is met.
  obtain ⟨-, -, shaped⟩ := sound.reads type
  have accepts (kind : Kind) : (∃ checked, (if value.kind = kind then .ok value
      else .error .typeMismatch : Except Variant Value) = .ok checked ∧
        ValueErases source checked bare) ∨
      (if value.kind = kind then .ok value
        else .error .typeMismatch : Except Variant Value) = .error .typeMismatch := by
    split
    · exact .inl ⟨value, rfl, erases⟩
    · exact .inr rfl
  unfold Value.check
  dsimp only
  cases found : graph.node (graph.shape type) with
  | dyn | var => exact .inl ⟨value, rfl, erases⟩
  | aliasSlot | forAll => simp [found, TypeNode.isShape] at shaped
  | num => exact accepts .num
  | str => exact accepts .str
  | bool => exact accepts .bool
  | fn => exact accepts .function
  | list elem =>
    cases erases with
    | list listed =>
      refine .inl ⟨_, rfl, .list ?_⟩
      simpa using ListErases.checked listed .nil
    | _ => exact .inr rfl
  | dict elem =>
    cases erases with
    | @record fields bares sorted keys promises =>
      have agree : EntriesErase source fields bares := .of_parts keys promises
      refine .inl ⟨_, rfl, .ofFields (placeAll_sorted .nil) ?_⟩
      -- The checked entries are placed again, which changes nothing where they are in order.
      have none : EntriesErase source ([] : Fields) [] := .nil
      have ordered : placeAll [] bares = bares := placeAll_of_sorted (sorted_of_names sorted keys)
      have placed := none.placeAll (agree.wrap graph elem)
      rwa [ordered] at placed
    | _ => exact .inr rfl
  | record declared =>
    cases erases with
    | @record fields bares sorted keys promises =>
      dsimp only
      rw [Fields.check]
      rcases wrapDeclared_cases names graph fields declared with failed | ⟨checked, passed, wrapped⟩
      · exact .inr (by rw [failed])
      · rw [passed]
        dsimp only
        split
        · rename_i exact
          have agree : EntriesErase source fields bares := .of_parts keys promises
          exact .inl ⟨_, rfl,
            .ofFields (placeAll_sorted .nil) (checked_erases sorted agree wrapped exact)⟩
        · exact .inr rfl
    | _ => exact .inr rfl

end LazyConfig.ByName
