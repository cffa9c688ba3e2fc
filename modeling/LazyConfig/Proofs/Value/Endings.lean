import LazyConfig.Evaluator
import LazyConfig.Proofs.Lists.Windings
import LazyConfig.Proofs.Value.Texts

/-!
Values that have a text. Writing a text evaluates nothing and goes into what is evaluated already, and evaluated parts may
lead back to the value that is being written. A text ends exactly where there is no such circle, neither of values that are
shown inside themselves nor of lists that begin with themselves.
-/

namespace LazyConfig

namespace Store

section

variable (store : Store)

/-- A computation that is shown as a part of a value: an element of a list up to the limit, or a field of a record. -/
inductive Part : Value → ThunkId → Prop
  | element {items : LazyList} {fuel : Nat} {elements : Array Visible} {complete : Bool} {id : ThunkId}
    (seen : store.elements? fuel (some displayLimit) items = some (elements, complete))
    (member : .thunk id ∈ elements) : Part (.list items) id
  | field {fields : Record} {entry : Entry} (member : entry ∈ fields.entries) : Part (.record fields) entry.2

/-- The values that are shown with a value: the value itself, and those of all parts that are evaluated. -/
inductive ShownIn (whole : Value) : Value → Prop
  | here : ShownIn whole whole
  | part {outer inner : Value} {id : ThunkId} (shown : ShownIn whole outer) (part : store.Part outer id)
    (found : store.cell id = .forced inner) : ShownIn whole inner

/-- A computation whose value shows another computation. -/
def Nests (id next : ThunkId) : Prop :=
  ∃ inner outer, store.cell id = .forced inner ∧ store.ShownIn inner outer ∧ store.Part outer next

/-- What keeps the text of a value from ending. -/
inductive Circular (whole : Value) : Prop
  /-- A value is shown inside itself. -/
  | nested {outer : Value} {id : ThunkId} (shown : store.ShownIn whole outer) (part : store.Part outer id)
    (circle : store.Nests id id)
  /-- A list comes, within the limit, to a right part whose list begins with the same right part again. -/
  | winding {items : LazyList} {passed : List Visible} {id : ThunkId} (shown : store.ShownIn whole (.list items))
    (leads : store.LeadsTo items passed id) (room : passed.length ≤ displayLimit) (circle : store.BeginsWith id id)

end

variable {store : Store} {whole outer inner value : Value} {id next : ThunkId} {text out : String} {fuel : Nat}
  {pieces rest : List Piece}

/-- What is shown with a value that is shown. -/
theorem ShownIn.trans (shown : store.ShownIn whole outer) (further : store.ShownIn outer inner) :
    store.ShownIn whole inner := by
  induction further with
  | here => exact shown
  | part _ part found ih => exact .part ih part found

/-- What the value of a computation shows shows further computations. -/
theorem Nests.trans {last : ThunkId} (first : store.Nests id next) (second : store.Nests next last) :
    store.Nests id last := by
  obtain ⟨inner, outer, found, shown, part⟩ := first
  obtain ⟨inner', outer', found', shown', part'⟩ := second
  exact ⟨inner, outer', found, (shown.part part found').trans shown', part'⟩

/-! Texts that end. -/

/-- An element is written when its value is, and one without a value is written as a question mark. -/
theorem writes_element (element : Visible)
    (parts : ∀ id value, element = .thunk id → store.cell id = .forced value → ∃ text, store.Writes [.value value] text) :
    ∃ text, store.Writes [.element element] text := by
  cases seen : store.visible? element with
  | none => exact ⟨"?", 1, 0, fun fuel _ rest out => by rw [Nat.add_comm, List.singleton_append, write, seen]⟩
  | some value =>
    cases element with
    | int n =>
      obtain rfl := Option.some.inj seen
      exact ⟨_, .element seen (.leaf (.int n) displayLimit "..")⟩
    | thunk id =>
      have found : store.cell id = .forced value := forced_of_visible seen
      obtain ⟨text, writes⟩ := parts id value rfl found
      exact ⟨text, .element seen writes⟩

/-- Pieces of which each is written have their texts. -/
theorem exists_texts {items : List (List Piece)} (each : ∀ pieces ∈ items, ∃ text, store.Writes pieces text) :
    ∃ texts, List.Forall₂ store.Writes items texts := by
  induction items with
  | nil => exact ⟨[], .nil⟩
  | cons first rest ih =>
    obtain ⟨⟨text, writes⟩, others⟩ := List.forall_mem_cons.mp each
    obtain ⟨texts, write⟩ := ih others
    exact ⟨text :: texts, .cons writes write⟩

/-- A value is written when the look at its elements ends and its parts are written. -/
theorem writes_of_parts
    (looks : ∀ items, value = .list items → ∃ fuel shown, store.elements? fuel (some displayLimit) items = some shown)
    (parts : ∀ id inner, store.Part value id → store.cell id = .forced inner → ∃ text, store.Writes [.value inner] text) :
    ∃ text, store.Writes [.value value] text := by
  -- Only lists and records have parts; a list is looked at first, which has to end by itself.
  cases value with
  | list items =>
    obtain ⟨fuel, ⟨elements, complete⟩, seen⟩ := looks items rfl
    have each : ∀ pieces ∈ elements.toList.map fun element => [Piece.element element],
        ∃ text, store.Writes pieces text := by
      intro pieces member
      obtain ⟨element, inside, rfl⟩ := List.mem_map.mp member
      refine writes_element element fun id inner same found => ?_
      subst same
      exact parts id inner (.element seen (Array.mem_toList_iff.mp inside)) found
    obtain ⟨texts, writes⟩ := exists_texts each
    have always : ∀ more, fuel ≤ more → store.elements? more (some displayLimit) items = some (elements, complete) := by
      intro more less
      obtain ⟨rest, rfl⟩ := Nat.exists_eq_add_of_le less
      exact walk_more seen rest
    exact ⟨_, .seen always writes⟩
  | record fields =>
    cases empty : fields.isEmpty with
    | true => exact ⟨_, .record_empty empty⟩
    | false =>
      have each : ∀ pieces ∈ fields.entries.map fun entry => [Piece.text (entry.1 ++ " = "), .element (.thunk entry.2)],
          ∃ text, store.Writes pieces text := by
        intro pieces member
        obtain ⟨entry, inside, rfl⟩ := List.mem_map.mp member
        obtain ⟨text, writes⟩ := @writes_element store (.thunk entry.2) fun id inner same found => by
          cases same
          exact parts entry.2 inner (.field inside) found
        exact ⟨_, (Writes.text _).append writes⟩
      obtain ⟨texts, writes⟩ := exists_texts each
      exact ⟨_, .record empty writes⟩
  | int n => exact ⟨_, .leaf (.int n) displayLimit ".."⟩
  | float n => exact ⟨_, .leaf (.float n) displayLimit ".."⟩
  | bool truth => exact ⟨_, .leaf (.bool truth) displayLimit ".."⟩
  | str text => exact ⟨_, .leaf (.str text) displayLimit ".."⟩
  | closure function => exact ⟨_, .leaf (.closure function) displayLimit ".."⟩
  | builtin op held => exact ⟨_, .leaf (.builtin op held) displayLimit ".."⟩
  | host function => exact ⟨_, .leaf (.host function) displayLimit ".."⟩

/-- A value that is not circular is written. -/
theorem writes_of_not_circular (straight : ¬ store.Circular whole) : ∃ text, store.Writes [.value whole] text := by
  have looks {items : LazyList} (shown : store.ShownIn whole (.list items)) :
      ∃ fuel seen, store.elements? fuel (some displayLimit) items = some seen :=
    elements?_ends_iff.mpr fun passed id leads room circle => straight (.winding shown leads room circle)
  -- The values of parts lead to others without coming back, so that they are written one behind the other.
  have parts {outer : Value} (shown : store.ShownIn whole outer) {id : ThunkId} (part : store.Part outer id)
      {inner : Value} (found : store.cell id = .forced inner) : ∃ text, store.Writes [.value inner] text := by
    have acc : Acc (fun next id => store.Nests id next) id := by
      refine @acc_of_no_circle store.Nests store.cells.size ?_ Nests.trans id ?_
      · rintro id next ⟨inner, outer, found, -⟩
        exact lt_size_of_cell found nofun
      · rintro next (rfl | ⟨inner, outer', found, shown', part'⟩)
        · exact fun circle => straight (.nested shown part circle)
        · exact fun circle => straight (.nested ((shown.part part found).trans shown') part' circle)
    induction acc generalizing outer inner with
    | intro id _ ih =>
      have further := shown.part part found
      refine writes_of_parts (fun items same => looks (same ▸ further)) fun next inner' part' found' => ?_
      exact ih next ⟨inner, inner, found, .here, part'⟩ further part' found'
  exact writes_of_parts (fun items same => looks (same ▸ .here)) fun id inner part found => parts .here part found

/-! Texts that do not end. -/

/-- A list is written as what is seen of it, with less fuel. -/
theorem write_list {items : LazyList} (written : store.write (fuel + 1) (.value (.list items) :: rest) out = some text) :
    ∃ elements complete, store.elements? fuel (some displayLimit) items = some (elements, complete) ∧
      store.write fuel (.text "[" :: Piece.commas ((elements.toList.map fun element => [.element element]) ++
        if complete then [] else [[.text ".."]]) ++ .text "]" :: rest) out = some text := by
  -- The look has an answer, or there would be no text.
  rw [write] at written
  cases seen : store.elements? fuel (some displayLimit) items with
  | none =>
    rw [seen] at written
    cases written
  | some pair =>
    obtain ⟨elements, complete⟩ := pair
    rw [seen] at written
    refine ⟨elements, complete, rfl, ?_⟩
    cases complete with
    | true => rwa [if_pos rfl, List.append_nil]
    | false => exact written

/-- A record with fields is written as these, with less fuel. -/
theorem write_record {fields : Record} (filled : fields.isEmpty = false)
    (written : store.write (fuel + 1) (.value (.record fields) :: rest) out = some text) :
    store.write fuel (.text "\x7b " :: Piece.commas (fields.entries.map fun entry =>
      [.text (entry.1 ++ " = "), .element (.thunk entry.2)]) ++ .text " \x7d" :: rest) out = some text := by
  rwa [write, filled] at written

/-- What is written first is written in a step, or other pieces take its place. -/
theorem write_cons {piece : Piece} (written : store.write (fuel + 1) (piece :: rest) out = some text) :
    ∃ more out', store.write fuel (more ++ rest) out' = some text := by
  -- Lists and records are opened; what is written of them ends with a bracket.
  have bracket {first last : Piece} {pieces : List Piece}
      (written : store.write fuel (first :: pieces ++ last :: rest) out = some text) :
      ∃ more out', store.write fuel (more ++ rest) out' = some text := by
    refine ⟨first :: pieces ++ [last], out, ?_⟩
    rwa [List.append_assoc]
  cases piece with
  | text first => exact ⟨[], _, written⟩
  | element element =>
    rw [write] at written
    split at written
    · exact ⟨[.value _], _, written⟩
    · exact ⟨[], _, written⟩
  | value value =>
    cases value with
    | list items =>
      obtain ⟨elements, complete, -, written⟩ := write_list written
      exact bracket written
    | record fields =>
      cases empty : fields.isEmpty with
      | true =>
        rw [write, empty] at written
        exact ⟨[], _, written⟩
      | false => exact bracket (write_record empty written)
    | _ => exact ⟨[], _, written⟩

/-- What is written ends, and so does what is written behind some pieces. -/
theorem write_behind (front : List Piece) (written : store.write fuel (front ++ rest) out = some text) :
    ∃ fewer ≤ fuel, ∃ out', store.write fewer rest out' = some text := by
  -- By induction on the fuel, since a piece that is opened puts others in front.
  induction fuel generalizing front out with
  | zero => cases written
  | succ fuel ih =>
    cases front with
    | nil => exact ⟨fuel + 1, Nat.le_refl _, out, written⟩
    | cons piece front =>
      obtain ⟨more, out', written⟩ := @write_cons _ _ _ _ (front ++ rest) piece written
      rw [← List.append_assoc] at written
      obtain ⟨fewer, less, ends⟩ := ih (more ++ front) written
      exact ⟨fewer, Nat.le_succ_of_le less, ends⟩

/-- Where pieces are written, the values of elements among them are written with less fuel. -/
theorem write_value (written : store.write fuel pieces out = some text) (member : .element (.thunk id) ∈ pieces)
    (found : store.cell id = .forced inner) :
    ∃ fewer < fuel, ∃ rest out', store.write fewer (.value inner :: rest) out' = some text := by
  -- What is in front of the element ends, since the whole does.
  obtain ⟨before, behind, rfl⟩ := List.append_of_mem member
  obtain ⟨fewer, less, out', written⟩ := write_behind before written
  obtain _ | fewer := fewer
  · cases written
  have shown : store.visible? (.thunk id) = some inner := by simp [visible?, peek?, found]
  rw [write, shown] at written
  exact ⟨fewer, less, behind, out', written⟩

/-- Pieces are still there with commas between them. -/
theorem mem_commas {items : List (List Piece)} {piece : Piece} (inside : pieces ∈ items) (member : piece ∈ pieces) :
    piece ∈ Piece.commas items := by
  -- With others behind it, a comma follows the first item.
  induction items with
  | nil => cases inside
  | cons first others ih =>
    cases others with
    | nil =>
      obtain rfl := List.mem_singleton.mp inside
      exact member
    | cons second others =>
      rw [Piece.commas, List.mem_append]
      rcases List.mem_cons.mp inside with rfl | later
      · exact .inl member
      · exact .inr (List.mem_cons_of_mem _ (ih later))
      · nofun

/-- Where a value is written, the values of its parts are written with less fuel. -/
theorem write_part (written : store.write fuel (.value value :: rest) out = some text) (part : store.Part value id)
    (found : store.cell id = .forced inner) :
    ∃ fewer < fuel, ∃ rest out', store.write fewer (.value inner :: rest) out' = some text := by
  -- Opening the value takes some of the fuel, and the part is among the pieces that take its place.
  obtain _ | fuel := fuel
  · cases written
  cases part with
  | @element items looks elements complete _ seen member =>
    obtain ⟨shown, all, seen', written⟩ := write_list written
    -- There is one thing to be seen, however much fuel there is.
    have same : some (elements, complete) = some (shown, all) :=
      (walk_more seen fuel).symm.trans (Nat.add_comm looks fuel ▸ walk_more seen' looks)
    obtain ⟨rfl, rfl⟩ := Prod.mk.inj (Option.some.inj same)
    have among : Piece.element (.thunk id) ∈ Piece.commas ((elements.toList.map fun element => [.element element]) ++
        if complete then [] else [[.text ".."]]) := by
      refine mem_commas (List.mem_append_left _ (List.mem_map_of_mem (Array.mem_toList_iff.mpr member))) ?_
      exact List.mem_singleton_self _
    obtain ⟨fewer, less, ends⟩ := write_value written (List.mem_append_left _ (List.mem_cons_of_mem _ among)) found
    exact ⟨fewer, Nat.lt_succ_of_lt less, ends⟩
  | @field fields entry member =>
    have filled : fields.isEmpty = false := by
      rw [Record.isEmpty, List.isEmpty_eq_false_iff]
      exact List.ne_nil_of_mem member
    have among : Piece.element (.thunk entry.2) ∈ Piece.commas (fields.entries.map fun entry =>
        [.text (entry.1 ++ " = "), .element (.thunk entry.2)]) :=
      mem_commas (List.mem_map_of_mem member) (List.mem_cons_of_mem _ List.mem_cons_self)
    obtain ⟨fewer, less, ends⟩ := write_value (write_record filled written)
      (List.mem_append_left _ (List.mem_cons_of_mem _ among)) found
    exact ⟨fewer, Nat.lt_succ_of_lt less, ends⟩

/-- Where a value is written, all values that are shown with it are. -/
theorem write_shown (shown : store.ShownIn whole inner)
    (written : store.write fuel (.value whole :: rest) out = some text) :
    ∃ fewer ≤ fuel, ∃ rest out', store.write fewer (.value inner :: rest) out' = some text := by
  -- Each part on the way to the inner value takes some of the fuel.
  induction shown with
  | here => exact ⟨fuel, Nat.le_refl _, rest, out, written⟩
  | part _ part found ih =>
    obtain ⟨fewer, less, rest, out', written⟩ := ih
    obtain ⟨least, lesser, ends⟩ := write_part written part found
    exact ⟨least, by omega, ends⟩

/-- A value that is shown inside itself is not written. -/
theorem write_of_nests (circle : store.Nests id id) (found : store.cell id = .forced value) :
    store.write fuel (.value value :: rest) out ≠ some text := by
  obtain ⟨inner, outer, same, shown, part⟩ := circle
  obtain rfl : value = inner := Cell.forced.inj (found.symm.trans same)
  -- On the way around, there is less fuel.
  induction fuel using Nat.strongRecOn generalizing rest out with
  | _ fuel ih =>
    intro written
    obtain ⟨fewer, less, rest, out, written⟩ := write_shown shown written
    obtain ⟨least, lesser, rest, out, written⟩ := write_part written part found
    exact ih least (by omega) written

/-- A circular value has no text. -/
theorem Circular.display? (circular : store.Circular whole) (fuel : Nat) : store.display? fuel whole = none := by
  refine Option.eq_none_iff_forall_ne_some.mpr fun text written => ?_
  cases circular with
  | nested shown part circle =>
    obtain ⟨fewer, -, rest, out, written⟩ := write_shown shown written
    have ⟨_, _, found, _⟩ := circle
    obtain ⟨least, -, rest, out, written⟩ := write_part written part found
    exact write_of_nests circle found written
  | winding shown leads room circle =>
    obtain ⟨fewer, -, rest, out, written⟩ := write_shown shown written
    obtain _ | fewer := fewer
    · cases written
    -- The look at the list would have to end.
    obtain ⟨elements, complete, seen, -⟩ := write_list written
    exact elements?_ends_iff.mp ⟨fewer, _, seen⟩ _ _ leads room circle

end Store

/-! All texts of a store. -/

/-- A text is there from some amount of fuel on, unless something is circular: then it is never there. -/
structure EndsUnless (circular : Prop) (ask : Nat → Option String) : Prop where
  ends : ¬ circular → ∃ enough text, ∀ fuel, enough ≤ fuel → ask fuel = some text
  hangs : circular → ∀ fuel, ask fuel = none

/-- What is made of a text is there where the text is. -/
theorem EndsUnless.map {circular : Prop} {ask : Nat → Option String} (known : EndsUnless circular ask)
    (f : String → String) : EndsUnless circular fun fuel => (ask fuel).map f where
  ends straight := by
    obtain ⟨enough, text, answers⟩ := known.ends straight
    exact ⟨enough, f text, fun fuel less => by rw [answers fuel less, Option.map_some]⟩
  hangs circle fuel := by rw [known.hangs circle fuel, Option.map_none]

/-- Which texts of a store end. -/
structure Store.TextsEnd (store : Store) : Prop where
  /-- The text of a value. -/
  display : ∀ value, EndsUnless (store.Circular value) (store.display? · value)
  /-- The text of a value behind the name of its kind. -/
  describe : ∀ value, EndsUnless (store.Circular value) (store.describe? · value)
  /-- The text of the state of a computation. -/
  describeThunk : ∀ id, EndsUnless (∃ value, store.cell id = .forced value ∧ store.Circular value)
    (store.describeThunk? · id)
  /-- A list that is written breaks off at the limit. -/
  limit : ∀ items fuel elements complete, store.elements? fuel (some displayLimit) items = some (elements, complete) →
    elements.size ≤ displayLimit
  /-- Only values that are not evaluated throughout are circular. -/
  whole : ∀ value data, store.Holds value data → ¬ store.Circular value

/--
The text of a value ends, whatever the store is, unless a value is shown inside itself or a list begins with itself. No limit
on the number of elements helps with either of them.
-/
theorem texts_end_unless_circular (store : Store) : store.TextsEnd := by
  have display (value : Value) : EndsUnless (store.Circular value) (store.display? · value) := by
    refine ⟨fun straight => ?_, fun circular fuel => circular.display? fuel⟩
    obtain ⟨text, writes⟩ := Store.writes_of_not_circular straight
    obtain ⟨enough, answers⟩ := writes.display?
    exact ⟨enough, text, answers⟩
  constructor
  case display => exact display
  case describe => exact fun value => (display value).map _
  case describeThunk =>
    intro id
    -- Only a value that is there is written; the other states have fixed texts.
    have fixed {text : String} (other : ∀ value, store.cell id ≠ .forced value)
        (same : ∀ fuel, store.describeThunk? fuel id = some text) :
        EndsUnless (∃ value, store.cell id = .forced value ∧ store.Circular value) (store.describeThunk? · id) :=
      ⟨fun _ => ⟨0, text, fun fuel _ => same fuel⟩, fun ⟨value, found, _⟩ => absurd found (other value)⟩
    cases found : store.cell id with
    | forced value =>
      have shown := (display value).map fun text => "Thunk(" ++ text ++ ")"
      have same (fuel : Nat) : store.describeThunk? fuel id =
          (store.display? fuel value).map fun text => "Thunk(" ++ text ++ ")" := by
        rw [Store.describeThunk?, found]
      refine ⟨fun straight => ?_, fun ⟨other, here, circular⟩ fuel => ?_⟩
      · obtain ⟨enough, text, answers⟩ := shown.ends fun circular => straight ⟨value, rfl, circular⟩
        exact ⟨enough, text, fun fuel less => (same fuel).trans (answers fuel less)⟩
      · obtain rfl := Cell.forced.inj here
        exact (same fuel).trans (shown.hangs circular fuel)
    | suspended work | inProgress | failed failure =>
      rw [← found]
      exact fixed (fun value forced => nomatch found.symm.trans forced) fun fuel => by
        rw [Store.describeThunk?, found]
        rfl
  case limit => exact fun items fuel elements complete seen => Store.walk_size (Nat.zero_le _) seen
  case whole =>
    -- A value that holds data is written, so it cannot be circular.
    intro value data holds circular
    obtain ⟨enough, answers⟩ := holds.display?
    exact nomatch (circular.display? enough).symm.trans (answers enough (Nat.le_refl _))

/-- The code of `let x = [] @ x in x` and of `let x = [x] in x`. -/
def selfReferences : Code where
  exprs := #[.list [], .ident 1, .binary .concat 0 1, .letIn 1 2 1, .list [1], .letIn 1 4 1]

/-- Two programs whose values have no text: a list that begins with itself, and one that is shown inside itself. -/
theorem circular_values_without_text :
    let evaluator : Evaluator := ⟨⟨{}, selfReferences, {}⟩, { deepForce := false }⟩
    ∀ root ∈ [3, 5], ∃ value store, evaluator.perform 40 (.evaluate root {}) {} = some ⟨.ok value, store⟩ ∧
      ∀ fuel, store.display? fuel value = none := by
  intro evaluator root member
  simp only [List.mem_cons, List.not_mem_nil, or_false] at member
  rcases member with rfl | rfl
  · let value : Value := .list (.concat (.ofThunks []) 0)
    let store : Store := { cells := #[.forced value] }
    have front : store.Spreads (.ofThunks []) [] := .ofThunks store []
    -- The right part of the join is the join.
    have leads : store.LeadsTo (.concat (.ofThunks []) 0) [] 0 := .here front
    have circular : store.Circular value := .winding .here leads (Nat.zero_le _) ⟨_, rfl, leads⟩
    exact ⟨value, store, rfl, circular.display?⟩
  · let value : Value := .list (.ofThunks [0])
    let store : Store := { cells := #[.forced value] }
    -- The only element of the list is the list.
    obtain ⟨looks, seen⟩ := (Store.Spreads.ofThunks store [0]).elements?_some
    have part : store.Part value 0 := by
      have shown := seen looks (Nat.le_refl looks) displayLimit
      rw [if_pos (by decide)] at shown
      exact .element shown (by simp)
    have circular : store.Circular value := .nested .here part ⟨value, value, rfl, .here, part⟩
    exact ⟨value, store, rfl, circular.display?⟩

end LazyConfig
