import LazyConfig.Proofs.Deepening.Again
import LazyConfig.Proofs.Equality.Same
import LazyConfig.Proofs.Lists.Sights

/-!
Comparisons of values whose data can be obtained. A comparison asks for parts of both values as it goes, and comes to
whether the data are the same.
-/

namespace LazyConfig

section

variable (context : Context) (meter : DepthMeter)

/-- Stores that asking for computations leads to; integers of ranges get computations of their own. -/
inductive Asked (store : Store) : Store → Prop
  | refl : Asked store store
  | force {middle after : Store} {id : ThunkId} {value : Value} (before : Asked store middle)
    (forces : ForcesTo context meter middle id value after) : Asked store after
  | int {middle : Store} (before : Asked store middle) (value : Int64) : Asked store (middle.ready (.int value)).2

/--
A list has elements of which something holds, one by one, when their turn comes to be asked for. What else has been
asked for before does not matter.
-/
def Supplies : List (Store → Value → Prop) → Store → Cursor → Prop
  | [], store, cursor => ∀ later, Asked context meter store later →
    ∃ after, Turn context meter later cursor .finished after
  | part :: parts, store, cursor => ∀ later, Asked context meter store later →
    ∃ element id rest after, Turn context meter later cursor (.item element id rest) after ∧
      (∀ last, Asked context meter after last →
        ∃ inner final, ForcesTo context meter last id inner final ∧ part final inner) ∧
      Supplies parts after rest

mutual

/-- The data of a value can be obtained, by asking for its parts in whatever order. -/
def Data.Obtained : Data → Store → Value → Prop
  | .list parts => fun store value => ∃ items, value = .list items ∧
    Supplies context meter (Data.obtainedParts parts) store items.cursor
  | .record fields => fun store value => ∃ record, value = .record record ∧ record.names = fields.map Prod.fst ∧
    Supplies context meter (Data.obtainedFields fields) store (LazyList.ofThunks record.thunks).cursor
  | .int number => fun _ value => value = .int number
  | .float number => fun _ value => value = .float number
  | .bool truth => fun _ value => value = .bool truth
  | .str text => fun _ value => value = .str text
  | .closure | .builtin .. | .host _ | .omitted => fun _ value => value.isFunction

/-- What is to be obtained of parts. -/
def Data.obtainedParts : List Data → List (Store → Value → Prop)
  | [] => []
  | first :: rest => Data.Obtained first :: Data.obtainedParts rest

/-- What is to be obtained of fields. -/
def Data.obtainedFields : List (String × Data) → List (Store → Value → Prop)
  | [] => []
  | (_, first) :: rest => Data.Obtained first :: Data.obtainedFields rest

end

end

variable {context : Context} {meter : DepthMeter} {store middle after : Store} {data part : Data} {value : Value}
  {cursor : Cursor}

/-- What is to be obtained of fields is what is to be obtained of their data. -/
theorem Data.obtainedFields_eq (fields : List (String × Data)) :
    Data.obtainedFields context meter fields = Data.obtainedParts context meter (fields.map Prod.snd) := by
  induction fields with
  | nil => rfl
  | cons field fields ih => exact congrArg _ ih

namespace Asked

/-- Asking for computations goes on. -/
theorem trans (first : Asked context meter store middle) (second : Asked context meter middle after) :
    Asked context meter store after := by
  induction second with
  | refl => exact first
  | force _ forces ih => exact .force ih forces
  | int _ value ih => exact .int ih value

/-- Asking for computations takes none back. -/
theorem precedes (asked : Asked context meter store after) : store.Precedes after := by
  induction asked with
  | refl => exact .refl _
  | force _ forces ih => exact ih.trans forces.forced.2
  | int _ value ih => exact ih.trans (Store.ready_extends ..).precedes

end Asked

/-- What a step along a list asks for are computations. -/
theorem Turn.asked {stop : Stop} (turn : Turn context meter store cursor stop after)
    (good : ∀ upset left, stop ≠ .upset upset left) : Asked context meter store after := by
  induction turn with
  | elem found => exact .refl
  | int more => exact .int .refl _
  | concat turn ih => exact ih good
  | finished used => exact .refl
  | cross used forces turn ih => exact (Asked.force .refl forces).trans (ih good)
  | fails used fails | noList used forces other => exact absurd rfl (good _ _)

/-- A step to the next element asks for right parts. -/
theorem Turn.asked_item {element : Visible} {own : ThunkId} {rest : Cursor}
    (turn : Turn context meter store cursor (.item element own rest) after) : Asked context meter store after :=
  turn.asked (by simp)

/-- So does a step to the end. -/
theorem Turn.asked_finished (turn : Turn context meter store cursor .finished after) :
    Asked context meter store after :=
  turn.asked (by simp)

/-- What is supplied is supplied later, too. -/
theorem Supplies.later {parts : List (Store → Value → Prop)} (supplies : Supplies context meter parts store cursor)
    (asked : Asked context meter store after) : Supplies context meter parts after cursor := by
  cases parts with
  | nil => exact fun later further => supplies later (asked.trans further)
  | cons part parts => exact fun later further => supplies later (asked.trans further)

/-- Data that can be obtained can be obtained later, too. -/
theorem Data.Obtained.later (obtained : data.Obtained context meter store value)
    (asked : Asked context meter store after) : data.Obtained context meter after value := by
  cases data with
  | list parts =>
    obtain ⟨items, rfl, supplies⟩ := obtained
    exact ⟨items, rfl, supplies.later asked⟩
  | record fields =>
    obtain ⟨record, rfl, names, supplies⟩ := obtained
    exact ⟨record, rfl, names, supplies.later asked⟩
  | _ => exact obtained

/-! Walks. -/

/-- Two values whose data can be obtained. -/
def ObtainedBoth (context : Context) (meter : DepthMeter) (store : Store) (pair : Value × Value)
    (data : Data × Data) : Prop :=
  data.1.Obtained context meter store pair.1 ∧ data.2.Obtained context meter store pair.2

/-- Two values that have been found stay what they are. -/
theorem ObtainedBoth.later {pair : Value × Value} {both : Data × Data}
    (obtained : ObtainedBoth context meter store pair both) (asked : Asked context meter store after) :
    ObtainedBoth context meter after pair both :=
  ⟨obtained.1.later asked, obtained.2.later asked⟩

/-- What a walk along two lists at once comes to. -/
inductive Paired (context : Context) (meter : DepthMeter) (store : Store) (start : Control)
    (parts others : List Data) (work : List (Value × Value)) : Prop
  | pairs {after : Store} {pairs : List (Value × Value)} (length : parts.length = others.length)
    (asked : Asked context meter store after)
    (obtained : List.Forall₂ (ObtainedBoth context meter after) pairs (parts.zip others))
    (goes : ∀ stack, State.GoesTo context ⟨store, meter, start, stack⟩
      ⟨after, meter, .compare (pairs.reverse ++ work), stack⟩)
  | uneven {after : Store} (length : parts.length ≠ others.length) (asked : Asked context meter store after)
    (goes : ∀ stack, State.GoesTo context ⟨store, meter, start, stack⟩ ⟨after, meter, .give (.bool false), stack⟩)

/-- A walk that has passed a pair goes on as one that starts behind it. -/
theorem Paired.next {start behind : Control} {part other : Data} {parts others : List Data} {pair : Value × Value}
    {work : List (Value × Value)}
    (paired : Paired context meter middle behind parts others (pair :: work))
    (obtained : ObtainedBoth context meter middle pair (part, other)) (asked : Asked context meter store middle)
    (goes : ∀ stack, State.GoesTo context ⟨store, meter, start, stack⟩ ⟨middle, meter, behind, stack⟩) :
    Paired context meter store start (part :: parts) (other :: others) work := by
  cases paired with
  | @pairs after pairs length further others' rest =>
    refine .pairs (congrArg Nat.succ length) (asked.trans further) (.cons (obtained.later further) others')
      fun stack => ?_
    rw [List.reverse_cons, List.append_assoc, List.singleton_append]
    exact (goes stack).trans (rest stack)
  | uneven length further rest =>
    exact .uneven (fun same => length (Nat.succ.inj same)) (asked.trans further) fun stack =>
      (goes stack).trans (rest stack)

/-- A walk along two lists pairs their elements, up to the end of the shorter one. -/
theorem paired {parts others : List Data} {lefts rights : Cursor}
    (left : Supplies context meter (Data.obtainedParts context meter parts) store lefts)
    (right : Supplies context meter (Data.obtainedParts context meter others) store rights)
    (work : List (Value × Value)) :
    Paired context meter store (.advance lefts (.compareLeft rights work)) parts others work := by
  -- By induction on the data of the left list, with the right one arbitrary.
  induction parts generalizing others store lefts rights work with
  | nil =>
    obtain ⟨middle, turn⟩ := left store .refl
    have first := turn.asked_finished
    cases others with
    | nil =>
      obtain ⟨after, turn'⟩ := right middle first
      exact .pairs rfl (first.trans turn'.asked_finished) .nil fun stack =>
        (turn.goesTo _ stack).trans (turn'.goesTo _ stack)
    | cons other others =>
      obtain ⟨element, id, rest, after, turn', -⟩ := right middle first
      exact .uneven (by simp) (first.trans turn'.asked_item) fun stack =>
        (turn.goesTo _ stack).trans (turn'.goesTo _ stack)
  | cons part parts ih =>
    obtain ⟨element, id, rest, middle, turn, own, behind⟩ := left store .refl
    have first := turn.asked_item
    cases others with
    | nil =>
      obtain ⟨after, turn'⟩ := right middle first
      exact .uneven (by simp) (first.trans turn'.asked_finished) fun stack =>
        (turn.goesTo _ stack).trans (turn'.goesTo _ stack)
    | cons other others =>
      obtain ⟨element', id', rest', after, turn', own', behind'⟩ := right middle first
      have second := turn'.asked_item
      -- The element of the left list is asked for first, and then that of the right one.
      obtain ⟨inner, last, forces, obtained⟩ := own after second
      have third : Asked context meter after last := .force .refl forces
      obtain ⟨inner', final, forces', obtained'⟩ := own' last third
      have fourth : Asked context meter last final := .force .refl forces'
      have next := ih (behind.later (second.trans (third.trans fourth))) (behind'.later (third.trans fourth))
        ((inner, inner') :: work)
      refine next.next ⟨obtained.later fourth, obtained'⟩ (first.trans (second.trans (third.trans fourth)))
        fun stack => ?_
      exact (turn.goesTo _ stack).trans ((turn'.goesTo _ stack).trans ((forces.above _).trans
        (.step rfl ((forces'.above _).trans (.step rfl (.refl _))))))

/-! Comparisons. -/

/-- What the evaluator does next when a pair has been compared. -/
def comparedStep (store : Store) (meter : DepthMeter) (work : List (Value × Value)) (same : Bool)
    (stack : List Frame) : State :=
  ⟨store, meter, if same then .compare work else .give (.bool false), stack⟩

/-- A value whose data can be obtained is compared with others as its data are. -/
def Compares (context : Context) (meter : DepthMeter) (data : Data) : Prop :=
  ∀ other store pair, ObtainedBoth context meter store pair (data, other) → other.Plain → ∀ work,
    ∃ after, Asked context meter store after ∧ ∀ stack,
      State.GoesTo context ⟨store, meter, .compare (pair :: work), stack⟩
        (comparedStep after meter work (data.same other) stack)

/-- Pairs are compared one after the other, up to the first that differs. -/
theorem compares_all {pairs : List (Value × Value)} {both : List (Data × Data)}
    (obtained : List.Forall₂ (ObtainedBoth context meter store) pairs both)
    (each : ∀ pair ∈ both, Compares context meter pair.1 ∧ pair.2.Plain)
    (asked : Asked context meter store middle) (work : List (Value × Value)) :
    ∃ after, Asked context meter middle after ∧ ∀ stack,
      State.GoesTo context ⟨middle, meter, .compare (pairs ++ work), stack⟩
        (comparedStep after meter work (both.all fun pair => pair.1.same pair.2) stack) := by
  -- By induction on the pairs; those behind one that differs are not looked at.
  induction obtained generalizing middle with
  | nil => exact ⟨middle, .refl, fun stack => .refl _⟩
  | @cons pair data pairs both first rest ih =>
    obtain ⟨⟨compares, plain⟩, others⟩ := List.forall_mem_cons.mp each
    obtain ⟨last, further, goes⟩ := compares data.2 middle pair (first.later asked) plain (pairs ++ work)
    rw [List.all_cons]
    cases same : data.1.same data.2 with
    | false =>
      rw [same] at goes
      exact ⟨last, further, goes⟩
    | true =>
      rw [same] at goes
      obtain ⟨after, beyond, behind⟩ := ih others (asked.trans further)
      exact ⟨after, further.trans beyond, fun stack => (goes stack).trans (behind stack)⟩

/-- Data are all the same exactly when those of each pair are. -/
theorem Data.allSame_eq {parts others : List Data} (length : parts.length = others.length) :
    Data.allSame parts others = (parts.zip others).all fun pair => pair.1.same pair.2 := by
  induction parts generalizing others with
  | nil =>
    obtain rfl : others = [] := List.eq_nil_of_length_eq_zero length.symm
    rfl
  | cons part parts ih =>
    cases others with
    | nil => cases length
    | cons other others => rw [Data.allSame, ih (Nat.succ.inj length), List.zip_cons_cons, List.all_cons]

/-- Of data that are all without functions, each is without functions. -/
theorem Data.AllPlain.of_mem {parts : List Data} (plain : Data.AllPlain parts) : ∀ part ∈ parts, part.Plain := by
  induction parts with
  | nil => exact List.forall_mem_nil _
  | cons part parts ih => exact List.forall_mem_cons.mpr ⟨plain.1, ih plain.2⟩

/-- Elements are compared as their data are, wherever they are walked. -/
theorem compares_walk {parts others : List Data} (each : ∀ part ∈ parts, Compares context meter part)
    {lefts rights : Cursor} (left : Supplies context meter (Data.obtainedParts context meter parts) store lefts)
    (right : Supplies context meter (Data.obtainedParts context meter others) store rights)
    (plain : Data.AllPlain others) (work : List (Value × Value)) :
    ∃ after, Asked context meter store after ∧ ∀ stack,
      State.GoesTo context ⟨store, meter, .advance lefts (.compareLeft rights work), stack⟩
        (comparedStep after meter work (Data.allSame parts others) stack) := by
  cases paired left right work with
  | @pairs middle pairs length asked obtained goes =>
    -- The pair that has been found last is compared first.
    have reversed := List.forall₂_reverse_iff.mpr obtained
    have known : ∀ pair ∈ (parts.zip others).reverse, Compares context meter pair.1 ∧ pair.2.Plain := by
      intro pair member
      have member := List.mem_reverse.mp member
      exact ⟨each _ (List.of_mem_zip member).1, plain.of_mem _ (List.of_mem_zip member).2⟩
    obtain ⟨after, further, behind⟩ := compares_all reversed known .refl work
    rw [List.all_reverse, ← Data.allSame_eq length] at behind
    exact ⟨after, asked.trans further, fun stack => (goes stack).trans (behind stack)⟩
  | @uneven after length asked goes =>
    rw [Data.allSame_of_length length]
    exact ⟨after, asked, goes⟩

/-- A pair that is compared without asking for anything. -/
theorem compares_step {pair : Value × Value} {same : Bool} {work : List (Value × Value)}
    (stepped : ∀ stack, State.step context ⟨store, meter, .compare (pair :: work), stack⟩ =
      comparedStep store meter work same stack) :
    ∃ after, Asked context meter store after ∧ ∀ stack,
      State.GoesTo context ⟨store, meter, .compare (pair :: work), stack⟩
        (comparedStep after meter work same stack) :=
  ⟨store, .refl, fun stack => .step (stepped stack) (.refl _)⟩

/-- A list is compared as its data are. -/
theorem Compares.list {parts : List Data} (each : ∀ part ∈ parts, Compares context meter part) :
    Compares context meter (.list parts) := by
  rintro other store ⟨left, right⟩ ⟨⟨items, rfl, lefts⟩, obtained⟩ plain work
  -- Two lists are walked together, and a list differs in one step from data of any other kind.
  cases other with
  | list others =>
    obtain ⟨others', rfl, rights⟩ := obtained
    obtain ⟨after, asked, goes⟩ := compares_walk each lefts rights plain work
    exact ⟨after, asked, fun stack => .step rfl (goes stack)⟩
  | record fields =>
    obtain ⟨record, rfl, -⟩ := obtained
    exact compares_step fun stack => rfl
  | closure | builtin op held missing | host name | omitted => exact plain.elim
  | _ =>
    obtain rfl := obtained
    exact compares_step fun stack => rfl

/-- A record is compared as its data are. -/
theorem Compares.record {fields : List (String × Data)}
    (each : ∀ part ∈ fields.map Prod.snd, Compares context meter part) :
    Compares context meter (.record fields) := by
  rintro other store ⟨left, right⟩ ⟨⟨record, rfl, names, lefts⟩, obtained⟩ plain work
  cases other with
  | record others =>
    obtain ⟨others', rfl, names', rights⟩ := obtained
    rw [Data.obtainedFields_eq] at lefts rights
    rw [Data.same, Data.fieldsSame_eq, ← names, ← names']
    -- Records with other names differ in one step; with the same names their fields are compared in
    -- order.
    by_cases same : record.names = others'.names
    · obtain ⟨after, asked, goes⟩ := compares_walk each lefts rights (Store.allPlain_of_fields plain) work
      refine ⟨after, asked, fun stack => .step ?_ (by simpa [same] using goes stack)⟩
      simp only [State.step, Context.compareStep, if_pos same]
    · refine compares_step fun stack => ?_
      simp [State.step, Context.compareStep, comparedStep, same]
  | list parts =>
    obtain ⟨items, rfl, -⟩ := obtained
    exact compares_step fun stack => rfl
  | closure | builtin op held missing | host name | omitted => exact plain.elim
  | _ =>
    obtain rfl := obtained
    exact compares_step fun stack => rfl

/-- Data without parts: numbers, truth values and texts. -/
def Data.Scalar : Data → Prop
  | .int _ | .float _ | .bool _ | .str _ => True
  | _ => False

/-- A value without parts is compared as its data are. -/
theorem Compares.scalar (scalar : data.Scalar) : Compares context meter data := by
  rintro other store ⟨left, right⟩ ⟨own, obtained⟩ plain work
  cases data with
  | list parts | record fields | closure | builtin op held missing | host name | omitted => exact scalar.elim
  | _ =>
    obtain rfl := own
    -- Which of the two it is, one step says whether they are the same.
    cases other with
    | list parts =>
      obtain ⟨items, rfl, -⟩ := obtained
      exact compares_step fun stack => rfl
    | record fields =>
      obtain ⟨record, rfl, -⟩ := obtained
      exact compares_step fun stack => rfl
    | closure | builtin op held missing | host name | omitted => exact plain.elim
    | _ =>
      obtain rfl := obtained
      exact compares_step fun stack => rfl

mutual

/-- Values whose data are without functions are compared as their data are. -/
theorem Data.Plain.compares : {data : Data} → data.Plain → Compares context meter data
  | .int _, _ | .float _, _ | .bool _, _ | .str _, _ => .scalar trivial
  | .list _, plain => .list (Data.AllPlain.compares plain)
  | .record _, plain => .record (Data.FieldsPlain.compares plain)

/-- Values whose data are without functions are each compared as their data are. -/
theorem Data.AllPlain.compares : {parts : List Data} → Data.AllPlain parts →
    ∀ part ∈ parts, Compares context meter part
  | [], _ => List.forall_mem_nil _
  | _ :: _, plain => List.forall_mem_cons.mpr ⟨Data.Plain.compares plain.1, Data.AllPlain.compares plain.2⟩

/-- Fields whose data are without functions are each compared as their data are. -/
theorem Data.FieldsPlain.compares : {fields : List (String × Data)} → Data.FieldsPlain fields →
    ∀ part ∈ fields.map Prod.snd, Compares context meter part
  | [], _ => List.forall_mem_nil _
  | (_, _) :: _, plain => List.forall_mem_cons.mpr ⟨Data.Plain.compares plain.1, Data.FieldsPlain.compares plain.2⟩

end

/-- A comparison of two values whose data can be obtained comes to whether the data are the same. -/
theorem Data.Obtained.equal {evaluator : Evaluator} {left right : Value}
    (first : data.Obtained evaluator.context evaluator.ground store left)
    (second : part.Obtained evaluator.context evaluator.ground store right) (plain : data.Plain)
    (also : part.Plain) :
    ∃ after enough, Asked evaluator.context evaluator.ground store after ∧ ∀ fuel, enough ≤ fuel →
      evaluator.equal fuel left right store = some ⟨.ok (data.same part), after⟩ := by
  obtain ⟨after, asked, goes⟩ := plain.compares part store (left, right) ⟨first, second⟩ also []
  -- With nothing left to compare, the last verdict is the answer.
  have given : State.GoesTo evaluator.context (evaluator.start (.equal left right) store)
      ⟨after, evaluator.ground, .passing (.ok (.bool (data.same part))), []⟩ := by
    refine (goes []).trans ?_
    cases data.same part with
    | false => exact .refl _
    | true => exact .step rfl (.refl _)
  obtain ⟨enough, answers⟩ := Evaluator.performs given
  exact ⟨after, enough, asked, fun fuel less => by rw [Evaluator.equal, answers fuel less]; rfl⟩

end LazyConfig
