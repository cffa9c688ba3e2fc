import LazyConfig.Proofs.Deepening.Ends
import LazyConfig.Proofs.Lists.Reading
import LazyConfig.Proofs.Value.Texts

/-!
Evaluating all parts of a value. Where it gives a value, it is the one that was asked for, with all its parts
evaluated; where the value has finitely many parts, it gives the value or what has gone wrong with one of the parts.
-/

namespace LazyConfig

variable {evaluator : Evaluator} {store : Store} {value : Value} {data : Data}

/-- What a look at a list shows, within a limit, and whether it is all that the list has. -/
def shownWithin (limit : Nat) (elements : List Visible) : Array Visible × Bool :=
  if elements.length ≤ limit then (elements.toArray, true) else ((elements.take limit).toArray, false)

/-- All elements of a list are there, and a look shows the same ones as a walk. -/
structure Evaluator.ReadsWhole (evaluator : Evaluator) (store : Store) (items : LazyList) (elements : List Visible) :
    Prop where
  shown : ∀ element ∈ elements, ∃ inner, store.visible? element = some inner
  looks : ∃ enough, ∀ fuel, enough ≤ fuel → ∀ limit,
    store.elements? fuel (some limit) items = some (shownWithin limit elements)
  walks : ∃ ids last, store.Extends last ∧ List.Forall₂ last.Shows elements ids ∧
    ∃ enough, ∀ fuel, enough ≤ fuel → evaluator.toThunks fuel items store = some ⟨.ok ids, last⟩

/--
A value all of whose parts are evaluated. Its text is that of its data, in which nothing is left out except elements of
lists beyond the limit.
-/
structure Evaluator.FindsWhole (evaluator : Evaluator) (store : Store) (value : Value) : Prop where
  parts : ∀ depth part, store.Contains value depth part → ∀ id ∈ part.computations,
    ∃ inner, store.cell id = .forced inner
  rights : ∀ depth items, store.Contains value depth (.list items) → ∀ right ∈ items.rights,
    ∃ others, store.cell right = .forced (.list others)
  lists : ∀ depth items, store.Contains value depth (.list items) →
    ∃ elements, evaluator.ReadsWhole store items elements
  text : ∃ data, store.Holds value data ∧
    (∃ enough, ∀ fuel, enough ≤ fuel → store.display? fuel value = some (data.text displayLimit "..")) ∧
    (data.Narrow displayLimit → ∀ mark, data.text displayLimit ".." = data.text displayLimit mark)
  again : ∃ enough last, store.Extends last ∧ ∀ fuel, enough ≤ fuel →
    evaluator.perform fuel (.deepen value) store = some ⟨.ok value, last⟩

/-- A list that holds data has all its elements there. -/
theorem Store.ListHolds.readsWhole (evaluator : Evaluator) {items : LazyList} {parts : List Data}
    (hold : store.ListHolds items parts) : ∃ elements, evaluator.ReadsWhole store items elements := by
  obtain ⟨elements, spreads, bear⟩ := hold.spreads
  have visible : List.Forall₂ (fun element part => (∃ inner, store.visible? element = some inner) ∧
      store.Bears store.Holds element part) elements parts :=
    bear.imp fun _ _ bears => ⟨bears.imp fun _ both => both.1, bears⟩
  -- The host reads its elements by the walk along what is there.
  refine ⟨elements, (List.forall₂_and_left ..).mp visible |>.1, spreads.elements?_some, ?_⟩
  · obtain ⟨last, sequence, extended⟩ :=
      @Store.Spreads.sequence evaluator.context evaluator.ground _ _ _ _ spreads (.refl store)
    obtain ⟨found, rfl, visits⟩ := sequence_iff.mp sequence
    obtain ⟨enough, answers⟩ := Evaluator.collect_answers visits nofun
    refine ⟨found.map Prod.snd, last, extended, visits.stands, enough, fun fuel less => ?_⟩
    rw [Evaluator.toThunks, answers fuel less #[]]
    simp [Reply.map, Closing.result, Except.map]

/-- A value that holds data has all its parts evaluated. -/
theorem Store.Holds.findsWhole (evaluator : Evaluator) (holds : store.Holds value data) :
    evaluator.FindsWhole store value where
  parts depth part contains id member := by
    obtain ⟨_, own⟩ := contains.holds holds
    obtain ⟨inner, _, found, -⟩ := own.of_mem member
    exact ⟨inner, found⟩
  rights depth items contains right member := by
    obtain ⟨_, own⟩ := contains.holds holds
    cases own with
    | list hold => exact hold.of_mem_rights member
  lists depth items contains := by
    obtain ⟨_, own⟩ := contains.holds holds
    cases own with
    | list hold => exact hold.readsWhole evaluator
  text := ⟨data, holds, holds.display?, fun narrow mark => narrow.text ".." mark⟩
  again := holds.deepens_again evaluator

/-- What has all its parts evaluated can be evaluated in all its parts. -/
theorem Evaluator.FindsWhole.forceable (found : evaluator.FindsWhole store value) {context : Context}
    {meter : DepthMeter} : Forceable context meter value store where
  parts depth part contains id member := by
    obtain ⟨inner, here⟩ := found.parts depth part contains id member
    exact ⟨inner, store, .of_forced here⟩
  rights depth items contains right member := by
    obtain ⟨others, here⟩ := found.rights depth items contains right member
    exact ⟨others, store, .of_forced here⟩

/-- Evaluating all parts of a value gives the value itself, with all its parts evaluated. -/
theorem Evaluator.deepen_whole (closed : store.Closed) (within : value.Within .all store.cells.size) {fuel : Nat}
    {whole : Value} {after : Store}
    (replied : evaluator.perform fuel (.deepen value) store = some ⟨.ok whole, after⟩) :
    whole = value ∧ evaluator.FindsWhole after value := by
  have asked : Request.Within .all store.cells.size (.deepen value) := within
  obtain ⟨meter, ended⟩ := run_of_perform closed asked replied
  obtain ⟨rfl, data, holds⟩ := State.deepen_ends (.nil store) ended
  exact ⟨rfl, holds.findsWhole evaluator⟩

/-- What evaluating all parts of a value comes to: the value, or what has gone wrong with one of its parts. -/
structure Evaluator.Deepening (evaluator : Evaluator) (store : Store) (value : Value) (reply : Reply Value) : Prop where
  answers : ∃ enough, ∀ fuel, enough ≤ fuel → evaluator.perform fuel (.deepen value) store = some reply
  /-- The value is given exactly when all parts have been evaluated, one after the other. -/
  whole_iff : reply.result = .ok value ↔
    Uncovers evaluator.context evaluator.ground value store reply.store ∧
      Forceable evaluator.context evaluator.ground value reply.store
  /-- Where no part goes wrong, in whatever order they are asked for, the value is given. -/
  forceable : (∀ later, Uncovers evaluator.context evaluator.ground value store later →
    Forceable evaluator.context evaluator.ground value later) → reply.result = .ok value
  spoils : ∀ upset, reply.result = .error upset → Spoils value reply.store upset

/-- Evaluating all parts of a value that has finitely many comes to something. -/
theorem Evaluator.deepen_finite (closed : store.Closed) (within : value.Within .all store.cells.size)
    (idle : store.Idle) (finite : FiniteParts evaluator.context evaluator.ground value store) :
    ∃ reply, evaluator.Deepening store value reply := by
  obtain ⟨bound, bounded⟩ := finite.bounded
  have endable : Endable evaluator.context evaluator.ground value store bound :=
    ⟨⟨closed, idle, within⟩, bounded, finite.ends⟩
  -- With a bound on the depth, the evaluation settles: every part is asked for, or the first
  -- failure ends it.
  obtain ⟨outcome, after, completion, goes⟩ := endable.settles
  obtain ⟨enough, answers⟩ := @performs store after evaluator (.deepen value) outcome (goes [])
  refine ⟨⟨outcome, after⟩, ⟨enough, answers⟩, ?_, ?_, ?_⟩
  · cases completion with
    | whole uncovers =>
      have found := (deepen_whole closed within (answers enough (Nat.le_refl _))).2
      exact ⟨fun _ => ⟨uncovers, found.forceable⟩, fun _ => rfl⟩
    | spoiled uncovers fails spoils => exact ⟨nofun, fun both => absurd both.2 spoils.not_forceable⟩
  · intro forceable
    cases completion with
    | whole uncovers => rfl
    | spoiled uncovers fails spoils => exact absurd (forceable _ uncovers) fails
  · rintro upset failed
    cases completion with
    | whole uncovers => cases failed
    | spoiled uncovers fails spoils => exact Except.error.inj failed ▸ spoils

/-- An evaluator for the code of the number five. -/
def onlyFive : Evaluator where
  context := ⟨{}, { exprs := #[.int 5] }, {}⟩

/-- A number that has not been asked for. -/
def unaskedFive : Store where
  cells := #[.suspended (.expr 0 {})]

/-- The list of the number joined with the number, which is no list. -/
def misjoined : Value :=
  .list (.concat (.ofThunks [0]) 0)

/-- The number has been asked for or not. -/
def Store.HasFive (store : Store) : Prop :=
  0 < store.cells.size ∧ (store.cell 0 = .suspended (.expr 0 {}) ∨ store.cell 0 = .forced (.int 5))

namespace Store.HasFive

variable {middle after : Store} {inner : Value} {depth : Nat}

/-- Asking for the number comes to it. -/
theorem forces (five : middle.HasFive) :
    ∃ after, ForcesTo onlyFive.context onlyFive.ground middle 0 (.int 5) after ∧ after.HasFive := by
  obtain ⟨inside, waits | forced⟩ := five
  · have size : 0 < ((middle.set 0 .inProgress).set 0 (.forced (.int 5))).cells.size := by simpa using inside
    refine ⟨(middle.set 0 .inProgress).set 0 (.forced (.int 5)), ?_, size, .inr ?_⟩
    · exact .step (State.step_force_onto waits) (.step rfl (.step rfl (.step rfl (.step rfl (.refl _)))))
    · exact Store.cell_set_self (by simpa using inside) _
  · exact ⟨middle, .of_forced forced, inside, .inr forced⟩

/-- Only the number is found in the joined list. -/
theorem contains (five : middle.HasFive) (contains : middle.Contains misjoined depth inner) :
    depth = 0 ∧ inner = misjoined ∨ depth = 1 ∧ inner = .int 5 := by
  induction contains with
  | here => exact .inl ⟨rfl, rfl⟩
  | part outer part found ih =>
    rcases ih with ⟨rfl, rfl⟩ | ⟨rfl, rfl⟩
    · obtain rfl : _ = 0 := by simpa [misjoined, Value.computations, LazyList.computations, LazyList.ofThunks] using part
      rcases five.2 with waits | forced
      · cases waits.symm.trans found
      · exact .inr ⟨rfl, Store.forced_unique found forced⟩
    · exact absurd part List.not_mem_nil

/-- The computations of what is found in the joined list are those of the number. -/
theorem part (five : middle.HasFive) (contains : middle.Contains misjoined depth inner) {id : ThunkId}
    (part : id ∈ inner.computations) : id = 0 := by
  rcases five.contains contains with ⟨-, rfl⟩ | ⟨-, rfl⟩
  · simpa [misjoined, Value.computations, LazyList.computations, LazyList.ofThunks] using part
  · exact absurd part List.not_mem_nil

/-- The number stays what it is, whatever parts are asked for. -/
theorem of_uncovers (uncovers : Uncovers onlyFive.context onlyFive.ground misjoined unaskedFive after) :
    after.HasFive := by
  -- By induction on what has been asked for: only the number itself can be, or a new cell for an
  -- integer.
  induction uncovers with
  | here => exact ⟨by decide, .inl rfl⟩
  | force before contains part forces ih =>
    obtain rfl := ih.part contains part
    obtain ⟨last, also, five⟩ := ih.forces
    obtain ⟨-, rfl⟩ := forces.unique also
    exact five
  | @int middle before value ih =>
    have grown := middle.ready_extends (.int value)
    refine ⟨Nat.lt_of_lt_of_le ih.1 grown.1, ?_⟩
    rw [grown.2 0 ih.1]
    exact ih.2

end Store.HasFive

end LazyConfig
