import LazyConfig.Proofs.ByName.Agreement
import LazyConfig.Proofs.Erasure.Simulation

/-!
Whole evaluations by name, with annotations and without. Where both have data, it is the same.
-/

namespace LazyConfig.ByName

variable {source : Annotated} {others : Annotations}

/-- A value and a failure are different ends. -/
theorem not_value_and_failure {context : Context} {state : State} {value : Value}
    {variant : Variant} (gives : Reaches context state ⟨.give value, []⟩) :
    ¬ Reaches context state ⟨.raise variant, []⟩ := by
  intro raises
  have same := gives.unique raises (.value value) (.failure variant)
  simp at same

/-- A value with annotations is a value without. -/
theorem Erases.bare_value {state bare : State} (erases : Erases source state bare) {value : Value}
    (reached : Reaches source.context state ⟨.give value, []⟩) :
    ∃ result, ValueErases source value result ∧
      Reaches (source.erased others) bare ⟨.give result, []⟩ := by
  obtain ⟨steps, ran⟩ := reached
  induction steps using Nat.strongRecOn generalizing state bare with
  | ind steps ih =>
    have ended : (ByName.run source.context steps state).Final := ran ▸ .value value
    -- A run that has not ended yet has a step left, so what remains after some steps is shorter.
    have fewer (unfinished : ¬ state.Final) (count : Nat) : steps - (count + 1) < steps := by
      rcases Nat.eq_zero_or_pos steps with rfl | positive
      · exact absurd ended unfinished
      · exact Nat.sub_lt positive (Nat.succ_pos count)
    have rest (first : Nat) := (run_sub ended first).trans ran
    -- Each way to go on leaves fewer steps or contradicts that the run ends with a value.
    cases @Erases.progress source others state bare erases with
    | moves count unfinished going erases =>
      obtain ⟨result, same, reaches⟩ := ih _ (fewer unfinished count) erases (rest (count + 1))
      exact ⟨result, same, .trans ⟨1, rfl⟩ reaches⟩
    | pauses count unfinished erases _ =>
      exact ih _ (fewer unfinished count) erases (rest (count + 1))
    | refuses count stack refused =>
      have raises : Reaches source.context state ⟨.raise .typeMismatch, []⟩ :=
        .trans ⟨count, refused⟩ (reaches_raise _ _)
      exact (not_value_and_failure ⟨steps, ran⟩ raises).elim
    | ends final result same given last =>
      subst given last
      rw [(State.Final.value final).run] at ran
      cases ran
      exact ⟨result, same, .refl _⟩
    | fails variant raised _ =>
      obtain ⟨control, stack⟩ := state
      simp only at raised
      subst raised
      exact (not_value_and_failure ⟨steps, ran⟩ (reaches_raise variant stack)).elim

/-- Fewer and fewer checks come to an end. -/
theorem fewerChecks_wf (source : Annotated) : WellFounded (FewerChecks source) :=
  InvImage.wf (checksLeft source) (Prod.lex Nat.lt_wfRel Nat.lt_wfRel).wf

/-- With annotations, only so many checks come before a step that there is without them too. -/
theorem Erases.catches_up {state bare : State} (erases : Erases source state bare) :
    ∃ later, Reaches source.context state later ∧
      (¬ bare.Final ∧ Erases source later (step (source.erased others) bare) ∨
        later = ⟨.raise .typeMismatch, []⟩ ∨
        (∃ value result, ValueErases source value result ∧ later = ⟨.give value, []⟩ ∧
          bare = ⟨.give result, []⟩) ∨
        ∃ variant, bare.control = .raise variant) := by
  -- Each check leaves fewer checks, until there is a step that both sides take.
  induction state using (fewerChecks_wf source).induction with
  | _ state fewer_checks =>
    cases @Erases.progress source others state bare erases with
    | moves count _ going erases => exact ⟨_, ⟨count + 1, rfl⟩, .inl ⟨going, erases⟩⟩
    | pauses count _ erases fewer =>
      obtain ⟨later, reached, met⟩ := fewer_checks _ fewer erases
      exact ⟨later, .trans ⟨count + 1, rfl⟩ reached, met⟩
    | refuses count stack refused =>
      exact ⟨_, .trans ⟨count, refused⟩ (reaches_raise _ stack), .inr (.inl rfl)⟩
    | ends value result same given ended =>
      exact ⟨_, .refl _, .inr (.inr (.inl ⟨value, result, same, given, ended⟩))⟩
    | fails variant _ raised => exact ⟨_, .refl _, .inr (.inr (.inr ⟨variant, raised⟩))⟩

/-- A value without annotations is a value with them, unless a check fails. -/
theorem Erases.annotated_value {state bare : State} (erases : Erases source state bare)
    {result : Value} (reached : Reaches (source.erased others) bare ⟨.give result, []⟩) :
    (∃ value, ValueErases source value result ∧
      Reaches source.context state ⟨.give value, []⟩) ∨
      Reaches source.context state ⟨.raise .typeMismatch, []⟩ := by
  obtain ⟨steps, ran⟩ := reached
  induction steps generalizing state bare with
  | zero =>
    obtain ⟨later, met, ⟨going, -⟩ | rfl | ⟨value, other, same, rfl, rfl⟩ | ⟨variant, raised⟩⟩ :=
      @Erases.catches_up source others _ _ erases
    · -- Without annotations there is no step to take, so the run has ended where it began.
      cases ran
      exact absurd (State.Final.value result) going
    · exact .inr met
    · cases ran
      exact .inl ⟨value, same, met⟩
    · cases ran
      cases raised
  -- Each step without annotations is caught up with, unless a check fails before it.
  | succ steps ih =>
    obtain ⟨later, met, ⟨-, erases⟩ | rfl | ⟨value, other, same, rfl, rfl⟩ | ⟨variant, raised⟩⟩ :=
      @Erases.catches_up source others _ _ erases
    · -- The state after the step is related to the state that has caught up, and so is the end.
      rw [run_succ] at ran
      rcases ih erases ran with ⟨value, same, reached⟩ | failed
      · exact .inl ⟨value, same, met.trans reached⟩
      · exact .inr (met.trans failed)
    · exact .inr met
    · rw [(State.Final.value other).run] at ran
      cases ran
      exact .inl ⟨value, same, met⟩
    · obtain ⟨control, stack⟩ := bare
      simp only at raised
      subst raised
      exact (not_value_and_failure ⟨steps + 1, ran⟩ (reaches_raise variant stack)).elim

/-! What can be seen of a list by name. -/

/-- A walk hands its consumer an element or its end, before anything else is done. -/
def Hands (context : Context) (items : List Segment) (item : Option Promise)
    (rest : List Segment) : Prop :=
  ∀ consumer, Leads context (.advance items consumer) []
    (consumeTurn context.annotations.graph consumer item rest).control
    (consumeTurn context.annotations.graph consumer item rest).frames

/-- A value that is there is given. -/
theorem Gives.ready {context : Context} (value : Value) : Gives context (.ready value) value :=
  .of_step (Control.give value).turn fun _ => rfl

/-- A walk goes on behind a list that has been put off. -/
theorem Hands.joint {context : Context} {right : Promise} {items pending rest : List Segment}
    {item : Option Promise} (gives : Gives context right (.list items))
    (hands : Hands context (items ++ pending) item rest) :
    Hands context (.joint right :: pending) item rest := by
  intro consumer
  -- The walk waits for the list, and then passes its elements before those that come after it.
  have waits : Leads context (.advance (.joint right :: pending) consumer) [] (.force right)
      ([] ++ [.spine pending consumer]) :=
    .of_step ((Control.force right).before (.spine pending consumer)) fun _ => rfl
  have goes : Leads context (.give (.list items)) ([] ++ [.spine pending consumer])
      (.advance (items ++ pending) consumer) [] :=
    .of_step (Control.advance (items ++ pending) consumer).turn fun _ => rfl
  exact (waits.trans (gives.above _)).trans (goes.trans (hands consumer))

/-- The first element of a list, or that there is none. -/
inductive Uncons (context : Context) (items : List Segment) : List Data → Prop
  | nil (hands : Hands context items none []) : Uncons context items []
  | cons {promise : Promise} {value : Value} {part : Data} {rest : List Segment}
    {parts : List Data} (gives : Gives context promise value) (holds : value.Holds context part)
    (others : Yields context rest parts) (hands : Hands context items (some promise) rest) :
    Uncons context items (part :: parts)

/-- A list that yields elements hands out the first of them. -/
theorem Yields.uncons {context : Context} {items : List Segment} {parts : List Data} :
    Yields context items parts → Uncons context items parts
  | .nil => .nil fun _ => .of_step _ fun _ => rfl
  | .item gives holds others => .cons gives holds others fun _ => .of_step _ fun _ => rfl
  | .range others => .cons (.ready _) (.int _) others fun _ => .of_step _ fun _ => rfl
  -- What a joint gives may be empty itself, so its elements and the rest are looked at together.
  | .joint gives others => by
    cases others.uncons with
    | nil hands => exact .nil (hands.joint gives)
    | cons first holds more hands => exact .cons first holds more (hands.joint gives)

/-- The first element of a list, if it has one. -/
theorem Hands.head {context : Context} {items rest : List Segment} {promise : Promise}
    {value : Value} (hands : Hands context items (some promise) rest)
    (gives : Gives context promise value) :
    Reaches context ⟨.advance items .head, []⟩ ⟨.give value, []⟩ :=
  ((hands .head).trans gives).reaches []

/-- The elements after the first, if there is one. -/
theorem Hands.tail {context : Context} {items rest : List Segment} {promise : Promise}
    (hands : Hands context items (some promise) rest) :
    Reaches context ⟨.advance items .tail, []⟩ ⟨.give (.list rest), []⟩ :=
  (hands .tail).reaches []

/-- An empty list has no first element. -/
theorem Hands.empty {context : Context} {items : List Segment} (hands : Hands context items none []) :
    Reaches context ⟨.advance items .head, []⟩ ⟨.raise .emptyList, []⟩ :=
  (hands .head).reaches []

/-! Data with annotations and without. -/

/-- What both give erases. -/
theorem PromiseErases.gives {promise bare : Promise} (erases : PromiseErases source promise bare)
    {value result : Value} (gives : Gives source.context promise value)
    (other : Gives (source.erased others) bare result) : ValueErases source value result := by
  obtain ⟨found, same, reached⟩ :=
    @Erases.bare_value source others _ _ (.force erases .nil) _ (gives.reaches [])
  have equal := reached.unique (other.reaches []) (.value found) (.value result)
  cases equal
  exact same

/-- Both lists are empty, or the first elements and the other elements erase. -/
theorem ListErases.uncons {items bares : List Segment} (erases : ListErases source items bares)
    {parts results : List Data} (yields : Uncons source.context items parts)
    (bareYields : Uncons (source.erased others) bares results) :
    parts = [] ∧ results = [] ∨
      ∃ part more result bareMore value bare rest bareRest, parts = part :: more ∧
        results = result :: bareMore ∧ ValueErases source value bare ∧
        value.Holds source.context part ∧ bare.Holds (source.erased others) result ∧
        ListErases source rest bareRest ∧ Yields source.context rest more ∧
        Yields (source.erased others) bareRest bareMore := by
  -- What can be seen of two lists is what asking for their heads and their tails gives.
  have heads : Erases source ⟨.advance items .head, []⟩ ⟨.advance bares .head, []⟩ :=
    ControlErases.advance erases .head [] [] .nil
  have tails : Erases source ⟨.advance items .tail, []⟩ ⟨.advance bares .tail, []⟩ :=
    ControlErases.advance erases .tail [] [] .nil
  cases yields with
  | nil hands =>
    cases bareYields with
    | nil => exact .inl ⟨rfl, rfl⟩
    | cons gives _ _ bareHands =>
      -- A first element on one side only would be seen.
      rcases heads.annotated_value (bareHands.head gives) with ⟨value, -, reached⟩ | failed
      · exact (not_value_and_failure reached hands.empty).elim
      · cases failed.unique hands.empty (.failure _) (.failure _)
  | cons gives holds more hands =>
    obtain ⟨found, first, reached⟩ := @Erases.bare_value source others _ _ heads _ (hands.head gives)
    -- What is given without annotations is what the walk hands out, as both are ends of one run.
    obtain ⟨list, listed, passed⟩ := @Erases.bare_value source others _ _ tails _ hands.tail
    cases bareYields with
    | nil bareHands => exact (not_value_and_failure reached bareHands.empty).elim
    | cons bareGives bareHolds bareMore bareHands =>
      cases reached.unique (bareHands.head bareGives) (.value _) (.value _)
      cases passed.unique bareHands.tail (.value _) (.value _)
      cases listed with
      | list rest =>
        exact .inr ⟨_, _, _, _, _, _, _, _, rfl, rfl, first, holds, bareHolds, rest, more, bareMore⟩

mutual

/-- Where both have data, it is the same. -/
theorem ValueErases.same_data {value bare : Value} {data result : Data}
    -- Scalars are the same, and the parts of lists and records have the same data in turn.
    (erases : ValueErases source value bare) (holds : value.Holds source.context data)
    (bareHolds : bare.Holds (source.erased others) result) : data = result := by
  match erases, holds, bareHolds with
  | .int _, .int _, .int _ => rfl
  | .float _, .float _, .float _ => rfl
  | .bool _, .bool _, .bool _ => rfl
  | .str _, .str _, .str _ => rfl
  | .list erases, .list yields, .list bareYields => rw [erases.same_parts yields bareYields]
  | .record _ names promises, .record hold, .record bareHold =>
    rw [same_fields (.of_parts names promises) hold bareHold]
  | .closure .., .closure .., .closure .. => rfl
  | .builtin promises, .builtin .., .builtin .. => rw [promises.length_eq]
termination_by sizeOf data

/-- Lists that both yield elements yield the same. -/
theorem ListErases.same_parts {items bares : List Segment} {parts results : List Data}
    (erases : ListErases source items bares) (yields : Yields source.context items parts)
    (bareYields : Yields (source.erased others) bares results) : parts = results := by
  obtain ⟨rfl, rfl⟩ | ⟨part, more, result, bareMore, value, bare, rest, bareRest, rfl, rfl, first,
    holds, bareHolds, listed, yields, bareYields⟩ := erases.uncons yields.uncons bareYields.uncons
  · rfl
  · rw [first.same_data holds bareHolds, listed.same_parts yields bareYields]
termination_by sizeOf parts

/-- Fields that both have data have the same. -/
theorem same_fields {fields bares : Fields} {parts results : List (String × Data)}
    (erases : EntriesErase source fields bares) (hold : FieldsHold source.context fields parts)
    (bareHold : FieldsHold (source.erased others) bares results) : parts = results := by
  match hold, bareHold, erases with
  | .nil, .nil, _ => rfl
  | .cons gives holds hold, .cons bareGives bareHolds bareHold, .cons same erases =>
    obtain ⟨rfl, erased⟩ := same
    rw [(erased.gives gives bareGives).same_data holds bareHolds, same_fields erases hold bareHold]
termination_by sizeOf parts

end

end LazyConfig.ByName
