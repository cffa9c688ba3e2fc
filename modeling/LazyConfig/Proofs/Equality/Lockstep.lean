import LazyConfig.Proofs.Equality.Compare

/-!
Comparisons of lists. Two lists are walked together, one element of each at a time, and both elements are evaluated at
once; no pair is compared before one of the lists has ended. A pair that differs does not stop the walk.
-/

namespace LazyConfig

/-- What one round of a walk along two lists comes to. -/
inductive Encounter
  /-- The values of the next elements, and the positions behind them. -/
  | pair (left right : Value) (lefts rights : Cursor)
  /-- Both lists are at their ends. -/
  | both
  /-- One list ends before the other one. -/
  | uneven
  /-- A right part, or an element, goes wrong. -/
  | upset (upset : Upset)

/-- Whether there is another round. -/
def Encounter.isPair : Encounter → Bool
  | .pair .. => true
  | _ => false

section

variable (context : Context) (meter : DepthMeter)

/-- One round of a walk along two lists: a step along each, and then the two elements are evaluated. -/
inductive Round (store : Store) (lefts rights : Cursor) : Encounter → Store → Prop
  | pair {middle between last after : Store} {element other : Visible} {id id' : ThunkId} {lefts' rights' : Cursor}
    {left right : Value} (turn : Turn context meter store lefts (.item element id lefts') middle)
    (turn' : Turn context meter middle rights (.item other id' rights') between)
    (forces : ForcesTo context meter between id left last) (forces' : ForcesTo context meter last id' right after) :
    Round store lefts rights (.pair left right lefts' rights') after
  | both {middle after : Store} (turn : Turn context meter store lefts .finished middle)
    (turn' : Turn context meter middle rights .finished after) : Round store lefts rights .both after
  | shorter {middle after : Store} {other : Visible} {id' : ThunkId} {rights' : Cursor}
    (turn : Turn context meter store lefts .finished middle)
    (turn' : Turn context meter middle rights (.item other id' rights') after) : Round store lefts rights .uneven after
  | longer {middle after : Store} {element : Visible} {id : ThunkId} {lefts' : Cursor}
    (turn : Turn context meter store lefts (.item element id lefts') middle)
    (turn' : Turn context meter middle rights .finished after) : Round store lefts rights .uneven after
  | leftPart {after : Store} {failure : Upset} {left : List ThunkId}
    (turn : Turn context meter store lefts (.upset failure left) after) :
    Round store lefts rights (.upset failure) after
  | rightPart {middle after : Store} {stop : Stop} {failure : Upset} {left : List ThunkId}
    (turn : Turn context meter store lefts stop middle) (good : ∀ upset left, stop ≠ .upset upset left)
    (turn' : Turn context meter middle rights (.upset failure left) after) :
    Round store lefts rights (.upset failure) after
  | leftElement {middle between after : Store} {element other : Visible} {id id' : ThunkId} {lefts' rights' : Cursor}
    {failure : Upset} (turn : Turn context meter store lefts (.item element id lefts') middle)
    (turn' : Turn context meter middle rights (.item other id' rights') between)
    (fails : FailsWith context meter between id failure after) : Round store lefts rights (.upset failure) after
  | rightElement {middle between last after : Store} {element other : Visible} {id id' : ThunkId}
    {lefts' rights' : Cursor} {left : Value} {failure : Upset}
    (turn : Turn context meter store lefts (.item element id lefts') middle)
    (turn' : Turn context meter middle rights (.item other id' rights') between)
    (forces : ForcesTo context meter between id left last) (fails : FailsWith context meter last id' failure after) :
    Round store lefts rights (.upset failure) after

/-- Rounds that all come to pairs. -/
inductive Rounds : Store → Cursor → Cursor → List (Value × Value) → Cursor → Cursor → Store → Prop
  | none {store : Store} {lefts rights : Cursor} : Rounds store lefts rights [] lefts rights store
  | next {store middle after : Store} {lefts rights lefts' rights' last last' : Cursor} {left right : Value}
    {pairs : List (Value × Value)}
    (round : Round context meter store lefts rights (.pair left right lefts' rights') middle)
    (others : Rounds middle lefts' rights' pairs last last' after) :
    Rounds store lefts rights ((left, right) :: pairs) last last' after

/-- A walk along two lists: rounds that come to pairs, and a last one. -/
def Walked (store : Store) (lefts rights : Cursor) (pairs : List (Value × Value)) (encounter : Encounter)
    (after : Store) : Prop :=
  ∃ lefts' rights' middle, Rounds context meter store lefts rights pairs lefts' rights' middle ∧
    Round context meter middle lefts' rights' encounter after ∧ encounter.isPair = false

end

/-- What the evaluator does next when a round has come to something. -/
def Encounter.next (work : List (Value × Value)) : Encounter → Control
  | .pair left right lefts rights => .advance lefts (.compareLeft rights ((left, right) :: work))
  | .both => .compare work
  | .uneven => .give (.bool false)
  | .upset failure => .raise failure

variable {context : Context} {meter : DepthMeter} {store middle after : Store} {lefts rights lefts' rights' : Cursor}
  {encounter : Encounter} {pairs work : List (Value × Value)} {outcome : Outcome}

/-! Rounds of the evaluator. -/

/-- The evaluator takes each round, whatever pairs wait and whatever waits below. -/
theorem Round.goesTo (round : Round context meter store lefts rights encounter after) (work : List (Value × Value))
    (stack : List Frame) :
    State.GoesTo context ⟨store, meter, .advance lefts (.compareLeft rights work), stack⟩
      ⟨after, meter, encounter.next work, stack⟩ := by
  -- A round takes both steps before it evaluates an element, and it ends with the first thing that goes wrong.
  cases round with
  | pair turn turn' forces forces' =>
    refine (turn.goesTo _ stack).trans ((turn'.goesTo _ stack).trans ?_)
    exact (forces.above _).trans (.step rfl ((forces'.above _).trans (.step rfl (.refl _))))
  | both turn turn' | shorter turn turn' | longer turn turn' =>
    exact (turn.goesTo _ stack).trans (turn'.goesTo _ stack)
  | leftPart turn => exact (turn.goesTo _ stack).trans (.step rfl (.refl _))
  | @rightPart _ _ stop _ _ turn good turn' =>
    refine (turn.goesTo _ stack).trans ?_
    cases stop with
    | item element id rest | finished => exact (turn'.goesTo _ stack).trans (.step rfl (.refl _))
    | upset failure left => exact absurd rfl (good failure left)
  | leftElement turn turn' fails =>
    refine (turn.goesTo _ stack).trans ((turn'.goesTo _ stack).trans ?_)
    exact (fails.above _).trans (.step rfl (.refl _))
  | rightElement turn turn' forces fails =>
    refine (turn.goesTo _ stack).trans ((turn'.goesTo _ stack).trans ?_)
    exact (forces.above _).trans (.step rfl ((fails.above _).trans (.step rfl (.refl _))))

/-- Behind a round, something else is done. -/
theorem Encounter.next_ne (encounter : Encounter) (lefts rights : Cursor) (work : List (Value × Value)) :
    encounter.next work ≠ .advance lefts (.compareLeft rights work) := by
  cases encounter with
  | pair left right lefts' rights' =>
    -- One more pair waits than before.
    intro same
    obtain ⟨-, same⟩ := Control.advance.inj same
    exact List.cons_ne_self _ _ (Consumer.compareLeft.inj same).2
  | both | uneven | upset failure => nofun

/-- Behind a round, nothing has ended yet. -/
theorem Encounter.not_ended_next (encounter : Encounter) {stack : List Frame} :
    ¬ State.Ended ⟨store, meter, encounter.next work, stack⟩ := by
  -- What a round is followed by is work for the evaluator, not an ending.
  rintro ⟨ending, done⟩
  cases encounter <;> cases done

/-- What is handed to the host is still to be handed over at every state on the way. -/
theorem State.GoesTo.hands {start last : State} (reached : GoesTo context start last) (unfinished : ¬ last.Ended)
    {steps : Nat} (hands : (start.run context steps).Hands) : ∃ more ≤ steps, (last.run context more).Hands := by
  -- Runs are deterministic, so that the way to the outcome comes through this state.
  obtain ⟨before, more, rfl, -, rest⟩ := reached.splits unfinished rfl hands
  refine ⟨more, Nat.le_add_left more before, ?_⟩
  rwa [rest]

/-- A walk along two lists on the way to an outcome that is handed to the host takes a round. -/
theorem Round.of_hands {stack : List Frame} {steps : Nat}
    (hands : (State.run context steps ⟨store, meter, .advance lefts (.compareLeft rights work), stack⟩).Hands) :
    ∃ encounter after, Round context meter store lefts rights encounter after := by
  obtain ⟨stop, middle, turn⟩ := Turn.of_hands steps hands
  -- Behind a step along the left list there is one along the right list.
  have second {item : Option ThunkId} {rest : Cursor}
      (goes : State.GoesTo context ⟨store, meter, .advance lefts (.compareLeft rights work), stack⟩
        ⟨middle, meter, .advance rights (.compareRight item rest work), stack⟩) :
      ∃ stop after, Turn context meter middle rights stop after := by
    obtain ⟨more, -, hands⟩ := goes.hands (State.not_ended rfl) hands
    exact Turn.of_hands more hands
  cases stop with
  | upset failure left => exact ⟨_, _, .leftPart turn⟩
  | finished =>
    obtain ⟨stop', after, turn'⟩ := second (turn.goesTo _ stack)
    cases stop' with
    | item other id' rights' => exact ⟨_, _, .shorter turn turn'⟩
    | finished => exact ⟨_, _, .both turn turn'⟩
    | upset failure left => exact ⟨_, _, .rightPart turn (fun _ _ => Stop.noConfusion) turn'⟩
  | item element id lefts' =>
    obtain ⟨stop', between, turn'⟩ := second (turn.goesTo _ stack)
    cases stop' with
    | finished => exact ⟨_, _, .longer turn turn'⟩
    | upset failure left => exact ⟨_, _, .rightPart turn (fun _ _ => Stop.noConfusion) turn'⟩
    | item other id' rights' =>
      -- Both lists have an element, of which the left one is evaluated first.
      have goes : State.GoesTo context ⟨store, meter, .advance lefts (.compareLeft rights work), stack⟩
          ⟨between, meter, .force id, .compareItemLeft id' lefts' rights' work :: stack⟩ :=
        (turn.goesTo _ stack).trans (turn'.goesTo _ stack)
      obtain ⟨more, -, hands⟩ := goes.hands (State.not_ended rfl) hands
      obtain ⟨first, last, brings, less, -, rest⟩ := brings_then hands
      cases first with
      | error failure => exact ⟨_, _, .leftElement turn turn' brings⟩
      | ok left =>
        have hands' : (State.run context less
          ⟨last, meter, .force id', .compareItemRight left lefts' rights' work :: stack⟩).Hands := rest.symm ▸ hands
        obtain ⟨second, after, brings', -⟩ := brings_then hands'
        cases second with
        | error failure => exact ⟨_, _, .rightElement turn turn' brings brings'⟩
        | ok right => exact ⟨_, _, .pair turn turn' brings brings'⟩

/-! Walks of the evaluator. -/

/-- The evaluator takes rounds, in at least as many steps, and the pairs wait with the last one first. -/
theorem Rounds.run (rounds : Rounds context meter store lefts rights pairs lefts' rights' after)
    (work : List (Value × Value)) (stack : List Frame) :
    ∃ steps, pairs.length ≤ steps ∧
      State.run context steps ⟨store, meter, .advance lefts (.compareLeft rights work), stack⟩ =
        ⟨after, meter, .advance lefts' (.compareLeft rights' (pairs.reverse ++ work)), stack⟩ := by
  induction rounds generalizing work with
  | none => exact ⟨0, Nat.le_refl _, rfl⟩
  | @next store middle after lefts rights lefts' rights' last last' left right pairs round others ih =>
    obtain ⟨steps, reached⟩ := round.goesTo work stack
    obtain ⟨more, enough, rest⟩ := ih ((left, right) :: work)
    -- A round takes a step at least.
    have some : steps ≠ 0 := by
      rintro rfl
      have same : Control.advance lefts (.compareLeft rights work) = Encounter.next work (.pair left right _ _) :=
        congrArg State.control reached
      exact Encounter.next_ne _ _ _ _ same.symm
    refine ⟨steps + more, by rw [List.length_cons]; omega, ?_⟩
    rw [State.run_add, reached, Encounter.next, rest, List.reverse_cons, List.append_assoc, List.singleton_append]

/-- A walk along two lists on the way to an outcome that is handed to the host comes to its last round. -/
theorem Walked.of_hands {stack : List Frame} (steps : Nat)
    (hands : (State.run context steps ⟨store, meter, .advance lefts (.compareLeft rights work), stack⟩).Hands) :
    ∃ pairs encounter after, Walked context meter store lefts rights pairs encounter after ∧
      ∃ more < steps, (State.run context more ⟨after, meter, encounter.next (pairs.reverse ++ work), stack⟩).Hands := by
  -- By induction on the number of steps, for all walks at once; each round takes some.
  induction steps using Nat.strongRecOn generalizing store lefts rights work with
  | _ steps ih =>
    obtain ⟨encounter, after, round⟩ := Round.of_hands hands
    obtain ⟨before, more, rfl, reached, rest⟩ := (round.goesTo work stack).splits encounter.not_ended_next rfl hands
    have some : before ≠ 0 := by
      rintro rfl
      have same : Control.advance lefts (.compareLeft rights work) = encounter.next work :=
        congrArg State.control reached
      exact encounter.next_ne _ _ _ same.symm
    have hands : (State.run context more ⟨after, meter, encounter.next work, stack⟩).Hands := rest.symm ▸ hands
    cases encounter with
    | pair left right lefts' rights' =>
      obtain ⟨pairs, encounter, last, ⟨lefts'', rights'', between, rounds, round', final⟩, fewer, less, hands⟩ :=
        ih more (by omega) hands
      refine ⟨(left, right) :: pairs, encounter, last, ⟨_, _, _, .next round rounds, round', final⟩, fewer, by omega, ?_⟩
      rwa [List.reverse_cons, List.append_assoc, List.singleton_append]
    | both | uneven | upset failure =>
      exact ⟨[], _, after, ⟨_, _, _, .none, round, rfl⟩, more, by omega, hands⟩

/-- The evaluator takes a walk to its last round. -/
theorem Walked.goesTo (walked : Walked context meter store lefts rights pairs encounter after)
    (work : List (Value × Value)) (stack : List Frame) :
    State.GoesTo context ⟨store, meter, .advance lefts (.compareLeft rights work), stack⟩
      ⟨after, meter, encounter.next (pairs.reverse ++ work), stack⟩ := by
  -- The rounds leave the pairs in reverse, and the last round adds none.
  obtain ⟨lefts', rights', middle, rounds, round, -⟩ := walked
  obtain ⟨steps, -, reached⟩ := rounds.run work stack
  exact .trans ⟨steps, reached⟩ (round.goesTo _ stack)

end LazyConfig
