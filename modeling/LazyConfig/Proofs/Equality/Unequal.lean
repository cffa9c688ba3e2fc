import LazyConfig.Proofs.Equality.Lockstep

/-!
What comparisons of values come to, in whatever state the parts of the values are. The pairs of elements of two lists are
compared when the lists have been walked to the end of the shorter one, so that a pair that differs is not found before
everything in front of that end has been evaluated.
-/

namespace LazyConfig

/-- What the comparison of two values begins with. -/
inductive Opening
  /-- It is over at once. -/
  | verdict (same : Bool)
  /-- The values are not made for comparisons. -/
  | refusal (fault : Fault)
  /-- The parts of the values are compared. -/
  | parts (lefts rights : Cursor)

/-- Lists are compared by their elements and records of the same names by their fields; other values have no parts. -/
def Opening.of : Value → Value → Opening
  | .int left, .int right => .verdict (left == right)
  | .str left, .str right => .verdict (left == right)
  | .bool left, .bool right => .verdict (left == right)
  | .list left, .list right => .parts left.cursor right.cursor
  | .record left, .record right =>
    if left.names = right.names then .parts (LazyList.ofThunks left.thunks).cursor (LazyList.ofThunks right.thunks).cursor
    else .verdict false
  | left, right =>
    if left.isFunction || right.isFunction then .refusal (BinaryOp.eq.mismatch left right)
    else
      match left.asFloat?, right.asFloat? with
      | some left, some right => .verdict (left == right)
      | _, _ => .verdict false

/-- What the evaluator does next when the comparison of two values has begun. -/
def Opening.next (work : List (Value × Value)) : Opening → Control
  | .verdict same => if same then .compare work else .give (.bool false)
  | .refusal fault => .fail fault
  | .parts lefts rights => .advance lefts (.compareLeft rights work)

/-- The evaluator compares the pair that comes first. -/
theorem State.step_compare (context : Context) (store : Store) (meter : DepthMeter) (left right : Value)
    (work : List (Value × Value)) (stack : List Frame) :
    State.step context ⟨store, meter, .compare ((left, right) :: work), stack⟩ =
      ⟨store, meter, (Opening.of left right).next work, stack⟩ := by
  -- Records are compared by their fields only if they have the same names; all other forms are one branch each.
  cases left with
  | record fields =>
    cases right with
    | record others =>
      simp only [State.step, Context.compareStep, Opening.of]
      split <;> rfl
    | _ => rfl
  | _ => cases right <;> rfl

section

variable (context : Context) (meter : DepthMeter)

/-- Pairs of values are compared one after the other; the pairs of the parts of two values come first, the last one first. -/
inductive Compared : Store → List (Value × Value) → Except Upset Bool → Store → Prop
  | done {store : Store} : Compared store [] (.ok true) store
  | same {store after : Store} {left right : Value} {work : List (Value × Value)} {result : Except Upset Bool}
    (opens : Opening.of left right = .verdict true) (others : Compared store work result after) :
    Compared store ((left, right) :: work) result after
  | differ {store : Store} {left right : Value} {work : List (Value × Value)}
    (opens : Opening.of left right = .verdict false) : Compared store ((left, right) :: work) (.ok false) store
  | refused {store : Store} {left right : Value} {work : List (Value × Value)} {fault : Fault}
    (opens : Opening.of left right = .refusal fault) :
    Compared store ((left, right) :: work) (.error (.fault fault)) store
  | even {store middle after : Store} {left right : Value} {lefts rights : Cursor} {pairs work : List (Value × Value)}
    {result : Except Upset Bool} (opens : Opening.of left right = .parts lefts rights)
    (walked : Walked context meter store lefts rights pairs .both middle)
    (others : Compared middle (pairs.reverse ++ work) result after) :
    Compared store ((left, right) :: work) result after
  | uneven {store after : Store} {left right : Value} {lefts rights : Cursor} {pairs work : List (Value × Value)}
    (opens : Opening.of left right = .parts lefts rights)
    (walked : Walked context meter store lefts rights pairs .uneven after) :
    Compared store ((left, right) :: work) (.ok false) after
  | upset {store after : Store} {left right : Value} {lefts rights : Cursor} {pairs work : List (Value × Value)}
    {failure : Upset} (opens : Opening.of left right = .parts lefts rights)
    (walked : Walked context meter store lefts rights pairs (.upset failure) after) :
    Compared store ((left, right) :: work) (.error failure) after

end

variable {context : Context} {meter : DepthMeter} {store middle after : Store} {left right : Value}
  {pairs work rest : List (Value × Value)} {result : Except Upset Bool}

/-! Comparisons of the evaluator. -/

namespace Compared

/-- The evaluator compares pairs with that result. -/
theorem brings (compared : Compared context meter store work result after) :
    Brings context meter store (.compare work) (result.map .bool) after := by
  -- What is made of the first pair is gone on with.
  have begins {opening : Opening} {left right : Value} {work : List (Value × Value)} {store after : Store}
      {outcome : Outcome} (opens : Opening.of left right = opening)
      (goesOn : Brings context meter store (opening.next work) outcome after) :
      Brings context meter store (.compare ((left, right) :: work)) outcome after := by
    refine .step (State.step_compare ..) ?_
    rwa [opens]
  induction compared with
  | done => exact .step rfl (.refl _)
  | same opens others ih => exact begins opens ih
  | differ opens | refused opens => exact begins opens (.refl _)
  | even opens walked others ih => exact begins opens ((walked.goesTo _ []).trans ih)
  | uneven opens walked | upset opens walked => exact begins opens (walked.goesTo _ [])

/-- A comparison on the way to an outcome that is handed to the host has a result. -/
theorem of_hands (steps : Nat) (hands : (State.run context steps ⟨store, meter, .compare work, []⟩).Hands) :
    ∃ result after, Compared context meter store work result after := by
  -- By induction on the number of steps; what is left to do behind a walk along two lists is a comparison, too.
  induction steps using Nat.strongRecOn generalizing store work with
  | _ steps ih =>
    cases work with
    | nil => exact ⟨_, _, .done⟩
    | cons pair work =>
      obtain ⟨left, right⟩ := pair
      obtain _ | steps := steps
      · obtain ⟨-, ⟨value, given⟩ | ⟨upset, raised⟩⟩ := hands
        · cases given
        · cases raised
      rw [State.run_succ, State.step_compare] at hands
      cases opens : Opening.of left right with
      | refusal fault => exact ⟨_, _, .refused opens⟩
      | verdict same =>
        cases same with
        | false => exact ⟨_, _, .differ opens⟩
        | true =>
          rw [opens] at hands
          obtain ⟨result, after, others⟩ := ih steps (Nat.lt_succ_self steps) hands
          exact ⟨result, after, .same opens others⟩
      | parts lefts rights =>
        rw [opens] at hands
        obtain ⟨pairs, encounter, middle, walked, fewer, less, hands⟩ := Walked.of_hands steps hands
        cases encounter with
        | pair left right lefts' rights' =>
          obtain ⟨-, -, -, -, -, final⟩ := walked
          cases final
        | uneven => exact ⟨_, _, .uneven opens walked⟩
        | upset failure => exact ⟨_, _, .upset opens walked⟩
        | both =>
          obtain ⟨result, after, others⟩ := ih fewer (by omega) hands
          exact ⟨result, after, .even opens walked others⟩

/-! Comparisons of some pairs in front of others. -/

/-- Behind pairs that are all equal, the others are compared. -/
theorem append (compared : Compared context meter store work (.ok true) middle)
    (others : Compared context meter middle rest result after) : Compared context meter store (work ++ rest) result after := by
  -- Only a comparison that finds all pairs equal comes to what is behind them.
  generalize verdict : (Except.ok true : Except Upset Bool) = first at compared
  induction compared with
  | done => exact others
  | same opens _ ih => exact .same opens (ih others verdict)
  | even opens walked _ ih =>
    have behind := ih others verdict
    rw [List.append_assoc] at behind
    exact .even opens walked behind
  | differ opens | refused opens | uneven opens walked | upset opens walked => cases verdict

/-- A result other than that all are equal is the result with others behind them, too. -/
theorem append_of_ne (compared : Compared context meter store work result after) (unequal : result ≠ .ok true)
    (rest : List (Value × Value)) : Compared context meter store (work ++ rest) result after := by
  -- A comparison that ends with another result never comes to what is behind its pairs.
  induction compared with
  | done => exact absurd rfl unequal
  | same opens _ ih => exact .same opens (ih unequal)
  | differ opens => exact .differ opens
  | refused opens => exact .refused opens
  | even opens walked _ ih =>
    have behind := ih unequal
    rw [List.append_assoc] at behind
    exact .even opens walked behind
  | uneven opens walked => exact .uneven opens walked
  | upset opens walked => exact .upset opens walked

/-- A comparison of some pairs in front of others compares the others only if the first are all equal. -/
theorem of_append (compared : Compared context meter store (work ++ rest) result after) :
    (∃ middle, Compared context meter store work (.ok true) middle ∧ Compared context meter middle rest result after) ∨
      result ≠ .ok true ∧ Compared context meter store work result after := by
  generalize whole : work ++ rest = all at compared
  -- Where nothing is in front, all the comparison is about the others.
  have none {store after : Store} {result : Except Upset Bool} {all : List (Value × Value)}
      (whole : [] ++ rest = all) (compared : Compared context meter store all result after) :
      ∃ middle, Compared context meter store [] (.ok true) middle ∧ Compared context meter middle rest result after := by
    rw [← whole] at compared
    exact ⟨store, .done, compared⟩
  -- A pair that decides does so whatever is behind it, so that it is in front of the others or the first of them.
  have decides {store after : Store} {result : Except Upset Bool} {work others : List (Value × Value)}
      {pair : Value × Value} (whole : work ++ rest = pair :: others) (unequal : result ≠ .ok true)
      (decided : ∀ behind, Compared context meter store (pair :: behind) result after) :
      (∃ middle, Compared context meter store work (.ok true) middle ∧ Compared context meter middle rest result after) ∨
        result ≠ .ok true ∧ Compared context meter store work result after := by
    cases work with
    | nil => exact .inl (none whole (decided others))
    | cons first work =>
      obtain ⟨rfl, -⟩ := List.cons.inj whole
      exact .inr ⟨unequal, decided work⟩
  induction compared generalizing work with
  | @done store =>
    obtain ⟨rfl, rfl⟩ := List.append_eq_nil_iff.mp whole
    exact .inl ⟨store, .done, .done⟩
  | same opens others ih =>
    cases work with
    | nil => exact .inl (none whole (.same opens others))
    | cons pair work =>
      obtain ⟨rfl, rfl⟩ := List.cons.inj whole
      exact (ih rfl).imp (fun ⟨middle, first, behind⟩ => ⟨middle, .same opens first, behind⟩)
        fun ⟨unequal, first⟩ => ⟨unequal, .same opens first⟩
  | even opens walked others ih =>
    cases work with
    | nil => exact .inl (none whole (.even opens walked others))
    | cons pair work =>
      obtain ⟨rfl, rfl⟩ := List.cons.inj whole
      -- The pairs of the parts come in front of what is behind the pair.
      exact (ih (List.append_assoc ..)).imp (fun ⟨middle, first, behind⟩ => ⟨middle, .even opens walked first, behind⟩)
        fun ⟨unequal, first⟩ => ⟨unequal, .even opens walked first⟩
  | differ opens => exact decides whole nofun fun _ => .differ opens
  | refused opens => exact decides whole nofun fun _ => .refused opens
  | uneven opens walked => exact decides whole nofun fun _ => .uneven opens walked
  | upset opens walked => exact decides whole nofun fun _ => .upset opens walked

end Compared

/-! The request of the host. -/

/-- A result is known from what the evaluator makes of it. -/
theorem map_bool_inj {other : Except Upset Bool} (same : result.map Value.bool = other.map Value.bool) :
    result = other := by
  cases result <;> cases other <;> simp_all [Except.map]

namespace Evaluator

variable {evaluator : Evaluator}

/-- What the host gets for an answer is the result of the comparison. -/
theorem compared_of_equal (closed : store.Closed) (within : left.Within .all store.cells.size)
    (within' : right.Within .all store.cells.size) {fuel : Nat} {reply : Reply Bool}
    (replied : evaluator.equal fuel left right store = some reply) :
    Compared evaluator.context evaluator.ground store [(left, right)] reply.result reply.store := by
  rw [equal, Option.map_eq_some_iff] at replied
  obtain ⟨answer, answered, rfl⟩ := replied
  have asked : Request.Within .all store.cells.size (.equal left right) := ⟨within, within'⟩
  have goes : Brings evaluator.context evaluator.ground store (.compare [(left, right)]) answer.result answer.store := by
    refine goesTo_of_perform closed asked (fun cursor same => ?_) answered
    cases same
  obtain ⟨steps, reached⟩ := goes
  obtain ⟨result, after, compared⟩ := Compared.of_hands steps (reached ▸ State.hands_passing)
  -- The comparison has one outcome only.
  obtain ⟨same, rfl⟩ := compared.brings.unique ⟨steps, reached⟩
  obtain ⟨outcome, last⟩ := answer
  obtain rfl : result.map Value.bool = outcome := same
  cases result with
  | error failure => exact compared
  | ok verdict => exact compared

/-- The host gets what comparing two values comes to for an answer. -/
theorem equal_of_brings
    (brings : Brings evaluator.context evaluator.ground store (.compare [(left, right)]) (result.map .bool) after) :
    ∃ enough, ∀ fuel, enough ≤ fuel → evaluator.equal fuel left right store = some ⟨result, after⟩ := by
  -- The host is told the truth value that the evaluator gives.
  obtain ⟨enough, answers⟩ := @performs store after evaluator (.equal left right) _ brings
  refine ⟨enough, fun fuel less => ?_⟩
  rw [equal, answers fuel less]
  cases result with
  | error failure => rfl
  | ok verdict => rfl

end Evaluator

/-! Lists with a pair of elements that differ. -/

/--
What a comparison of two lists comes to behind a pair that differs. The lists are walked on to the end of the shorter one,
and where they end together, the pairs that have been found behind the one that differs are compared before it.
-/
inductive LooksOn (context : Context) (meter : DepthMeter) (store : Store) (lefts rights : Cursor) :
    Except Upset Bool → Store → Prop
  | uneven {pairs : List (Value × Value)} {after : Store}
    (walked : Walked context meter store lefts rights pairs .uneven after) :
    LooksOn context meter store lefts rights (.ok false) after
  | upset {pairs : List (Value × Value)} {failure : Upset} {after : Store}
    (walked : Walked context meter store lefts rights pairs (.upset failure) after) :
    LooksOn context meter store lefts rights (.error failure) after
  | even {pairs : List (Value × Value)} {result : Except Upset Bool} {middle after : Store}
    (walked : Walked context meter store lefts rights pairs .both middle)
    (compared : Compared context meter middle pairs.reverse result after) :
    LooksOn context meter store lefts rights (result.map fun _ => false) after

namespace LooksOn

variable {lefts rights : Cursor}

/-- Behind a pair that differs, two lists are not found equal. -/
theorem unequal (looks : LooksOn context meter store lefts rights result after) : result ≠ .ok true := by
  -- Even pairs that are all equal behind the pair that differs are reported as unequal.
  cases looks with
  | uneven walked | upset walked => exact nofun
  | @even _ result _ _ walked compared => cases result <;> exact nofun

/-- The evaluator looks on behind a pair that differs. -/
theorem brings (looks : LooksOn context meter store lefts rights result after)
    (differ : Opening.of left right = .verdict false) (front : List (Value × Value)) :
    Brings context meter store (.advance lefts (.compareLeft rights ((left, right) :: front))) (result.map .bool)
      after := by
  cases looks with
  | uneven walked | upset walked => exact walked.goesTo _ []
  | @even pairs result middle after walked compared =>
    refine (walked.goesTo _ []).trans (?_ : Brings context meter middle (.compare _) _ after)
    -- The comparison comes to the pair that differs only if all pairs behind it are equal.
    match result with
    | .ok true => exact (compared.append (.differ differ)).brings
    | .ok false => exact (compared.append_of_ne nofun _).brings
    | .error failure => exact (compared.append_of_ne nofun _).brings

/-- Behind a pair, a walk on the way to an outcome that is handed to the host looks on. -/
theorem of_hands {front : List (Value × Value)} {steps : Nat}
    (hands : (State.run context steps
      ⟨store, meter, .advance lefts (.compareLeft rights ((left, right) :: front)), []⟩).Hands) :
    ∃ result after, LooksOn context meter store lefts rights result after := by
  obtain ⟨pairs, encounter, middle, walked, more, -, hands⟩ := Walked.of_hands steps hands
  cases encounter with
  | pair left right lefts' rights' =>
    obtain ⟨-, -, -, -, -, final⟩ := walked
    cases final
  | uneven => exact ⟨_, _, .uneven walked⟩
  | upset failure => exact ⟨_, _, .upset walked⟩
  | both =>
    -- Of all pairs that wait, those behind the given one are compared at least.
    obtain ⟨result, after, compared⟩ := Compared.of_hands more hands
    rcases compared.of_append with ⟨last, first, -⟩ | ⟨-, first⟩
    · exact ⟨_, _, .even walked first⟩
    · exact ⟨_, _, .even walked first⟩

end LooksOn

/-- How a host finds that two lists differ, of which some elements have been paired, the last pair being one that differs. -/
structure Evaluator.FindsLate (evaluator : Evaluator) (store : Store) (left right : LazyList) (lefts rights : Cursor)
    (middle : Store) : Prop where
  /-- What comes behind the pair decides about the answer. -/
  sound : ∀ fuel reply, evaluator.equal fuel (.list left) (.list right) store = some reply →
    LooksOn evaluator.context evaluator.ground middle lefts rights reply.result reply.store
  /-- The host gets an answer wherever the lists behind the pair end or go wrong. -/
  complete : ∀ result after, LooksOn evaluator.context evaluator.ground middle lefts rights result after →
    ∃ enough, ∀ fuel, enough ≤ fuel → evaluator.equal fuel (.list left) (.list right) store = some ⟨result, after⟩
  /-- The answer is never that the lists are equal. -/
  unequal : ∀ fuel reply, evaluator.equal fuel (.list left) (.list right) store = some reply → reply.result ≠ .ok true
  /-- There is no answer at all when the lists go on forever. -/
  endless : (∀ count, ∃ pairs lefts' rights' after, pairs.length = count ∧
      Rounds evaluator.context evaluator.ground middle lefts rights pairs lefts' rights' after) →
    ∀ fuel, evaluator.equal fuel (.list left) (.list right) store = none

/--
A pair of elements that differs does not decide that two lists are not equal. Whatever has been found in front of the pair,
the lists are evaluated further, element by element, up to the end of the shorter one: what goes wrong there is the answer,
and lists without end have none. Otherwise they are found not to be equal, unless the pairs behind cannot be compared.
-/
theorem Evaluator.difference_found_late (evaluator : Evaluator) {store middle : Store} {left right : LazyList}
    {lefts rights : Cursor} {front : List (Value × Value)} {value other : Value} (closed : store.Closed)
    (within : left.Within store.cells.size) (within' : right.Within store.cells.size)
    (rounds : Rounds evaluator.context evaluator.ground store left.cursor right.cursor (front ++ [(value, other)])
      lefts rights middle)
    (differ : Opening.of value other = .verdict false) :
    evaluator.FindsLate store left right lefts rights middle := by
  -- The comparison comes to where the pair has been found, whatever the pair is.
  obtain ⟨before, -, reached⟩ := rounds.run [] []
  have goes : State.GoesTo evaluator.context
      ⟨store, evaluator.ground, .compare [(.list left, .list right)], []⟩
      ⟨middle, evaluator.ground, .advance lefts (.compareLeft rights ((value, other) :: front.reverse)), []⟩ := by
    refine .step rfl ⟨before, reached.trans ?_⟩
    rw [List.reverse_append, List.append_nil]
    rfl
  have complete : ∀ result after, LooksOn evaluator.context evaluator.ground middle lefts rights result after →
      Brings evaluator.context evaluator.ground store (.compare [(.list left, .list right)]) (result.map .bool) after :=
    fun result after looks => goes.trans (looks.brings differ front.reverse)
  have sound : ∀ fuel reply, evaluator.equal fuel (.list left) (.list right) store = some reply →
      LooksOn evaluator.context evaluator.ground middle lefts rights reply.result reply.store := by
    intro fuel reply replied
    have whole := @compared_of_equal store (.list left) (.list right) evaluator closed within within' fuel reply replied
    obtain ⟨steps, ended⟩ := whole.brings
    obtain ⟨more, -, hands⟩ := goes.hands (State.not_ended rfl) (ended.symm ▸ State.hands_passing)
    obtain ⟨result, after, looks⟩ := LooksOn.of_hands hands
    -- The comparison has one outcome only.
    obtain ⟨same, rfl⟩ := (complete result after looks).unique whole.brings
    rwa [← map_bool_inj same]
  constructor
  case sound => exact sound
  case complete => exact fun result after looks => equal_of_brings (complete result after looks)
  case unequal => exact fun fuel reply replied => (sound fuel reply replied).unequal
  case endless =>
    intro endless fuel
    refine Option.eq_none_iff_forall_ne_some.mpr fun reply replied => ?_
    rw [equal, Option.map_eq_some_iff] at replied
    obtain ⟨answer, answered, -⟩ := replied
    have ended : (evaluator.run fuel (.equal (.list left) (.list right)) store).Ended := ended_of_reply answered
    -- After as many rounds as there are steps until the end, the walk would still go on.
    obtain ⟨begun, arrived⟩ := goes
    obtain ⟨pairs, lefts', rights', after, rfl, rounds⟩ := endless fuel
    obtain ⟨steps, enough, walks⟩ := rounds.run ((value, other) :: front.reverse) []
    obtain ⟨rest, sum⟩ := Nat.exists_eq_add_of_le (Nat.le_trans enough (Nat.le_add_left steps begun))
    have last := @State.run_add evaluator.context begun steps
      ⟨store, evaluator.ground, .compare [(.list left, .list right)], []⟩
    rw [arrived, walks, sum, State.run_add] at last
    have same : State.run evaluator.context rest (evaluator.run pairs.length (.equal (.list left) (.list right)) store) =
      _ := last
    rw [ended.run] at same
    rw [same] at ended
    obtain ⟨ending, done⟩ := ended
    cases done

/-- The code of `1 / 0`. -/
def brokenDivision : Code where
  exprs := #[.int 1, .int 0, .binary .div 0 1]

/-- The elements of `[1, 1 / 0]` and of `[2, 3]`. -/
def twoAndTwo : Store where
  cells := #[.forced (.int 1), .suspended (.expr 2 {}), .forced (.int 2), .forced (.int 3)]

/-- The lists `[1, 1 / 0]` and `[2, 3]` differ in front, and what is behind decides about the answer. -/
theorem Evaluator.difference_found_late_twoAndTwo :
    let evaluator : Evaluator := ⟨⟨{}, brokenDivision, {}⟩, {}⟩
    Rounds evaluator.context evaluator.ground twoAndTwo (LazyList.ofThunks [0, 1]).cursor (LazyList.ofThunks [2, 3]).cursor
        [(.int 1, .int 2)] ⟨.elems #[0, 1] 1, []⟩ ⟨.elems #[2, 3] 1, []⟩ twoAndTwo ∧
      evaluator.FindsLate twoAndTwo (.ofThunks [0, 1]) (.ofThunks [2, 3]) ⟨.elems #[0, 1] 1, []⟩ ⟨.elems #[2, 3] 1, []⟩
        twoAndTwo := by
  intro evaluator
  have closed : twoAndTwo.Closed := by
    intro id inside
    obtain rfl | rfl | rfl | rfl : id = 0 ∨ id = 1 ∨ id = 2 ∨ id = 3 := by
      have bound : id < 4 := inside
      omega
    · trivial
    · exact ⟨trivial, fun _ member => nomatch member⟩
    · trivial
    · trivial
  have within : (LazyList.ofThunks [0, 1]).Within twoAndTwo.cells.size ∧
      (LazyList.ofThunks [2, 3]).Within twoAndTwo.cells.size := by
    constructor <;> exact List.forall_mem_cons.mpr ⟨by decide, List.forall_mem_singleton.mpr (by decide)⟩
  have rounds : Rounds evaluator.context evaluator.ground twoAndTwo (LazyList.ofThunks [0, 1]).cursor
      (LazyList.ofThunks [2, 3]).cursor [(.int 1, .int 2)] ⟨.elems #[0, 1] 1, []⟩ ⟨.elems #[2, 3] 1, []⟩ twoAndTwo :=
    .next (.pair (.elem rfl) (.elem rfl) (.of_forced rfl) (.of_forced rfl)) .none
  have differ : Opening.of (.int 1) (.int 2) = .verdict false := rfl
  exact ⟨rounds, @difference_found_late evaluator _ _ _ _ _ _ [] _ _ closed within.1 within.2 rounds differ⟩

/-- The first elements of `[1, 1 / 0]` and `[2, 3]` differ, but that the lists do is not found. -/
theorem Evaluator.difference_in_front_missed :
    let evaluator : Evaluator := ⟨⟨{}, brokenDivision, {}⟩, {}⟩
    Rounds evaluator.context evaluator.ground twoAndTwo (LazyList.ofThunks [0, 1]).cursor (LazyList.ofThunks [2, 3]).cursor
        [(.int 1, .int 2)] ⟨.elems #[0, 1] 1, []⟩ ⟨.elems #[2, 3] 1, []⟩ twoAndTwo ∧
      ∃ after, evaluator.equal 40 (.list (.ofThunks [0, 1])) (.list (.ofThunks [2, 3])) twoAndTwo =
        some ⟨.error (.error ⟨.divisionByZero, []⟩), after⟩ := by
  intro evaluator
  refine ⟨?_, _, rfl⟩
  exact .next (.pair (.elem rfl) (.elem rfl) (.of_forced rfl) (.of_forced rfl)) .none

end LazyConfig
