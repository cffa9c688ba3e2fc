import LazyConfig.Proofs.Suspending.Shortcut

/-!
Work in two stores, on different levels, that comes to the same unless it runs out of levels in one of them.
What comes after such work may be compared in the stores that it leaves.
-/

namespace LazyConfig

/-- What some work comes to, and the store after it. -/
abbrev Outcomes :=
  Outcome → Store → Prop

namespace Outcomes

/-- What some work comes to, or what more work comes to with its value. -/
def bind (first : Outcomes) (next : Value → Store → Outcomes) : Outcomes :=
  fun outcome after =>
    (∃ upset, outcome = .error upset ∧ first (.error upset) after) ∨
      ∃ value between, first (.ok value) between ∧ next value between outcome after

/-- One outcome, and nothing else. -/
def only (one : Outcome) (last : Store) : Outcomes :=
  fun outcome after => outcome = one ∧ after = last

/-- The limit of levels is reached. -/
def RunsOut (limit : Nat) (mine : Outcomes) : Prop :=
  ∃ upset after, mine (.error upset) after ∧ upset.Overflows limit

/-- Failed work is not followed by anything. -/
theorem RunsOut.bind {limit : Nat} {first : Outcomes} (runs_out : first.RunsOut limit)
    (next : Value → Store → Outcomes) : (first.bind next).RunsOut limit := by
  obtain ⟨upset, after, fails, overflows⟩ := runs_out
  exact ⟨upset, after, .inl ⟨upset, rfl, fails⟩, overflows⟩

/-- The same work, or work that only runs out of levels. -/
inductive Cut (limit : Nat) (mine : Outcomes) : Outcomes → Prop
  | same : Cut limit mine mine
  | out {upset : Upset} {after : Store} (overflows : upset.Overflows limit) :
    Cut limit mine (.only (.error upset) after)

theorem Cut.trans {limit : Nat} {first second third : Outcomes} (left : first.Cut limit second)
    (right : second.Cut limit third) : first.Cut limit third := by
  cases right with
  | same => exact left
  | out overflows => exact .out overflows

end Outcomes

section

variable {context : Context} {meter : DepthMeter} {store after : Store} {work : Control} {outcome : Outcome}
  {stack : List Frame} {frame : Frame}

/-- What a state comes to, on a given level. -/
def State.Comes (context : Context) (meter : DepthMeter) (state : State) : Outcomes :=
  fun outcome after => state.GoesTo context ⟨after, meter, .passing outcome, []⟩

/-- Failures fall through all frames of a stack as they are. -/
def FallsThrough (context : Context) (meter : DepthMeter) (stack : List Frame) : Prop :=
  ∀ store upset, State.Comes context meter ⟨store, meter, .raise upset, stack⟩ (.error upset) store

theorem FallsThrough.nil : FallsThrough context meter [] :=
  fun _ _ => .refl _

theorem FallsThrough.cons (falls : FallsThrough context meter stack)
    (passes : ∀ store upset,
      context.raiseStep store meter upset frame stack = ⟨store, meter, .raise upset, stack⟩) :
    FallsThrough context meter (frame :: stack) :=
  fun store upset => .step (passes store upset) (falls store upset)

/-- A state comes to one outcome, in one way. -/
theorem State.Comes.unique {state : State} {other : Outcome} {later : Store}
    (left : state.Comes context meter outcome after) (right : state.Comes context meter other later) :
    outcome = other ∧ after = later := by
  have same := State.GoesTo.unique left right State.hands_passing State.hands_passing
  have passed := congrArg State.control same
  refine ⟨?_, congrArg State.store same⟩
  cases outcome <;> cases other <;> simp_all [Control.passing]

/-- What a state comes to is all that it comes to. -/
theorem State.Comes.only {state : State} (comes : state.Comes context meter outcome after) :
    State.Comes context meter state = .only outcome after := by
  funext result later
  refine propext ⟨fun others => others.unique comes, ?_⟩
  rintro ⟨rfl, rfl⟩
  exact comes

/-- What work comes to is all that it comes to. -/
theorem Brings.only (brings : Brings context meter store work outcome after) :
    Brings context meter store work = Outcomes.only outcome after :=
  State.Comes.only brings

/-- A state that goes on to another one comes to what that comes to. -/
theorem State.GoesTo.comes {state later : State} (goes : state.GoesTo context later)
    (unfinished : ¬ later.Ended) : State.Comes context meter state = State.Comes context meter later := by
  funext outcome after
  exact propext ⟨fun comes => goes.rest unfinished comes State.hands_passing, fun comes => goes.trans comes⟩

/-- Work comes to what the state after its first step comes to. -/
theorem Brings.of_stepped {next : State} (stepped : State.step context ⟨store, meter, work, []⟩ = next)
    (unfinished : ¬ next.Ended) : Brings context meter store work = State.Comes context meter next :=
  (State.GoesTo.step stepped (.refl _)).comes unfinished

/-- Work above a stack comes to what the stack makes of its value. -/
theorem comes_split (falls : FallsThrough context meter stack) :
    State.Comes context meter ⟨store, meter, work, stack⟩ =
      Outcomes.bind (Brings context meter store work)
        fun value between => State.Comes context meter ⟨between, meter, .give value, stack⟩ := by
  funext outcome after
  refine propext ⟨?_, ?_⟩
  · -- The run comes to an outcome of the work first, and what is left of it starts below.
    rintro ⟨steps, ran⟩
    have hands : (State.run context steps ⟨store, meter, work, stack⟩).Hands := by
      rw [ran]
      exact State.hands_passing
    obtain ⟨before, less, middle, between, brings, reached⟩ := brings_of_hands hands
    have rest := State.run_sub less reached ran
    cases middle with
    | ok value => exact .inr ⟨value, between, brings, _, rest⟩
    | error upset =>
      obtain ⟨rfl, rfl⟩ := State.Comes.unique ⟨_, rest⟩ (falls between upset)
      exact .inl ⟨upset, rfl, brings⟩
  · rintro (⟨upset, rfl, brings⟩ | ⟨value, between, brings, comes⟩)
    · exact (brings.above _).trans (falls after upset)
    · exact (brings.above _).trans comes

/-- Work above a frame that takes its value comes to what the next work comes to. -/
theorem comes_above (next : Value → Control) (falls : FallsThrough context meter stack)
    (gives : ∀ store value,
      context.giveStep store meter value frame stack = ⟨store, meter, next value, stack⟩)
    (passes : ∀ store upset,
      context.raiseStep store meter upset frame stack = ⟨store, meter, .raise upset, stack⟩) :
    State.Comes context meter ⟨store, meter, work, frame :: stack⟩ =
      Outcomes.bind (Brings context meter store work)
        fun value between => State.Comes context meter ⟨between, meter, next value, stack⟩ := by
  rw [comes_split (falls.cons passes)]
  congr 1
  funext value between outcome after
  -- The frame is still there, so that the value has not been handed to the host.
  refine propext ⟨?_, .step (gives between value)⟩
  rintro ⟨_ | more, ran⟩
  · exact nomatch congrArg State.stack ran
  · rw [State.run_succ] at ran
    exact ⟨more, gives between value ▸ ran⟩

/-- On another level, work comes to the same outcome or runs out of levels. -/
theorem Brings.moved {low high : DepthMeter} {limit : Nat} (brings : Brings context low store work outcome after)
    (within : State.Within .all ⟨store, high, work, []⟩) (quiet : work.reports = false)
    (fits : outcome.Fits limit) (first : low.limit = limit) (second : high.limit = limit) :
    Brings context high store work outcome after ∨
      ∃ upset later, Brings context high store work (.error upset) later ∧ upset.Overflows limit := by
  rcases Nat.le_total high.current low.current with above | below
  · exact .inl (brings.shift (first ▸ fits) (by omega))
  · exact second ▸ brings.lower within quiet (by omega)

end

/-- Computations of a store that are in no pair. -/
def Spares (pairs : Pairing) (right : Store) (spared : ThunkId → Prop) : Prop :=
  ∀ other, spared other → other < right.cells.size ∧ ∀ id, ¬ pairs id other

/-- What work comes to in two stores, where some computations of the second store are left alone. -/
structure Meets (spared : ThunkId → Prop) (pairs : Pairing) (left right : Store) (outcome result : Outcome)
    (after later : Store) (more : Pairing) : Prop where
  keeps : ∀ id other, pairs id other → more id other
  alone : Spares more later spared
  same : ∀ other, spared other → later.cell other = right.cell other
  twins : Twins more after later
  outcomes : OutcomeTwin more outcome result
  calls : SameCalls left after right later

namespace Meets

variable {spared fewer : ThunkId → Prop} {pairs middle more : Pairing}
  {left right between other after later : Store} {outcome result first second : Outcome}

theorem of_twins (same : OutcomesTwin pairs left right outcome result after later more)
    (alone : Spares pairs right spared) : Meets spared pairs left right outcome result after later more := by
  refine ⟨same.grows.keeps, fun other kept => ?_, fun other kept => ?_, same.twins, same.outcomes, same.calls⟩
  · obtain ⟨inside, single⟩ := alone other kept
    exact ⟨Nat.lt_of_lt_of_le inside same.grows.size, same.grows.single inside single⟩
  · obtain ⟨inside, single⟩ := alone other kept
    exact same.grows.alone other inside single

/-- What more work comes to is what all of it comes to. -/
theorem trans (before : Meets spared pairs left right first second between other middle)
    (next : Meets fewer middle between other outcome result after later more)
    (all : ∀ id, fewer id → spared id) : Meets fewer pairs left right outcome result after later more :=
  ⟨fun id image paired => next.keeps id image (before.keeps id image paired), next.alone,
    fun id kept => (next.same id kept).trans (before.same id (all id kept)), next.twins, next.outcomes,
    before.calls.trans next.calls⟩

/-- Fewer computations may be left alone. -/
theorem weaken (meets : Meets spared pairs left right outcome result after later more)
    (all : ∀ id, fewer id → spared id) : Meets fewer pairs left right outcome result after later more :=
  { meets with
    alone := fun id kept => meets.alone id (all id kept)
    same := fun id kept => meets.same id (all id kept) }

end Meets

/--
Work in two stores comes to the same, unless it runs out of levels in one of them. Some computations of the second
store are left alone.
-/
structure Agrees (limit : Nat) (spared : ThunkId → Prop) (pairs : Pairing) (left right : Store)
    (mine others : Outcomes) : Prop where
  forth : ∀ outcome after, mine outcome after → outcome.Fits limit →
    (∃ more result later, others result later ∧ Meets spared pairs left right outcome result after later more) ∨
      others.RunsOut limit
  back : ∀ result later, others result later → result.Fits limit →
    (∃ more outcome after, mine outcome after ∧ Meets spared pairs left right outcome result after later more) ∨
      mine.RunsOut limit

namespace Agrees

variable {limit : Nat} {spared fewer : ThunkId → Prop} {pairs known : Pairing} {left right : Store}
  {mine others : Outcomes}

theorem of_meets {outcome result : Outcome} {after later : Store} {more : Pairing}
    (meets : Meets spared pairs left right outcome result after later more) :
    Agrees limit spared pairs left right (.only outcome after) (.only result later) := by
  constructor
  · rintro _ _ ⟨rfl, rfl⟩ -
    exact .inl ⟨more, result, later, ⟨rfl, rfl⟩, meets⟩
  · rintro _ _ ⟨rfl, rfl⟩ -
    exact .inl ⟨more, outcome, after, ⟨rfl, rfl⟩, meets⟩

/-- Work agrees also after it is compared with what was there before. -/
theorem earlier {before : Store} (agrees : Agrees limit spared pairs left right mine others)
    (keeps : ∀ id other, known id other → pairs id other) (calls : before.calls = left.calls) :
    Agrees limit spared known before right mine others := by
  have meets {outcome result : Outcome} {after later : Store} {more : Pairing}
      (meets : Meets spared pairs left right outcome result after later more) :
      Meets spared known before right outcome result after later more :=
    { meets with
      keeps := fun id other paired => meets.keeps id other (keeps id other paired)
      calls := meets.calls.of_calls calls rfl rfl rfl }
  constructor
  · intro outcome after brings fits
    exact (agrees.forth _ _ brings fits).imp_left
      fun ⟨more, result, later, comes, same⟩ => ⟨more, result, later, comes, meets same⟩
  · intro result later brings fits
    exact (agrees.back _ _ brings fits).imp_left
      fun ⟨more, outcome, after, comes, same⟩ => ⟨more, outcome, after, comes, meets same⟩

/-- Fewer computations may be left alone. -/
theorem weaken (agrees : Agrees limit spared pairs left right mine others) (all : ∀ id, fewer id → spared id) :
    Agrees limit fewer pairs left right mine others :=
  ⟨fun _ _ brings fits => (agrees.forth _ _ brings fits).imp_left
      fun ⟨more, result, later, comes, same⟩ => ⟨more, result, later, comes, same.weaken all⟩,
    fun _ _ brings fits => (agrees.back _ _ brings fits).imp_left
      fun ⟨more, outcome, after, comes, same⟩ => ⟨more, outcome, after, comes, same.weaken all⟩⟩

theorem of_out_left {upset : Upset} {after : Store} (overflows : upset.Overflows limit) :
    Agrees limit spared pairs left right (.only (.error upset) after) others := by
  constructor
  · rintro _ _ ⟨rfl, rfl⟩ fits
    exact absurd overflows (fits upset rfl)
  · exact fun _ _ _ _ => .inr ⟨upset, after, ⟨rfl, rfl⟩, overflows⟩

theorem of_out_right {upset : Upset} {after : Store} (overflows : upset.Overflows limit) :
    Agrees limit spared pairs left right mine (.only (.error upset) after) := by
  constructor
  · exact fun _ _ _ _ => .inr ⟨upset, after, ⟨rfl, rfl⟩, overflows⟩
  · rintro _ _ ⟨rfl, rfl⟩ fits
    exact absurd overflows (fits upset rfl)

/-- Work on either side may run out of levels before it comes to anything. -/
theorem cut {same alike : Outcomes} (agrees : Agrees limit spared pairs left right mine others)
    (first : mine.Cut limit same) (second : others.Cut limit alike) :
    Agrees limit spared pairs left right same alike := by
  cases first with
  | out overflows => exact .of_out_left overflows
  | same =>
    cases second with
    | out overflows => exact .of_out_right overflows
    | same => exact agrees

/-- Work after work agrees where the first work and what comes after it do. -/
theorem bind {next nextOther : Value → Store → Outcomes}
    (agrees : Agrees limit spared pairs left right mine others) (all : ∀ id, fewer id → spared id)
    (then_agrees : ∀ more value other between later,
      Meets spared pairs left right (.ok value) (.ok other) between later more → ValueTwin more value other →
      mine (.ok value) between → others (.ok other) later →
      Agrees limit fewer more between later (next value between) (nextOther other later)) :
    Agrees limit fewer pairs left right (mine.bind next) (others.bind nextOther) := by
  constructor
  · -- An upset ends both; a value is handed on to work that agrees again.
    rintro outcome after (⟨upset, rfl, fails⟩ | ⟨value, between, gives, comes⟩) fits
    · rcases agrees.forth _ _ fails fits with ⟨more, result, later, failsOther, meets⟩ | runs_out
      · have outcomes := meets.outcomes
        cases outcomes
        exact .inl ⟨more, _, later, .inl ⟨upset, rfl, failsOther⟩, meets.weaken all⟩
      · exact .inr (runs_out.bind _)
    · rcases agrees.forth _ _ gives (Outcome.fits_ok value limit) with
        ⟨more, result, later, givesOther, meets⟩ | runs_out
      · have outcomes := meets.outcomes
        cases outcomes with
        | ok values =>
          rcases (then_agrees more value _ between later meets values gives givesOther).forth _ _ comes fits with
            ⟨most, last, final, comesOther, finally_meets⟩ | ⟨upset, final, fails, overflows⟩
          · exact .inl ⟨most, last, final, .inr ⟨_, later, givesOther, comesOther⟩, meets.trans finally_meets all⟩
          · exact .inr ⟨upset, final, .inr ⟨_, later, givesOther, fails⟩, overflows⟩
      · exact .inr (runs_out.bind _)
  · rintro result later (⟨upset, rfl, fails⟩ | ⟨other, between, gives, comes⟩) fits
    · rcases agrees.back _ _ fails fits with ⟨more, outcome, after, failsMine, meets⟩ | runs_out
      · have outcomes := meets.outcomes
        cases outcomes
        exact .inl ⟨more, _, after, .inl ⟨upset, rfl, failsMine⟩, meets.weaken all⟩
      · exact .inr (runs_out.bind _)
    · rcases agrees.back _ _ gives (Outcome.fits_ok other limit) with
        ⟨more, outcome, after, givesMine, meets⟩ | runs_out
      · have outcomes := meets.outcomes
        cases outcomes with
        | ok values =>
          rcases (then_agrees more _ other after between meets values givesMine gives).back _ _ comes fits with
            ⟨most, last, final, comesMine, finally_meets⟩ | ⟨upset, final, fails, overflows⟩
          · exact .inl ⟨most, last, final, .inr ⟨_, after, givesMine, comesMine⟩, meets.trans finally_meets all⟩
          · exact .inr ⟨upset, final, .inr ⟨_, after, givesMine, fails⟩, overflows⟩
      · exact .inr (runs_out.bind _)

/-- The same work agrees with itself in paired stores, whatever the levels. -/
theorem of_twins {context : Context} {low high : DepthMeter} (twins : Twins pairs left right)
    (alone : Spares pairs right spared) {work other : Control} (same : ControlTwin pairs work other)
    (quiet : other.reports = false) (closed : right.Closed) (known : other.Within .all right.cells.size)
    (first : low.limit = limit) (second : high.limit = limit) :
    Agrees limit spared pairs left right (Brings context low left work) (Brings context high right other) := by
  constructor
  · -- What is brought in the other store keeps within its levels, except that it may run out of
    -- them.
    intro outcome after brings fits
    obtain ⟨more, result, later, bringsOther, alike⟩ := twins.brings same brings
    have known : State.Within .all ⟨right, high, other, []⟩ := ⟨closed, known, List.forall_mem_nil _⟩
    rcases bringsOther.moved known quiet (alike.outcomes.fits_iff.mp fits) first second with
      moved | ⟨upset, last, moved, overflows⟩
    · exact .inl ⟨more, result, later, moved, .of_twins alike alone⟩
    · exact .inr ⟨upset, last, moved, overflows⟩
  · intro result later brings fits
    have known : State.Within .all ⟨right, low, other, []⟩ := ⟨closed, known, List.forall_mem_nil _⟩
    rcases brings.moved known quiet fits second first with moved | ⟨upset, last, moved, overflows⟩
    · obtain ⟨more, outcome, after, bringsMine, alike⟩ := twins.brings_back same moved
      exact .inl ⟨more, outcome, after, bringsMine, .of_twins alike alone⟩
    · obtain ⟨more, outcome, after, bringsMine, alike⟩ := twins.brings_back same moved
      have outcomes := alike.outcomes
      cases outcomes
      exact .inr ⟨upset, after, bringsMine, overflows⟩

end Agrees

end LazyConfig
