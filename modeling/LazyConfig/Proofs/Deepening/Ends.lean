import LazyConfig.Proofs.Deepening.Finite
import LazyConfig.Proofs.Deepening.Again

/-!
Evaluating all parts of a value with finitely many parts comes to an end. The depth at which values are found bounds
how often lists are found within lists.
-/

namespace LazyConfig

/-- A list that is made of parts of a value. -/
structure LazyList.PartOf (items : LazyList) (value : Value) : Prop where
  computations : ∀ id ∈ items.computations, id ∈ value.computations
  rights : ∀ right ∈ items.rights, ∃ whole, value = .list whole ∧ right ∈ whole.rights

namespace LazyList.PartOf

variable {value : Value}

/-- A list is made of its own parts. -/
theorem whole (items : LazyList) : items.PartOf (.list items) :=
  ⟨fun _ member => member, fun _ member => ⟨items, rfl, member⟩⟩

/-- The values of a record are parts of it. -/
theorem fields (record : Record) : (LazyList.ofThunks record.thunks).PartOf (.record record) :=
  ⟨fun id member => by simpa [LazyList.ofThunks, LazyList.computations, Value.computations] using member,
    fun _ member => absurd member List.not_mem_nil⟩

/-- What is behind an element is made of the same parts. -/
theorem behind {items : Array ThunkId} {start : Nat} (part : PartOf (.elems items start) value) :
    PartOf (.elems items (start + 1)) value := by
  refine ⟨fun id member => part.computations id ?_, part.rights⟩
  have fewer : (items.toList.drop (start + 1)).Sublist (items.toList.drop start) := by
    rw [← List.drop_drop]
    exact List.drop_sublist ..
  exact fewer.subset member

/-- The next element is one of the parts. -/
theorem next {items : Array ThunkId} {start : Nat} {id : ThunkId} (part : PartOf (.elems items start) value)
    (found : items[start]? = some id) : id ∈ value.computations := by
  refine part.computations id ?_
  rw [LazyList.computations, LazyList.drop_of_getElem? found]
  exact List.mem_cons_self

/-- The left part of a join is made of the same parts. -/
theorem left {left : LazyList} {right : ThunkId} (part : PartOf (.concat left right) value) : PartOf left value :=
  ⟨fun id member => part.computations id (List.mem_append_left _ member),
    fun id member => part.rights id (List.mem_append_left _ member)⟩

/-- The right part of a join is a right part of a list. -/
theorem right {left : LazyList} {right : ThunkId} (part : PartOf (.concat left right) value) :
    ∃ whole, value = .list whole ∧ right ∈ whole.rights :=
  part.rights right (List.mem_append_right _ List.mem_cons_self)

end LazyList.PartOf

section

variable (context : Context) (meter : DepthMeter) (root : Value) (first : Store)

/-- Evaluating all parts comes to an end from some point on, whatever waits below. -/
def Settles (store : Store) (control : Control) : Prop :=
  ∃ outcome after, Completion context meter root first outcome after ∧ ∀ stack,
    State.GoesTo context ⟨store, meter, control, stack⟩ ⟨after, meter, .passing outcome, stack⟩

/-- A value is found in another one, so deep that only a number of levels can lie below it. -/
def Store.Near (store : Store) (bound left : Nat) (value : Value) : Prop :=
  ∃ depth, store.Contains root depth value ∧ bound < depth + left

/-- A value to go through: it has no parts, or is found so deep that only a number of levels can lie below it. -/
def Store.Pends (store : Store) (bound left : Nat) (value : Value) : Prop :=
  (∃ number, value = .int number) ∨ store.Near root bound left value

end

variable {context : Context} {meter : DepthMeter} {root value : Value} {first store after : Store} {control : Control}
  {bound left : Nat}

namespace Store

/-- What is found deep in a value stays there, with more levels below it too. -/
theorem Near.later (near : store.Near root bound left value) (order : store.Precedes after) :
    after.Near root bound left value := by
  obtain ⟨depth, contains, deep⟩ := near
  exact ⟨depth, contains.later order, deep⟩

/-- What is to be gone through stays so. -/
theorem Pends.later (pends : store.Pends root bound left value) (order : store.Precedes after) :
    after.Pends root bound left value :=
  pends.imp_right fun near => near.later order

/-- More levels may lie below a value. -/
theorem Pends.more (pends : store.Pends root bound left value) : store.Pends root bound (left + 1) value := by
  refine pends.imp_right fun near => ?_
  obtain ⟨depth, contains, deep⟩ := near
  exact ⟨depth, contains, by omega⟩

/-- What a part of a value has come to is one level further down. -/
theorem Near.part (near : store.Near root bound (left + 1) value) {id : ThunkId} {inner : Value}
    (part : id ∈ value.computations) (order : store.Precedes after) (found : after.cell id = .forced inner) :
    after.Near root bound left inner := by
  obtain ⟨depth, contains, deep⟩ := near
  exact ⟨depth + 1, .part (contains.later order) part found, by omega⟩

end Store

namespace Settles

/-- What is done first does not matter, if it comes to where the end is known. -/
theorem of_goesTo {next : Control} (settles : Settles context meter root first after next)
    (goes : ∀ stack, State.GoesTo context ⟨store, meter, control, stack⟩ ⟨after, meter, next, stack⟩) :
    Settles context meter root first store control := by
  obtain ⟨outcome, last, completion, rest⟩ := settles
  exact ⟨outcome, last, completion, fun stack => (goes stack).trans (rest stack)⟩

/-- Two states with the same next step come to the same end. -/
theorem of_same_step {next : Control} (settles : Settles context meter root first store next)
    (busy : ∀ outcome, next ≠ .passing outcome)
    (same : ∀ stack, State.step context ⟨store, meter, control, stack⟩ =
      State.step context ⟨store, meter, next, stack⟩) : Settles context meter root first store control := by
  obtain ⟨outcome, last, completion, rest⟩ := settles
  refine ⟨outcome, last, completion, fun stack => ?_⟩
  obtain ⟨steps, reached⟩ := rest stack
  cases steps with
  | zero => exact absurd (congrArg State.control reached) (busy outcome)
  | succ steps =>
    rw [State.run_succ] at reached
    exact .step (same stack) ⟨steps, reached⟩

end Settles

/-- What is needed for evaluating all parts of a value to come to an end. -/
structure Endable (context : Context) (meter : DepthMeter) (root : Value) (first : Store) (bound : Nat) : Prop where
  tame : Tame root first
  bounded : ∀ later, Uncovers context meter root first later → ∀ depth value, later.Contains root depth value →
    depth ≤ bound
  ends : ∀ later, Uncovers context meter root first later → ∀ depth value, later.Contains root depth value →
    ∀ id ∈ value.computations, ∃ outcome after, Brings context meter later (.force id) outcome after

namespace Endable

variable (endable : Endable context meter root first bound)

include endable

/-- A value that is found leaves room for one more level. -/
theorem near_pos (uncovers : Uncovers context meter root first store) (near : store.Near root bound left value) :
    ∃ fewer, left = fewer + 1 := by
  obtain ⟨depth, contains, deep⟩ := near
  have upto := endable.bounded _ uncovers _ _ contains
  exact ⟨left - 1, by omega⟩

/-- A part is asked for: it fails, which ends everything, or its value is given to what waits for it. -/
theorem of_force (uncovers : Uncovers context meter root first store) (near : store.Near root bound left value)
    {id : ThunkId} (part : id ∈ value.computations) {frame : Frame}
    (passes : ∀ store upset stack, State.step context ⟨store, meter, .raise upset, frame :: stack⟩ =
      ⟨store, meter, .raise upset, stack⟩)
    (begins : ∀ stack, State.GoesTo context ⟨store, meter, control, stack⟩
      ⟨store, meter, .force id, frame :: stack⟩)
    (given : ∀ inner after, ForcesTo context meter store id inner after →
      Uncovers context meter root first after → store.Precedes after → after.cell id = .forced inner →
      ∃ outcome last, Completion context meter root first outcome last ∧ ∀ stack,
        State.GoesTo context ⟨after, meter, .give inner, frame :: stack⟩
          ⟨last, meter, .passing outcome, stack⟩) :
    Settles context meter root first store control := by
  obtain ⟨depth, contains, -⟩ := near
  -- Every part that comes to light ends, so that asking for this one has an outcome.
  obtain ⟨outcome, after, brings⟩ := endable.ends _ uncovers _ _ contains _ part
  have tame := endable.tame.uncovers uncovers
  have found := brings.ended (tame.idle id ((tame.contains contains).of_mem part))
  have order := brings.precedes
  cases outcome with
  | ok inner =>
    obtain ⟨outcome, last, completion, rest⟩ :=
      given inner after brings (uncovers.force contains part brings) order found
    exact ⟨outcome, last, completion, fun stack => (begins stack).trans ((brings.above _).trans (rest stack))⟩
  | error upset =>
    have fails : FailsWith context meter store id upset after := brings
    refine ⟨.error upset, after, .spoiled uncovers (fun forceable => ?_)
      (.failed (contains.later order) part found), fun stack => ?_⟩
    · obtain ⟨inner, other, forces⟩ := forceable.parts _ _ contains _ part
      exact forces.not_fails fails
    · exact (begins stack).trans ((brings.above _).trans (.step (passes ..) (.refl _)))

end Endable

/-- A walk goes on behind a list, where the values of its elements have joined those that are to be gone through. -/
def Resumes (context : Context) (meter : DepthMeter) (root : Value) (first store : Store) (bound left : Nat)
    (pending : List ThunkId) (work : List Value) : Prop :=
  ∀ after values, Uncovers context meter root first after → store.Precedes after →
    (∀ inner ∈ values, after.Pends root bound left inner) →
    Settles context meter root first after (.advance (.before pending) (.deepen (values ++ work) root))

namespace Resumes

variable {pending : List ThunkId} {work : List Value}

/-- A walk goes on where its front is used up. -/
theorem used (resumes : Resumes context meter root first store bound left pending work)
    (uncovers : Uncovers context meter root first store) {front : LazyList} (used : front.UsedUp) :
    Settles context meter root first store (.advance ⟨front, pending⟩ (.deepen work root)) :=
  (resumes store [] uncovers (.refl _) (List.forall_mem_nil _)).of_same_step (Control.busy rfl) fun _ =>
    used.step.trans LazyList.empty_usedUp.step.symm

/-- A walk goes on with one value more. -/
theorem item (resumes : Resumes context meter root first store bound left pending work)
    (order : store.Precedes after) (pends : after.Pends root bound left value) :
    Resumes context meter root first after bound left pending (value :: work) := by
  intro last values uncovers further all
  have joined := resumes last (values ++ [value]) uncovers (order.trans further)
    (List.forall_mem_append.mpr ⟨all, List.forall_mem_singleton.mpr (pends.later further)⟩)
  rwa [List.append_assoc, List.singleton_append] at joined

/-- A walk goes on with more values. -/
theorem items (resumes : Resumes context meter root first store bound left pending work)
    (order : store.Precedes after) {values : List Value} (pend : ∀ inner ∈ values, after.Pends root bound left inner) :
    Resumes context meter root first after bound left pending (values ++ work) := by
  intro last more uncovers further all
  have joined := resumes last (more ++ values) uncovers (order.trans further)
    (List.forall_mem_append.mpr ⟨all, fun inner member => (pend inner member).later further⟩)
  rwa [List.append_assoc] at joined

/-- A walk that goes on with values is ready for those further down. -/
theorem deeper (resumes : Resumes context meter root first store bound (left + 1) pending work) :
    Resumes context meter root first store bound left pending work :=
  fun after values uncovers order all => resumes after values uncovers order fun inner member => (all inner member).more

/-- A walk passes the integers of a range. -/
theorem walk_range {next stop : Int64} {count : Nat}
    (resumes : Resumes context meter root first store bound left pending work)
    (size : (stop.toInt - next.toInt).toNat = count) (uncovers : Uncovers context meter root first store) :
    Settles context meter root first store (.advance ⟨.range next stop, pending⟩ (.deepen work root)) := by
  -- By induction on the number of integers left; each gets a computation that is there at once.
  induction count generalizing store next work with
  | zero =>
    have passed : ¬ next < stop := by
      rw [Int64.lt_iff_toInt_lt]
      omega
    exact resumes.used uncovers passed
  | succ count ih =>
    have more : next < stop := by
      rw [Int64.lt_iff_toInt_lt]
      omega
    have behind := toInt_succ more
    have order := (store.ready_extends (.int next)).precedes
    have rest := @ih _ (.int next :: work) (next + 1) (resumes.item order (.inl ⟨next, rfl⟩)) (by omega)
      (uncovers.int next)
    have turn : Turn context meter store ⟨.range next stop, pending⟩ _ _ := .int more
    refine rest.of_goesTo fun stack => (turn.goesTo (.deepen work root) stack).trans ?_
    have forced : (store.ready (.int next)).2.cell store.cells.size = .forced (.int next) := by
      simp [Store.ready, Store.cell_alloc]
    exact ((ForcesTo.of_forced forced).above _).trans (.step rfl (.refl _))

end Resumes

namespace Endable

variable {pending : List ThunkId} {work : List Value} (endable : Endable context meter root first bound)

include endable

/-- A walk passes given elements. -/
theorem walk_elems {items : Array ThunkId} {start count : Nat} (size : items.size - start = count)
    (uncovers : Uncovers context meter root first store) (near : store.Near root bound (left + 1) value)
    (part : LazyList.PartOf (.elems items start) value)
    (resumes : Resumes context meter root first store bound left pending work) :
    Settles context meter root first store (.advance ⟨.elems items start, pending⟩ (.deepen work root)) := by
  induction count generalizing store start work with
  | zero => exact resumes.used uncovers (Array.getElem?_eq_none (by omega))
  | succ count ih =>
    have found : items[start]? = some items[start] := Array.getElem?_eq_getElem (by omega)
    -- The element is asked for, and its value joins those that are to be gone through.
    have begins (stack : List Frame) : State.GoesTo context
        ⟨store, meter, .advance ⟨.elems items start, pending⟩ (.deepen work root), stack⟩
        ⟨store, meter, .force items[start], .deepItem ⟨.elems items (start + 1), pending⟩ work root :: stack⟩ := by
      refine .step ?_ (.refl _)
      simp [State.step, Context.advanceStep, Context.consumeStep, found]
    refine endable.of_force uncovers near (part.next found) (fun _ _ _ => rfl) begins ?_
    intro inner after forces uncovers' order forced
    obtain ⟨outcome, last, completion, rest⟩ := ih (by omega) uncovers' (near.later order) part.behind
      (resumes.item order (.inr (near.part (part.next found) order forced)))
    exact ⟨outcome, last, completion, fun stack => .step rfl (rest stack)⟩

/-- A walk passes a list, if it passes the lists that right parts come to. -/
theorem walk_through
    (across : ∀ {store pending work others}, Uncovers context meter root first store →
      store.Near root bound left (.list others) → Resumes context meter root first store bound left pending work →
      Settles context meter root first store (.advance ⟨others, pending⟩ (.deepen work root)))
    {items : LazyList} (uncovers : Uncovers context meter root first store)
    (near : store.Near root bound (left + 1) value) (part : items.PartOf value)
    (resumes : Resumes context meter root first store bound left pending work) :
    Settles context meter root first store (.advance ⟨items, pending⟩ (.deepen work root)) := by
  induction items generalizing pending with
  | elems items start => exact endable.walk_elems rfl uncovers near part resumes
  | range next stop => exact resumes.walk_range rfl uncovers
  | concat front right ih =>
    refine (ih part.left ?_).of_goesTo fun stack => .step rfl (.refl _)
    -- Behind the left part the right part is asked for.
    intro after values uncovers' order all
    obtain ⟨whole, rfl, member⟩ := part.right
    have begins (stack : List Frame) : State.GoesTo context
        ⟨after, meter, .advance (.before (right :: pending)) (.deepen (values ++ work) root), stack⟩
        ⟨after, meter, .force right, .spine pending (.deepen (values ++ work) root) :: stack⟩ :=
      .step LazyList.empty_usedUp.step (.refl _)
    have among := LazyList.mem_computations_of_right member
    refine endable.of_force uncovers' (near.later order) among (fun _ _ _ => rfl) begins ?_
    intro inner last forces uncovers'' order' forced
    by_cases list : inner.kind = .list
    · obtain ⟨others, rfl⟩ : ∃ others, inner = .list others := by
        cases inner with
        | list others => exact ⟨others, rfl⟩
        | _ => cases list
      obtain ⟨outcome, final, completion, rest⟩ := across uncovers'' ((near.later order).part among order' forced)
        (resumes.items (order.trans order') fun inner member => (all inner member).later order')
      exact ⟨outcome, final, completion, fun stack => .step rfl (rest stack)⟩
    · -- A right part that is no list ends everything.
      obtain ⟨depth, contains, -⟩ := near.later order
      refine ⟨_, last, .spoiled uncovers' (fun forceable => ?_)
        (.noList (contains.later order') member forced list), fun stack => ?_⟩
      · obtain ⟨others, other, also⟩ := forceable.rights _ _ contains _ member
        obtain ⟨rfl, -⟩ := forces.unique also
        exact list rfl
      · cases inner with
        | list others => exact absurd rfl list
        | _ => exact .step rfl (.step rfl (.refl _))

/-- A walk passes a list that is made of parts. -/
theorem walk {items : LazyList} (uncovers : Uncovers context meter root first store)
    (near : store.Near root bound (left + 1) value) (part : items.PartOf value)
    (resumes : Resumes context meter root first store bound left pending work) :
    Settles context meter root first store (.advance ⟨items, pending⟩ (.deepen work root)) := by
  -- The list of a right part is one level further down.
  induction left generalizing store value items pending work with
  | zero =>
    refine endable.walk_through (fun uncovers near _ => ?_) uncovers near part resumes
    obtain ⟨_, more⟩ := endable.near_pos uncovers near
    cases more
  | succ left ih =>
    exact endable.walk_through (fun uncovers near resumes => ih uncovers near (.whole _) resumes.deeper) uncovers near
      part resumes

/-- Values that are found are gone through, and the work behind them is next. -/
theorem deepen {values rest : List Value} (uncovers : Uncovers context meter root first store)
    (pend : ∀ inner ∈ values, store.Pends root bound left inner)
    (next : ∀ after, Uncovers context meter root first after → store.Precedes after →
      Settles context meter root first after (.deepen rest root)) :
    Settles context meter root first store (.deepen (values ++ rest) root) := by
  -- The values of elements are one level further down than the list, and are gone through first.
  induction left using Nat.strongRecOn generalizing store values rest with
  | _ left ih =>
    induction values generalizing store with
    | nil => exact next store uncovers (.refl _)
    | cons value others behind =>
      have last (after : Store) (uncovers : Uncovers context meter root first after) (order : store.Precedes after) :
          Settles context meter root first after (.deepen (others ++ rest) root) :=
        behind uncovers (fun inner member => (pend inner (List.mem_cons_of_mem _ member)).later order)
          fun later uncovers further => next later uncovers (order.trans further)
      -- A list is walked, and the values of its elements join the work that is left.
      have walks {items : LazyList} (part : items.PartOf value) (near : store.Near root bound left value) :
          Settles context meter root first store (.advance items.cursor (.deepen (others ++ rest) root)) := by
        obtain ⟨fewer, rfl⟩ := endable.near_pos uncovers near
        refine endable.walk uncovers near part fun after values uncovers' order all => ?_
        exact (ih fewer (Nat.lt_succ_self fewer) uncovers' all fun later uncovers further =>
          last later uncovers (order.trans further)).of_goesTo fun stack => .step LazyList.empty_usedUp.step (.refl _)
      have own := pend value List.mem_cons_self
      cases value with
      | list items =>
        exact (walks (.whole items) (own.resolve_left nofun)).of_goesTo fun stack => .step rfl (.refl _)
      | record fields =>
        exact (walks (.fields fields) (own.resolve_left nofun)).of_goesTo fun stack => .step rfl (.refl _)
      | _ => exact (last store uncovers (.refl _)).of_goesTo fun stack => .step rfl (.refl _)

/-- Evaluating all parts of a value comes to an end. -/
theorem settles : Settles context meter root first first (.deepen [root] root) := by
  have pend : first.Pends root bound (bound + 1) root := .inr ⟨0, .here, by omega⟩
  refine @deepen _ _ _ _ _ _ _ endable [root] [] .here (List.forall_mem_singleton.mpr pend) fun after uncovers _ => ?_
  exact ⟨.ok root, after, .whole uncovers, fun stack => .step rfl (.refl _)⟩

end Endable

end LazyConfig
