import LazyConfig.Evaluator
import LazyConfig.Proofs.Machine.Runs

/-!
Arithmetic on integers. A result is the exact one, or the operation fails because the exact one is out of range. The only
exception is the remainder that comes with a quotient out of range: it is not given, although it is zero.
-/

namespace LazyConfig

/-- A number that an integer of 64 bits can be. -/
def InRange (n : Int) : Prop :=
  -9223372036854775808 ≤ n ∧ n ≤ 9223372036854775807

/-- The result of an operation is an exact number where that is in range, and an overflow elsewhere. -/
structure ExactOrOverflow (symbol : String) (exact : Int) (result : Except Fault Value) : Prop where
  given : ∀ n : Int64, result = .ok (.int n) ↔ n.toInt = exact
  overflow : result = .error (.integerOverflow symbol) ↔ ¬ InRange exact

/-! Numbers in range. -/

/-- Integers are in range. -/
theorem inRange_toInt (a : Int64) : InRange a.toInt :=
  ⟨a.le_toInt, Int.le_of_lt_add_one a.toInt_lt⟩

/-- Of an integer, the number is the one that it has been made of, where that is in range. -/
theorem toInt_ofInt {n : Int} (inside : InRange n) : (Int64.ofInt n).toInt = n :=
  Int64.toInt_ofInt_of_le inside.1 (Int.lt_add_one_of_le inside.2)

/-- A number in range is found as an integer. -/
theorem fit?_of_inRange {n : Int} (inside : InRange n) : fit? n = some (Int64.ofInt n) :=
  if_pos inside

/-- A number out of range is not found. -/
theorem fit?_of_not_inRange {n : Int} (outside : ¬ InRange n) : fit? n = none :=
  if_neg outside

/-- A quotient and its remainder make up the number that is divided, and the remainder has its sign. -/
theorem tdiv_tmod_parts (a : Int) {b : Int} (divisor : b ≠ 0) :
    a = a.tdiv b * b + a.tmod b ∧ (a.tmod b).natAbs < b.natAbs ∧
      (0 ≤ a → 0 ≤ a.tmod b) ∧ (a ≤ 0 → a.tmod b ≤ 0) := by
  refine ⟨(Int.tdiv_mul_add_tmod a b).symm, ?_, Int.tmod_nonneg b, fun below => ?_⟩
  · rw [Int.natAbs_tmod]
    exact Nat.mod_lt _ (Int.natAbs_pos.mpr divisor)
  · -- The remainder of the opposite is the opposite, and is not negative.
    have sign := Int.tmod_nonneg b (Int.neg_nonneg_of_nonpos below)
    rw [Int.neg_tmod] at sign
    omega

/-- What is made of looking for a number is the number, or an overflow. -/
theorem exactOrOverflow_of_fit {symbol : String} {exact : Int} {result : Except Fault Value}
    (found : ∀ n, fit? exact = some n → result = .ok (.int n))
    (missed : fit? exact = none → result = .error (.integerOverflow symbol)) :
    ExactOrOverflow symbol exact result := by
  -- In range the exact number is what is found, and out of range no integer is the exact number.
  by_cases inside : InRange exact
  · rw [found _ (fit?_of_inRange inside)]
    refine ⟨fun n => ⟨?_, ?_⟩, nofun, fun outside => absurd inside outside⟩
    · rintro ⟨⟩
      exact toInt_ofInt inside
    · rintro rfl
      rw [Int64.ofInt_toInt]
  · rw [missed (fit?_of_not_inRange inside)]
    refine ⟨fun n => ⟨nofun, ?_⟩, fun _ => inside, fun _ => rfl⟩
    rintro rfl
    exact absurd (inRange_toInt n) inside

/-- Of all quotients only that of the smallest integer by minus one is out of range. -/
theorem inRange_tdiv_iff {a b : Int64} (nonzero : b ≠ 0) :
    InRange (a.toInt.tdiv b.toInt) ↔ ¬ (a = Int64.minValue ∧ b = -1) := by
  -- The three conditions are read as statements about the numbers.
  obtain ⟨low, high⟩ := inRange_toInt a
  have least : a = Int64.minValue ↔ a.toInt = -9223372036854775808 := Int64.toInt_inj.symm
  have minus : b = -1 ↔ b.toInt = -1 := Int64.toInt_inj.symm
  have divisor : b.toInt ≠ 0 := fun zero => nonzero (Int64.toInt_inj.mp zero)
  rw [least, minus, InRange]
  by_cases unit : b.toInt = 1 ∨ b.toInt = -1
  · rcases unit with one | one
    · rw [one, Int.tdiv_one]
      omega
    · rw [one, Int.tdiv_neg, Int.tdiv_one]
      omega
  · -- By any other divisor, the quotient is at most half of the dividend.
    have half : (a.toInt.tdiv b.toInt).natAbs ≤ a.toInt.natAbs / 2 := by
      rw [Int.natAbs_tdiv]
      exact Nat.div_le_div_left (by omega) (by decide)
    omega

/-! Operators. -/

namespace BinaryOp

/-- The operators of arithmetic. -/
def isArithmetic : BinaryOp → Bool
  | add | sub | mul | div | rem => true
  | _ => false

variable {a b : Int64}

/-- Where nothing is divided by zero, the result is found or it overflows. -/
theorem arithmetic_ints (op : BinaryOp) (divisor : op.divides = true → b ≠ 0) :
    op.arithmetic (.int a) (.int b) =
      match op.exactResult? a b with
      | some n => .ok (.int n)
      | none => .error (.integerOverflow op.symbol) := by
  -- The guard against zero is passed, for whichever operator.
  have passed : (op.divides && b == 0) = false := by
    cases divides : op.divides with
    | false => rfl
    | true => simpa [divides] using divisor divides
  rw [arithmetic, onIntegers, passed]
  cases op.exactResult? a b <;> rfl

/-- An operator whose result is looked for as it is gives it, or overflows. -/
theorem exactOrOverflow (op : BinaryOp) {exact : Int} (divisor : op.divides = true → b ≠ 0)
    (looks : op.exactResult? a b = fit? exact) :
    ExactOrOverflow op.symbol exact (op.arithmetic (.int a) (.int b)) := by
  rw [arithmetic_ints op divisor, looks]
  exact exactOrOverflow_of_fit (fun n found => by rw [found]) fun missed => by rw [missed]

/-- Only a division by zero fails as one. -/
theorem arithmetic_byZero_iff {op : BinaryOp} (divides : op.divides = true) :
    op.arithmetic (.int a) (.int b) = .error .divisionByZero ↔ b = 0 := by
  -- For another divisor, the result is a number or an overflow.
  by_cases zero : b = 0
  · subst zero
    rw [arithmetic, onIntegers, divides]
    exact iff_of_true rfl rfl
  · refine iff_of_false ?_ zero
    rw [arithmetic_ints op fun _ => zero]
    cases op.exactResult? a b <;> exact nofun

/-- A remainder is looked for behind its quotient. -/
theorem exactResult?_rem :
    rem.exactResult? a b =
      (fit? (a.toInt.tdiv b.toInt)).bind fun _ => fit? (a.toInt - b.toInt * a.toInt.tdiv b.toInt) := by
  rw [← Int.tmod_def]
  rfl

/-- With a quotient in range, the remainder is exact. -/
theorem exactOrOverflow_rem (nonzero : b ≠ 0) (inside : InRange (a.toInt.tdiv b.toInt)) :
    ExactOrOverflow "%" (a.toInt - b.toInt * a.toInt.tdiv b.toInt) (rem.arithmetic (.int a) (.int b)) := by
  refine exactOrOverflow rem (fun _ => nonzero) ?_
  rw [exactResult?_rem, fit?_of_inRange inside, Option.bind_some]

/-- With a quotient out of range, the remainder overflows, too. -/
theorem arithmetic_rem_overflow (nonzero : b ≠ 0) (outside : ¬ InRange (a.toInt.tdiv b.toInt)) :
    rem.arithmetic (.int a) (.int b) = .error (.integerOverflow "%") := by
  rw [arithmetic_ints rem fun _ => nonzero, exactResult?_rem, fit?_of_not_inRange outside, Option.bind_none]
  rfl

/-- The evaluator goes on with the result of arithmetic. -/
theorem operateStep_arithmetic {op : BinaryOp} (arithmetic : op.isArithmetic) (store : Store) (meter : DepthMeter)
    (left right : Value) (stack : List Frame) :
    Context.operateStep store meter op left right stack =
      ⟨store, meter, .ofResult (op.arithmetic left right), stack⟩ := by
  cases op with
  | add | sub | mul | div | rem => rfl
  | _ => cases arithmetic

end BinaryOp

/-- The opposite of an integer is its difference from zero. -/
theorem UnaryOp.apply_neg_int (b : Int64) :
    UnaryOp.neg.apply (.int b) = BinaryOp.sub.arithmetic (.int 0) (.int b) := by
  have difference : BinaryOp.sub.exactResult? 0 b = fit? (-b.toInt) :=
    congrArg fit? (Int.zero_sub b.toInt)
  rw [BinaryOp.arithmetic_ints .sub nofun, difference, UnaryOp.apply]
  cases fit? (-b.toInt) <;> rfl

/-! Arithmetic. -/

/-- What arithmetic on two integers comes to. -/
structure IntegerArithmetic (a b : Int64) : Prop where
  /-- A host gets the result for an answer. -/
  answers : ∀ op : BinaryOp, op.isArithmetic → ∀ (evaluator : Evaluator) store fuel, 2 ≤ fuel →
    evaluator.perform fuel (.operate op (.int a) (.int b)) store =
      some ⟨(op.arithmetic (.int a) (.int b)).mapError .fault, store⟩
  /-- A program goes on with the result. -/
  goesOn : ∀ op : BinaryOp, op.isArithmetic → ∀ context store meter stack, State.GoesTo context
    ⟨store, meter, .give (.int b), .operandRight op (.int a) :: stack⟩
    ⟨store, meter, .ofResult (op.arithmetic (.int a) (.int b)), stack⟩
  add : ExactOrOverflow "+" (a.toInt + b.toInt) (BinaryOp.add.arithmetic (.int a) (.int b))
  sub : ExactOrOverflow "-" (a.toInt - b.toInt) (BinaryOp.sub.arithmetic (.int a) (.int b))
  mul : ExactOrOverflow "*" (a.toInt * b.toInt) (BinaryOp.mul.arithmetic (.int a) (.int b))
  byZero : ∀ op : BinaryOp, op.divides = true →
    (op.arithmetic (.int a) (.int b) = .error .divisionByZero ↔ b = 0)
  /-- A quotient is rounded toward zero. -/
  div : b ≠ 0 → ExactOrOverflow "/" (a.toInt.tdiv b.toInt) (BinaryOp.div.arithmetic (.int a) (.int b))
  /-- A remainder is what is left behind the quotient. -/
  rem : b ≠ 0 → ¬ (a = Int64.minValue ∧ b = -1) → ExactOrOverflow "%"
    (a.toInt - b.toInt * a.toInt.tdiv b.toInt) (BinaryOp.rem.arithmetic (.int a) (.int b))
  /-- The remainder that is missing. -/
  spills : a = Int64.minValue → b = -1 →
    BinaryOp.rem.arithmetic (.int a) (.int b) = .error (.integerOverflow "%")
  /-- The opposite of a number is its difference from zero. -/
  neg : ∀ context store meter stack, State.GoesTo context
    ⟨store, meter, .give (.int b), .unary .neg :: stack⟩
    ⟨store, meter, .ofResult (BinaryOp.sub.arithmetic (.int 0) (.int b)), stack⟩
  /-- A quotient and its remainder make up the number that is divided, and the remainder has its sign. -/
  parts : ∀ q r : Int64, BinaryOp.div.arithmetic (.int a) (.int b) = .ok (.int q) →
    BinaryOp.rem.arithmetic (.int a) (.int b) = .ok (.int r) →
    a.toInt = q.toInt * b.toInt + r.toInt ∧ r.toInt.natAbs < b.toInt.natAbs ∧
      (0 ≤ a.toInt → 0 ≤ r.toInt) ∧ (a.toInt ≤ 0 → r.toInt ≤ 0)

/--
Arithmetic on integers is exact: an operator gives the exact result where that is in range, fails for an overflow where
it is not, and division by zero is the only other failure. One remainder is missing: that of the smallest integer by minus
one, which overflows as the quotient does.
-/
theorem integer_arithmetic_exact (a b : Int64) : IntegerArithmetic a b where
  answers op arithmetic evaluator store fuel enough := by
    obtain ⟨more, rfl⟩ := Nat.exists_eq_add_of_le enough
    -- Behind the operator, the result is handed to the host.
    have stepped : State.step evaluator.context (evaluator.start (.operate op (.int a) (.int b)) store) = _ :=
      BinaryOp.operateStep_arithmetic arithmetic store _ (.int a) (.int b) []
    rw [Evaluator.perform, Evaluator.run, State.run_add, State.run_succ, stepped]
    cases op.arithmetic (.int a) (.int b) with
    | ok value => exact congrArg State.reply? (State.Ended.run ⟨_, rfl⟩ more)
    | error fault => exact congrArg State.reply? (State.Ended.run ⟨_, rfl⟩ more)
  goesOn op arithmetic context store meter stack :=
    .step rfl (.step (BinaryOp.operateStep_arithmetic arithmetic store meter (.int a) (.int b) stack) (.refl _))
  add := BinaryOp.exactOrOverflow .add nofun rfl
  sub := BinaryOp.exactOrOverflow .sub nofun rfl
  mul := BinaryOp.exactOrOverflow .mul nofun rfl
  byZero op divides := BinaryOp.arithmetic_byZero_iff divides
  div nonzero := BinaryOp.exactOrOverflow .div (fun _ => nonzero) rfl
  rem nonzero fits := BinaryOp.exactOrOverflow_rem nonzero ((inRange_tdiv_iff nonzero).mpr fits)
  spills least minus := by
    have nonzero : b ≠ 0 := by
      rw [minus]
      decide
    exact BinaryOp.arithmetic_rem_overflow nonzero
      (mt (inRange_tdiv_iff nonzero).mp (not_not_intro ⟨least, minus⟩))
  neg context store meter stack := by
    rw [← UnaryOp.apply_neg_int]
    exact .step rfl (.refl _)
  parts q r divided left := by
    -- Where both have an answer, the divisor is not zero and the quotient is in range.
    have nonzero : b ≠ 0 := fun zero => nomatch divided.symm.trans ((BinaryOp.arithmetic_byZero_iff rfl).mpr zero)
    have inside : InRange (a.toInt.tdiv b.toInt) := Classical.byContradiction fun outside =>
      nomatch left.symm.trans (BinaryOp.arithmetic_rem_overflow nonzero outside)
    have divisor : b.toInt ≠ 0 := fun zero => nonzero (Int64.toInt_inj.mp zero)
    have quotient : q.toInt = a.toInt.tdiv b.toInt :=
      (BinaryOp.exactOrOverflow .div (fun _ => nonzero) rfl).given q |>.mp divided
    have remainder := (BinaryOp.exactOrOverflow_rem nonzero inside).given r |>.mp left
    rw [← Int.tmod_def] at remainder
    rw [quotient, remainder]
    exact tdiv_tmod_parts a.toInt divisor

/-- The remainder of the smallest integer by minus one is zero, which is in range, but an overflow is what there is. -/
theorem remainder_of_least_missing :
    ¬ ExactOrOverflow "%" (Int64.minValue.toInt - (-1 : Int64).toInt * Int64.minValue.toInt.tdiv (-1 : Int64).toInt)
      (BinaryOp.rem.arithmetic (.int Int64.minValue) (.int (-1))) := by
  -- The exact remainder is zero, so that an overflow is not what there should be.
  intro exact
  have overflows : BinaryOp.rem.arithmetic (.int Int64.minValue) (.int (-1)) = .error (.integerOverflow "%") := by
    rw [BinaryOp.arithmetic_rem_overflow (by decide) fun inside => absurd inside.2 (by decide)]
  exact exact.overflow.mp overflows ⟨by decide, by decide⟩

end LazyConfig
