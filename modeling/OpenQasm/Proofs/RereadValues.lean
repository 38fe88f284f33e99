import OpenQasm.Proofs.WrittenValues

/-!
Values that are written as expressions and read again. A negative number is written as a negation, a complex
number as the sum or the difference of a real and an imaginary literal, an array by its elements. What is
read again is the value: adding a zero to a part of a complex number can change only the sign of a zero. A
complex number without an imaginary part is written as its real part, and read as a real number.
-/
namespace OpenQasm

namespace Double

open Float.Model Float.Model.UnpackedFloat

variable {x y z : Float}

theorem unpack_pack_zero (sign : Sign) : UnpackedFloat.unpack Format.binary64
    (UnpackedFloat.pack Format.binary64 (.zero sign)) = .zero sign := by
  cases sign <;> rfl

theorem beq_zero_iff : (x == 0.0) = true ↔ ∃ sign, x.toModel.unpack = .zero sign := by
  have hbeq : (x == 0.0) = x.toModel.unpack.beq (.zero .positive) := rfl
  rw [hbeq]
  cases x.toModel.unpack with
  | zero sign => simp [UnpackedFloat.beq, UnpackedFloat.compare]
  | notANumber => simp [UnpackedFloat.beq, UnpackedFloat.compare]
  | infinity sign => cases sign <;> simp [UnpackedFloat.beq, UnpackedFloat.compare]
  | finite sign m e hm => cases sign <;> simp [UnpackedFloat.beq, UnpackedFloat.compare]

/-- Equal but for the sign of a zero. -/
def Same (x y : Float) : Prop := x = y ∨ x == 0.0 ∧ y == 0.0

theorem add_zero_same (x : Float) : Same x (x + 0.0) := by
  have hadd : (x + 0.0).toBits.toBitVec = UnpackedFloat.pack Format.binary64
      (UnpackedFloat.add Format.binary64 x.toModel.unpack (.zero .positive)) := rfl
  by_cases hzero : ∃ sign, x.toModel.unpack = .zero sign
  · -- Only here the sum can differ: the sum of a negative and a positive zero is positive.
    obtain ⟨sign, hx⟩ := hzero
    have hsum : UnpackedFloat.add Format.binary64 (.zero sign) (.zero .positive) = .zero .positive := by
      cases sign <;> rfl
    have hunpack : (x + 0.0).toModel.unpack = .zero .positive := by
      show UnpackedFloat.unpack Format.binary64 (x + 0.0).toBits.toBitVec = _
      rw [hadd, hx, hsum, unpack_pack_zero]
    exact Or.inr ⟨beq_zero_iff.2 ⟨sign, hx⟩, beq_zero_iff.2 ⟨.positive, hunpack⟩⟩
  · have hsum : UnpackedFloat.add Format.binary64 x.toModel.unpack (.zero .positive) = x.toModel.unpack := by
      cases hx : x.toModel.unpack with
      | zero sign => exact absurd ⟨sign, hx⟩ hzero
      | _ => rfl
    exact Or.inl (eq_of_pack (hadd.trans (congrArg _ hsum))).symm

/-- A difference keeps the sign of a zero, unlike a sum. -/
theorem sub_zero (x : Float) : x - 0.0 = x := by
  have hsub : UnpackedFloat.sub Format.binary64 x.toModel.unpack (.zero .positive) = x.toModel.unpack := by
    cases x.toModel.unpack with
    | zero sign => cases sign <;> rfl
    | _ => rfl
  have hbits : (x - 0.0).toBits.toBitVec = UnpackedFloat.pack Format.binary64
      (UnpackedFloat.sub Format.binary64 x.toModel.unpack (.zero .positive)) := rfl
  exact eq_of_pack (hbits.trans (congrArg _ hsub))

theorem zero_add (hx : (x == 0.0) = false) : 0.0 + x = x := by
  have hadd : UnpackedFloat.add Format.binary64 (.zero .positive) x.toModel.unpack = x.toModel.unpack := by
    cases hu : x.toModel.unpack with
    | zero sign => cases hx.symm.trans (beq_zero_iff.2 ⟨sign, hu⟩)
    | _ => rfl
  have hbits : (0.0 + x).toBits.toBitVec = UnpackedFloat.pack Format.binary64
      (UnpackedFloat.add Format.binary64 (.zero .positive) x.toModel.unpack) := rfl
  exact eq_of_pack (hbits.trans (congrArg _ hadd))

theorem zero_sub_neg (hx : (x == 0.0) = false) : 0.0 - -x = x := by
  have hsign (sign : Sign) : -(-sign) = sign := by cases sign <;> rfl
  have hsub : UnpackedFloat.sub Format.binary64 (.zero .positive) x.toModel.unpack.neg =
      x.toModel.unpack := by
    cases hu : x.toModel.unpack with
    | zero sign => cases hx.symm.trans (beq_zero_iff.2 ⟨sign, hu⟩)
    | notANumber => rfl
    | infinity sign => exact congrArg UnpackedFloat.infinity (hsign sign)
    | finite sign m e hm => exact congrArg (UnpackedFloat.finite · m e hm) (hsign sign)
  have hbits : (0.0 - -x).toBits.toBitVec = UnpackedFloat.pack Format.binary64
      (UnpackedFloat.sub Format.binary64 (.zero .positive) (-x).toModel.unpack) := rfl
  rw [unpack_neg_eq, hsub] at hbits
  exact eq_of_pack hbits

end Double

open Analysis

namespace Value

/-- Values of numbers that are finite, durations not being negative. The least integer is left out, which no
literal denotes. -/
inductive Renderable : Value → Prop
  | bool (b : Bool) : Renderable (bool b)
  | int {n : Int64} (hn : n ≠ Int64.minValue) : Renderable (int n)
  | float {x : Float} (hx : x.isFinite = true) : Renderable (float x)
  | complex {z : Complex} (hre : z.re.isFinite = true) (him : z.im.isFinite = true) : Renderable (complex z)
  | duration {x : Float} (u : TimeUnit) (hx : x.isFinite = true) (hsign : 0.0 ≤ x) : Renderable (duration x u)
  | array {items : List Value} (h : ∀ v ∈ items, Renderable v) : Renderable (array items)

/-- What is read where a value was written: a value of its kind that is equal but for the signs of zeros. A complex
number without an imaginary part is read as the real number that it is. -/
inductive Reread : Value → Value → Prop
  | bool (b : Bool) : Reread (bool b) (bool b)
  | int (n : Int64) : Reread (int n) (int n)
  | float (x : Float) : Reread (float x) (float x)
  | real {z : Complex} (him : (z.im == 0.0) = true) : Reread (complex z) (float z.re)
  | complex {z w : Complex} (hz : (z.im == 0.0) = false) (hre : Double.Same z.re w.re) (him : z.im = w.im) :
    Reread (complex z) (complex w)
  | duration (x : Float) (u : TimeUnit) : Reread (duration x u) (duration x u)
  | array {items read : List Value} (h : List.Forall₂ Reread items read) : Reread (array items) (array read)

/-- The expression of the value has an equal value in every state, and leaves the state as it is. -/
def Rereads (v : Value) : Prop :=
  ∃ w, Reread v w ∧ ∀ calls config s, fold calls v.toExpr config s = (.ok (some w), s)

theorem ReadsBack.rereads {v : Value} (h : v.ReadsBack) (hv : Reread v v) : v.Rereads := ⟨v, hv, h⟩

section Parts

variable {calls : Calls} {config : Config} {s : State} {x : Float} {z : Complex}

theorem fold_floatExpr : fold calls (floatExpr x) config s = (.ok (some (float x)), s) :=
  readsBack_float x calls config s

/-- A sum or difference of expressions of known values is evaluated on them. -/
theorem fold_binary_known {op : BinaryOp} {l r : Expr} {a b c : Value}
    (hl : fold calls l config s = (.ok (some a), s)) (hr : fold calls r config s = (.ok (some b), s))
    (hop : decided? op (some a) = none) (hc : evalBinary op a b = .ok c) :
    fold calls (.binary l op r) config s = (.ok (some c), s) := by
  rw [fold, run_bind, hl]
  dsimp only
  rw [hop]
  dsimp only
  rw [run_bind, hr]
  dsimp only
  rw [hc]
  rfl

/-- A complex number with an imaginary part is written as a sum if that part is positive, else as a difference. -/
theorem rereads_imaginary (hz : (z.im == 0.0) = false) : (complex z).Rereads := by
  -- The imaginary literal is a complex number without a real part, to which the real part is added.
  by_cases hnegative : z.im < 0.0
  · have hexpr : (complex z).toExpr = .binary (floatExpr z.re) .sub (.imaginary (-z.im)) := by
      rw [toExpr, complexExpr, hz, if_neg Bool.false_ne_true, if_pos hnegative]
    refine ⟨complex ⟨z.re - 0.0, 0.0 - -z.im⟩, .complex hz ?_ (Double.zero_sub_neg hz).symm, ?_⟩
    · exact Or.inl (Double.sub_zero z.re).symm
    · intro calls config s
      rw [hexpr]
      exact fold_binary_known fold_floatExpr rfl rfl rfl
  · have hexpr : (complex z).toExpr = .binary (floatExpr z.re) .add (.imaginary z.im) := by
      rw [toExpr, complexExpr, hz, if_neg Bool.false_ne_true, if_neg hnegative]
    refine ⟨complex ⟨z.re + 0.0, 0.0 + z.im⟩, .complex hz ?_ (Double.zero_add hz).symm, ?_⟩
    · exact Double.add_zero_same z.re
    · intro calls config s
      rw [hexpr]
      exact fold_binary_known fold_floatExpr rfl rfl rfl

theorem rereads_complex (z : Complex) : (complex z).Rereads := by
  by_cases hz : (z.im == 0.0) = true
  · refine ⟨float z.re, .real hz, fun calls config s => ?_⟩
    rw [toExpr, complexExpr, if_pos hz]
    exact fold_floatExpr
  · exact rereads_imaginary (Bool.eq_false_iff.2 hz)

/-- The elements of an array are read one after another. -/
theorem rereads_items {items : List Value} (h : ∀ v ∈ items, v.Rereads) :
    ∃ read, List.Forall₂ Reread items read ∧
      ∀ calls config s, foldAll calls (toExprs items) config s = (.ok (read.map some), s) := by
  induction items with
  | nil => exact ⟨[], .nil, fun _ _ _ => rfl⟩
  | cons v items ih =>
    obtain ⟨hv, hitems⟩ := List.forall_mem_cons.1 h
    obtain ⟨w, hvw, hfold⟩ := hv
    obtain ⟨read, hread, hfolds⟩ := ih hitems
    refine ⟨w :: read, .cons hvw hread, fun calls config s => ?_⟩
    rw [toExprs, foldAll, run_bind, hfold]
    dsimp only
    rw [run_bind, hfolds]
    rfl

theorem rereads_array {items : List Value} (h : ∀ v ∈ items, v.Rereads) : (array items).Rereads := by
  obtain ⟨read, hread, hfolds⟩ := rereads_items h
  refine ⟨array read, .array hread, fun calls config s => ?_⟩
  rw [toExpr, fold, run_bind, hfolds]
  dsimp only
  rw [mapM_id_eq_some.2 rfl]
  rfl

end Parts

/-- Values are read where they were written. -/
theorem renderable_rereads {v : Value} (h : v.Renderable) :
    ∃ w, Reread v w ∧ ∀ calls config s, fold calls v.toExpr config s = (.ok (some w), s) := by
  induction h with
  | bool b => exact (readsBack_bool b).rereads (.bool b)
  | int hn => exact (readsBack_int hn).rereads (.int _)
  | float => exact (readsBack_float _).rereads (.float _)
  | complex => exact rereads_complex _
  | duration u hx hsign => exact (readsBack_duration _ u).rereads (.duration _ u)
  | array h ih => exact rereads_array ih

theorem renderable_rereads_nested :
    Renderable (array [array [int (-7), bool true], complex ⟨0.5, -1.5⟩, duration 2.5 .ns]) ∧
      ∃ w, Reread (array [array [int (-7), bool true], complex ⟨0.5, -1.5⟩, duration 2.5 .ns]) w ∧
        ∀ calls config s, fold calls
          (array [array [int (-7), bool true], complex ⟨0.5, -1.5⟩, duration 2.5 .ns]).toExpr config s =
            (.ok (some w), s) := by
  have hints : Renderable (array [int (-7), bool true]) :=
    .array (List.forall_mem_cons.2 ⟨.int (by decide), List.forall_mem_singleton.2 (.bool true)⟩)
  have hitems : Renderable (array [array [int (-7), bool true], complex ⟨0.5, -1.5⟩, duration 2.5 .ns]) :=
    .array (List.forall_mem_cons.2 ⟨hints, List.forall_mem_cons.2
      ⟨.complex rfl rfl, List.forall_mem_singleton.2 (.duration .ns rfl (of_decide_eq_true rfl))⟩⟩)
  exact ⟨hitems, renderable_rereads hitems⟩

/-- A complex number without an imaginary part is read as a real number, and the least integer not at all. -/
theorem real_complex_reads_real :
    (fold (.nested 0) (complex ⟨1.0, 0.0⟩).toExpr .default .initial).1 = .ok (some (float 1.0)) ∧
      (fold (.nested 0) (int Int64.minValue).toExpr .default .initial).1 =
        .error (.statement ⟨.integerTooLarge Bound.integer, State.initial.span⟩) := by
  refine ⟨rfl, ?_⟩
  rw [toExpr, fold_intExpr_least]

end Value
end OpenQasm
