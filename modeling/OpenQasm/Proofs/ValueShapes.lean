import OpenQasm.Proofs.Inhabitants

/-!
The kinds of the values that types prescribe, widths left aside, and what operations on known values make of
them. The type of an operation is found from the types of its operands alone. It says what kind of value the
operation has, but for a power of integers that is no integer, for the ratio of durations, for durations that are
scaled by complex numbers, and for stretches, which the rule for arithmetic does not know.
-/
namespace OpenQasm

/-- How a value is built. -/
inductive Shape
  | bool
  | int
  | float
  | complex
  | duration
  | list (length : Nat) (element : Shape)
deriving DecidableEq

def SizedKind.shape : SizedKind → Shape
  | .int | .uint | .bit => .int
  | .float | .angle => .float
  | .complex => .complex

/-- The shape of the values that a type prescribes. -/
def ClassicalType.shape : ClassicalType → Shape
  | bool => .bool
  | sized kind _ => kind.shape
  | duration | stretch => .duration
  | array element dims => dims.foldr .list element.shape

namespace Shape

/-- A value is built in this way. -/
def Holds : Shape → Value → Prop
  | bool, .bool _ | int, .int _ | float, .float _ | complex, .complex _ | duration, .duration _ _ => True
  | list n element, .array items => items.length = n ∧ ∀ v ∈ items, element.Holds v
  | _, _ => False

/-- A value is built in this way, except that an array can have another length. -/
def HoldsPart : Shape → Value → Prop
  | list _ element, .array items => ∀ v ∈ items, element.Holds v
  | s, v => s.Holds v

variable {s a b : Shape} {v : Value} {items : List Value}

@[simp] theorem holds_bool {x : Bool} : s.Holds (.bool x) ↔ s = .bool := by
  cases s with
  | bool => exact iff_of_true trivial rfl
  | _ => exact iff_of_false id nofun

@[simp] theorem holds_int {x : Int64} : s.Holds (.int x) ↔ s = .int := by
  cases s with
  | int => exact iff_of_true trivial rfl
  | _ => exact iff_of_false id nofun

@[simp] theorem holds_float {x : Float} : s.Holds (.float x) ↔ s = .float := by
  cases s with
  | float => exact iff_of_true trivial rfl
  | _ => exact iff_of_false id nofun

@[simp] theorem holds_complex {z : Complex} : s.Holds (.complex z) ↔ s = .complex := by
  cases s with
  | complex => exact iff_of_true trivial rfl
  | _ => exact iff_of_false id nofun

@[simp] theorem holds_duration {x : Float} {u : TimeUnit} : s.Holds (.duration x u) ↔ s = .duration := by
  cases s with
  | duration => exact iff_of_true trivial rfl
  | _ => exact iff_of_false id nofun

theorem holds_array : s.Holds (.array items) ↔ ∃ element, s = .list items.length element ∧
    ∀ v ∈ items, element.Holds v := by
  cases s with
  | list n element =>
    constructor
    · rintro ⟨rfl, hitems⟩
      exact ⟨element, rfl, hitems⟩
    · rintro ⟨_, h, hitems⟩
      cases h
      exact ⟨rfl, hitems⟩
  | _ => exact iff_of_false id fun ⟨_, h, _⟩ => nomatch h

theorem Holds.part (h : s.Holds v) : s.HoldsPart v := by
  cases s with
  | list n element =>
    cases v with
    | array items => exact h.2
    | _ => exact h
  | _ => exact h

/-- Only arrays can have another length. -/
theorem HoldsPart.holds (h : s.HoldsPart v) (hs : ∀ n element, s ≠ .list n element) : s.Holds v := by
  cases s with
  | list n element => exact absurd rfl (hs n element)
  | _ => exact h

theorem HoldsPart.array_or_holds (h : s.HoldsPart v) : (∃ items, v = .array items) ∨ s.Holds v := by
  cases v with
  | array items => exact Or.inl ⟨items, rfl⟩
  | _ => cases s <;> exact Or.inr h

theorem HoldsPart.int {x : Int64} (h : s.HoldsPart (.int x)) : s = .int := by
  rcases h.array_or_holds with ⟨items, hitems⟩ | h
  · cases hitems
  · exact holds_int.1 h

theorem holdsPart_list {n : Nat} {element : Shape} (h : (list n element).HoldsPart v) :
    ∃ items, v = .array items ∧ ∀ x ∈ items, element.Holds x := by
  cases v with
  | array items => exact ⟨items, rfl, h⟩
  | _ => exact h.elim

end Shape

namespace ClassicalType

theorem shape_arrayOf (element : ClassicalType) (dims : List Nat) :
    (arrayOf element dims).shape = dims.foldr .list element.shape := by
  cases dims <;> rfl

theorem shape_listOf (n : Nat) (t : ClassicalType) : (listOf n t).shape = .list n t.shape := by
  cases t <;> rfl

theorem shape_concat {l r t : ClassicalType} (h : concat? l r = some t) : ∃ m n element,
    l.shape = .list m element ∧ r.shape = .list n element ∧ t.shape = .list (m + n) element := by
  unfold concat? at h
  split at h
  · next a m ms b n ns =>
    split at h
    · next hsame =>
      obtain ⟨rfl, rfl⟩ := hsame
      cases h
      exact ⟨m, n, _, rfl, rfl, rfl⟩
    · nomatch h
  · nomatch h

theorem holds_of_inhabitsArray {element : Value → Prop} {shape : Shape} (helement : ∀ v, element v → shape.Holds v)
    {dims : List Nat} {v : Value} (h : InhabitsArray element dims v) : (dims.foldr .list shape).Holds v := by
  induction dims generalizing v with
  | nil => exact helement v h
  | cons d ds ih =>
    cases v with
    | array items => exact ⟨h.1, fun x hx => ih (h.2 x hx)⟩
    | _ => exact h.elim

/-- The values of a type have its shape. -/
theorem Inhabits.holds {t : ClassicalType} {v : Value} (h : t.Inhabits v) : t.shape.Holds v := by
  induction t generalizing v with
  | sized kind n => cases kind <;> cases v <;> trivial
  | array element dims ih => exact holds_of_inhabitsArray (fun _ => ih) h
  | bool | duration | stretch => cases v <;> trivial

end ClassicalType

/-- Operators whose result is a number of the kind that both operands have in common. -/
def BinaryOp.isArithmetic : BinaryOp → Bool
  | .add | .sub | .mul | .div | .mod | .pow => true
  | _ => false

def BinaryOp.isBitwise : BinaryOp → Bool
  | .bitAnd | .bitOr | .bitXor | .shiftLeft | .shiftRight => true
  | _ => false

/-- Operators whose result is a truth value. -/
def BinaryOp.isTest : BinaryOp → Bool
  | .eq | .notEq | .lt | .ltEq | .gt | .gtEq | .and | .or => true
  | _ => false

namespace Value

variable {op : BinaryOp} {l r v x : Value}

theorem evalUnary_not (h : evalUnary .not v = .ok x) : ∃ b, x = .bool b := by
  simp only [evalUnary] at h
  split at h
  · cases h
    exact ⟨_, rfl⟩
  · cases h

/-- A number with another sign or other bits is of the same kind. -/
theorem evalUnary_shape {op : UnaryOp} {s : Shape} (hop : op ≠ .not) (hv : s.HoldsPart v)
    (h : evalUnary op v = .ok x) : s.Holds x := by
  rcases hv.array_or_holds with ⟨items, rfl⟩ | hv
  · cases op with
    | not => exact absurd rfl hop
    | neg | bitNot => cases h
  · cases op with
    | not => exact absurd rfl hop
    | neg =>
      cases v with
      | int n =>
        cases h
        exact Shape.holds_int.2 (Shape.holds_int.1 hv)
      | float y =>
        cases h
        exact Shape.holds_float.2 (Shape.holds_float.1 hv)
      | complex z =>
        cases h
        exact Shape.holds_complex.2 (Shape.holds_complex.1 hv)
      | duration y u =>
        cases h
        exact Shape.holds_duration.2 (Shape.holds_duration.1 hv)
      | _ => cases h
    | bitNot =>
      cases v with
      | int n =>
        cases h
        exact Shape.holds_int.2 (Shape.holds_int.1 hv)
      | _ => cases h

theorem evalLogic_eq_ok {combine : Bool → Bool → Bool} (h : evalLogic op l r combine = .ok x) : ∃ b, x = .bool b := by
  unfold evalLogic at h
  split at h
  · cases h
    exact ⟨_, rfl⟩
  · nomatch h

theorem evalBinary_test (hop : op.isTest = true) (h : evalBinary op l r = .ok x) : ∃ b, x = .bool b := by
  cases op with
  | and | or => exact evalLogic_eq_ok h
  | eq | notEq =>
    simp only [evalBinary] at h
    split at h <;> cases h
    exact ⟨_, rfl⟩
  | lt | ltEq | gt | gtEq =>
    simp only [evalBinary] at h
    split at h <;> cases h <;> exact ⟨_, rfl⟩
  | _ => cases hop

theorem evalBinary_concat {t : ClassicalType} {a b : ClassicalType} (ht : ClassicalType.concat? a b = some t)
    (hl : a.shape.HoldsPart l) (hr : b.shape.HoldsPart r) (h : evalBinary .concat l r = .ok x) :
    t.shape.HoldsPart x ∧ (a.shape.Holds l → b.shape.Holds r → t.shape.Holds x) := by
  obtain ⟨m, n, element, ha, hb, hshape⟩ := ClassicalType.shape_concat ht
  rw [ha] at hl ⊢
  rw [hb] at hr ⊢
  rw [hshape]
  obtain ⟨vs, rfl, hvs⟩ := Shape.holdsPart_list hl
  obtain ⟨ws, rfl, hws⟩ := Shape.holdsPart_list hr
  cases h
  have hitems : ∀ v ∈ vs ++ ws, element.Holds v := List.forall_mem_append.2 ⟨hvs, hws⟩
  refine ⟨hitems, fun hvs' hws' => ⟨?_, hitems⟩⟩
  rw [List.length_append, hvs'.1, hws'.1]

theorem evalBinary_eq_arithmetic (hop : op.isArithmetic = true ∨ op.isBitwise = true) :
    evalBinary op l r = evalArithmetic op l r := by
  cases op with
  | add | sub | mul | div | mod | pow | bitAnd | bitOr | bitXor | shiftLeft | shiftRight => rfl
  | _ => rcases hop with hop | hop <;> nomatch hop

/-- The kind of an arithmetic result. Integers have a power that is an integer only for exponents of 32 bits. -/
def resultShape (op : BinaryOp) (l r : Value) : Shape :=
  match l, r with
  | int _, int b => if op = .pow ∧ ¬(0 ≤ b ∧ b.toInt < Bound.size) then .float else .int
  | duration _ _, duration _ _ => if op = .div then .float else .duration
  | duration _ _, _ | _, duration _ _ => .duration
  | complex _, _ | _, complex _ => .complex
  | _, _ => .float

section ResultShape

variable {a : Float} {u : TimeUnit} {z : Complex}

theorem resultShape_duration_left (hr : ∀ b v, r ≠ duration b v) : resultShape op (duration a u) r = .duration := by
  cases r with
  | duration b v => exact absurd rfl (hr b v)
  | _ => rfl

theorem resultShape_duration_right (hl : ∀ b v, l ≠ duration b v) : resultShape op l (duration a u) = .duration := by
  cases l with
  | duration b v => exact absurd rfl (hl b v)
  | _ => rfl

theorem resultShape_complex_left (hr : ∀ b v, r ≠ duration b v) : resultShape op (complex z) r = .complex := by
  cases r with
  | duration b v => exact absurd rfl (hr b v)
  | _ => rfl

theorem resultShape_complex_right (hl : ∀ b v, l ≠ duration b v) : resultShape op l (complex z) = .complex := by
  cases l with
  | duration b v => exact absurd rfl (hl b v)
  | _ => rfl

theorem resultShape_real (hints : ∀ a b, l = int a → r ≠ int b) (hl : ∀ b v, l ≠ duration b v)
    (hr : ∀ b v, r ≠ duration b v) (hl' : ∀ z, l ≠ complex z) (hr' : ∀ z, r ≠ complex z) :
    resultShape op l r = .float := by
  unfold resultShape
  split
  · exact absurd rfl (hints _ _ rfl)
  · exact absurd rfl (hl _ _)
  · exact absurd rfl (hl _ _)
  · exact absurd rfl (hr _ _)
  · exact absurd rfl (hl' _)
  · exact absurd rfl (hr' _)
  · rfl

end ResultShape

theorem intOperation_shape {a b : Int64} (h : intOperation op a b = .ok x) :
    (resultShape op (int a) (int b)).Holds x := by
  cases op with
  | add | sub | mul | bitAnd | bitOr | bitXor =>
    cases h
    trivial
  | div | mod | shiftLeft | shiftRight =>
    simp only [intOperation] at h
    split at h <;> cases h
    trivial
  | pow =>
    simp only [intOperation] at h
    by_cases hsmall : 0 ≤ b ∧ b.toInt < Bound.size
    · rw [if_pos hsmall] at h
      cases h
      simp [resultShape, hsmall]
    · rw [if_neg hsmall] at h
      cases h
      simp [resultShape, hsmall]
  | _ => nomatch h

theorem durationOperation?_shape (h : durationOperation? op l r = some x) :
    op.isArithmetic = true ∧ (resultShape op l r).Holds x := by
  unfold durationOperation? at h
  split at h
  · split at h
    · split at h <;> cases h <;> exact ⟨rfl, trivial⟩
    · nomatch h
  · next hother =>
    rw [resultShape_duration_left hother]
    split at h <;> cases h <;> exact ⟨rfl, trivial⟩
  · next hother =>
    rw [resultShape_duration_right hother]
    split at h
    · cases h
      exact ⟨rfl, trivial⟩
    · nomatch h
  · nomatch h

theorem complexOperation?_arithmetic {a b z : Complex} (h : complexOperation? op a b = some z) :
    op.isArithmetic = true := by
  cases op <;> first | rfl | cases h

theorem realOperation?_arithmetic {a b y : Float} (h : realOperation? op a b = some y) : op.isArithmetic = true := by
  cases op <;> first | rfl | cases h

/-- Arithmetic on values that are not both integers. -/
theorem arithmetic?_shape (hints : ∀ a b, l = int a → r ≠ int b) (h : arithmetic? op l r = some x) :
    op.isArithmetic = true ∧ (resultShape op l r).Holds x := by
  unfold arithmetic? at h
  split at h
  · exact durationOperation?_shape h
  · exact durationOperation?_shape h
  · next hl hr =>
    split at h
    · obtain ⟨a, -, h⟩ := Option.bind_eq_some_iff.1 h
      obtain ⟨b, -, h⟩ := Option.bind_eq_some_iff.1 h
      obtain ⟨z, hz, rfl⟩ := Option.map_eq_some_iff.1 h
      rw [resultShape_complex_left hr]
      exact ⟨complexOperation?_arithmetic hz, trivial⟩
    · obtain ⟨a, -, h⟩ := Option.bind_eq_some_iff.1 h
      obtain ⟨b, -, h⟩ := Option.bind_eq_some_iff.1 h
      obtain ⟨z, hz, rfl⟩ := Option.map_eq_some_iff.1 h
      rw [resultShape_complex_right hl]
      exact ⟨complexOperation?_arithmetic hz, trivial⟩
    · next hl' hr' =>
      obtain ⟨a, -, h⟩ := Option.bind_eq_some_iff.1 h
      obtain ⟨b, -, h⟩ := Option.bind_eq_some_iff.1 h
      obtain ⟨y, hy, rfl⟩ := Option.map_eq_some_iff.1 h
      rw [resultShape_real hints hl hr hl' hr']
      exact ⟨realOperation?_arithmetic hy, trivial⟩

/-- Arithmetic and bitwise operations have results of the kind that goes by those of the operands. Bitwise ones are
defined on integers only. -/
theorem evalArithmetic_shape (h : evalArithmetic op l r = .ok x) :
    (resultShape op l r).Holds x ∧ ((∃ a b, l = int a ∧ r = int b) ∨ op.isArithmetic = true) := by
  unfold evalArithmetic at h
  split at h
  · cases h
  · split at h
    · exact ⟨intOperation_shape h, Or.inl ⟨_, _, rfl, rfl⟩⟩
    · next hints =>
      split at h
      · next v hv =>
        cases h
        obtain ⟨hop, hx⟩ := arithmetic?_shape hints hv
        exact ⟨hx, Or.inr hop⟩
      · cases h

theorem durationOperation?_array (a : Float) (u : TimeUnit) (items : List Value) :
    durationOperation? op (duration a u) (array items) = none ∧
      durationOperation? op (array items) (duration a u) = none := by
  cases op <;> exact ⟨rfl, rfl⟩

theorem arithmetic?_array (items : List Value) (v : Value) :
    arithmetic? op (array items) v = none ∧ arithmetic? op v (array items) = none := by
  cases v with
  | duration a u => exact (durationOperation?_array a u items).symm
  | _ => exact ⟨rfl, rfl⟩

/-- There is no arithmetic on arrays. -/
theorem evalArithmetic_array (h : evalArithmetic op l r = .ok x) (items : List Value) :
    l ≠ array items ∧ r ≠ array items := by
  unfold evalArithmetic at h
  split at h
  · cases h
  · split at h
    · exact ⟨nofun, nofun⟩
    · split at h
      · next v hv =>
        constructor
        · rintro rfl
          cases (arithmetic?_array items r).1.symm.trans hv
        · rintro rfl
          cases (arithmetic?_array items l).2.symm.trans hv
      · cases h

end Value

/-- Operations whose result is of another kind than their type, given the value of the right operand. -/
inductive Mistyped : BinaryOp → ClassicalType → ClassicalType → Value → Prop
  /-- A power of integers is a real number if the exponent is negative or has more than 32 bits. -/
  | power {l r : ClassicalType} {b : Int64} :
    l.shape = .int → ¬(0 ≤ b ∧ b.toInt < Bound.size) → Mistyped .pow l r (.int b)
  /-- The ratio of two durations is a real number. -/
  | ratio {l r : ClassicalType} {w : Value} :
    l.shape = .duration → r.shape = .duration → Mistyped .div l r w
  /-- The rule for arithmetic does not know stretches, whose values are durations. -/
  | stretchLeft {op : BinaryOp} {r : ClassicalType} {w : Value} :
    op.isArithmetic = true → r ≠ .duration → Mistyped op .stretch r w
  | stretchRight {op : BinaryOp} {l : ClassicalType} {w : Value} :
    op.isArithmetic = true → l ≠ .duration → Mistyped op l .stretch w
  /-- A duration is scaled by a complex number if this is real; the type is that of complex numbers. -/
  | scaledLeft {op : BinaryOp} {l r : ClassicalType} {w : Value} :
    op.isArithmetic = true → l.shape = .complex → r.shape = .duration → Mistyped op l r w
  | scaledRight {op : BinaryOp} {l r : ClassicalType} {w : Value} :
    op.isArithmetic = true → l.shape = .duration → r.shape = .complex → Mistyped op l r w
  /-- An array without dimensions, which no program can spell, is a single value of any kind. -/
  | bareLeft {op : BinaryOp} {element r : ClassicalType} {w : Value} :
    op.isArithmetic = true → Mistyped op (.array element []) r w
  | bareRight {op : BinaryOp} {l element : ClassicalType} {w : Value} :
    op.isArithmetic = true → Mistyped op l (.array element []) w

theorem Mistyped.isArithmetic {op : BinaryOp} {l r : ClassicalType} {w : Value} (h : Mistyped op l r w) :
    op.isArithmetic = true := by
  cases h with
  | power | ratio => rfl
  | stretchLeft hop | stretchRight hop | scaledLeft hop | scaledRight hop | bareLeft hop | bareRight hop => exact hop

namespace Shape

/-- The kind of number that two kinds have in common. -/
def join (a b : Shape) : Shape :=
  if a = complex ∨ b = complex then complex
  else if a = duration ∨ b = duration then duration
  else if a = float ∨ b = float then float
  else int

/-- A value that is no array has one shape only. -/
theorem Holds.iff_eq {a s : Shape} {v : Value} (h : a.Holds v) (ha : ∀ n element, a ≠ list n element) :
    s.Holds v ↔ s = a := by
  cases v with
  | array items =>
    obtain ⟨element, rfl, -⟩ := holds_array.1 h
    exact absurd rfl (ha _ _)
  | bool x => rw [holds_bool.1 h, holds_bool]
  | int x => rw [holds_int.1 h, holds_int]
  | float x => rw [holds_float.1 h, holds_float]
  | complex z => rw [holds_complex.1 h, holds_complex]
  | duration x u => rw [holds_duration.1 h, holds_duration]

end Shape

namespace ClassicalType

section Arithmetic

variable {op : BinaryOp} {l r t : ClassicalType} {v w x : Value}

theorem shape_arithmetic_sized (j k : SizedKind) (m n : Nat) :
    (arithmetic (.sized j m) (.sized k n)).shape = Shape.join j.shape k.shape := by
  cases j <;> cases k <;> rfl

theorem holds_duration_cases (h : Shape.duration.Holds v) : ∃ a u, v = .duration a u := by
  cases v with
  | duration a u => exact ⟨a, u, rfl⟩
  | _ => exact h.elim

theorem holds_int_cases (h : Shape.int.Holds v) : ∃ a, v = .int a := by
  cases v with
  | int a => exact ⟨a, rfl⟩
  | _ => exact h.elim

theorem shape_sized_ne_duration (k : SizedKind) : k.shape ≠ .duration := by cases k <;> exact nofun

/-- The values of numeric types. -/
theorem number_cases {k : SizedKind} (h : k.shape.Holds v) : (∃ a, v = .int a ∧ k.shape = .int) ∨
    (∃ y, v = .float y ∧ k.shape = .float) ∨ ∃ z, v = .complex z ∧ k.shape = .complex := by
  cases v with
  | int a => exact Or.inl ⟨a, rfl, Shape.holds_int.1 h⟩
  | float y => exact Or.inr (Or.inl ⟨y, rfl, Shape.holds_float.1 h⟩)
  | complex z => exact Or.inr (Or.inr ⟨z, rfl, Shape.holds_complex.1 h⟩)
  | _ => cases k <;> exact h.elim

/-- Numbers that are not both integers have a result of the kind that they have in common. -/
theorem resultShape_join {j k : SizedKind} (hv : j.shape.Holds v) (hw : k.shape.Holds w)
    (hints : ¬(j.shape = .int ∧ k.shape = .int)) : Value.resultShape op v w = Shape.join j.shape k.shape := by
  rcases number_cases hv with ⟨a, rfl, hj⟩ | ⟨a, rfl, hj⟩ | ⟨a, rfl, hj⟩ <;>
    rcases number_cases hw with ⟨b, rfl, hk⟩ | ⟨b, rfl, hk⟩ | ⟨b, rfl, hk⟩ <;>
    rw [hj, hk] <;> first | rfl | exact absurd ⟨hj, hk⟩ hints

/-- On numbers only a power can have a result of another kind than its type. -/
theorem arithmetic_sized_iff {j k : SizedKind} {m n : Nat} (hv : j.shape.Holds v) (hw : k.shape.Holds w) :
    (arithmetic (.sized j m) (.sized k n)).shape = Value.resultShape op v w ↔
      ¬Mistyped op (.sized j m) (.sized k n) w := by
  have hnot (hpower : ∀ b, w = .int b → op = .pow → j.shape = .int → 0 ≤ b ∧ b.toInt < Bound.size) :
      ¬Mistyped op (.sized j m) (.sized k n) w := by
    intro h
    cases h with
    | power hl hb => exact hb (hpower _ rfl rfl hl)
    | ratio hl => exact shape_sized_ne_duration j hl
    | scaledLeft _ _ hr => exact shape_sized_ne_duration k hr
    | scaledRight _ hl => exact shape_sized_ne_duration j hl
  rw [shape_arithmetic_sized]
  by_cases hints : j.shape = .int ∧ k.shape = .int
  · obtain ⟨hj, hk⟩ := hints
    rw [hj] at hv
    rw [hk] at hw
    obtain ⟨a, rfl⟩ := holds_int_cases hv
    obtain ⟨b, rfl⟩ := holds_int_cases hw
    rw [hj, hk]
    by_cases hpower : op = .pow ∧ ¬(0 ≤ b ∧ b.toInt < Bound.size)
    · have hfloat : Value.resultShape op (.int a) (.int b) = .float := if_pos hpower
      obtain ⟨rfl, hb⟩ := hpower
      rw [hfloat]
      exact iff_of_false nofun (not_not.2 (.power hj hb))
    · have hint : Value.resultShape op (.int a) (.int b) = .int := if_neg hpower
      rw [hint]
      refine iff_of_true rfl (hnot fun c hc hop _ => ?_)
      cases hc
      by_contra hb
      exact hpower ⟨hop, hb⟩
  · -- The type is that of the kind in common, and so is the result.
    rw [resultShape_join hv hw hints]
    refine iff_of_true rfl (hnot fun b hb _ hj => absurd ⟨hj, ?_⟩ hints)
    rw [hb] at hw
    exact Shape.holds_int.1 hw

theorem shape_arithmetic_duration (k : SizedKind) (n : Nat) :
    (arithmetic (.sized k n) .duration).shape = (if k.shape = .complex then .complex else .duration) ∧
      (arithmetic .duration (.sized k n)).shape = (if k.shape = .complex then .complex else .duration) := by
  cases k <;> exact ⟨rfl, rfl⟩

theorem shape_arithmetic_stretch (k : SizedKind) (n : Nat) :
    (arithmetic (.sized k n) .stretch).shape = k.shape ∧ (arithmetic .stretch (.sized k n)).shape = k.shape := by
  cases k <;> exact ⟨rfl, rfl⟩

theorem not_duration_of_holds {k : SizedKind} (hv : k.shape.Holds v) (a : Float) (u : TimeUnit) :
    v ≠ .duration a u := by
  rintro rfl
  exact shape_sized_ne_duration k (Shape.holds_duration.1 hv)

/-- Among durations only the ratio is none, where the type is that of durations. -/
theorem arithmetic_durations_iff (hplain : ¬(l.isArray = true ∨ r.isArray = true)) (hl : l.shape = .duration)
    (hr : r.shape = .duration) (htype : (arithmetic l r).shape = .duration) (hleft : l = .stretch → r = .duration)
    (hright : r = .stretch → l = .duration) (hv : l.shape.Holds v) (hw : r.shape.Holds w) :
    (arithmetic l r).shape = Value.resultShape op v w ↔ ¬Mistyped op l r w := by
  obtain ⟨a, u, rfl⟩ := holds_duration_cases (hl ▸ hv)
  obtain ⟨b, u', rfl⟩ := holds_duration_cases (hr ▸ hw)
  rw [htype]
  by_cases hop : op = .div
  · have hfloat : Value.resultShape op (.duration a u) (.duration b u') = .float := if_pos hop
    rw [hfloat]
    subst hop
    exact iff_of_false nofun (not_not.2 (.ratio hl hr))
  · have hduration : Value.resultShape op (.duration a u) (.duration b u') = .duration := if_neg hop
    rw [hduration]
    refine iff_of_true rfl fun h => ?_
    cases h with
    | ratio => exact hop rfl
    | stretchLeft _ hne => exact hne (hleft rfl)
    | stretchRight _ hne => exact hne (hright rfl)
    | scaledLeft _ hcomplex => nomatch hl.symm.trans hcomplex
    | scaledRight _ _ hcomplex => nomatch hr.symm.trans hcomplex
    | bareLeft => exact hplain (Or.inl rfl)
    | bareRight => exact hplain (Or.inr rfl)

/-- The type of arithmetic is that of its result, just where the operation is not one of those that are mistyped. -/
theorem arithmetic_shape_iff (hplain : ¬(l.isArray = true ∨ r.isArray = true)) (hl : l ≠ .bool) (hr : r ≠ .bool)
    (hop : op.isArithmetic = true) (hv : l.shape.Holds v) (hw : r.shape.Holds w) :
    (arithmetic l r).shape = Value.resultShape op v w ↔ ¬Mistyped op l r w := by
  -- The type goes by the two types in the order of the rule: complex numbers first, then durations, then the others.
  -- The result goes by durations first, which makes the difference for complex numbers.
  cases l with
  | bool => exact absurd rfl hl
  | array element dims => exact absurd (Or.inl rfl) hplain
  | sized j m =>
    have hnone := not_duration_of_holds hv
    cases r with
    | bool => exact absurd rfl hr
    | array element dims => exact absurd (Or.inr rfl) hplain
    | sized k n => exact arithmetic_sized_iff hv hw
    | duration =>
      obtain ⟨b, u, rfl⟩ := holds_duration_cases hw
      rw [(shape_arithmetic_duration j m).1, Value.resultShape_duration_right hnone]
      by_cases hcomplex : j.shape = .complex
      · rw [if_pos hcomplex]
        exact iff_of_false nofun (not_not.2 (.scaledLeft hop hcomplex rfl))
      · rw [if_neg hcomplex]
        refine iff_of_true rfl fun h => ?_
        cases h with
        | ratio hduration => exact shape_sized_ne_duration j hduration
        | scaledLeft _ h => exact hcomplex h
        | scaledRight _ _ h => nomatch h
    | stretch =>
      obtain ⟨b, u, rfl⟩ := holds_duration_cases hw
      rw [(shape_arithmetic_stretch j m).1, Value.resultShape_duration_right hnone]
      exact iff_of_false (shape_sized_ne_duration j) (not_not.2 (.stretchRight hop nofun))
  | duration =>
    cases r with
    | bool => exact absurd rfl hr
    | array element dims => exact absurd (Or.inr rfl) hplain
    | sized k n =>
      obtain ⟨a, u, rfl⟩ := holds_duration_cases hv
      rw [(shape_arithmetic_duration k n).2, Value.resultShape_duration_left (not_duration_of_holds hw)]
      by_cases hcomplex : k.shape = .complex
      · rw [if_pos hcomplex]
        exact iff_of_false nofun (not_not.2 (.scaledRight hop rfl hcomplex))
      · rw [if_neg hcomplex]
        refine iff_of_true rfl fun h => ?_
        cases h with
        | power h => nomatch h
        | ratio _ hduration => exact shape_sized_ne_duration k hduration
        | scaledLeft _ h => nomatch h
        | scaledRight _ _ h => exact hcomplex h
    | duration => exact arithmetic_durations_iff hplain rfl rfl rfl nofun nofun hv hw
    | stretch => exact arithmetic_durations_iff hplain rfl rfl rfl nofun (fun _ => rfl) hv hw
  | stretch =>
    obtain ⟨a, u, rfl⟩ := holds_duration_cases hv
    cases r with
    | bool => exact absurd rfl hr
    | array element dims => exact absurd (Or.inr rfl) hplain
    | sized k n =>
      rw [(shape_arithmetic_stretch k n).2, Value.resultShape_duration_left (not_duration_of_holds hw)]
      exact iff_of_false (shape_sized_ne_duration k) (not_not.2 (.stretchLeft hop nofun))
    | duration => exact arithmetic_durations_iff hplain rfl rfl rfl (fun _ => rfl) nofun hv hw
    | stretch =>
      -- The type is that of integers, and the value is a duration or a ratio.
      obtain ⟨b, u', rfl⟩ := holds_duration_cases hw
      have hresult : Value.resultShape op (.duration a u) (.duration b u') =
        if op = .div then .float else .duration := rfl
      rw [hresult]
      refine iff_of_false (fun h => ?_) (not_not.2 (.stretchLeft hop nofun))
      split at h <;> exact absurd h nofun

theorem eq_bool_of_test (hop : op.isTest = true) (h : binary op l r = .ok t) : t = .bool := by
  cases op with
  | eq | notEq | lt | ltEq | gt | gtEq | and | or =>
    cases h
    rfl
  | _ => nomatch hop

theorem binary_arithmetic (hop : op.isArithmetic = true) (h : binary op l r = .ok t) :
    t = arithmetic l r ∧ l ≠ .bool ∧ r ≠ .bool := by
  cases op with
  | add | sub | mul | div | mod | pow =>
    simp only [binary] at h
    split at h
    · nomatch h
    · next hbool =>
      cases h
      exact ⟨rfl, not_or.1 hbool⟩
  | _ => nomatch hop

/-- The four kinds of operators, and how their types are found. -/
theorem binary_cases (h : binary op l r = .ok t) :
    (op.isTest = true ∧ t = .bool) ∨ (op = .concat ∧ concat? l r = some t) ∨
      (op.isBitwise = true ∧ t = l) ∨
      (op.isArithmetic = true ∧ t = arithmetic l r ∧ l ≠ .bool ∧ r ≠ .bool) := by
  cases op with
  | eq | notEq | lt | ltEq | gt | gtEq | and | or => exact Or.inl ⟨rfl, eq_bool_of_test rfl h⟩
  | concat =>
    simp only [binary] at h
    split at h
    · next hconcat =>
      cases h
      exact Or.inr (Or.inl ⟨rfl, hconcat⟩)
    · cases h
  | bitAnd | bitOr | bitXor | shiftLeft | shiftRight =>
    simp only [binary] at h
    split at h
    · cases h
    · split at h
      · cases h
      · cases h
        exact Or.inr (Or.inr (Or.inl ⟨rfl, rfl⟩))
  | add | sub | mul | div | mod | pow => exact Or.inr (Or.inr (Or.inr ⟨rfl, binary_arithmetic rfl h⟩))

/-- Bitwise operations are defined on integers only, and have integers as results. -/
theorem evalBinary_bitwise (hop : op.isBitwise = true) (hx : Value.evalBinary op v w = .ok x) :
    (∃ a, v = .int a) ∧ ∃ c, x = .int c := by
  rw [Value.evalBinary_eq_arithmetic (Or.inr hop)] at hx
  obtain ⟨hshape, hints | harithmetic⟩ := Value.evalArithmetic_shape hx
  · obtain ⟨a, b, rfl, rfl⟩ := hints
    have hint : Value.resultShape op (.int a) (.int b) = .int := by
      refine if_neg fun h => ?_
      rw [h.1] at hop
      nomatch hop
    rw [hint] at hshape
    cases x with
    | int c => exact ⟨⟨a, rfl⟩, c, rfl⟩
    | _ => exact hshape.elim
  · cases op with
    | bitAnd | bitOr | bitXor | shiftLeft | shiftRight => nomatch harithmetic
    | _ => nomatch hop

theorem resultShape_ne_list (op : BinaryOp) (v w : Value) (n : Nat) (element : Shape) :
    Value.resultShape op v w ≠ .list n element := by
  intro h
  unfold Value.resultShape at h
  split at h
  · split at h <;> cases h
  · split at h <;> cases h
  all_goals cases h

/-- The result of arithmetic has the type of the operation, just where this is not mistyped. -/
theorem evalBinary_arithmetic_iff (hop : op.isArithmetic = true) (hl : l ≠ .bool) (hr : r ≠ .bool)
    (hplain : ¬(l.isArray = true ∨ r.isArray = true)) (hv : l.shape.Holds v) (hw : r.shape.Holds w)
    (hx : Value.evalBinary op v w = .ok x) : (arithmetic l r).shape.Holds x ↔ ¬Mistyped op l r w := by
  rw [Value.evalBinary_eq_arithmetic (Or.inl hop)] at hx
  obtain ⟨hshape, -⟩ := Value.evalArithmetic_shape hx
  exact (hshape.iff_eq (resultShape_ne_list op v w)).trans (arithmetic_shape_iff hplain hl hr hop hv hw)

theorem eq_array_of_isArray (h : t.isArray = true) : ∃ element dims, t = .array element dims := by
  cases t with
  | array element dims => exact ⟨element, dims, rfl⟩
  | _ => nomatch h

theorem shape_ne_list (h : ¬t.isArray = true) (n : Nat) (element : Shape) : t.shape ≠ .list n element := by
  cases t with
  | sized k _ => cases k <;> exact nofun
  | array _ _ => exact absurd rfl h
  | bool | duration | stretch => exact nofun

theorem not_array_of_arithmetic (hop : op.isArithmetic = true) (hkind : ¬Mistyped op l r w) (hl : l.shape.HoldsPart v)
    (hr : r.shape.HoldsPart w) (hx : Value.evalBinary op v w = .ok x) : ¬(l.isArray = true ∨ r.isArray = true) := by
  rw [Value.evalBinary_eq_arithmetic (Or.inl hop)] at hx
  rintro (h | h)
  · obtain ⟨element, dims, rfl⟩ := eq_array_of_isArray h
    cases dims with
    | nil => exact hkind (.bareLeft hop)
    | cons d ds =>
      obtain ⟨items, rfl, -⟩ := Shape.holdsPart_list hl
      exact (Value.evalArithmetic_array hx items).1 rfl
  · obtain ⟨element, dims, rfl⟩ := eq_array_of_isArray h
    cases dims with
    | nil => exact hkind (.bareRight hop)
    | cons d ds =>
      obtain ⟨items, rfl, -⟩ := Shape.holdsPart_list hr
      exact (Value.evalArithmetic_array hx items).2 rfl

/-- An operation with a result has one of its type, if it is not mistyped. The result of a concatenation of parts is
a part. -/
theorem evalBinary_holds (ht : binary op l r = .ok t) (hkind : ¬Mistyped op l r w) (hl : l.shape.HoldsPart v)
    (hr : r.shape.HoldsPart w) (hx : Value.evalBinary op v w = .ok x) :
    t.shape.HoldsPart x ∧ ((op = .concat → l.shape.Holds v ∧ r.shape.Holds w) → t.shape.Holds x) := by
  have hexact (h : t.shape.Holds x) :
      t.shape.HoldsPart x ∧ ((op = .concat → l.shape.Holds v ∧ r.shape.Holds w) → t.shape.Holds x) :=
    ⟨h.part, fun _ => h⟩
  rcases binary_cases ht with ⟨hop, rfl⟩ | ⟨rfl, hconcat⟩ | ⟨hop, rfl⟩ | ⟨hop, rfl, hl', hr'⟩
  · obtain ⟨b, rfl⟩ := Value.evalBinary_test hop hx
    exact hexact trivial
  · obtain ⟨hpart, hwhole⟩ := Value.evalBinary_concat hconcat hl hr hx
    exact ⟨hpart, fun h => hwhole (h rfl).1 (h rfl).2⟩
  · obtain ⟨⟨a, rfl⟩, c, rfl⟩ := evalBinary_bitwise hop hx
    have hint : t.shape = .int := hl.int
    exact hexact (hint ▸ trivial)
  · have hplain : ¬(l.isArray = true ∨ r.isArray = true) := not_array_of_arithmetic hop hkind hl hr hx
    obtain ⟨hl'', hr''⟩ := not_or.1 hplain
    have hv := hl.holds (shape_ne_list hl'')
    have hw := hr.holds (shape_ne_list hr'')
    exact hexact ((evalBinary_arithmetic_iff hop hl' hr' hplain hv hw hx).2 hkind)

end Arithmetic

end ClassicalType

end OpenQasm
