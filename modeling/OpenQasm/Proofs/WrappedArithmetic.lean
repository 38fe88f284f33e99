import OpenQasm.Proofs.DeclaredLiterals
import OpenQasm.Proofs.LowBits
import OpenQasm.Proofs.PartialEvaluation

/-!
Integer expressions in arithmetic of the width of a type. Evaluation has words of 64 bits throughout, and a
value is cut to the width of a type only where it is stored. For sums, products, powers and bitwise operations
this comes to the same as to cut each result, since the last bits of a result are those of the operation on the
last bits of its operands.
-/
namespace OpenQasm

variable {n : Nat}

/-- The operations on words whose last bits depend on the last bits of both operands alone. -/
def BinaryOp.onBits? (n : Nat) : BinaryOp → Option (BitVec n → BitVec n → BitVec n)
  | .add => some (· + ·)
  | .sub => some (· - ·)
  | .mul => some (· * ·)
  | .bitAnd => some (· &&& ·)
  | .bitOr => some (· ||| ·)
  | .bitXor => some (· ^^^ ·)
  | _ => none

namespace Word

/-- The word in which a number of `n` bits is kept as a value of an integer type. -/
def stored (kind : SizedKind) (x : BitVec n) : Int64 :=
  match kind with
  | .int => ofSigned x
  | _ => ofUnsigned x

theorem low_stored (hn : n ≤ 64) (kind : SizedKind) (x : BitVec n) : low n (stored kind x) = x := by
  cases kind with
  | int => exact low_ofSigned hn x
  | _ => exact low_ofUnsigned hn x

end Word

namespace Value

open Word

/-- What is stored of a word are its last bits. -/
theorem coerce_int {kind : SizedKind} (hkind : ClassicalType.IsInteger kind) (hpos : 0 < n) (hn : n ≤ 64)
    (v : Int64) : coerce (.sized kind n) (.int v) = .ok (.int (stored kind (low n v))) := by
  rcases hkind with rfl | rfl | rfl
  · show Except.ok (int (wrapSigned v n)) = .ok (int (ofSigned (low n v)))
    rw [wrapSigned_eq hpos hn]
  · show Except.ok (int (wrapUnsigned v n)) = .ok (int (ofUnsigned (low n v)))
    rw [wrapUnsigned_eq hn]
  · show Except.ok (int (wrapUnsigned v n)) = .ok (int (ofUnsigned (low n v)))
    rw [wrapUnsigned_eq hn]

/-- One operation on words is, on their last bits, the operation of so many bits. -/
theorem evalBinary_low {op : BinaryOp} {f : BitVec n → BitVec n → BitVec n} (hop : op.onBits? n = some f)
    (hn : n ≤ 64) (v w : Int64) :
    ∃ r, evalBinary op (.int v) (.int w) = .ok (.int r) ∧ low n r = f (low n v) (low n w) := by
  cases op with
  | add => cases hop; exact ⟨v + w, rfl, low_add hn v w⟩
  | sub => cases hop; exact ⟨v - w, rfl, low_sub hn v w⟩
  | mul => cases hop; exact ⟨v * w, rfl, low_mul hn v w⟩
  | bitAnd => cases hop; exact ⟨v &&& w, rfl, low_and v w⟩
  | bitOr => cases hop; exact ⟨v ||| w, rfl, low_or v w⟩
  | bitXor => cases hop; exact ⟨v ^^^ w, rfl, low_xor v w⟩
  | _ => nomatch hop

/-- A power is one of integers as long as its exponent is a natural number of 32 bits. -/
theorem evalBinary_pow {v w : Int64} {k : Nat} (hw : w.toInt = k) (hk : k < Bound.size) :
    evalBinary .pow (.int v) (.int w) = .ok (.int (pow v k)) := by
  have hsmall : 0 ≤ w ∧ w.toInt < Bound.size := by
    rw [Int64.le_iff_toInt_le, hw]
    exact ⟨Int.natCast_nonneg k, Int.ofNat_lt.2 hk⟩
  show intOperation .pow v w = _
  rw [intOperation, if_pos hsmall, hw, Int.toNat_natCast]

end Value

namespace Analysis

open Word

section Evaluation

variable {calls : Calls} {config : Config} {s : State} {e l r : Expr} {v w u : Value} {kind : SizedKind}
  {x : BitVec n}

theorem Gives.still (h : Gives calls config s e v) : Still calls config s e := by
  intro w t hrun
  cases h.symm.trans hrun
  rfl

theorem Gives.paren (h : Gives calls config s e v) : Gives calls config s (.paren e) v := by
  rwa [Gives, fold]

theorem Gives.unary {op : UnaryOp} (h : Gives calls config s e v) (hop : Value.evalUnary op v = .ok w) :
    Gives calls config s (.unary op e) w :=
  gives_unary.2 ⟨v, h, hop⟩

theorem Gives.binary {op : BinaryOp} (hl : Gives calls config s l v) (hr : Gives calls config s r w)
    (hdecided : decided? op (some v) = none) (hop : Value.evalBinary op v w = .ok u) :
    Gives calls config s (.binary l op r) u :=
  (gives_binary hl.still).2 ⟨v, hl, Or.inr ⟨hdecided, w, hr, hop⟩⟩

/-- The number that an expression comes to where every operator is one on numbers of `n` bits. The values that
it starts from are kept as values of an integer type of this width. -/
inductive Computes (calls : Calls) (config : Config) (s : State) (kind : SizedKind) {n : Nat} :
    Expr → BitVec n → Prop
  | value {e : Expr} {x : BitVec n} : Gives calls config s e (.int (stored kind x)) → Computes calls config s kind e x
  | paren {e : Expr} {x : BitVec n} : Computes calls config s kind e x → Computes calls config s kind (.paren e) x
  | neg {e : Expr} {x : BitVec n} :
    Computes calls config s kind e x → Computes calls config s kind (.unary .neg e) (-x)
  | bitNot {e : Expr} {x : BitVec n} :
    Computes calls config s kind e x → Computes calls config s kind (.unary .bitNot e) (~~~x)
  | operation {l r : Expr} {op : BinaryOp} {f : BitVec n → BitVec n → BitVec n} {x y : BitVec n} :
    op.onBits? n = some f → Computes calls config s kind l x → Computes calls config s kind r y →
      Computes calls config s kind (.binary l op r) (f x y)
  | power {l r : Expr} {m : UInt64} {x : BitVec n} :
    Computes calls config s kind l x → IntegerLiteral false m r → m.toNat < Bound.size →
      Computes calls config s kind (.binary l .pow r) (x ^ m.toNat)

/-- Evaluation in words has the last bits of the number that is computed. -/
theorem Computes.gives (hn : n ≤ 64) (h : Computes calls config s kind e x) :
    ∃ v, Gives calls config s e (.int v) ∧ low n v = x := by
  induction h with
  | @value e x hvalue => exact ⟨stored kind x, hvalue, low_stored hn kind x⟩
  | paren _ ih =>
    obtain ⟨v, hv, hlow⟩ := ih
    exact ⟨v, hv.paren, hlow⟩
  | @neg e x _ ih =>
    obtain ⟨v, hv, hlow⟩ := ih
    have hneg : low n (-v) = -x := by rw [low_neg hn, hlow]
    exact ⟨-v, hv.unary rfl, hneg⟩
  | @bitNot e x _ ih =>
    obtain ⟨v, hv, hlow⟩ := ih
    have hnot : low n (~~~v) = ~~~x := by rw [low_not hn, hlow]
    exact ⟨~~~v, hv.unary rfl, hnot⟩
  | @operation l r op f x y hop _ _ ihl ihr =>
    obtain ⟨v, hv, hlowl⟩ := ihl
    obtain ⟨w, hw, hlowr⟩ := ihr
    obtain ⟨u, hu, hlow⟩ := Value.evalBinary_low hop hn v w
    -- Only `&&` and `||` can be decided by their left operand.
    have hdecided : decided? op (some (.int v)) = none := by
      cases op <;> first | rfl | nomatch hop
    rw [hlowl, hlowr] at hlow
    exact ⟨u, hv.binary hw hdecided hu, hlow⟩
  | @power l r m x _ hliteral hm ih =>
    obtain ⟨v, hv, hlow⟩ := ih
    -- The exponent is a literal, and it is not cut to the width of the type.
    have hinteger : m.toNat < Bound.integer := lt_trans hm (by decide)
    have hexponent : Gives calls config s r (.int (IntegerLiteral.word false m)) := by
      rw [Gives, hliteral.fold_eq, if_pos hinteger]
    have hword : (IntegerLiteral.word false m).toInt = m.toNat := IntegerLiteral.toInt_word false hinteger
    have hpow : low n (pow v m.toNat) = x ^ m.toNat := by rw [low_pow hn, hlow]
    exact ⟨pow v m.toNat, hv.binary hexponent rfl (Value.evalBinary_pow hword hm), hpow⟩

/-- An expression that is evaluated in words of 64 bits and then stored in a type of at most as many bits has
the value that it has where every operator wraps to the width of the type. -/
theorem wrapped_where_stored (hkind : ClassicalType.IsInteger kind) (hpos : 0 < n) (hn : n ≤ 64)
    (h : Computes calls config s kind e x) :
    ∃ v, Gives calls config s e (.int v) ∧
      Value.coerce (.sized kind n) (.int v) = .ok (.int (stored kind x)) := by
  obtain ⟨v, hv, hlow⟩ := h.gives hn
  have hstored := Value.coerce_int hkind hpos hn v
  rw [hlow] at hstored
  exact ⟨v, hv, hstored⟩

end Evaluation

namespace Overflow

/-- A variable of eight bits. -/
def operand : Symbol :=
  { name := "a", kind := .classicalVariable, span := .none, type := some (.sized .int 8),
    value := some (.int 100) }

def state : State := .ofSymbols [operand]

/-- The sum is beyond eight bits, and so is the power. -/
def power : Expr := .binary (.paren (.binary (.name "a") .add (.name "a"))) .pow (.int 3)

end Overflow

/-- The sum wraps to `-56`, and the power of it from `-175616` to zero. -/
theorem power_wrapped_where_stored : ∃ v, Gives (.nested 0) .default Overflow.state Overflow.power (.int v) ∧
    Value.coerce (.sized .int 8) (.int v) = .ok (.int (stored .int (0 : BitVec 8))) := by
  have hname : Gives (.nested 0) .default Overflow.state (.name "a") (.int (stored .int (100 : BitVec 8))) := rfl
  have hadd : BinaryOp.onBits? 8 .add = some (· + ·) := rfl
  have hsum := Computes.operation hadd (.value hname) (.value hname)
  have hpower := Computes.power (.paren hsum) (.digits 3) (by decide)
  have hresult : (100 + 100 : BitVec 8) ^ (3 : UInt64).toNat = 0 := by decide
  exact hresult ▸ wrapped_where_stored (Or.inl rfl) (by decide) (by decide) hpower

end Analysis

end OpenQasm
