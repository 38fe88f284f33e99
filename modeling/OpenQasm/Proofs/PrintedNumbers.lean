import OpenQasm.Parameter
import OpenQasm.Proofs.PrintedExpressions
import OpenQasm.Proofs.SignedNumbers

/-!
Printed numbers. A natural number is printed as one literal. A double is printed as the text of its
magnitude, behind a minus sign if it has one; where that text is a literal of the same value, what is
printed is read as the literal or as its negation.
-/
namespace OpenQasm

open OpenQasm.Parser OpenQasm.Grammar OpenQasm.Grammar.Nested

namespace Token

theorem decimal_digits {cs : List Char} (h : ∀ c ∈ cs, Decimal.isDigit c = true) :
    decimal cs = (ofNat (Decimal.natOfDigits cs), cs.length) := by
  have hwhole : cs.takeWhile Decimal.isDigit = cs := by
    have happend : (cs ++ []).takeWhile Decimal.isDigit = cs ++ [].takeWhile Decimal.isDigit :=
      List.takeWhile_append_of_pos h
    rwa [List.append_nil, List.takeWhile_nil, List.append_nil] at happend
  rw [decimal_eq, hwhole]
  dsimp only
  rw [List.drop_length]
  rfl

theorem number_digits {c : Char} {cs : List Char} (h : ∀ d ∈ c :: cs, Decimal.isDigit d = true) :
    number (c :: cs) = (ofNat (Decimal.natOfDigits (c :: cs)), cs.length + 1) := by
  have hdecimal := decimal_digits h
  by_cases hc : c = '0'
  · subst hc
    cases cs with
    | nil => exact hdecimal
    | cons x cs =>
      have hx : Decimal.isDigit x = true := h x (List.mem_cons_of_mem _ List.mem_cons_self)
      have hletter : x ≠ 'x' ∧ x ≠ 'X' ∧ x ≠ 'b' ∧ x ≠ 'B' := by
        refine ⟨?_, ?_, ?_, ?_⟩ <;> rintro rfl <;> nomatch hx
      refine Eq.trans ?_ hdecimal
      rw [number_zero]
      simp only [hletter, decide_false, Bool.or_false, Bool.false_and, Bool.false_eq_true, if_false]
  · exact (number_other hc cs).trans hdecimal

theorem headPiece_digit {c : Char} (hc : Decimal.isDigit c = true) (cs : List Char) :
    headPiece c cs = number (c :: cs) := by
  have hne : ∀ d, Decimal.isDigit d = false → c ≠ d := by
    rintro d hd rfl
    nomatch hd.symm.trans hc
  have hbelow : ∀ d, ('9' < d) → ¬d ≤ c := fun d hd hdc => by
    have hle : c ≤ '9' := of_decide_eq_true (Bool.and_eq_true_iff.1 hc).2
    exact absurd (Char.le_trans hdc hle) (Char.not_le.2 hd)
  have hspace : isSpace c = false := by
    simp only [isSpace, hne ' ' rfl, hne '\t' rfl, hne '\r' rfl, hne '\n' rfl, hne '\x0c' rfl, decide_false,
      Bool.or_false]
  have hname : isNameStart c = false := by
    simp only [isNameStart, hbelow 'a' (by decide), hbelow 'A' (by decide), hne '_' rfl, decide_false,
      Bool.false_and, Bool.or_false]
  simp only [headPiece, hspace, hname, hne '"' rfl, hne '#' rfl, hne '/' rfl, decide_false, Bool.false_and,
    Bool.false_eq_true, if_false, numberOrPunctuation, hc, Bool.true_or, if_true]

theorem toList_toString (n : Nat) : (toString n).toList = Nat.toDigits 10 n := Nat.toList_repr

theorem isDigit_of_mem_toString {n : Nat} : ∀ c ∈ (toString n).toList, Decimal.isDigit c = true := by
  intro c hc
  rw [toList_toString] at hc
  exact Nat.isDigit_of_mem_toDigits (by decide) (by decide) hc

/-- A number is printed as one literal. -/
theorem spells_nat {n : Nat} (h : n < Bound.literal) : (Token.int n.toUInt64).Spells (toString n) := by
  have hdigits := @isDigit_of_mem_toString n
  have hvalue : Decimal.natOfDigits (toString n).toList = n := by
    rw [toList_toString]
    exact Nat.ofDigitChars_toDigits (by decide) (by decide)
  obtain ⟨c, cs, htext⟩ : ∃ c cs, (toString n).toList = c :: cs := by
    rw [toList_toString]
    exact List.exists_cons_of_ne_nil Nat.toDigits_ne_nil
  rw [htext] at hdigits hvalue
  refine ⟨c, cs, htext, ?_⟩
  rw [headPiece_digit (hdigits c List.mem_cons_self), number_digits hdigits, hvalue, ofNat, if_pos h]

end Token

/-- An integer literal, which is printed as digits. -/
theorem printable_nat {n : Nat} (h : n < Bound.literal) :
    (Expr.int n.toUInt64).Printable ∧ (Expr.int n.toUInt64).opensBrace = false := by
  have hvalue : n.toUInt64.toNat = n := Nat.mod_eq_of_lt h
  have htext : (Expr.int n.toUInt64).text = toString n := by
    show toString n.toUInt64.toNat = toString n
    rw [hvalue]
  refine ⟨?_, decide_eq_false fun hbrace => ?_⟩
  · show (Token.int n.toUInt64).Spells (toString n.toUInt64.toNat)
    rw [hvalue]
    exact Token.spells_nat h
  · rw [htext] at hbrace
    nomatch Token.isDigit_of_mem_toString _ (List.mem_of_mem_head? hbrace)

/-- The decimal text of the number is one literal, and the literal has the same value. -/
def Decimal.Legible (x : Float) : Prop :=
  (Token.float x).Spells (Decimal.plain x) ∨
    ∃ n : UInt64, n.toFloat = x ∧ (Token.int n).Spells (Decimal.plain x)

/-- A literal that has a value, as a token and as an expression. -/
inductive Numeral : Token → Expr → Float → Prop
  | int {n : UInt64} : n.toNat < Bound.integer → Numeral (.int n) (.int n) n.toFloat
  | float (x : Float) : Numeral (.float x) (.float x) x

/-- A literal, or a literal behind a minus sign. -/
inductive SignedNumeral : List Token → Expr → Float → Prop
  | plain {t : Token} {e : Expr} {x : Float} : Numeral t e x → SignedNumeral [t] e x
  | minus {t : Token} {e : Expr} {x : Float} :
    Numeral t e x → SignedNumeral [.punctuation .minus, t] (.unary .neg e) (-x)

open Token

section Numerals

variable {t : Token} {ts : List Token} {e : Expr} {x : Float}

theorem Decimal.Legible.numeral (h : Decimal.Legible x) (hx : x < 9223372036854775808.0) :
    ∃ t e, Numeral t e x ∧ t.Spells (Decimal.plain x) := by
  obtain hfloat | ⟨n, rfl, hint⟩ := h
  · exact ⟨_, _, Numeral.float x, hfloat⟩
  · exact ⟨_, _, Numeral.int (Double.toNat_lt_of_toFloat_lt hx), hint⟩

theorem Numeral.not_punctuation (h : Numeral t e x) (p : Punctuation) : t ≠ .punctuation p := by
  cases h <;> nofun

theorem Numeral.scans (h : Numeral t e x) {text : String} (ht : t.Spells text) :
    Scans closesToken text [t] := by
  refine ht.scans ?_
  cases h <;> rfl

/-- Without and with a minus sign the text is cut into the literal and the sign. -/
theorem exists_signedNumeral (hx : x.abs < 9223372036854775808.0) (h : Decimal.Legible x.abs) :
    ∃ ts e, SignedNumeral ts e x ∧ Scans closesToken (Parameter.text (.constant x)) ts := by
  have hnan := Double.isNaN_of_abs_lt hx
  have htext : Parameter.text (.constant x) = Decimal.plain x := by
    rw [Parameter.text, Parameter.textAt, if_neg (Nat.not_lt_zero _)]
  obtain ⟨t, e, hnumeral, ht⟩ := h.numeral hx
  rw [htext]
  cases hsign : Double.isSigned x with
  | false =>
    rw [Double.abs_eq_self hnan hsign] at hnumeral ht
    exact ⟨[t], e, .plain hnumeral, hnumeral.scans ht⟩
  | true =>
    have hminus := SignedNumeral.minus hnumeral
    rw [Double.neg_abs hnan hsign] at hminus
    have hscans := (scans_unary .neg).append (hnumeral.scans ht) fun rest _ c hc => by
      obtain ⟨d, ds, hd, hopens⟩ := ht.opens hnumeral.not_punctuation
      rw [hd] at hc
      cases hc
      exact (Bool.and_eq_true_iff.1 hopens).1
    rw [Double.plain_signed hnan hsign]
    exact ⟨_, _, hminus, hscans⟩

theorem Numeral.operators (h : Numeral t e x) (n least : Nat) :
    e.tokensAt least = [t] ∧ e.withParens least = e ∧ OperatorsAfter n least e := by
  cases h with
  | int =>
    refine ⟨rfl, rfl, IndicesAfter.operatorsAfter ?_ ⟨_, _, rfl, rfl⟩⟩
    exact indicesAfter_of_primary fun next _ => Reads.peek (Reads.skip (reads_pure _ next))
  | float =>
    refine ⟨rfl, rfl, IndicesAfter.operatorsAfter ?_ ⟨_, _, rfl, rfl⟩⟩
    exact indicesAfter_of_primary fun next _ => Reads.peek (Reads.skip (reads_pure _ next))

theorem SignedNumeral.reads (h : SignedNumeral ts e x) (n : Nat) {next : Option Token}
    (hnext : closesExpr next = true) : Reads (nested (n + 2)).whole ts next e := by
  cases h with
  | plain h =>
    obtain ⟨htokens, hparens, hoperators⟩ := h.operators (n + 1) 0
    have hreads := hoperators.whole hnext
    rwa [htokens, hparens] at hreads
  | @minus _ operand _ h =>
    obtain ⟨htokens, hparens, hoperators⟩ := h.operators n UnaryOp.strength
    have hnegated : OperatorsAfter (n + 1) 0 (.unary .neg operand) :=
      operatorsAfter_unary (Nat.not_lt_zero _) hoperators
    have hreads := hnegated.whole hnext
    rw [Expr.tokensAt, Expr.withParens, htokens, hparens] at hreads
    exact hreads

theorem SignedNumeral.opens (h : SignedNumeral ts e x) :
    ∃ t ts', ts = t :: ts' ∧ t ≠ .punctuation .rParen := by
  cases h with
  | plain h => exact ⟨_, [], rfl, h.not_punctuation _⟩
  | minus h => exact ⟨_, _, rfl, nofun⟩

end Numerals

end OpenQasm
