import OpenQasm.Proofs.PrintedNumbers

/-!
Printed parameters. Parameters are printed by five strengths and read back by the fourteen of the grammar; a
negative constant is printed as a negation is. The text of a parameter is read as one expression, whose value
is that of the parameter whatever the values of the symbols are.
-/
namespace OpenQasm

open OpenQasm.Parser OpenQasm.Grammar OpenQasm.Grammar.Nested

/-- The value of an expression over doubles, given those of the names: numbers, names, `pi`, signs, the five
operators of parameters and calls with one argument mean what they say. The values of other expressions are
given as well. -/
def Expr.reading? (names : String → Option Float) (others : Expr → Option Float) : Expr → Option Float
  | .int n => some n.toFloat
  | .float x => some x
  | .name n => names n
  | .constant .pi => some Arithmetic.pi
  | .paren e => e.reading? names others
  | .unary .neg e => (e.reading? names others).map Arithmetic.neg
  | .binary l .add r => do return Arithmetic.add (← l.reading? names others) (← r.reading? names others)
  | .binary l .sub r => do return Arithmetic.sub (← l.reading? names others) (← r.reading? names others)
  | .binary l .mul r => do return Arithmetic.mul (← l.reading? names others) (← r.reading? names others)
  | .binary l .div r => do Arithmetic.div (← l.reading? names others) (← r.reading? names others)
  | .binary l .pow r => do return Arithmetic.pow (← l.reading? names others) (← r.reading? names others)
  | .call f [e] => do Arithmetic.function f (← e.reading? names others)
  | e => others e

/-- The tokens of the text are read as the expression before a closing parenthesis. -/
def Expr.WrittenAs (e : Expr) (text : String) : Prop :=
  ∃ ts, Token.Scans closesToken text ts ∧
    ∀ n, ts.length < n → Reads (nested n).whole ts (some (.punctuation .rParen)) e

/-- A symbol that is an identifier, or the text of an expression in parentheses. -/
inductive Denotes : String → Expr → Prop
  | name {n : String} : (Token.name n).Spells n → Denotes n (.name n)
  | paren {text : String} {e : Expr} : e.WrittenAs text → Denotes ("(" ++ text ++ ")") (.paren e)

/-- The printed text of an expression is read as the expression with the parentheses of the text. -/
theorem Expr.writtenAs_text {e : Expr} (h : e.Printable) : (e.withParens 0).WrittenAs e.text := by
  refine ⟨e.tokensAt 0, e.scans 0 h, fun n hn => ?_⟩
  obtain ⟨k, rfl⟩ : ∃ k, n = k + 1 := Nat.exists_eq_succ_of_ne_zero (Nat.ne_of_gt (Nat.zero_lt_of_lt hn))
  exact (e.readBack 0 k h (Nat.le_of_lt_succ hn)).operators.whole rfl

namespace Parameter

def symbols : Parameter → List String
  | .constant _ | .pi => []
  | .symbol n => [n]
  | .neg a | .function _ a => symbols a
  | .add a b | .sub a b | .mul a b | .div a b | .pow a b => symbols a ++ symbols b

/-- Constants are finite, and the digits of their magnitude are one literal of that value; symbols are
identifiers or expressions in parentheses, and functions are named by identifiers. -/
def Legible : Parameter → Prop
  | .constant x => x.isFinite = true ∧ Decimal.Legible x.abs
  | .symbol n => ∃ e, Denotes n e
  | .pi => True
  | .neg a => Legible a
  | .function f a => (Token.name f).Spells f ∧ Legible a
  | .add a b | .sub a b | .mul a b | .div a b | .pow a b => Legible a ∧ Legible b

/-- A symbol that is an expression in parentheses has the value of the expression. -/
def Values (p : Parameter) (names : String → Option Float) (others : Expr → Option Float) : Prop :=
  ∀ n ∈ symbols p, ∀ e, Denotes n e → names n = e.reading? names others

/-- The expression has the value of the parameter under every valuation of the symbols. -/
def Means (p : Parameter) (e : Expr) : Prop :=
  ∀ names others, Values p names others → e.reading? names others = p.eval? names

end Parameter

open Token

/-- What binds as tightly as this takes a part of an operand of a strength of parameters, if it comes next. -/
def gripAt : Nat → Nat
  | 0 | 1 => 11
  | 2 | 3 => 12
  | s + 4 => s + 13

theorem gripAt_mono {s s' : Nat} (h : s ≤ s') : gripAt s ≤ gripAt s' := by
  unfold gripAt
  split <;> split <;> omega

/-- The text is cut into the tokens, which are read as the expression at the places that ask for no more than the
strength. -/
structure ReadsAs (s : Nat) (text : String) (ts : List Token) (e : Expr) : Prop where
  scans : Scans closesToken text ts
  opening : Opening text ts
  continues : ∀ n, ts.length ≤ n → Continues n (s + 9) (gripAt s) ts e

namespace ReadsAs

variable {s s' : Nat} {text text' : String} {ts ts' : List Token} {e l r : Expr}

theorem weaken (h : ReadsAs s text ts e) (hs : s' ≤ s) : ReadsAs s' text ts e where
  scans := h.scans
  opening := h.opening
  continues n hn := (h.continues n hn).weaken (by omega) (gripAt_mono hs)

theorem whole (h : ReadsAs s text ts e) {n : Nat} (hn : ts.length < n) {next : Option Token}
    (hnext : closesExpr next = true) : Reads (nested n).whole ts next e := by
  obtain ⟨k, rfl⟩ : ∃ k, n = k + 1 := Nat.exists_eq_succ_of_ne_zero (by omega)
  exact (h.continues k (by omega)).whole (by omega) hnext

theorem ofToken {t : Token} (ht : t.Spells text) (hp : ∀ p, t ≠ .punctuation p) (hpragma : t.isPragma = false)
    (hleaf : ∀ n next, isPunctuation .lParen next = false → Reads (nested n).primary [t] next e) :
    ReadsAs s text [t] e where
  scans := ht.scans hpragma
  opening := by
    obtain ⟨c, cs, htext, hopens⟩ := ht.opens hp
    exact ⟨c, cs, t, [], htext, rfl, hopens⟩
  continues n _ := by
    refine continues_of_primary ?_ (hleaf n)
    cases t with
    | punctuation p => exact absurd rfl (hp p)
    | _ => rfl

theorem ofParens (hscans : Scans closesToken text ts)
    (hreads : ∀ n, ts.length < n → Reads (nested n).whole ts (some (.punctuation .rParen)) e) :
    ReadsAs s ("(" ++ text ++ ")") (between .lParen .rParen ts) (.paren e) where
  scans := (hscans.between (p := .lParen) (q := .rParen) rfl rfl (by decide)).mono fun _ _ => rfl
  opening := opening_between (p := .lParen) (q := .rParen) rfl rfl text ")" ts
  continues n hn := by
    rw [length_between] at hn
    exact continues_of_primary rfl fun next _ => reads_paren (hreads n (by omega))

theorem paren (h : ReadsAs s text ts e) :
    ReadsAs s' ("(" ++ text ++ ")") (between .lParen .rParen ts) (.paren e) :=
  ofParens h.scans fun _ hn => h.whole hn rfl

theorem unary (h : ReadsAs 4 text ts e) :
    ReadsAs 3 ("-" ++ text) (.punctuation .minus :: ts) (.unary .neg e) where
  scans := (scans_unary .neg).append h.scans fun rest _ c hc => by
    obtain ⟨d, ds, _, _, htext, -, hopens⟩ := h.opening
    rw [htext] at hc
    cases hc
    exact (Bool.and_eq_true_iff.1 hopens).1
  opening := ⟨'-', text.toList, .punctuation .minus, ts, by rw [String.toList_append]; rfl, rfl, rfl⟩
  continues n hn := by
    obtain ⟨k, rfl⟩ : ∃ k, n = k + 1 := Nat.exists_eq_succ_of_ne_zero (Nat.ne_of_gt (Nat.zero_lt_of_lt hn))
    exact (h.continues k (Nat.le_of_succ_le_succ hn)).unary .neg _ (by decide) (by decide)

/-- An operator whose operands are printed at places that ask for the strengths that it needs. -/
theorem binary {op : BinaryOp} {left right : Nat} (hl : ReadsAs left text ts l) (hr : ReadsAs right text' ts' r)
    (hs : s + 9 = op.strength) (hgrip : gripAt s = op.rightStrength) (hmost : s ≤ left)
    (hgripLeft : op.strength < gripAt left) (hmostRight : op.rightStrength ≤ right + 9)
    (hgripRight : op.rightStrength ≤ gripAt right) :
    ReadsAs s (text ++ " " ++ op.symbol ++ " " ++ text') (ts ++ .punctuation (Token.ofBinary op) :: ts')
      (.binary l op r) where
  scans := by
    have hoperator := (hl.scans.space.then (scans_binary op)).space.then hr.scans
    rwa [List.append_assoc] at hoperator
  opening := by
    simp only [String.append_assoc]
    exact hl.opening.append _ _
  continues n hn := by
    rw [List.length_append, List.length_cons] at hn
    obtain ⟨k, rfl⟩ : ∃ k, n = k + 1 := Nat.exists_eq_succ_of_ne_zero (by omega)
    rw [hgrip]
    exact (hl.continues (k + 1) (by omega)).binary (hr.continues k (by omega)) op (s + 9) (by omega) (by omega)
      hgripLeft hmostRight hgripRight

theorem call {f : String} (h : ReadsAs s text ts e) (hf : (Token.name f).Spells f) :
    ReadsAs s' (f ++ "(" ++ text ++ ")") (.name f :: between .lParen .rParen ts) (.call f [e]) where
  scans := ((hf.scans rfl).bracketed h.scans (p := .lParen) (q := .rParen) rfl (by decide) rfl (by decide)).mono fun _ _ => rfl
  opening := by
    obtain ⟨c, cs, htext, hopens⟩ := hf.opens fun _ => Token.noConfusion
    have hname : Opening f [.name f] := ⟨c, cs, _, [], htext, rfl, hopens⟩
    simp only [String.append_assoc]
    exact hname.append _ _
  continues n hn := by
    rw [List.length_cons, length_between] at hn
    refine continues_of_primary rfl fun next _ => ?_
    have heach : ReadEach (nested n).whole (some (.punctuation .rParen)) [ts] [e] :=
      .cons ⟨h.whole (by omega) rfl, h.whole (by omega) rfl⟩ .nil
    have hopen : ∀ us ∈ [ts], ∃ t us', us = t :: us' ∧ t ≠ .punctuation .rParen := by
      intro us hus
      cases List.mem_singleton.1 hus
      exact h.opening.ne rfl
    have harguments : Reads (nested n).arguments (ts ++ [Token.punctuation .rParen]) next [e] := by
      have hone : Reads (nested n).arguments (commaTokens [ts] ++ [Token.punctuation .rParen]) next [e] :=
        reads_arguments heach hopen
      rwa [commaTokens, List.flatMap_nil, List.append_nil] at hone
    exact Reads.peek (Reads.skip (Reads.accept (harguments.last (reads_pure (Expr.call f [e]) next))))

end ReadsAs

namespace Parameter

variable {p a b : Parameter} {x : Float} {left right : Nat}

theorem textAt_eq (least : Nat) (p : Parameter) : textAt least p = guarded (strength p) least (text p) := by
  rw [text, textAt.eq_def least, textAt.eq_def 0, if_neg (Nat.not_lt_zero _)]
  rfl

theorem text_operation (s s' symbol : String) : s ++ (" " ++ symbol ++ " ") ++ s' = s ++ " " ++ symbol ++ " " ++ s' := by
  simp only [String.append_assoc]

theorem text_eq (p : Parameter) : text p = match p with
    | .constant x => Decimal.plain x
    | .symbol n => n
    | .pi => "pi"
    | .neg a => "-" ++ textAt 4 a
    | .add a b => textAt 1 a ++ " + " ++ textAt 2 b
    | .sub a b => textAt 1 a ++ " - " ++ textAt 2 b
    | .mul a b => textAt 2 a ++ " * " ++ textAt 3 b
    | .div a b => textAt 2 a ++ " / " ++ textAt 3 b
    | .pow a b => textAt 5 a ++ " ** " ++ textAt 4 b
    | .function f a => f ++ "(" ++ textAt 0 a ++ ")" :=
  (textAt.eq_def 0 p).trans (if_neg (Nat.not_lt_zero _))

/-- The text is read as an expression with the value of the parameter. -/
def ReadAt (s : Nat) (text : String) (p : Parameter) : Prop := ∃ ts e, ReadsAs s text ts e ∧ p.Means e

/-- The digits of a magnitude are one literal. -/
theorem readsAs_magnitude {y : Float} (h : Decimal.Legible y) (s : Nat) :
    ∃ ts e, ReadsAs s (Decimal.plain y) ts e ∧ ∀ names others, e.reading? names others = some y := by
  obtain hfloat | ⟨n, rfl, hint⟩ := h
  · have hleaf (k : Nat) (next : Option Token) : Reads (nested k).primary [.float y] next (.float y) :=
      Reads.peek (Reads.skip (reads_pure _ next))
    exact ⟨_, _, .ofToken hfloat nofun rfl fun k next _ => hleaf k next, fun _ _ => rfl⟩
  · have hleaf (k : Nat) (next : Option Token) : Reads (nested k).primary [.int n] next (.int n) :=
      Reads.peek (Reads.skip (reads_pure _ next))
    exact ⟨_, _, .ofToken hint nofun rfl fun k next _ => hleaf k next, fun _ _ => rfl⟩

/-- A negative constant is printed, and read, as the negation of its magnitude. -/
theorem readAt_constant (hx : x.isFinite = true) (h : Decimal.Legible x.abs) :
    ReadAt (strength (.constant x)) (text (.constant x)) (.constant x) := by
  have hnan := Double.isNaN_of_isFinite hx
  have htext : text (.constant x) = Decimal.plain x := text_eq (.constant x)
  rw [htext, strength]
  cases hsign : Double.isSigned x with
  | false =>
    obtain ⟨ts, e, hreads, hvalue⟩ := readsAs_magnitude h 5
    rw [Double.abs_eq_self hnan hsign] at hreads hvalue
    exact ⟨ts, e, hreads, fun names others _ => hvalue names others⟩
  | true =>
    obtain ⟨ts, e, hreads, hvalue⟩ := readsAs_magnitude h 4
    rw [Double.plain_signed hnan hsign]
    refine ⟨_, _, hreads.unary, fun names others _ => ?_⟩
    rw [Expr.reading?, hvalue]
    exact congrArg some (Double.neg_abs hnan hsign)

theorem readAt_symbol {n : String} (h : ∃ e, Denotes n e) : ReadAt 5 n (.symbol n) := by
  obtain ⟨e, he⟩ := h
  have hvalue : Means (.symbol n) e := fun names others hvalues => (hvalues n List.mem_cons_self e he).symm
  cases he with
  | name hn =>
    have hname (k : Nat) (next : Option Token) (hnext : isPunctuation .lParen next = false) :
        Reads (nested k).primary [.name n] next (.name n) :=
      Reads.peek (Reads.skip (Reads.refuse hnext (reads_pure (Expr.name n) next)))
    exact ⟨_, _, .ofToken hn nofun rfl hname, hvalue⟩
  | paren hwritten =>
    obtain ⟨ts, hscans, hreads⟩ := hwritten
    exact ⟨_, _, .ofParens hscans hreads, hvalue⟩

/-- At a place that asks for more strength than it has, a parameter stands in parentheses. -/
theorem ReadAt.guarded (h : ReadAt (strength p) (text p) p) (least : Nat) : ReadAt least (textAt least p) p := by
  obtain ⟨ts, e, hreads, hmeans⟩ := h
  rw [textAt_eq, OpenQasm.guarded]
  split
  · exact ⟨_, _, hreads.paren, hmeans⟩
  · next hstrong => exact ⟨ts, e, hreads.weaken (Nat.not_lt.1 hstrong), hmeans⟩

/-- An operation between two parameters, printed at places that ask for the strengths that the operator needs. -/
theorem ReadAt.operation (ha : ReadAt left (textAt left a) a) (hb : ReadAt right (textAt right b) b) (op : BinaryOp)
    (s : Nat) (hp : strength p = s)
    (hplaces : s + 9 = op.strength ∧ gripAt s = op.rightStrength ∧ s ≤ left ∧ op.strength < gripAt left ∧
      op.rightStrength ≤ right + 9 ∧ op.rightStrength ≤ gripAt right)
    (htext : text p = textAt left a ++ (" " ++ op.symbol ++ " ") ++ textAt right b)
    (hsymbols : symbols p = symbols a ++ symbols b)
    (hvalue : ∀ names others l r, l.reading? names others = a.eval? names → r.reading? names others = b.eval? names →
      (Expr.binary l op r).reading? names others = p.eval? names) : ReadAt (strength p) (text p) p := by
  obtain ⟨ts, l, hl, hmeansl⟩ := ha
  obtain ⟨ts', r, hr, hmeansr⟩ := hb
  obtain ⟨hs, hgrip, hmost, hgripLeft, hmostRight, hgripRight⟩ := hplaces
  rw [hp, htext, text_operation]
  refine ⟨_, _, hl.binary hr hs hgrip hmost hgripLeft hmostRight hgripRight, fun names others hvalues => ?_⟩
  have hvaluesa : Values a names others := fun n hn => hvalues n (hsymbols ▸ List.mem_append_left _ hn)
  have hvaluesb : Values b names others := fun n hn => hvalues n (hsymbols ▸ List.mem_append_right _ hn)
  exact hvalue names others l r (hmeansl names others hvaluesa) (hmeansr names others hvaluesb)

theorem readAt_text : ∀ p : Parameter, Legible p → ReadAt (strength p) (text p) p
  | .constant x, h => readAt_constant h.1 h.2
  | .symbol n, h => readAt_symbol h
  | .pi, _ => by
    have hpi (k : Nat) (next : Option Token) : Reads (nested k).primary [.keyword .pi] next (.constant .pi) :=
      Reads.peek (Reads.skip (reads_pure _ next))
    have hspells : (Token.keyword .pi).Spells "pi" := ⟨'p', ['i'], rfl, rfl⟩
    exact ⟨_, _, .ofToken hspells nofun rfl fun k next _ => hpi k next, fun _ _ _ => rfl⟩
  | .neg a, h => by
    obtain ⟨ts, e, hreads, hmeans⟩ := (readAt_text a h).guarded 4
    rw [text_eq]
    refine ⟨_, _, hreads.unary, fun names others hvalues => ?_⟩
    rw [Expr.reading?, ParamExpr.eval?, hmeans names others hvalues]
  | .function f a, h => by
    obtain ⟨ts, e, hreads, hmeans⟩ := (readAt_text a h.2).guarded 0
    rw [text_eq]
    refine ⟨_, _, hreads.call h.1, fun names others hvalues => ?_⟩
    rw [Expr.reading?, ParamExpr.eval?, hmeans names others hvalues]
  | .add a b, h =>
    ((readAt_text a h.1).guarded 1).operation ((readAt_text b h.2).guarded 2) .add 1 rfl (by decide)
      (text_eq _) rfl fun _ _ _ _ hl hr => by rw [Expr.reading?, ParamExpr.eval?, hl, hr]
  | .sub a b, h =>
    ((readAt_text a h.1).guarded 1).operation ((readAt_text b h.2).guarded 2) .sub 1 rfl (by decide)
      (text_eq _) rfl fun _ _ _ _ hl hr => by rw [Expr.reading?, ParamExpr.eval?, hl, hr]
  | .mul a b, h =>
    ((readAt_text a h.1).guarded 2).operation ((readAt_text b h.2).guarded 3) .mul 2 rfl (by decide)
      (text_eq _) rfl fun _ _ _ _ hl hr => by rw [Expr.reading?, ParamExpr.eval?, hl, hr]
  | .div a b, h =>
    ((readAt_text a h.1).guarded 2).operation ((readAt_text b h.2).guarded 3) .div 2 rfl (by decide)
      (text_eq _) rfl fun _ _ _ _ hl hr => by rw [Expr.reading?, ParamExpr.eval?, hl, hr]
  | .pow a b, h =>
    ((readAt_text a h.1).guarded 5).operation ((readAt_text b h.2).guarded 4) .pow 4 rfl (by decide)
      (text_eq _) rfl fun _ _ _ _ hl hr => by rw [Expr.reading?, ParamExpr.eval?, hl, hr]

/-- The text of a parameter is read to its end and without an error, as an expression that has the value of the
parameter, or none if the parameter has none, under every valuation of the symbols. -/
theorem printed_parameter_means_itself (p : Parameter) (h : p.Legible) :
    let source := Source.ofString p.text
    ∃ e c, Grammar.expression source (Grammar.cursor source) = (.ok e, c) ∧ c.rest = [] ∧ c.errors = [] ∧
      ∀ names others, p.Values names others → e.reading? names others = p.eval? names := by
  intro source
  obtain ⟨ts, e, hreads, hmeans⟩ := readAt_text p h
  obtain ⟨ps, hps, hcursor⟩ := cursor_of_scan hreads.scans.scan
  have hread : Reads Grammar.expression ts none e := Reads.bounded fun n hn => hreads.whole hn rfl
  have hrun := hread source (Cursor.start [] []) ps [] hps rfl
  rw [List.append_nil] at hrun
  rw [hcursor]
  exact ⟨e, _, hrun, rfl, rfl, hmeans⟩

/-- A power under a sign, with a negative exponent, and a quotient of an expression in parentheses. -/
theorem printed_parameter_sign_power :
    let power : Parameter := .neg (.pow (.symbol "theta") (.constant (-0.5)))
    let quotient : Parameter := .div (.symbol "(a + b)") (.function "sin" .pi)
    let p : Parameter := .sub power quotient
    let source := Source.ofString p.text
    p.text = "-theta ** (-0.5) - (a + b) / sin(pi)" ∧
      ∃ e c, Grammar.expression source (Grammar.cursor source) = (.ok e, c) ∧ c.rest = [] ∧ c.errors = [] ∧
        ∀ names others, p.Values names others → e.reading? names others = p.eval? names := by
  intro power quotient p source
  refine ⟨by decide +kernel, printed_parameter_means_itself p ?_⟩
  have ha : (Expr.name "a").Printable := ⟨'a', [], rfl, rfl⟩
  have hb : (Expr.name "b").Printable := ⟨'b', [], rfl, rfl⟩
  have hsum : (Expr.binary (.name "a") .add (.name "b")).Printable := ⟨ha, hb⟩
  have htheta : Denotes "theta" (.name "theta") := .name ⟨'t', ['h', 'e', 't', 'a'], rfl, rfl⟩
  have hhalf : Decimal.Legible (Float.abs (-0.5)) := .inl ⟨'0', ['.', '5'], by decide +kernel, rfl⟩
  have hsin : (Token.name "sin").Spells "sin" := ⟨'s', ['i', 'n'], rfl, rfl⟩
  exact ⟨⟨⟨_, htheta⟩, by decide +kernel, hhalf⟩, ⟨_, .paren (Expr.writtenAs_text hsum)⟩, hsin, trivial⟩

end Parameter

end OpenQasm
