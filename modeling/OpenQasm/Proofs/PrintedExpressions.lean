import OpenQasm.Grammar.Program
import OpenQasm.Proofs.Parentheses
import OpenQasm.Proofs.PrintedTokens
import OpenQasm.Proofs.Reading

/-!
Reading printed expressions. The text of an expression is read as the expression with the parentheses that
are printed; these are the only ones that differ.
-/
namespace OpenQasm

open OpenQasm.Parser OpenQasm.Grammar OpenQasm.Grammar.Nested

namespace BinaryOp

theorem strength_pos (op : BinaryOp) : 1 ≤ op.strength := by cases op <;> decide

theorem strength_le_right (op : BinaryOp) : op.strength ≤ op.rightStrength := by cases op <;> decide

theorem strength_le_left (op : BinaryOp) : op.strength ≤ op.leftStrength := by cases op <;> decide

theorem rightStrength_le (op : BinaryOp) : op.rightStrength ≤ Expr.atomStrength := by
  cases op <;> decide

theorem strength_lt_atom (op : BinaryOp) : op.strength < Expr.atomStrength := by cases op <;> decide

theorem strength_lt_unary {op : BinaryOp} (h : op.leftStrength ≤ UnaryOp.strength) :
    op.strength < UnaryOp.strength := by
  revert h
  cases op <;> decide

theorem strength_lt_right {op op' : BinaryOp} (h : op.leftStrength ≤ op'.strength) :
    op.strength < op'.rightStrength := by
  revert h
  cases op <;> cases op' <;> decide

end BinaryOp

/-- An operator that binds at least so tightly takes the expression, or a part of it, as its left operand if
it comes next. -/
def Expr.grip (least : Nat) : Expr → Nat
  | .unary _ _ => if UnaryOp.strength < least then Expr.atomStrength else UnaryOp.strength
  | .binary _ op _ => if op.strength < least then Expr.atomStrength else op.rightStrength
  | _ => Expr.atomStrength

theorem Expr.le_grip {least : Nat} (h : least ≤ Expr.atomStrength) (e : Expr) : least ≤ e.grip least := by
  cases e with
  | unary op e =>
    rw [Expr.grip]
    split
    · exact h
    · omega
  | binary l op r =>
    have hright := op.strength_le_right
    rw [Expr.grip]
    split
    · exact h
    · omega
  | _ => exact h

/-- An operator leaves its left operand whole. -/
theorem Expr.strength_lt_grip (op : BinaryOp) (e : Expr) : op.strength < e.grip op.leftStrength := by
  cases e with
  | unary _ e =>
    rw [Expr.grip]
    split
    · exact op.strength_lt_atom
    · next hunary => exact BinaryOp.strength_lt_unary (Nat.not_lt.1 hunary)
  | binary l op' r =>
    rw [Expr.grip]
    split
    · exact op.strength_lt_atom
    · next hbinary => exact BinaryOp.strength_lt_right (Nat.not_lt.1 hbinary)
  | _ => exact op.strength_lt_atom

/-- What comes next is no argument, no index, and no operator that binds so tightly. -/
structure Follows (strength : Nat) (next : Option Token) : Prop where
  argument : isPunctuation .lParen next = false
  index : isPunctuation .lBracket next = false
  operator : ∀ op, binaryOp? next = some op → op.strength < strength

theorem Follows.mono {k k' : Nat} {next : Option Token} (h : Follows k next) (hk : k ≤ k') :
    Follows k' next :=
  ⟨h.argument, h.index, fun op hop => Nat.lt_of_lt_of_le (h.operator op hop) hk⟩

/-- No operator binds less tightly than the least strength. -/
theorem Follows.all {next : Option Token} (h : Follows 1 next) (k : Nat) : Follows k next :=
  ⟨h.argument, h.index, fun op hop => absurd (h.operator op hop) (Nat.not_lt.2 op.strength_pos)⟩

/-- What may come after a whole expression. -/
def closesExpr : Option Token → Bool
  | none => true
  | some (.punctuation s) => [.comma, .colon, .rParen, .rBracket, .rBrace].contains s
  | _ => false

theorem follows_of_closes {next : Option Token} (h : closesExpr next = true) (k : Nat) :
    Follows k next := by
  match next, h with
  | none, _ => exact ⟨rfl, rfl, nofun⟩
  | some (.punctuation s), h =>
    have hs : s = .comma ∨ s = .colon ∨ s = .rParen ∨ s = .rBracket ∨ s = .rBrace := by
      simpa [closesExpr] using h
    obtain rfl | rfl | rfl | rfl | rfl := hs <;> exact ⟨rfl, rfl, nofun⟩

theorem follows_ofBinary {op : BinaryOp} {k : Nat} (h : op.strength < k) :
    Follows k (some (.punctuation (Token.ofBinary op))) := by
  have hop : binaryOp? (some (.punctuation (Token.ofBinary op))) = some op := by cases op <;> rfl
  refine ⟨by cases op <;> rfl, by cases op <;> rfl, fun op' hop' => ?_⟩
  cases hop.symm.trans hop'
  exact h

namespace Grammar.Nested

variable {self : Nested} {next : Option Token}

theorem reads_indexed_stop (h : isPunctuation .lBracket next = false) (fuel : Nat) (e : Expr) :
    Reads (self.indexed fuel e) [] next e := by
  cases fuel with
  | zero => exact reads_pure e next
  | succ fuel => exact Reads.refuse h (reads_pure e next)

theorem reads_operators_stop {least : Nat} (h : ∀ op, binaryOp? next = some op → op.strength < least)
    (fuel : Nat) (e : Expr) : Reads (self.operators least fuel e) [] next e := by
  cases fuel with
  | zero => exact reads_pure e next
  | succ fuel =>
    refine Reads.peek ?_
    rw [List.head?_nil, Option.none_or]
    cases hop : binaryOp? next with
    | none => exact reads_pure e next
    | some op =>
      dsimp only
      rw [if_pos (h op hop)]
      exact reads_pure e next

/-- The reader reads each of the token lists as the item that belongs to it, before a comma and before the
token that comes next. -/
def ReadEach {α : Type} (item : Parser α) (next : Option Token) (tss : List (List Token)) (as : List α) :
    Prop :=
  List.Forall₂ (fun ts a => Reads item ts (some (.punctuation .comma)) a ∧ Reads item ts next a) tss as

theorem reads_moreItems {α : Type} {item : Parser α} {tss : List (List Token)} {as : List α}
    (h : ReadEach item next tss as) (hnext : isPunctuation .comma next = false) {fuel : Nat}
    (hfuel : (tss.flatMap (Token.punctuation .comma :: ·)).length < fuel) :
    Reads (moreItems item fuel) (tss.flatMap (Token.punctuation .comma :: ·)) next as := by
  unfold ReadEach at h
  induction h generalizing fuel with
  | nil =>
    obtain ⟨fuel, rfl⟩ : ∃ n, fuel = n + 1 := Nat.exists_eq_succ_of_ne_zero (Nat.ne_of_gt hfuel)
    exact Reads.refuse hnext (reads_pure [] next)
  | @cons ts a tss as hitem _ ih =>
    obtain ⟨fuel, rfl⟩ : ∃ n, fuel = n + 1 :=
      Nat.exists_eq_succ_of_ne_zero (Nat.ne_of_gt (Nat.zero_lt_of_lt hfuel))
    have hrest : (tss.flatMap (Token.punctuation .comma :: ·)).length < fuel := by
      rw [List.flatMap_cons, List.length_append, List.length_cons] at hfuel
      omega
    -- The item is read before the comma of the next item, or before what comes next after all of them.
    have hfirst : Reads item ts ((tss.flatMap (Token.punctuation .comma :: ·)).head?.or next) a := by
      cases tss with
      | nil => exact hitem.2
      | cons _ _ => exact hitem.1
    exact Reads.accept (hfirst.bind ((ih hrest).last (reads_pure (a :: as) next)))

theorem reads_commaSeparated {α : Type} {item : Parser α} {tss : List (List Token)} {as : List α}
    (h : ReadEach item next tss as) (hne : tss ≠ []) (hnext : isPunctuation .comma next = false) :
    Reads (commaSeparated item) (commaTokens tss) next as := by
  cases h with
  | nil => exact absurd rfl hne
  | @cons ts a tss as hitem hrest =>
    have hfirst : Reads item ts ((tss.flatMap (Token.punctuation .comma :: ·)).head?.or next) a := by
      cases tss with
      | nil => exact hitem.2
      | cons _ _ => exact hitem.1
    have hmore := Reads.bounded fun fuel hfuel => reads_moreItems hrest hnext hfuel
    exact hfirst.bind (hmore.last (reads_pure (a :: as) next))

theorem reads_at? (k : Punctuation) (next : Option Token) :
    Reads (at? k) [] next (isPunctuation k next) :=
  Reads.peek (reads_pure (isPunctuation k next) next)

/-- Items up to a closing symbol, none of which starts with it. -/
theorem reads_itemsBefore {α : Type} {item : Parser α} {close : Punctuation} {tss : List (List Token)}
    {as : List α} (h : ReadEach item (some (.punctuation close)) tss as)
    (hopen : ∀ ts ∈ tss, ∃ t ts', ts = t :: ts' ∧ t ≠ .punctuation close) (hclose : close ≠ .comma) :
    Reads (itemsBefore close item) (commaTokens tss) (some (.punctuation close)) as := by
  cases tss with
  | nil =>
    cases h
    refine (reads_at? close _).last ?_
    have hat : isPunctuation close (some (.punctuation close)) = true := decide_eq_true rfl
    rw [if_pos hat]
    exact reads_pure [] _
  | cons ts tss =>
    obtain ⟨t, ts', rfl, ht⟩ := hopen _ List.mem_cons_self
    have hat : isPunctuation close (some t) = false := by
      cases t with
      | punctuation s => exact decide_eq_false fun hs => ht (congrArg _ hs)
      | _ => rfl
    have hcomma : isPunctuation .comma (some (.punctuation close)) = false := decide_eq_false hclose
    refine (reads_at? close _).look ?_
    rw [commaTokens, List.cons_append, List.head?_cons, Option.some_or, hat]
    exact reads_commaSeparated h (List.cons_ne_nil _ _) hcomma

theorem reads_arguments {tss : List (List Token)} {es : List Expr}
    (h : ReadEach self.whole (some (.punctuation .rParen)) tss es)
    (hopen : ∀ ts ∈ tss, ∃ t ts', ts = t :: ts' ∧ t ≠ .punctuation .rParen) :
    Reads self.arguments (commaTokens tss ++ [Token.punctuation .rParen]) next es :=
  (reads_itemsBefore h hopen nofun).bind (Reads.expect (reads_pure es next))

theorem reads_braced {tss : List (List Token)} {es : List Expr}
    (h : ReadEach self.whole (some (.punctuation .rBrace)) tss es)
    (hopen : ∀ ts ∈ tss, ∃ t ts', ts = t :: ts' ∧ t ≠ .punctuation .rBrace) :
    Reads self.braced (between .lBrace .rBrace (commaTokens tss)) next es :=
  Reads.expect ((reads_itemsBefore h hopen nofun).bind (Reads.expect (reads_pure es next)))

theorem reads_designator? {ts : List Token} {e : Expr}
    (h : Reads self.whole ts (some (.punctuation .rBracket)) e) :
    Reads self.designator? (between .lBracket .rBracket ts) next (some e) :=
  Reads.accept (h.bind (Reads.expect (reads_pure (some e) next)))

theorem reads_designator?_none (h : isPunctuation .lBracket next = false) :
    Reads self.designator? [] next none :=
  Reads.refuse h (reads_pure none next)

theorem reads_paren {ts : List Token} {e : Expr} (h : Reads self.whole ts (some (.punctuation .rParen)) e) :
    Reads self.primary (between .lParen .rParen ts) next (.paren e) :=
  Reads.peek (Reads.skip (h.bind (Reads.expect (reads_pure (Expr.paren e) next))))

theorem reads_cast {k : Keyword} {ts ts' : List Token} {type : TypeExpr} {e : Expr}
    (hk : startsCast k = true)
    (htype : Reads self.typeLevel (.keyword k :: ts) (some (.punctuation .lParen)) type)
    (he : Reads self.whole ts' (some (.punctuation .rParen)) e) :
    Reads self.primary (.keyword k :: ts ++ between .lParen .rParen ts') next (.cast type e) := by
  have hcast : Reads (do
      let type ← self.typeLevel
      expect .lParen
      let e ← self.whole
      expect .rParen
      return Expr.cast type e) (.keyword k :: ts ++ between .lParen .rParen ts') next (.cast type e) :=
    htype.bind (Reads.expect (he.bind (Reads.expect (reads_pure (Expr.cast type e) next))))
  refine Reads.peek ?_
  cases k with
  | bit | int | uint | float | angle | bool | complex | duration => exact hcast
  | _ => nomatch hk

/-- A primary expression with its indices. -/
def suffixed (self : Nested) : Parser Expr := do
  let e ← self.primary
  bounded fun fuel => self.indexed fuel e

end Grammar.Nested

/-- Neither an operation nor a measurement. -/
def Expr.isPrimary (least : Nat) : Expr → Bool
  | .unary _ _ => UnaryOp.strength < least
  | .binary _ op _ => op.strength < least
  | .measure _ => false
  | _ => true

section Phrases

variable {n most most' grip grip' : Nat} {ts ts' : List Token} {e l r : Expr} {next : Option Token}

/-- After the tokens the reader goes on with the expression as it does after a left operand, at every place that
asks for no more strength than `most`, unless an operator comes next that binds as tightly as `grip`. -/
def Continues (n most grip : Nat) (ts : List Token) (e : Expr) : Prop :=
  ∀ ⦃p : Nat⦄ ⦃ts' : List Token⦄ ⦃next : Option Token⦄ ⦃b : Expr⦄, p ≤ most → Follows grip (ts'.head?.or next) →
    (∀ fuel, ts'.length < fuel → Reads ((nested n).operators p fuel e) ts' next b) →
    Reads ((nested n).expressionLevel p) (ts ++ ts') next b

theorem Continues.weaken (h : Continues n most grip ts e) (hmost : most' ≤ most) (hgrip : grip' ≤ grip) :
    Continues n most' grip' ts e :=
  fun _ _ _ _ hp hfollows hrest => h (Nat.le_trans hp hmost) (hfollows.mono hgrip) hrest

theorem continues_of_unary (h : ∀ next, Follows grip next → Reads (nested n).unary ts next e) :
    Continues n most grip ts e :=
  fun _ _ _ _ _ hfollows hrest => (h _ hfollows).bind (Reads.bounded hrest)

theorem Continues.expression {p : Nat} (h : Continues n most grip ts e) (hp : p ≤ most) (hfollows : Follows grip next)
    (hoperator : ∀ op, binaryOp? next = some op → op.strength < p) :
    Reads ((nested (n + 1)).expression p) ts next e := by
  have hlevel := @h p [] next e hp hfollows fun fuel _ => reads_operators_stop hoperator fuel _
  rw [List.append_nil] at hlevel
  exact hlevel

theorem Continues.whole (h : Continues n most grip ts e) (hmost : 1 ≤ most) (hclose : closesExpr next = true) :
    Reads (nested (n + 1)).whole ts next e :=
  h.expression hmost (follows_of_closes hclose _) (follows_of_closes hclose 1).operator

/-- A primary expression that begins with no prefix operator. -/
theorem continues_of_primary {t : Token} (ht : unaryOp? (some t) = none)
    (h : ∀ next, isPunctuation .lParen next = false → Reads (nested n).primary (t :: ts) next e) :
    Continues n most grip (t :: ts) e := by
  refine continues_of_unary fun next hfollows => Reads.peek ?_
  rw [List.head?_cons, Option.some_or, ht]
  exact (h next hfollows.argument).last (Reads.bounded fun fuel _ => reads_indexed_stop hfollows.index fuel _)

theorem Continues.unary (h : Continues n most grip ts e) (op : UnaryOp) (most' : Nat)
    (hmost : UnaryOp.strength ≤ most) (hgrip : UnaryOp.strength ≤ grip) :
    Continues (n + 1) most' UnaryOp.strength (.punctuation (Token.ofUnary op) :: ts) (.unary op e) := by
  refine continues_of_unary fun next hfollows => ?_
  have hoperand := h.expression hmost (hfollows.mono hgrip) hfollows.operator
  have hop : unaryOp? (some (.punctuation (Token.ofUnary op))) = some op := by cases op <;> rfl
  refine Reads.peek ?_
  rw [List.head?_cons, Option.some_or, hop]
  exact Reads.skip (hoperand.last (reads_pure (Expr.unary op _) next))

/-- An operator whose left operand does not give a part of itself to it. -/
theorem Continues.binary {mostLeft mostRight gripLeft gripRight : Nat}
    (hl : Continues (n + 1) mostLeft gripLeft ts l) (hr : Continues n mostRight gripRight ts' r) (op : BinaryOp)
    (most : Nat) (hmost : most ≤ op.strength) (hmostLeft : most ≤ mostLeft) (hgripLeft : op.strength < gripLeft)
    (hmostRight : op.rightStrength ≤ mostRight) (hgripRight : op.rightStrength ≤ gripRight) :
    Continues (n + 1) most op.rightStrength (ts ++ .punctuation (Token.ofBinary op) :: ts') (.binary l op r) := by
  intro p ts'' next b hp hfollows hrest
  have hstrong : ¬op.strength < p := by omega
  have hop : binaryOp? (some (.punctuation (Token.ofBinary op))) = some op := by cases op <;> rfl
  have hright := hr.expression hmostRight (hfollows.mono hgripRight) hfollows.operator
  rw [List.append_assoc]
  refine hl (Nat.le_trans hp hmostLeft) (follows_ofBinary hgripLeft) fun fuel hfuel => ?_
  obtain ⟨fuel, rfl⟩ : ∃ n, fuel = n + 1 :=
    Nat.exists_eq_succ_of_ne_zero (Nat.ne_of_gt (Nat.zero_lt_of_lt hfuel))
  have hlength : ts''.length < fuel := by
    rw [List.length_append, List.length_cons] at hfuel
    omega
  refine Reads.peek ?_
  rw [List.cons_append, List.head?_cons, Option.some_or, hop]
  dsimp only
  rw [if_neg hstrong]
  exact Reads.skip (hright.bind (hrest fuel hlength))

end Phrases

section Continuations

variable {n least : Nat} {e : Expr} {next : Option Token}

/-- The reader goes on after the expression as it does after a left operand. -/
def OperatorsAfter (n least : Nat) (e : Expr) : Prop :=
  ∀ ⦃p : Nat⦄ ⦃ts : List Token⦄ ⦃next : Option Token⦄ ⦃b : Expr⦄, p ≤ max least 1 →
    Follows (e.grip least) (ts.head?.or next) →
    (∀ fuel, ts.length < fuel → Reads ((nested n).operators p fuel (e.withParens least)) ts next b) →
    Reads ((nested n).expressionLevel p) (e.tokensAt least ++ ts) next b

/-- The reader goes on after the expression as it does before an index. -/
def IndicesAfter (p : Nested → Parser Expr) (n least : Nat) (e : Expr) : Prop :=
  ∀ ⦃ts : List Token⦄ ⦃next : Option Token⦄ ⦃b : Expr⦄, isPunctuation .lParen (ts.head?.or next) = false →
    (∀ fuel, ts.length < fuel → Reads ((nested n).indexed fuel (e.withParens least)) ts next b) →
    Reads (p (nested n)) (e.tokensAt least ++ ts) next b

theorem indicesAfter_of_primary
    (h : ∀ next, isPunctuation .lParen next = false →
      Reads (nested n).primary (e.tokensAt least) next (e.withParens least)) :
    IndicesAfter suffixed n least e :=
  fun _ _ _ hparen hrest => (h _ hparen).bind (Reads.bounded hrest)

theorem operatorsAfter_of_unary
    (h : ∀ next, Follows (e.grip least) next →
      Reads (nested n).unary (e.tokensAt least) next (e.withParens least)) :
    OperatorsAfter n least e :=
  continues_of_unary h

theorem IndicesAfter.operatorsAfter (h : IndicesAfter suffixed n least e)
    (hfirst : ∃ t ts, e.tokensAt least = t :: ts ∧ unaryOp? (some t) = none) :
    OperatorsAfter n least e := by
  refine operatorsAfter_of_unary fun next hfollows => ?_
  have hsuffixed := @h [] next (e.withParens least) hfollows.argument fun fuel _ =>
    reads_indexed_stop hfollows.index fuel _
  rw [List.append_nil] at hsuffixed
  obtain ⟨t, ts, htokens, ht⟩ := hfirst
  rw [htokens] at hsuffixed ⊢
  refine Reads.peek ?_
  rw [List.head?_cons, Option.some_or, ht]
  exact hsuffixed

theorem OperatorsAfter.continues (h : OperatorsAfter n least e) :
    Continues n (max least 1) (e.grip least) (e.tokensAt least) (e.withParens least) := h

theorem OperatorsAfter.whole (h : OperatorsAfter n 0 e) (hclose : closesExpr next = true) :
    Reads (nested (n + 1)).whole (e.tokensAt 0) next (e.withParens 0) :=
  h.continues.whole (Nat.le_max_right 0 1) hclose

theorem indicesAfter_index {p : Nested → Parser Expr} {base : Expr} {items : List IndexItem}
    (hbase : IndicesAfter p n Expr.atomStrength base) (hne : itemsTokens items ≠ [])
    (hitems : ReadEach (nested n).indexItem (some (.punctuation .rBracket)) (itemsTokens items)
      (itemsWithParens items)) : IndicesAfter p n least (.index base items) := by
  intro ts next b _ hrest
  rw [Expr.withParens] at hrest
  rw [Expr.tokensAt, List.append_assoc]
  refine hbase rfl fun fuel hfuel => ?_
  obtain ⟨fuel, rfl⟩ : ∃ n, fuel = n + 1 :=
    Nat.exists_eq_succ_of_ne_zero (Nat.ne_of_gt (Nat.zero_lt_of_lt hfuel))
  have hlength : ts.length < fuel := by
    rw [List.length_append, between, List.length_append, List.length_cons] at hfuel
    omega
  have hcommas := reads_commaSeparated hitems hne rfl
  rw [between, List.cons_append, List.cons_append, List.append_assoc]
  exact Reads.accept (hcommas.bind (Reads.expect (hrest fuel hlength)))

end Continuations

theorem length_between (p q : Punctuation) (ts : List Token) : (between p q ts).length = ts.length + 2 := by
  rw [between, List.cons_append, List.length_cons, List.length_append]
  rfl

theorem length_le_commaTokens {tss : List (List Token)} {ts : List Token} (h : ts ∈ tss) :
    ts.length ≤ (commaTokens tss).length := by
  cases tss with
  | nil => nomatch h
  | cons first tss =>
    rw [commaTokens, List.length_append]
    rcases List.mem_cons.1 h with rfl | hmem
    · omega
    · have hsub : (ts : List Token).length ≤ (tss.flatMap (Token.punctuation .comma :: ·)).length := by
        obtain ⟨front, back, rfl⟩ := List.append_of_mem hmem
        rw [List.flatMap_append, List.flatMap_cons, List.length_append, List.length_append,
          List.length_cons]
        omega
      omega

/-- Expressions start with no symbol that closes something. -/
theorem Opening.ne {s : String} {ts : List Token} (h : Opening s ts) {p : Punctuation}
    (hp : [Punctuation.lParen, .lBrace, .minus, .bang, .tilde].contains p = false) :
    ∃ t ts', ts = t :: ts' ∧ t ≠ .punctuation p := by
  obtain ⟨c, cs, t, ts', -, rfl, hopens⟩ := h
  refine ⟨t, ts', rfl, ?_⟩
  rintro rfl
  have hsecond := (Bool.and_eq_true_iff.1 hopens).2
  cases p with
  | lParen | lBrace | minus | bang | tilde => nomatch hp
  | _ => nomatch hsecond

theorem exprs_open : ∀ {es : List Expr}, exprsPrintable es → ∀ {p : Punctuation},
    [Punctuation.lParen, .lBrace, .minus, .bang, .tilde].contains p = false →
    ∀ ts ∈ exprsTokens es, ∃ t ts', ts = t :: ts' ∧ t ≠ .punctuation p
  | [], _, _, _ => nofun
  | e :: es, h, p, hp => by
    rw [exprsPrintable] at h
    intro ts hts
    rcases List.mem_cons.1 hts with rfl | hts
    · exact (e.opening 0 h.1).ne hp
    · exact exprs_open h.2 hp ts hts

theorem Expr.isPrimary_of_not_measure {e : Expr} (h : e.isMeasure = false) :
    e.isPrimary Expr.atomStrength = true := by
  cases e with
  | measure e => nomatch h
  | binary l op r => exact decide_eq_true op.strength_lt_atom
  | _ => rfl

theorem TypeExpr.tokens_eq_cons : ∀ t : TypeExpr, t.Castable →
    ∃ k ts, t.tokens = .keyword k :: ts ∧ startsCast k = true
  | .bool, _ => ⟨.bool, [], rfl, rfl⟩
  | .duration, _ => ⟨.duration, [], rfl, rfl⟩
  | .sized kind none, _ => ⟨kind.keyword, [], by rw [TypeExpr.tokens], by cases kind <;> rfl⟩
  | .sized kind (some w), _ => by
    cases kind with
    | complex => exact ⟨.complex, _, by rw [TypeExpr.tokens], rfl⟩
    | int => exact ⟨.int, between .lBracket .rBracket (w.tokensAt 0), rfl, rfl⟩
    | uint => exact ⟨.uint, between .lBracket .rBracket (w.tokensAt 0), rfl, rfl⟩
    | float => exact ⟨.float, between .lBracket .rBracket (w.tokensAt 0), rfl, rfl⟩
    | angle => exact ⟨.angle, between .lBracket .rBracket (w.tokensAt 0), rfl, rfl⟩
    | bit => exact ⟨.bit, between .lBracket .rBracket (w.tokensAt 0), rfl, rfl⟩
  | .stretch, h => by
    rw [TypeExpr.Castable] at h
    exact h.elim
  | .array _ _, h => by
    rw [TypeExpr.Castable] at h
    exact h.elim

/-- An expression that is no operation starts with no prefix operator. -/
theorem Expr.tokensAt_primary : ∀ (e : Expr) (least : Nat), e.Printable → e.isPrimary least = true →
    ∃ t ts, e.tokensAt least = t :: ts ∧ unaryOp? (some t) = none
  | .int _, _, _, _ | .float _, _, _, _ | .imaginary _, _, _, _ | .bool true, _, _, _
  | .bool false, _, _, _ | .bits _, _, _, _ | .duration _ _, _, _, _ | .name _, _, _, _
  | .constant _, _, _, _ => ⟨_, _, rfl, rfl⟩
  | .call _ _, _, _, _ | .array _, _, _, _ | .paren _, _, _, _ => by
    rw [Expr.tokensAt]
    exact ⟨_, _, rfl, rfl⟩
  | .unary _ _, least, _, h | .binary _ _ _, least, _, h => by
    rw [Expr.tokensAt, guardedTokens, if_pos (of_decide_eq_true h)]
    exact ⟨_, _, rfl, rfl⟩
  | .index base _, _, h, _ => by
    rw [Expr.Printable] at h
    obtain ⟨t, ts, htokens, ht⟩ := base.tokensAt_primary Expr.atomStrength h.1
      (Expr.isPrimary_of_not_measure h.2.1)
    rw [Expr.tokensAt, htokens]
    exact ⟨t, _, rfl, ht⟩
  | .cast t _, _, h, _ => by
    rw [Expr.Printable] at h
    obtain ⟨k, ts, htokens, -⟩ := t.tokens_eq_cons h.1
    rw [Expr.tokensAt, htokens]
    exact ⟨.keyword k, _, rfl, rfl⟩

/-- How the text of an expression is read, whatever follows it that does not belong to it. -/
structure Expr.ReadBack (n least : Nat) (e : Expr) : Prop where
  operators : OperatorsAfter n least e
  suffixed : e.isPrimary least = true → IndicesAfter suffixed n least e
  operand : e.isOperand = true → IndicesAfter Nested.operand n least e

section Levels

variable {n least : Nat} {e : Expr}

theorem readBack_of_suffixed (h : e.Printable) (hprimary : e.isPrimary least = true)
    (hsuffixed : IndicesAfter suffixed n least e)
    (hoperand : e.isOperand = true → IndicesAfter Nested.operand n least e) : e.ReadBack n least :=
  ⟨hsuffixed.operatorsAfter (e.tokensAt_primary least h hprimary), fun _ => hsuffixed, hoperand⟩

/-- A literal or a named number. -/
theorem readBack_of_leaf {t : Token} (h : e.Printable) (htokens : e.tokensAt least = [t])
    (hparens : e.withParens least = e) (hprimary : e.isPrimary least = true) (hoperand : e.isOperand = false)
    (hleaf : ∀ next, Reads (nested n).primary [t] next e) : e.ReadBack n least := by
  refine readBack_of_suffixed h hprimary (indicesAfter_of_primary fun next _ => ?_) fun ho => ?_
  · rw [htokens, hparens]
    exact hleaf next
  · nomatch hoperand.symm.trans ho

theorem readBack_of_primary (h : e.Printable) (hprimary : e.isPrimary least = true)
    (hoperand : e.isOperand = false)
    (hread : ∀ next, isPunctuation .lParen next = false →
      Reads (nested n).primary (e.tokensAt least) next (e.withParens least)) : e.ReadBack n least :=
  readBack_of_suffixed h hprimary (indicesAfter_of_primary hread) fun ho =>
    nomatch hoperand.symm.trans ho

theorem readBack_name {x : String} (h : (Expr.name x).Printable) : (Expr.name x).ReadBack n least := by
  refine readBack_of_suffixed h rfl (indicesAfter_of_primary fun next hnext => ?_) fun _ ts next b _ hrest => ?_
  · exact Reads.peek (Reads.skip (Reads.refuse hnext (reads_pure (Expr.name x) next)))
  · have hname : Reads Parser.name [.name x] (ts.head?.or next) x :=
      Reads.peek (Reads.skip (reads_pure x _))
    exact hname.bind (Reads.bounded hrest)

/-- An operation that stands in parentheses because its place asks for more strength. -/
theorem readBack_guarded (h : e.Printable) (hprimary : e.isPrimary least = true)
    (hoperand : e.isOperand = false) (htokens : e.tokensAt least = between .lParen .rParen (e.tokensAt 0))
    (hparens : e.withParens least = .paren (e.withParens 0)) (hinner : OperatorsAfter n 0 e) :
    e.ReadBack (n + 1) least := by
  refine readBack_of_primary h hprimary hoperand fun next _ => ?_
  rw [htokens, hparens]
  exact reads_paren (hinner.whole rfl)

theorem operatorsAfter_unary {op : UnaryOp} (hleast : ¬UnaryOp.strength < least)
    (he : OperatorsAfter n UnaryOp.strength e) : OperatorsAfter (n + 1) least (.unary op e) := by
  have hphrase := he.continues.unary op (max least 1) (Nat.le_max_left _ 1) (e.le_grip (by decide))
  have hgrip : (Expr.unary op e).grip least = UnaryOp.strength := by
    rw [Expr.grip, if_neg hleast]
  have htokens : (Expr.unary op e).tokensAt least =
      .punctuation (Token.ofUnary op) :: e.tokensAt UnaryOp.strength := by
    rw [Expr.tokensAt, guardedTokens, if_neg hleast]
  have hparens : (Expr.unary op e).withParens least = .unary op (e.withParens UnaryOp.strength) := by
    rw [Expr.withParens, Expr.guarded, if_neg hleast]
  rwa [← htokens, ← hparens, ← hgrip] at hphrase

theorem operatorsAfter_binary {l r : Expr} {op : BinaryOp} (hleast : ¬op.strength < least)
    (hl : OperatorsAfter (n + 1) op.leftStrength l) (hr : OperatorsAfter n op.rightStrength r) :
    OperatorsAfter (n + 1) least (.binary l op r) := by
  have hpos := op.strength_pos
  have hle := op.strength_le_left
  have hphrase := hl.continues.binary hr.continues op (max least 1) (by omega) (by omega)
    (l.strength_lt_grip op) (Nat.le_max_left _ 1) (r.le_grip op.rightStrength_le)
  have hgrip : (Expr.binary l op r).grip least = op.rightStrength := by
    rw [Expr.grip, if_neg hleast]
  have htokens : (Expr.binary l op r).tokensAt least =
      l.tokensAt op.leftStrength ++ .punctuation (Token.ofBinary op) :: r.tokensAt op.rightStrength := by
    rw [Expr.tokensAt, guardedTokens, if_neg hleast]
  have hparens : (Expr.binary l op r).withParens least =
      .binary (l.withParens op.leftStrength) op (r.withParens op.rightStrength) := by
    rw [Expr.withParens, Expr.guarded, if_neg hleast]
  rwa [← htokens, ← hparens, ← hgrip] at hphrase

end Levels

section Items

variable {self : Nested} {next : Option Token}

/-- A part of a range that is written. -/
theorem reads_rangePart?_some {s : String} {ts : List Token} {e : Expr} (hopen : Opening s ts)
    (h : Reads self.whole ts next e) : Reads self.rangePart? ts next (some e) := by
  obtain ⟨c, cs, t, ts', -, rfl, ht⟩ := hopen
  have hsome : Reads (self.whole >>= fun e => pure (some e)) (t :: ts') next (some e) :=
    h.last (reads_pure (some e) next)
  refine Reads.peek ?_
  rw [List.head?_cons, Option.some_or]
  have hsecond := (Bool.and_eq_true_iff.1 ht).2
  cases t with
  | punctuation p =>
    cases p with
    | colon | rBracket | comma => nomatch hsecond
    | _ => exact hsome
  | _ => exact hsome

theorem reads_rangePart?_none
    (h : next = some (.punctuation .colon) ∨ next = some (.punctuation .comma) ∨
      next = some (.punctuation .rBracket)) : Reads self.rangePart? [] next none := by
  obtain rfl | rfl | rfl := h <;> exact Reads.peek (reads_pure none _)

theorem reads_range {start second : Option Expr} {ts : List Token} (hnext : isPunctuation .colon next = false)
    (hsecond : Reads self.rangePart? ts next second) :
    Reads (self.rangeAfter start) (.punctuation .colon :: ts) next ⟨start, none, second⟩ :=
  Reads.expect (hsecond.last (Reads.refuse hnext (reads_pure (RangeExpr.mk start none second) next)))

theorem reads_steppedRange {start second third : Option Expr} {ts ts' : List Token}
    (hsecond : Reads self.rangePart? ts (some (.punctuation .colon)) second)
    (hthird : Reads self.rangePart? ts' next third) :
    Reads (self.rangeAfter start) (.punctuation .colon :: (ts ++ .punctuation .colon :: ts')) next
      ⟨start, second, third⟩ :=
  Reads.expect (hsecond.bind (Reads.accept
    (hthird.last (reads_pure (RangeExpr.mk start second third) next))))

theorem isPunctuation_of_ne {p : Punctuation} {t : Token} (h : t ≠ .punctuation p) :
    isPunctuation p (some t) = false := by
  cases t with
  | punctuation q => exact decide_eq_false fun hq => h (congrArg _ hq)
  | _ => rfl

theorem reads_rangeStart?_some {s : String} {ts : List Token} {e : Expr} (hopen : Opening s ts)
    (h : Reads self.whole ts next e) : Reads self.rangeStart? ts next (some e) := by
  obtain ⟨t, ts', rfl, ht⟩ := hopen.ne (p := .colon) rfl
  refine (reads_at? .colon _).look ?_
  rw [List.head?_cons, Option.some_or, isPunctuation_of_ne ht]
  exact h.last (reads_pure (some e) next)

theorem reads_rangeStart?_none : Reads self.rangeStart? [] (some (.punctuation .colon)) none :=
  (reads_at? .colon _).look (reads_pure none _)

theorem Expr.not_brace {e : Expr} (h : e.Printable) (hbrace : e.opensBrace = false) (next : Option Token) :
    isPunctuation .lBrace ((e.tokensAt 0).head?.or next) = false := by
  obtain ⟨c, cs, t, ts, htext, htokens, ht⟩ := e.opening 0 h
  rw [htokens, List.head?_cons, Option.some_or]
  refine isPunctuation_of_ne ?_
  rintro rfl
  obtain rfl : c = '\x7b' := of_decide_eq_true (Bool.and_eq_true_iff.1 ht).2
  have hopens : e.opensBrace = true := decide_eq_true (by rw [Expr.text, htext]; rfl)
  nomatch hbrace.symm.trans hopens

theorem reads_single {s : String} {ts : List Token} {e : Expr} (hopen : Opening s ts)
    (hbrace : isPunctuation .lBrace (ts.head?.or next) = false) (hnext : isPunctuation .colon next = false)
    (h : Reads self.whole ts next e) : Reads self.indexItem ts next (.single e) := by
  refine (reads_at? .lBrace _).look ?_
  rw [hbrace]
  refine (reads_rangeStart?_some hopen h).last ((reads_at? .colon _).look ?_)
  rw [List.head?_nil, Option.none_or, hnext]
  exact reads_pure (IndexItem.single e) next

theorem reads_rangeItem {ts ts' : List Token} {start : Option Expr} {r : RangeExpr}
    (hbrace : isPunctuation .lBrace ((ts ++ .punctuation .colon :: ts').head?.or next) = false)
    (hstart : Reads self.rangeStart? ts (some (.punctuation .colon)) start)
    (hrange : Reads (self.rangeAfter start) (.punctuation .colon :: ts') next r) :
    Reads self.indexItem (ts ++ .punctuation .colon :: ts') next (.range r) := by
  refine (reads_at? .lBrace _).look ?_
  rw [hbrace]
  exact hstart.bind ((reads_at? .colon _).look (hrange.last (reads_pure (IndexItem.range r) next)))

theorem reads_width {ts : List Token} {e : Expr} {kind : SizedKind} (hkind : kind ≠ .complex)
    (h : Reads self.whole ts (some (.punctuation .rBracket)) e) :
    Reads self.typeLevel (.keyword kind.keyword :: between .lBracket .rBracket ts) next
      (.sized kind (some e)) := by
  refine Reads.peek ?_
  cases kind with
  | complex => exact absurd rfl hkind
  | int => exact Reads.skip ((reads_designator? h).last (reads_pure (TypeExpr.sized .int (some e)) next))
  | uint => exact Reads.skip ((reads_designator? h).last (reads_pure (TypeExpr.sized .uint (some e)) next))
  | float => exact Reads.skip ((reads_designator? h).last (reads_pure (TypeExpr.sized .float (some e)) next))
  | angle => exact Reads.skip ((reads_designator? h).last (reads_pure (TypeExpr.sized .angle (some e)) next))
  | bit => exact Reads.skip ((reads_designator? h).last (reads_pure (TypeExpr.sized .bit (some e)) next))

end Items

section Options

variable {n : Nat} {next : Option Token} {o : Option Expr}

theorem not_brace_option (h : optionPrintable o) (hbrace : o.all (fun e => !e.opensBrace) = true)
    (ts : List Token) (next : Option Token) :
    isPunctuation .lBrace ((optionTokens o ++ .punctuation .colon :: ts).head?.or next) = false := by
  cases o with
  | none => rfl
  | some e =>
    have hnone : e.opensBrace = false := by simpa using hbrace
    have hfirst := e.not_brace h hnone (some (.punctuation .colon))
    obtain ⟨c, cs, t, ts', -, htokens, -⟩ := e.opening 0 h
    rw [htokens] at hfirst
    rw [optionTokens, htokens]
    exact hfirst

theorem reads_start (h : optionPrintable o) (hread : ∀ e ∈ o, OperatorsAfter n 0 e) :
    Reads (nested (n + 1)).rangeStart? (optionTokens o) (some (.punctuation .colon)) (optionWithParens o) := by
  cases o with
  | none => exact reads_rangeStart?_none
  | some e => exact reads_rangeStart?_some (e.opening 0 h) ((hread e rfl).whole rfl)

theorem reads_part (h : optionPrintable o)
    (hnext : next = some (.punctuation .colon) ∨ next = some (.punctuation .comma) ∨
      next = some (.punctuation .rBracket)) (hread : ∀ e ∈ o, OperatorsAfter n 0 e) :
    Reads (nested (n + 1)).rangePart? (optionTokens o) next (optionWithParens o) := by
  cases o with
  | none => exact reads_rangePart?_none hnext
  | some e =>
    have hclose : closesExpr next = true := by obtain rfl | rfl | rfl := hnext <;> rfl
    exact reads_rangePart?_some (e.opening 0 h) ((hread e rfl).whole hclose)

/-- The tokens of a range behind its first colon. -/
def RangeExpr.laterTokens (r : RangeExpr) : List Token :=
  match r.step with
  | none => optionTokens r.stop
  | some step => step.tokensAt 0 ++ .punctuation .colon :: optionTokens r.stop

theorem RangeExpr.tokens_eq (r : RangeExpr) :
    r.tokens = optionTokens r.start ++ .punctuation .colon :: r.laterTokens := by
  obtain ⟨start, step, stop⟩ := r
  cases step <;> rfl

/-- The parts of a range have no more tokens than the range. -/
theorem RangeExpr.length_parts (r : RangeExpr) : (optionTokens r.start).length ≤ r.tokens.length ∧
    (optionTokens r.step).length ≤ r.tokens.length ∧ (optionTokens r.stop).length ≤ r.tokens.length := by
  obtain ⟨start, step, stop⟩ := r
  cases step <;> simp only [RangeExpr.tokens, optionTokens, List.length_append, List.length_cons, List.length_nil] <;>
    omega

theorem reads_rangeAfter {r : RangeExpr} (h : r.Printable)
    (hnext : next = some (.punctuation .comma) ∨ next = some (.punctuation .rBracket))
    (hstep : ∀ e ∈ r.step, OperatorsAfter n 0 e) (hstop : ∀ e ∈ r.stop, OperatorsAfter n 0 e) :
    Reads ((nested (n + 1)).rangeAfter (optionWithParens r.start)) (.punctuation .colon :: r.laterTokens) next
      r.withParens := by
  have hpart := reads_part h.2.2 (Or.inr hnext) hstop
  obtain ⟨start, step, stop⟩ := r
  cases step with
  | none =>
    have hcolon : isPunctuation .colon next = false := by obtain rfl | rfl := hnext <;> rfl
    exact reads_range hcolon hpart
  | some step => exact reads_steppedRange (reads_part h.2.1 (Or.inl rfl) hstep) hpart

end Options

mutual

theorem Expr.readBack : ∀ (e : Expr) (least n : Nat), e.Printable →
    (e.tokensAt least).length ≤ n → e.ReadBack n least
  | .int _, _, _, h, _ | .float _, _, _, h, _ | .imaginary _, _, _, h, _ | .duration _ _, _, _, h, _
  | .bool true, _, _, h, _ | .bool false, _, _, h, _ | .constant .pi, _, _, h, _
  | .constant .tau, _, _, h, _ | .constant .euler, _, _, h, _ =>
    readBack_of_leaf h rfl rfl rfl rfl fun next => Reads.peek (Reads.skip (reads_pure _ next))
  | .bits digits, _, _, h, _ => by
    refine readBack_of_leaf h rfl rfl rfl rfl fun next => Reads.peek ?_
    rw [Expr.Printable] at h
    dsimp only [List.head?_cons, Option.some_or]
    rw [h.2]
    exact Reads.skip (reads_pure (Expr.bits digits) next)
  | .name x, _, _, h, _ => readBack_name h
  | .unary op e, least, n, h, hn => by
    have he := h
    rw [Expr.Printable] at he
    have hbare (n' least' : Nat) (hleast : ¬UnaryOp.strength < least')
        (hn' : (e.tokensAt UnaryOp.strength).length + 1 ≤ n') : OperatorsAfter n' least' (.unary op e) := by
      obtain ⟨k, rfl⟩ : ∃ k, n' = k + 1 := Nat.exists_eq_succ_of_ne_zero (Nat.ne_of_gt (Nat.zero_lt_of_lt hn'))
      exact operatorsAfter_unary hleast
        (e.readBack UnaryOp.strength k he (Nat.le_of_succ_le_succ hn')).operators
    rw [Expr.tokensAt, guardedTokens] at hn
    by_cases hleast : UnaryOp.strength < least
    · rw [if_pos hleast, length_between, List.length_cons] at hn
      obtain ⟨k, rfl⟩ : ∃ k, n = k + 1 := Nat.exists_eq_succ_of_ne_zero (by omega)
      refine readBack_guarded h (decide_eq_true hleast) rfl ?_ ?_ (hbare k 0 (by decide) (by omega))
      · simp only [Expr.tokensAt, guardedTokens, if_pos hleast, Nat.not_lt_zero, if_false]
      · simp only [Expr.withParens, Expr.guarded, if_pos hleast, Nat.not_lt_zero, if_false]
    · rw [if_neg hleast, List.length_cons] at hn
      exact ⟨hbare n least hleast hn, fun hprimary => absurd (of_decide_eq_true hprimary) hleast, nofun⟩
  | .binary l op r, least, n, h, hn => by
    have hlr := h
    rw [Expr.Printable] at hlr
    have hbare (n' least' : Nat) (hleast : ¬op.strength < least')
        (hn' : (l.tokensAt op.leftStrength).length + ((r.tokensAt op.rightStrength).length + 1) ≤ n') :
        OperatorsAfter n' least' (.binary l op r) := by
      obtain ⟨k, rfl⟩ : ∃ k, n' = k + 1 := Nat.exists_eq_succ_of_ne_zero (by omega)
      exact operatorsAfter_binary hleast (l.readBack op.leftStrength (k + 1) hlr.1 (by omega)).operators
        (r.readBack op.rightStrength k hlr.2 (by omega)).operators
    rw [Expr.tokensAt, guardedTokens] at hn
    by_cases hleast : op.strength < least
    · rw [if_pos hleast, length_between, List.length_append, List.length_cons] at hn
      obtain ⟨k, rfl⟩ : ∃ k, n = k + 1 := Nat.exists_eq_succ_of_ne_zero (by omega)
      refine readBack_guarded h (decide_eq_true hleast) rfl ?_ ?_
        (hbare k 0 (Nat.not_lt_zero _) (by omega))
      · simp only [Expr.tokensAt, guardedTokens, if_pos hleast, Nat.not_lt_zero, if_false]
      · simp only [Expr.withParens, Expr.guarded, if_pos hleast, Nat.not_lt_zero, if_false]
    · rw [if_neg hleast, List.length_append, List.length_cons] at hn
      exact ⟨hbare n least hleast hn, fun hprimary => absurd (of_decide_eq_true hprimary) hleast, nofun⟩
  | .call f args, least, n, h, hn => by
    have hargs := h
    rw [Expr.Printable] at hargs
    rw [Expr.tokensAt, List.length_cons, length_between] at hn
    obtain ⟨k, rfl⟩ : ∃ k, n = k + 1 := Nat.exists_eq_succ_of_ne_zero (by omega)
    refine readBack_of_primary h rfl rfl fun next _ => ?_
    have heach := exprs_readBack args k (some (.punctuation .rParen)) hargs.2
      (fun ts hts => by
        have hle := length_le_commaTokens hts
        omega) rfl
    have harguments : Reads (nested (k + 1)).arguments _ next _ :=
      reads_arguments heach (exprs_open hargs.2 rfl)
    rw [Expr.tokensAt, Expr.withParens]
    exact Reads.peek (Reads.skip (Reads.accept (harguments.last (reads_pure (Expr.call f _) next))))
  | .index base items, least, n, h, hn => by
    have hindex := h
    rw [Expr.Printable] at hindex
    rw [Expr.tokensAt, List.length_append, length_between] at hn
    obtain ⟨k, rfl⟩ : ∃ k, n = k + 1 := Nat.exists_eq_succ_of_ne_zero (by omega)
    have hbase := base.readBack Expr.atomStrength (k + 1) hindex.1 (by omega)
    have hitems := items_readBack items k hindex.2.2.2 fun ts hts => by
      have hle := length_le_commaTokens hts
      omega
    have hne : itemsTokens items ≠ [] := by
      cases items with
      | nil => exact absurd rfl hindex.2.2.1
      | cons i is => exact List.cons_ne_nil _ _
    have hprimary := Expr.isPrimary_of_not_measure hindex.2.1
    exact readBack_of_suffixed h rfl (indicesAfter_index (hbase.suffixed hprimary) hne hitems)
      fun hoperand => indicesAfter_index (hbase.operand hoperand) hne hitems
  | .cast t e, least, n, h, hn => by
    have hcast := h
    rw [Expr.Printable] at hcast
    rw [Expr.tokensAt, List.length_append, length_between] at hn
    obtain ⟨k, rfl⟩ : ∃ k, n = k + 1 := Nat.exists_eq_succ_of_ne_zero (by omega)
    have htype := t.readBack k (some (.punctuation .lParen)) hcast.1 (by omega) rfl
    have he := (e.readBack 0 k hcast.2 (by omega)).operators
    refine readBack_of_primary h rfl rfl fun next _ => ?_
    rw [Expr.tokensAt, Expr.withParens]
    obtain ⟨keyword, ts, htokens, hkeyword⟩ := t.tokens_eq_cons hcast.1
    rw [htokens] at htype ⊢
    exact reads_cast hkeyword htype (he.whole rfl)
  | .array items, least, n, h, hn => by
    have hitems := h
    rw [Expr.Printable] at hitems
    rw [Expr.tokensAt, length_between] at hn
    obtain ⟨k, rfl⟩ : ∃ k, n = k + 1 := Nat.exists_eq_succ_of_ne_zero (by omega)
    refine readBack_of_primary h rfl rfl fun next _ => ?_
    have heach := exprs_readBack items k (some (.punctuation .rBrace)) hitems
      (fun ts hts => by
        have hle := length_le_commaTokens hts
        omega) rfl
    have hbraced : Reads (nested (k + 1)).braced _ next _ := reads_braced heach (exprs_open hitems rfl)
    rw [Expr.tokensAt, Expr.withParens]
    exact Reads.peek (hbraced.last (reads_pure (Expr.array _) next))
  | .measure e, least, n, h, hn => by
    have he := h
    rw [Expr.Printable] at he
    rw [Expr.tokensAt, List.length_cons] at hn
    have hoperand := (e.readBack Expr.atomStrength n he.2 (by omega)).operand he.1
    refine ⟨operatorsAfter_of_unary fun next hfollows => ?_, nofun, nofun⟩
    have hread := @hoperand [] next (e.withParens Expr.atomStrength) hfollows.argument fun fuel _ =>
      reads_indexed_stop hfollows.index fuel _
    rw [List.append_nil] at hread
    have hprimary : Reads (nested n).primary (.keyword .measure :: e.tokensAt Expr.atomStrength) next
        (.measure (e.withParens Expr.atomStrength)) :=
      Reads.peek (Reads.skip (hread.last (reads_pure (Expr.measure _) next)))
    rw [Expr.tokensAt, Expr.withParens]
    exact Reads.peek (hprimary.last (Reads.bounded fun fuel _ =>
      reads_indexed_stop hfollows.index fuel _))
  | .paren e, least, n, h, hn => by
    have he := h
    rw [Expr.Printable] at he
    rw [Expr.tokensAt, length_between] at hn
    obtain ⟨k, rfl⟩ : ∃ k, n = k + 1 := Nat.exists_eq_succ_of_ne_zero (by omega)
    have hinner := (e.readBack 0 k he (by omega)).operators
    refine readBack_of_primary h rfl rfl fun next _ => ?_
    rw [Expr.tokensAt, Expr.withParens]
    exact reads_paren (hinner.whole rfl)

theorem exprs_readBack : ∀ (es : List Expr) (n : Nat) (next : Option Token), exprsPrintable es →
    (∀ ts ∈ exprsTokens es, ts.length ≤ n) → closesExpr next = true →
    ReadEach (nested (n + 1)).whole next (exprsTokens es) (exprsWithParens es)
  | [], _, _, _, _, _ => List.Forall₂.nil
  | e :: es, n, next, h, hn, hnext => by
    rw [exprsPrintable] at h
    have he := e.readBack 0 n h.1 (hn _ List.mem_cons_self)
    exact List.Forall₂.cons ⟨he.operators.whole rfl, he.operators.whole hnext⟩
      (exprs_readBack es n next h.2 (fun ts hts => hn ts (List.mem_cons_of_mem _ hts)) hnext)

theorem option_readBack : ∀ (o : Option Expr) (n : Nat), optionPrintable o →
    (optionTokens o).length ≤ n → ∀ e ∈ o, OperatorsAfter n 0 e
  | none, _, _, _ => nofun
  | some e, n, h, hn => by
    rintro _ ⟨⟩
    exact (e.readBack 0 n h hn).operators

theorem IndexItem.readBack : ∀ (i : IndexItem) (n : Nat) (next : Option Token), i.Printable →
    i.tokens.length ≤ n →
    next = some (.punctuation .comma) ∨ next = some (.punctuation .rBracket) →
    Reads (nested (n + 1)).indexItem i.tokens next i.withParens
  | .single e, n, next, h, hn, hnext => by
    rw [IndexItem.Printable] at h
    rw [IndexItem.tokens] at hn ⊢
    have he := (e.readBack 0 n h.2 hn).operators
    have hclose : closesExpr next = true := by obtain rfl | rfl := hnext <;> rfl
    have hcolon : isPunctuation .colon next = false := by obtain rfl | rfl := hnext <;> rfl
    exact reads_single (e.opening 0 h.2) (e.not_brace h.2 h.1 _) hcolon (he.whole hclose)
  | .range ⟨start, step, stop⟩, n, next, h, hn, hnext => by
    rw [IndexItem.Printable] at h
    obtain ⟨hfirst, hsecond, hthird⟩ := RangeExpr.length_parts ⟨start, step, stop⟩
    rw [IndexItem.tokens] at hn
    have hstart := option_readBack start n h.2.1 (Nat.le_trans hfirst hn)
    have hstep := option_readBack step n h.2.2.1 (Nat.le_trans hsecond hn)
    have hstop := option_readBack stop n h.2.2.2 (Nat.le_trans hthird hn)
    rw [IndexItem.tokens, RangeExpr.tokens_eq, IndexItem.withParens]
    exact reads_rangeItem (not_brace_option h.2.1 h.1 _ _) (reads_start h.2.1 hstart)
      (reads_rangeAfter (r := ⟨start, step, stop⟩) h.2 hnext hstep hstop)
  | .set items, n, next, h, hn, hnext => by
    rw [IndexItem.Printable] at h
    rw [IndexItem.tokens, length_between] at hn
    have heach := exprs_readBack items n (some (.punctuation .rBrace)) h
      (fun ts hts => by
        have hle := length_le_commaTokens hts
        omega) rfl
    have hbraced : Reads (nested (n + 1)).braced _ next _ := reads_braced heach (exprs_open h rfl)
    rw [IndexItem.tokens, IndexItem.withParens]
    exact (reads_at? .lBrace _).look (hbraced.last (reads_pure (IndexItem.set _) next))

theorem items_readBack : ∀ (is : List IndexItem) (n : Nat), itemsPrintable is →
    (∀ ts ∈ itemsTokens is, ts.length ≤ n) →
    ReadEach (nested (n + 1)).indexItem (some (.punctuation .rBracket)) (itemsTokens is)
      (itemsWithParens is)
  | [], _, _, _ => List.Forall₂.nil
  | i :: is, n, h, hn => by
    rw [itemsPrintable] at h
    have hi := fun next => i.readBack n next h.1 (hn _ List.mem_cons_self)
    exact List.Forall₂.cons ⟨hi _ (Or.inl rfl), hi _ (Or.inr rfl)⟩
      (items_readBack is n h.2 fun ts hts => hn ts (List.mem_cons_of_mem _ hts))

theorem TypeExpr.readBack : ∀ (t : TypeExpr) (n : Nat) (next : Option Token), t.Castable →
    t.tokens.length ≤ n + 1 → isPunctuation .lBracket next = false →
    Reads (nested (n + 1)).typeLevel t.tokens next t.withParens
  | .bool, _, _, _, _, _ | .duration, _, _, _, _, _ => Reads.peek (Reads.skip (reads_pure _ _))
  | .sized .complex none, _, _, _, _, hnext => Reads.peek (Reads.skip (Reads.refuse hnext (reads_pure _ _)))
  | .sized .int none, _, _, _, _, hnext | .sized .uint none, _, _, _, _, hnext
  | .sized .float none, _, _, _, _, hnext | .sized .angle none, _, _, _, _, hnext
  | .sized .bit none, _, _, _, _, hnext =>
    Reads.peek (Reads.skip ((reads_designator?_none hnext).look (reads_pure _ _)))
  | .sized kind (some w), n, next, h, hn, _ => by
    rw [TypeExpr.Castable, optionPrintable] at h
    have hlength : (w.tokensAt 0).length ≤ n := by
      cases kind <;> simp only [TypeExpr.tokens, List.length_cons, length_between] at hn <;> omega
    have hw : Reads (nested (n + 1)).whole (w.tokensAt 0) (some (.punctuation .rBracket))
        (w.withParens 0) := (w.readBack 0 n h hlength).operators.whole rfl
    cases kind with
    | int => exact reads_width nofun hw
    | uint => exact reads_width nofun hw
    | float => exact reads_width nofun hw
    | angle => exact reads_width nofun hw
    | bit => exact reads_width nofun hw
    | complex =>
      have hwidth : Reads (do
          let width ← (nested (n + 1)).designator?
          expect .rBracket
          return TypeExpr.sized .complex width)
          (between .lBracket .rBracket (w.tokensAt 0) ++ [Token.punctuation .rBracket]) next (.sized .complex (some (w.withParens 0))) :=
        (reads_designator? hw).bind (Reads.expect (reads_pure (TypeExpr.sized .complex _) _))
      exact Reads.peek (Reads.skip (Reads.accept (Reads.expectKeyword hwidth)))
  | .stretch, _, _, h, _, _ => by
    rw [TypeExpr.Castable] at h
    exact h.elim
  | .array _ _, _, _, h, _, _ => by
    rw [TypeExpr.Castable] at h
    exact h.elim

end

/-- The nested readers read an expression where what comes next goes on with no expression. -/
theorem reads_whole {e : Expr} (h : e.Printable) {next : Option Token} (hnext : Follows 1 next) {n : Nat}
    (hn : (e.tokensAt 0).length < n) : Reads (nested n).whole (e.tokensAt 0) next (e.withParens 0) := by
  obtain ⟨k, rfl⟩ : ∃ k, n = k + 1 := Nat.exists_eq_succ_of_ne_zero (Nat.ne_of_gt (Nat.zero_lt_of_lt hn))
  have hoperators := (e.readBack 0 k h (Nat.le_of_lt_succ hn)).operators
  exact hoperators.continues.expression (Nat.le_max_right 0 1) (hnext.all _) hnext.operator

theorem reads_expression {e : Expr} (h : e.Printable) {next : Option Token} (hnext : Follows 1 next) :
    Reads Grammar.expression (e.tokensAt 0) next (e.withParens 0) :=
  Reads.bounded fun _ hn => reads_whole h hnext hn

/-- An expression is read where what comes next closes it. -/
theorem reads_closed {e : Expr} (h : e.Printable) {next : Option Token} (hnext : closesExpr next = true) :
    Reads Grammar.expression (e.tokensAt 0) next (e.withParens 0) :=
  reads_expression h (follows_of_closes hnext 1)

theorem reads_printed {e : Expr} (h : e.Printable) :
    Reads Grammar.expression (e.tokensAt 0) none (e.withParens 0) := reads_closed h rfl

theorem placed_of_lexemes {ls : List Lexeme} {ts : List Token} (h : ls.map (·.token) = ts.map some) :
    (ls.filterMap fun l => l.token.map fun t => PlacedToken.mk t l.start l.stop).map (·.token) = ts ∧
      ls.filter (·.token.isNone) = [] := by
  induction ls generalizing ts with
  | nil =>
    obtain rfl := List.map_eq_nil_iff.1 h.symm
    exact ⟨rfl, rfl⟩
  | cons l ls ih =>
    obtain ⟨t, ts, rfl, ht, hts⟩ := List.map_eq_cons_iff.1 h.symm
    obtain ⟨hplaced, hvalid⟩ := ih hts.symm
    have hl : l.token = some t := ht.symm
    rw [List.filterMap_cons, List.filter_cons, hl]
    exact ⟨congrArg (t :: ·) hplaced, hvalid⟩

/-- Where the lexemes are tokens, all of them are read and no error is reported. -/
theorem cursor_of_scan {s : Source} {ts : List Token}
    (h : (Token.scan s).map (·.token) = ts.map some) :
    ∃ ps : List PlacedToken, ps.map (·.token) = ts ∧ Grammar.cursor s = .start ps [] := by
  obtain ⟨hplaced, hvalid⟩ := placed_of_lexemes h
  refine ⟨_, hplaced, ?_⟩
  unfold Grammar.cursor
  dsimp only
  rw [hvalid]
  rfl

/-- The text of an expression is read to its end and without an error, as the expression with the
parentheses of the text. -/
theorem printed_reads_back {e : Expr} (h : e.Printable) :
    let source := Source.ofString e.text
    ∃ read c, Grammar.expression source (Grammar.cursor source) = (.ok read, c) ∧
      c.rest = [] ∧ c.errors = [] ∧ read.withoutParens = e.withoutParens ∧ read.text = e.text := by
  intro source
  obtain ⟨ps, hps, hcursor⟩ := cursor_of_scan (scan_text h)
  have hread := reads_printed h source (Cursor.start [] []) ps [] hps rfl
  rw [List.append_nil] at hread
  rw [hcursor]
  exact ⟨e.withParens 0, _, hread, rfl, rfl, e.withoutParens_withParens 0, e.textAt_withParens 0⟩

/-- A sum under a sign under a power, and a measurement of a slice that is given by a set. -/
theorem printed_reads_back_power :
    let sum : Expr := .unary .neg (.binary (.name "a") .add (.float 0.5))
    let slice : Expr := .index (.name "q") [.range ⟨some (.int 1), none, none⟩, .set [.int 0, .int 2]]
    let e : Expr := .binary sum .pow (.binary (.cast (.sized .int (some (.int 8))) (.measure slice)) .sub
      (.binary (.name "b") .sub (.constant .pi)))
    let source := Source.ofString e.text
    e.text = "(-(a + 0.5)) ** (int[8](measure q[1:, \x7b0, 2\x7d]) - (b - pi))" ∧
      ∃ read c, Grammar.expression source (Grammar.cursor source) = (.ok read, c) ∧
        c.rest = [] ∧ c.errors = [] ∧ read.withoutParens = e.withoutParens ∧ read.text = e.text := by
  intro sum slice e source
  refine ⟨by decide +kernel, printed_reads_back ?_⟩
  have ha : (Expr.name "a").Printable := ⟨'a', [], rfl, rfl⟩
  have hb : (Expr.name "b").Printable := ⟨'b', [], rfl, rfl⟩
  have hq : (Expr.name "q").Printable := ⟨'q', [], rfl, rfl⟩
  have hhalf : (Expr.float 0.5).Printable := ⟨'0', ['.', '5'], by decide +kernel, rfl⟩
  have h0 : (Expr.int 0).Printable := ⟨'0', [], rfl, rfl⟩
  have h1 : (Expr.int 1).Printable := ⟨'1', [], rfl, rfl⟩
  have h2 : (Expr.int 2).Printable := ⟨'2', [], rfl, rfl⟩
  have h8 : (Expr.int 8).Printable := ⟨'8', [], rfl, rfl⟩
  have hslice : slice.Printable :=
    ⟨hq, rfl, List.cons_ne_nil _ _, ⟨by decide, h1, trivial, trivial⟩, ⟨h0, h2, trivial⟩, trivial⟩
  exact ⟨⟨ha, hhalf⟩, ⟨h8, rfl, hslice⟩, hb, trivial⟩

end OpenQasm
