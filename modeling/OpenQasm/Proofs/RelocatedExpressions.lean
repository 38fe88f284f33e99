import OpenQasm.Proofs.Relocation

/-!
Expressions and types are phrases, given that the parts nested in them are.
-/
namespace OpenQasm.Excerpt

open OpenQasm.Parser OpenQasm.Grammar

/-- The readers for the nested parts are phrases before fewer than so many tokens. -/
structure Nests (e : Excerpt) (k : Nat) (inner inner' : Nested) : Prop where
  expression : ∀ least, Phrase e (Cursor.Below k) (inner.expression least) (inner'.expression least)
  type : Phrase e (Cursor.Below k) inner.type inner'.type

variable {e : Excerpt} {k : Nat} {inner inner' : Nested}

namespace Nests

theorem whole (h : Nests e k inner inner') : Phrase e (Cursor.Below k) inner.whole inner'.whole :=
  h.expression 1

theorem designator? (h : Nests e k inner inner') :
    Phrase e (Cursor.Below (k + 1)) inner.designator? inner'.designator? :=
  .accept nofun (.bind h.whole fun _ => .bind (phrase_expect nofun) fun _ => phrase_pure _) (phrase_pure none)

theorem arguments (h : Nests e k inner inner') : Phrase e (Cursor.Below k) inner.arguments inner'.arguments :=
  .bind (phrase_itemsBefore h.whole) fun _ => .bind (phrase_expect nofun) fun _ => phrase_pure _

theorem braced (h : Nests e k inner inner') : Phrase e (Cursor.Below (k + 1)) inner.braced inner'.braced :=
  .expect nofun (.bind (phrase_itemsBefore h.whole) fun _ =>
    .bind (phrase_expect nofun) fun _ => phrase_pure _)

theorem rangePart? (h : Nests e k inner inner') :
    Phrase e (Cursor.Below k) inner.rangePart? inner'.rangePart? := by
  refine .peek fun o => ?_
  have hpart := Phrase.facing (o := o) (.bind h.whole fun a => phrase_pure (some a))
  cases o with
  | none => exact phrase_pure none
  | some t =>
    cases t with
    | punctuation s => cases s <;> first | exact phrase_pure none | exact hpart
    | _ => exact hpart

theorem rangeAfter (h : Nests e k inner inner') (start : Option Expr) :
    Phrase e (Cursor.Below (k + 1)) (inner.rangeAfter start) (inner'.rangeAfter start) := by
  refine .expect nofun (.bind h.rangePart? fun _ => .bind (phrase_accept nofun) fun stepped => ?_)
  cases stepped with
  | true => exact .bind h.rangePart? fun _ => phrase_pure _
  | false => exact phrase_pure _

theorem rangeStart? (h : Nests e k inner inner') :
    Phrase e (Cursor.Below k) inner.rangeStart? inner'.rangeStart? := by
  refine .bind phrase_at? fun colon => ?_
  cases colon with
  | true => exact phrase_pure none
  | false => exact .bind h.whole fun _ => phrase_pure _

theorem range (h : Nests e k inner inner') : Phrase e (Cursor.Below k) inner.range inner'.range := by
  refine .bind h.rangeStart? fun start => .bind phrase_at? fun colon => ?_
  cases colon with
  | true => exact (h.rangeAfter start).below (Nat.le_succ k)
  | false => exact .unexpectedThen _

theorem indexItem (h : Nests e k inner inner') :
    Phrase e (Cursor.Below k) inner.indexItem inner'.indexItem := by
  refine .bind phrase_at? fun set => ?_
  cases set with
  | true => exact .bind (h.braced.below (Nat.le_succ k)) fun _ => phrase_pure _
  | false =>
    refine .bind h.rangeStart? fun start => .bind phrase_at? fun colon => ?_
    cases colon with
    | true => exact .bind ((h.rangeAfter start).below (Nat.le_succ k)) fun _ => phrase_pure _
    | false =>
      cases start with
      | some _ => exact phrase_pure _
      | none => exact phrase_unexpected _

theorem indexed (h : Nests e k inner inner') : ∀ n ≤ k + 1, ∀ base,
    Phrase e (Cursor.Below n) (inner.indexed n base) (inner'.indexed (n + e.after.length) base)
  | 0, _, _ => .ofNever fun _ => Nat.not_lt_zero _
  | n + 1, hn, base => by
    rw [Nat.add_right_comm]
    have hitems := (phrase_commaSeparated h.indexItem).below (Nat.le_of_succ_le_succ hn)
    exact .accept nofun (.bind hitems fun items => .bind (phrase_expect nofun) fun _ =>
      h.indexed n (Nat.le_of_succ_le hn) (.index base items)) (phrase_pure base)

theorem operand (h : Nests e k inner inner') :
    Phrase e (Cursor.Below (k + 1)) inner.operand inner'.operand :=
  .bind phrase_name fun n => .bounded fun fuel hfuel => h.indexed fuel hfuel (.name n)

theorem dimensions (h : Nests e k inner inner') :
    Phrase e (Cursor.Below (k + 1)) inner.dimensions inner'.dimensions :=
  .bounded fun n hn => phrase_moreItems h.whole n hn

theorem typeLevel (h : Nests e k inner inner') :
    Phrase e (Cursor.Below (k + 1)) inner.typeLevel inner'.typeLevel := by
  refine .peek fun o => ?_
  have hfail : Phrase e (Cursor.Facing o (k + 1)) (unexpected "type" : Parser TypeExpr)
    (unexpected "type") := phrase_unexpected _
  have hdesignator := h.designator?.below (Nat.le_succ k)
  cases o with
  | none => exact hfail
  | some t =>
    cases t with
    | keyword w =>
      have hsized (kind : SizedKind) : Phrase e (Cursor.Facing (some (.keyword w)) (k + 1))
          (advance >>= fun _ => inner.designator? >>= fun width => pure (TypeExpr.sized kind width))
          (advance >>= fun _ => inner'.designator? >>= fun width => pure (TypeExpr.sized kind width)) :=
        .skip nofun (.bind hdesignator fun _ => phrase_pure _)
      cases w with
      | bool | duration | stretch => exact .skip nofun (phrase_pure _)
      | int => exact hsized .int
      | uint => exact hsized .uint
      | float => exact hsized .float
      | angle => exact hsized .angle
      | bit => exact hsized .bit
      | complex =>
        refine .skip nofun (.bind (phrase_accept nofun) fun width => ?_)
        cases width with
        | true =>
          exact .bind phrase_expectKeyword fun _ => .bind hdesignator fun _ =>
            .bind (phrase_expect nofun) fun _ => phrase_pure _
        | false => exact phrase_pure _
      | array =>
        refine .skip nofun (.bind (phrase_expect nofun) fun _ => .bind h.type fun element =>
          .bind (h.dimensions.below (Nat.le_succ k)) fun dims => .bind (phrase_expect nofun) fun _ => ?_)
        cases dims with
        | nil => exact .unexpectedThen _
        | cons _ _ => exact phrase_pure _
      | _ => exact hfail
    | _ => exact hfail

theorem primary (h : Nests e k inner inner') :
    Phrase e (Cursor.Below (k + 1)) inner.primary inner'.primary := by
  refine .peek fun o => ?_
  have hfail : Phrase e (Cursor.Facing o (k + 1)) (unexpected "expression" : Parser Expr)
    (unexpected "expression") := phrase_unexpected _
  cases o with
  | none => exact hfail
  | some t =>
    have hleaf (ht : t ≠ .punctuation .semicolon) (a : Expr) :
        Phrase e (Cursor.Facing (some t) (k + 1)) (Nested.leaf a) (Nested.leaf a) :=
      .skip ht (phrase_pure a)
    cases t with
    | int n => exact hleaf nofun _
    | float x => exact hleaf nofun _
    | imaginary x => exact hleaf nofun _
    | duration x u => exact hleaf nofun _
    | string text =>
      dsimp only [Nested.primary]
      cases Nested.bitDigits? text with
      | some digits => exact hleaf nofun _
      | none => exact phrase_unexpected _
    | pragma text => exact hfail
    | name n =>
      refine .skip nofun (.bind (phrase_accept nofun) fun call => ?_)
      cases call with
      | true => exact .bind h.arguments fun _ => phrase_pure _
      | false => exact phrase_pure _
    | punctuation s =>
      cases s with
      | lParen => exact .skip nofun (.bind h.whole fun _ => .bind (phrase_expect nofun) fun _ => phrase_pure _)
      | lBrace => exact .facing (.bind h.braced fun _ => phrase_pure _)
      | _ => exact hfail
    | keyword w =>
      have hcast : Phrase e (Cursor.Facing (some (.keyword w)) (k + 1))
          (inner.typeLevel >>= fun type => expect .lParen >>= fun _ => inner.whole >>= fun a =>
            expect .rParen >>= fun _ => pure (Expr.cast type a))
          (inner'.typeLevel >>= fun type => expect .lParen >>= fun _ => inner'.whole >>= fun a =>
            expect .rParen >>= fun _ => pure (Expr.cast type a)) :=
        .facing (.bind h.typeLevel fun _ => .expect nofun (.bind h.whole fun _ =>
          .bind (phrase_expect nofun) fun _ => phrase_pure _))
      cases w with
      | «true» | «false» | pi | tau | euler => exact hleaf nofun _
      | measure => exact .skip nofun (.bind (h.operand.below (Nat.le_succ k)) fun _ => phrase_pure _)
      | bit | int | uint | float | angle | bool | complex | duration => exact hcast
      | _ => exact hfail

theorem operators (h : Nests e k inner inner') (least : Nat) : ∀ n ≤ k + 1, ∀ left,
    Phrase e (Cursor.Below n) (inner.operators least n left)
      (inner'.operators least (n + e.after.length) left)
  | 0, _, _ => .ofNever fun _ => Nat.not_lt_zero _
  | n + 1, hn, left => by
    rw [Nat.add_right_comm]
    refine .peek fun o => ?_
    cases ho : Nested.binaryOp? o with
    | none => exact phrase_pure left
    | some op =>
      dsimp only
      by_cases hop : op.strength < least
      · rw [if_pos hop, if_pos hop]
        exact phrase_pure left
      · rw [if_neg hop, if_neg hop]
        cases o with
        | none => nomatch ho
        | some t =>
          refine .skip (fun ht => ?_) (.bind ((h.expression _).below (Nat.le_of_succ_le_succ hn)) fun right =>
            h.operators least n (Nat.le_of_succ_le hn) _)
          rw [ht] at ho
          nomatch ho

theorem unary (h : Nests e k inner inner') : Phrase e (Cursor.Below (k + 1)) inner.unary inner'.unary := by
  refine .peek fun o => ?_
  cases ho : Nested.unaryOp? o with
  | none => exact .facing (.bind h.primary fun base => .bounded fun n hn => h.indexed n hn base)
  | some op =>
    cases o with
    | none => nomatch ho
    | some t =>
      refine .skip (fun ht => ?_) (.bind (h.expression _) fun _ => phrase_pure _)
      rw [ht] at ho
      nomatch ho

theorem expressionLevel (h : Nests e k inner inner') (least : Nat) :
    Phrase e (Cursor.Below (k + 1)) (inner.expressionLevel least) (inner'.expressionLevel least) :=
  .bind h.unary fun left => .bounded fun n hn => h.operators least n hn left

end Nests

/-- Before fewer tokens than it may be deep, a reader of expressions is a phrase. -/
theorem nests_nested (e : Excerpt) : ∀ n, Nests e n (nested n) (nested (n + e.after.length))
  | 0 => ⟨fun _ => .ofNever fun _ => Nat.not_lt_zero _, .ofNever fun _ => Nat.not_lt_zero _⟩
  | n + 1 => by
    rw [Nat.add_right_comm]
    exact ⟨(nests_nested e n).expressionLevel, (nests_nested e n).typeLevel⟩

theorem phrase_expression : Phrase e (Cursor.Below k) expression expression :=
  .bounded fun n _ => (nests_nested e n).whole

theorem phrase_type : Phrase e (Cursor.Below k) type type := .bounded fun n _ => (nests_nested e n).type

theorem phrase_operand : Phrase e (Cursor.Below k) operand operand :=
  .bounded fun n _ => (nests_nested e n).operand.below (Nat.le_succ n)

theorem phrase_range : Phrase e (Cursor.Below k) range range :=
  .bounded fun n _ => (nests_nested e n).range

theorem phrase_braced : Phrase e (Cursor.Below k) Grammar.braced Grammar.braced :=
  .bounded fun n _ => (nests_nested e n).braced.below (Nat.le_succ n)

theorem phrase_arguments : Phrase e (Cursor.Below k) arguments arguments :=
  .bounded fun n _ => (nests_nested e n).arguments

theorem phrase_designator? : Phrase e (Cursor.Below k) designator? designator? :=
  .bounded fun n _ => (nests_nested e n).designator?.below (Nat.le_succ n)

end OpenQasm.Excerpt
