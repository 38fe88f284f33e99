import OpenQasm.Syntax.Parentheses

/-!
The parentheses that are printed. Writing them into the tree changes neither the tree without parentheses
nor its text.
-/
namespace OpenQasm

theorem withoutParens_guarded (strength least : Nat) (e : Expr) :
    (Expr.guarded strength least e).withoutParens = e.withoutParens := by
  unfold Expr.guarded
  split
  · rw [Expr.withoutParens]
  · rfl

theorem textAt_unary (op : UnaryOp) (e : Expr) (least : Nat) : (Expr.unary op e).textAt least =
    guarded UnaryOp.strength least (op.symbol ++ e.textAt UnaryOp.strength) := by
  rw [Expr.textAt]

theorem textAt_binary (l : Expr) (op : BinaryOp) (r : Expr) (least : Nat) :
    (Expr.binary l op r).textAt least = guarded op.strength least
      (l.textAt op.leftStrength ++ " " ++ op.symbol ++ " " ++ r.textAt op.rightStrength) := by
  rw [Expr.textAt]

theorem textAt_guarded {strength : Nat} {e : Expr} {s : String}
    (h : ∀ least, e.textAt least = guarded strength least s) (least : Nat) :
    (Expr.guarded strength least e).textAt least = guarded strength least s := by
  unfold Expr.guarded
  split
  · next hloose =>
    have hinner : e.textAt 0 = s := (h 0).trans (if_neg (Nat.not_lt_zero strength))
    rw [Expr.textAt, hinner, guarded, if_pos hloose]
  · exact h least

mutual

theorem Expr.withoutParens_withParens (least : Nat) :
    ∀ e : Expr, (e.withParens least).withoutParens = e.withoutParens
  | .int _ | .float _ | .imaginary _ | .bool _ | .bits _ | .duration _ _ | .name _ | .constant _ => rfl
  | .unary op e => by
    rw [Expr.withParens, withoutParens_guarded, Expr.withoutParens, Expr.withoutParens,
      e.withoutParens_withParens]
  | .binary l op r => by
    rw [Expr.withParens, withoutParens_guarded, Expr.withoutParens, Expr.withoutParens,
      l.withoutParens_withParens, r.withoutParens_withParens]
  | .call f args => by
    rw [Expr.withParens, Expr.withoutParens, Expr.withoutParens, exprsWithoutParens_withParens]
  | .index base items => by
    rw [Expr.withParens, Expr.withoutParens, Expr.withoutParens, base.withoutParens_withParens,
      itemsWithoutParens_withParens]
  | .cast type e => by
    rw [Expr.withParens, Expr.withoutParens, Expr.withoutParens, type.withoutParens_withParens,
      e.withoutParens_withParens]
  | .array items => by
    rw [Expr.withParens, Expr.withoutParens, Expr.withoutParens, exprsWithoutParens_withParens]
  | .measure e => by
    rw [Expr.withParens, Expr.withoutParens, Expr.withoutParens, e.withoutParens_withParens]
  | .paren e => by
    rw [Expr.withParens, Expr.withoutParens, Expr.withoutParens, e.withoutParens_withParens]

theorem exprsWithoutParens_withParens :
    ∀ es : List Expr, exprsWithoutParens (exprsWithParens es) = exprsWithoutParens es
  | [] => rfl
  | e :: es => by
    rw [exprsWithParens, exprsWithoutParens, exprsWithoutParens, e.withoutParens_withParens,
      exprsWithoutParens_withParens es]

theorem optionWithoutParens_withParens :
    ∀ o : Option Expr, optionWithoutParens (optionWithParens o) = optionWithoutParens o
  | none => rfl
  | some e => by
    rw [optionWithParens, optionWithoutParens, optionWithoutParens, e.withoutParens_withParens]

theorem RangeExpr.withoutParens_withParens :
    ∀ r : RangeExpr, r.withParens.withoutParens = r.withoutParens
  | ⟨start, step, stop⟩ => by
    rw [RangeExpr.withParens, RangeExpr.withoutParens, RangeExpr.withoutParens,
      optionWithoutParens_withParens start, optionWithoutParens_withParens step,
      optionWithoutParens_withParens stop]

theorem IndexItem.withoutParens_withParens :
    ∀ i : IndexItem, i.withParens.withoutParens = i.withoutParens
  | .single e => by
    rw [IndexItem.withParens, IndexItem.withoutParens, IndexItem.withoutParens,
      e.withoutParens_withParens]
  | .range r => by
    rw [IndexItem.withParens, IndexItem.withoutParens, IndexItem.withoutParens,
      r.withoutParens_withParens]
  | .set items => by
    rw [IndexItem.withParens, IndexItem.withoutParens, IndexItem.withoutParens,
      exprsWithoutParens_withParens]

theorem itemsWithoutParens_withParens :
    ∀ is : List IndexItem, itemsWithoutParens (itemsWithParens is) = itemsWithoutParens is
  | [] => rfl
  | i :: is => by
    rw [itemsWithParens, itemsWithoutParens, itemsWithoutParens, i.withoutParens_withParens,
      itemsWithoutParens_withParens is]

theorem TypeExpr.withoutParens_withParens :
    ∀ t : TypeExpr, t.withParens.withoutParens = t.withoutParens
  | .bool | .duration | .stretch => rfl
  | .sized kind width => by
    rw [TypeExpr.withParens, TypeExpr.withoutParens, TypeExpr.withoutParens,
      optionWithoutParens_withParens]
  | .array element dims => by
    rw [TypeExpr.withParens, TypeExpr.withoutParens, TypeExpr.withoutParens,
      element.withoutParens_withParens, exprsWithoutParens_withParens]

end

mutual

theorem Expr.textAt_withParens (least : Nat) :
    ∀ e : Expr, (e.withParens least).textAt least = e.textAt least
  | .int _ | .float _ | .imaginary _ | .bool _ | .bits _ | .duration _ _ | .name _ | .constant _ => rfl
  | .unary op e => by
    rw [Expr.withParens, textAt_guarded (textAt_unary op _), textAt_unary, e.textAt_withParens]
  | .binary l op r => by
    rw [Expr.withParens, textAt_guarded (textAt_binary _ op _), textAt_binary, l.textAt_withParens,
      r.textAt_withParens]
  | .call f args => by
    rw [Expr.withParens, Expr.textAt, Expr.textAt, exprTexts_withParens]
  | .index base items => by
    rw [Expr.withParens, Expr.textAt, Expr.textAt, base.textAt_withParens, itemTexts_withParens]
  | .cast type e => by
    rw [Expr.withParens, Expr.textAt, Expr.textAt, type.text_withParens, e.textAt_withParens]
  | .array items => by rw [Expr.withParens, Expr.textAt, Expr.textAt, exprTexts_withParens]
  | .measure e => by rw [Expr.withParens, Expr.textAt, Expr.textAt, e.textAt_withParens]
  | .paren e => by rw [Expr.withParens, Expr.textAt, Expr.textAt, e.textAt_withParens]

theorem exprTexts_withParens : ∀ es : List Expr, exprTexts (exprsWithParens es) = exprTexts es
  | [] => rfl
  | e :: es => by
    rw [exprsWithParens, exprTexts, exprTexts, e.textAt_withParens, exprTexts_withParens es]

theorem optionText_withParens : ∀ o : Option Expr, optionText (optionWithParens o) = optionText o
  | none => rfl
  | some e => by rw [optionWithParens, optionText, optionText, e.textAt_withParens]

theorem RangeExpr.text_withParens : ∀ r : RangeExpr, r.withParens.text = r.text
  | ⟨start, none, stop⟩ => by
    rw [RangeExpr.withParens, optionWithParens, RangeExpr.text, RangeExpr.text,
      optionText_withParens start, optionText_withParens stop]
  | ⟨start, some step, stop⟩ => by
    rw [RangeExpr.withParens, optionWithParens, RangeExpr.text, RangeExpr.text,
      optionText_withParens start, step.textAt_withParens, optionText_withParens stop]

theorem IndexItem.text_withParens : ∀ i : IndexItem, i.withParens.text = i.text
  | .single e => by rw [IndexItem.withParens, IndexItem.text, IndexItem.text, e.textAt_withParens]
  | .range r => by rw [IndexItem.withParens, IndexItem.text, IndexItem.text, r.text_withParens]
  | .set items => by
    rw [IndexItem.withParens, IndexItem.text, IndexItem.text, exprTexts_withParens]

theorem itemTexts_withParens : ∀ is : List IndexItem, itemTexts (itemsWithParens is) = itemTexts is
  | [] => rfl
  | i :: is => by
    rw [itemsWithParens, itemTexts, itemTexts, i.text_withParens, itemTexts_withParens is]

theorem TypeExpr.text_withParens : ∀ t : TypeExpr, t.withParens.text = t.text
  | .bool | .duration | .stretch => rfl
  | .sized kind none => rfl
  | .sized .complex (some w) => by
    rw [TypeExpr.withParens, optionWithParens, TypeExpr.text, TypeExpr.text, w.textAt_withParens]
  | .sized .int (some w) | .sized .uint (some w) | .sized .float (some w) | .sized .angle (some w)
  | .sized .bit (some w) => by
    simp only [TypeExpr.withParens, optionWithParens, TypeExpr.text, w.textAt_withParens]
  | .array element dims => by
    rw [TypeExpr.withParens, TypeExpr.text, TypeExpr.text, element.text_withParens,
      exprTexts_withParens]

end

end OpenQasm
