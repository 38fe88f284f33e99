import OpenQasm.Syntax.Print

/-!
Parentheses in syntax trees: the tree without them, and the tree with a pair wherever the printed text has
one.
-/
namespace OpenQasm

/-- Puts a pair of parentheses around an expression that binds looser than its place asks for. -/
def Expr.guarded (strength least : Nat) (e : Expr) : Expr := if strength < least then .paren e else e

mutual

/-- The expression without all parentheses. -/
def Expr.withoutParens : Expr → Expr
  | .int n => .int n
  | .float x => .float x
  | .imaginary x => .imaginary x
  | .bool b => .bool b
  | .bits digits => .bits digits
  | .duration x u => .duration x u
  | .name n => .name n
  | .constant c => .constant c
  | .unary op e => .unary op e.withoutParens
  | .binary l op r => .binary l.withoutParens op r.withoutParens
  | .call f args => .call f (exprsWithoutParens args)
  | .index base items => .index base.withoutParens (itemsWithoutParens items)
  | .cast type e => .cast type.withoutParens e.withoutParens
  | .array items => .array (exprsWithoutParens items)
  | .measure e => .measure e.withoutParens
  | .paren e => e.withoutParens

def exprsWithoutParens : List Expr → List Expr
  | [] => []
  | e :: es => e.withoutParens :: exprsWithoutParens es

def optionWithoutParens : Option Expr → Option Expr
  | none => none
  | some e => some e.withoutParens

def RangeExpr.withoutParens : RangeExpr → RangeExpr
  | ⟨start, step, stop⟩ =>
    ⟨optionWithoutParens start, optionWithoutParens step, optionWithoutParens stop⟩

def IndexItem.withoutParens : IndexItem → IndexItem
  | .single e => .single e.withoutParens
  | .range r => .range r.withoutParens
  | .set items => .set (exprsWithoutParens items)

def itemsWithoutParens : List IndexItem → List IndexItem
  | [] => []
  | i :: is => i.withoutParens :: itemsWithoutParens is

def TypeExpr.withoutParens : TypeExpr → TypeExpr
  | .bool => .bool
  | .sized kind width => .sized kind (optionWithoutParens width)
  | .duration => .duration
  | .stretch => .stretch
  | .array element dims => .array element.withoutParens (exprsWithoutParens dims)

end

mutual

/-- The expression with the parentheses that its text has at a place that asks for a strength. -/
def Expr.withParens (least : Nat) : Expr → Expr
  | .int n => .int n
  | .float x => .float x
  | .imaginary x => .imaginary x
  | .bool b => .bool b
  | .bits digits => .bits digits
  | .duration x u => .duration x u
  | .name n => .name n
  | .constant c => .constant c
  | .unary op e => Expr.guarded UnaryOp.strength least (.unary op (e.withParens UnaryOp.strength))
  | .binary l op r =>
    Expr.guarded op.strength least
      (.binary (l.withParens op.leftStrength) op (r.withParens op.rightStrength))
  | .call f args => .call f (exprsWithParens args)
  | .index base items => .index (base.withParens Expr.atomStrength) (itemsWithParens items)
  | .cast type e => .cast type.withParens (e.withParens 0)
  | .array items => .array (exprsWithParens items)
  | .measure e => .measure (e.withParens Expr.atomStrength)
  | .paren e => .paren (e.withParens 0)

def exprsWithParens : List Expr → List Expr
  | [] => []
  | e :: es => e.withParens 0 :: exprsWithParens es

def optionWithParens : Option Expr → Option Expr
  | none => none
  | some e => some (e.withParens 0)

def RangeExpr.withParens : RangeExpr → RangeExpr
  | ⟨start, step, stop⟩ => ⟨optionWithParens start, optionWithParens step, optionWithParens stop⟩

def IndexItem.withParens : IndexItem → IndexItem
  | .single e => .single (e.withParens 0)
  | .range r => .range r.withParens
  | .set items => .set (exprsWithParens items)

def itemsWithParens : List IndexItem → List IndexItem
  | [] => []
  | i :: is => i.withParens :: itemsWithParens is

def TypeExpr.withParens : TypeExpr → TypeExpr
  | .bool => .bool
  | .sized kind width => .sized kind (optionWithParens width)
  | .duration => .duration
  | .stretch => .stretch
  | .array element dims => .array element.withParens (exprsWithParens dims)

end

end OpenQasm
