import OpenQasm.Syntax.Calls

/-!
Expressions in which other names are read. What is called in an expression keeps its name, so that the calls
stay the same.
-/
namespace OpenQasm

mutual

/-- The expression that reads another name for each one. -/
def Expr.rename (f : String → String) : Expr → Expr
  | .name n => .name (f n)
  | .unary op e => .unary op (e.rename f)
  | .binary l op r => .binary (l.rename f) op (r.rename f)
  | .call g args => .call g (exprsRename f args)
  | .index base items => .index (base.rename f) (itemsRename f items)
  | .cast t e => .cast (t.rename f) (e.rename f)
  | .array items => .array (exprsRename f items)
  | .measure e => .measure (e.rename f)
  | .paren e => .paren (e.rename f)
  | e => e

def exprsRename (f : String → String) : List Expr → List Expr
  | [] => []
  | e :: es => e.rename f :: exprsRename f es

def TypeExpr.rename (f : String → String) : TypeExpr → TypeExpr
  | .sized kind width => .sized kind (optionRename f width)
  | .array element dims => .array (element.rename f) (exprsRename f dims)
  | t => t

def optionRename (f : String → String) : Option Expr → Option Expr
  | none => none
  | some e => some (e.rename f)

def RangeExpr.rename (f : String → String) : RangeExpr → RangeExpr
  | ⟨start, step, stop⟩ => ⟨optionRename f start, optionRename f step, optionRename f stop⟩

def IndexItem.rename (f : String → String) : IndexItem → IndexItem
  | .single e => .single (e.rename f)
  | .range r => .range (r.rename f)
  | .set items => .set (exprsRename f items)

def itemsRename (f : String → String) : List IndexItem → List IndexItem
  | [] => []
  | item :: items => item.rename f :: itemsRename f items

end

def Modifier.rename (f : String → String) : Modifier → Modifier
  | .ctrl n => .ctrl (optionRename f n)
  | .negctrl n => .negctrl (optionRename f n)
  | .inv => .inv
  | .pow e => .pow (e.rename f)

/-- The call of the same gate that reads other names. -/
def GateCall.rename (f : String → String) (c : GateCall) : GateCall :=
  ⟨c.name, exprsRename f c.params, exprsRename f c.qubits, c.modifiers.map (Modifier.rename f)⟩

/-- The operation on qubits that reads other names. Other statements are left as they are. -/
def StatementKind.rename (f : String → String) : StatementKind → StatementKind
  | .gate call => .gate (call.rename f)
  | .measure operand target => .measure (operand.rename f) (optionRename f target)
  | .reset operand => .reset (operand.rename f)
  | .barrier operands => .barrier (exprsRename f operands)
  | kind => kind

def Statement.rename (f : String → String) (s : Statement) : Statement := ⟨s.kind.rename f, s.span⟩

theorem Expr.rootName?_rename (f : String → String) : ∀ e : Expr, (e.rename f).rootName? = e.rootName?.map f
  | .name _ => rfl
  | .index base _ => Expr.rootName?_rename f base
  | .int _ | .float _ | .imaginary _ | .bool _ | .bits _ | .duration _ _ | .constant _ | .unary _ _
  | .binary _ _ _ | .call _ _ | .cast _ _ | .array _ | .measure _ | .paren _ => rfl

theorem exprsRename_eq_map (f : String → String) (es : List Expr) : exprsRename f es = es.map (Expr.rename f) := by
  induction es with
  | nil => rfl
  | cons e es ih => rw [exprsRename, List.map_cons, ih]

section Identity

variable {f : String → String}

mutual

theorem Expr.rename_id (hf : ∀ n, f n = n) : ∀ e : Expr, e.rename f = e
  | .name n => congrArg Expr.name (hf n)
  | .unary op e => by rw [Expr.rename, Expr.rename_id hf e]
  | .binary l op r => by rw [Expr.rename, Expr.rename_id hf l, Expr.rename_id hf r]
  | .call g args => by rw [Expr.rename, exprsRename_id hf args]
  | .index base items => by rw [Expr.rename, Expr.rename_id hf base, itemsRename_id hf items]
  | .cast t e => by rw [Expr.rename, TypeExpr.rename_id hf t, Expr.rename_id hf e]
  | .array items => by rw [Expr.rename, exprsRename_id hf items]
  | .measure e => by rw [Expr.rename, Expr.rename_id hf e]
  | .paren e => by rw [Expr.rename, Expr.rename_id hf e]
  | .int _ | .float _ | .imaginary _ | .bool _ | .bits _ | .duration _ _ | .constant _ => rfl

theorem exprsRename_id (hf : ∀ n, f n = n) : ∀ es : List Expr, exprsRename f es = es
  | [] => rfl
  | e :: es => by rw [exprsRename, Expr.rename_id hf e, exprsRename_id hf es]

theorem TypeExpr.rename_id (hf : ∀ n, f n = n) : ∀ t : TypeExpr, t.rename f = t
  | .sized kind width => by rw [TypeExpr.rename, optionRename_id hf width]
  | .array element dims => by rw [TypeExpr.rename, TypeExpr.rename_id hf element, exprsRename_id hf dims]
  | .bool | .duration | .stretch => rfl

theorem optionRename_id (hf : ∀ n, f n = n) : ∀ e : Option Expr, optionRename f e = e
  | none => rfl
  | some e => by rw [optionRename, Expr.rename_id hf e]

theorem RangeExpr.rename_id (hf : ∀ n, f n = n) : ∀ r : RangeExpr, r.rename f = r
  | ⟨start, step, stop⟩ => by
    rw [RangeExpr.rename, optionRename_id hf start, optionRename_id hf step, optionRename_id hf stop]

theorem IndexItem.rename_id (hf : ∀ n, f n = n) : ∀ item : IndexItem, item.rename f = item
  | .single e => by rw [IndexItem.rename, Expr.rename_id hf e]
  | .range r => by rw [IndexItem.rename, RangeExpr.rename_id hf r]
  | .set items => by rw [IndexItem.rename, exprsRename_id hf items]

theorem itemsRename_id (hf : ∀ n, f n = n) : ∀ items : List IndexItem, itemsRename f items = items
  | [] => rfl
  | item :: items => by rw [itemsRename, IndexItem.rename_id hf item, itemsRename_id hf items]

end

theorem Modifier.rename_id (hf : ∀ n, f n = n) (m : Modifier) : m.rename f = m := by
  cases m with
  | ctrl n => rw [Modifier.rename, optionRename_id hf n]
  | negctrl n => rw [Modifier.rename, optionRename_id hf n]
  | inv => rfl
  | pow e => rw [Modifier.rename, Expr.rename_id hf e]

theorem GateCall.rename_id (hf : ∀ n, f n = n) (c : GateCall) : c.rename f = c := by
  have hmodifiers : Modifier.rename f = id := funext (Modifier.rename_id hf)
  rw [GateCall.rename, exprsRename_id hf c.params, exprsRename_id hf c.qubits, hmodifiers, List.map_id]

end Identity

section Callees

variable (f : String → String)

mutual

theorem Expr.callees_rename : ∀ e : Expr, (e.rename f).callees = e.callees
  | .unary _ e | .measure e | .paren e => Expr.callees_rename e
  | .binary l _ r => by rw [Expr.rename, Expr.callees, Expr.callees, Expr.callees_rename l, Expr.callees_rename r]
  | .call g args => by rw [Expr.rename, Expr.callees, Expr.callees, exprsCallees_rename args]
  | .index base items => by
    rw [Expr.rename, Expr.callees, Expr.callees, Expr.callees_rename base, itemsCallees_rename items]
  | .cast t e => by
    rw [Expr.rename, Expr.callees, Expr.callees, TypeExpr.callees_rename t, Expr.callees_rename e]
  | .array items => exprsCallees_rename items
  | .name _ | .int _ | .float _ | .imaginary _ | .bool _ | .bits _ | .duration _ _ | .constant _ => rfl

theorem exprsCallees_rename : ∀ es : List Expr, exprsCallees (exprsRename f es) = exprsCallees es
  | [] => rfl
  | e :: es => by rw [exprsRename, exprsCallees, exprsCallees, Expr.callees_rename e, exprsCallees_rename es]

theorem TypeExpr.callees_rename : ∀ t : TypeExpr, (t.rename f).callees = t.callees
  | .sized _ width => optionCallees_rename width
  | .array element dims => by
    rw [TypeExpr.rename, TypeExpr.callees, TypeExpr.callees, TypeExpr.callees_rename element,
      exprsCallees_rename dims]
  | .bool | .duration | .stretch => rfl

theorem optionCallees_rename : ∀ e : Option Expr, optionCallees (optionRename f e) = optionCallees e
  | none => rfl
  | some e => Expr.callees_rename e

theorem RangeExpr.callees_rename : ∀ r : RangeExpr, (r.rename f).callees = r.callees
  | ⟨start, step, stop⟩ => by
    rw [RangeExpr.rename, RangeExpr.callees, RangeExpr.callees, optionCallees_rename start,
      optionCallees_rename step, optionCallees_rename stop]

theorem IndexItem.callees_rename : ∀ item : IndexItem, (item.rename f).callees = item.callees
  | .single e => Expr.callees_rename e
  | .range r => RangeExpr.callees_rename r
  | .set items => exprsCallees_rename items

theorem itemsCallees_rename : ∀ items : List IndexItem, itemsCallees (itemsRename f items) = itemsCallees items
  | [] => rfl
  | item :: items => by
    rw [itemsRename, itemsCallees, itemsCallees, IndexItem.callees_rename item, itemsCallees_rename items]

end

end Callees

end OpenQasm
