import OpenQasm.Analysis.Evaluate

/-!
Expressions for the flat program. Known parts become literals, and variables get the names that they
have there. A plain variable gets one when it is first needed: it is declared, and the value that it has
so far is assigned to it.
-/
namespace OpenQasm

namespace Analysis

/-- Declares a variable of the flat program under a free name. Strings of bits become registers. -/
def hoist (name : String) (t : ClassicalType) : Analysis String := do
  match t with
  | .sized .bit n => do return (← allocate name n .classical).1
  | t => do
    let emitName ← reserve name
    addDeclaration ⟨emitName, t, none⟩
    return emitName

/-- Gives a variable a name in the flat program. -/
def materialize (name : String) : Analysis String := do
  let s ← resolve name
  match s.type with
  | none => fail (.notValue name s.kind)
  | some t =>
    let emitName ← hoist name t
    match s.value with
    | some v => emit (.assign (.name emitName) v.toExpr)
    | none => pure ()
    modifySymbol name fun s => { s with emitName }
    return emitName

/-- The name of a variable in the flat program. -/
def runtimeName (name : String) : Analysis String := do
  let s ← resolve name
  match s.emitName with
  | some emitName => return emitName
  | none => if s.kind = .classicalVariable then materialize name else fail (.notValue name s.kind)

mutual

/-- Whether the value of an expression takes a subroutine call. Indices are not looked at. -/
def callsSubroutine (scopes : Scopes) : Expr → Bool
  | .call f args =>
    ((scopes.resolve? f).bind Symbol.subroutine?).isSome || anyCallsSubroutine scopes args
  | .unary _ e | .cast _ e | .paren e | .measure e => callsSubroutine scopes e
  | .binary l _ r => callsSubroutine scopes l || callsSubroutine scopes r
  | .index base _ => callsSubroutine scopes base
  | .array items => anyCallsSubroutine scopes items
  | _ => false

def anyCallsSubroutine (scopes : Scopes) : List Expr → Bool
  | [] => false
  | e :: es => callsSubroutine scopes e || anyCallsSubroutine scopes es

end

/-- A position as a literal. -/
def positionExpr (p : Nat) : Expr := .int p.toUInt64

/-- An index item with known positions. -/
def literalItem (single : Bool) (positions : List Nat) : IndexItem :=
  match single, positions with
  | true, [p] => .single (positionExpr p)
  | _, ps => .set (ps.map positionExpr)

variable (calls : Calls)

/-- The items of an index with their positions written out; all of them count from the ends of one
length. -/
def literalItems (length : Nat) : List IndexItem → Analysis (List IndexItem)
  | [] => return []
  | item :: rest => do
    let positions ← itemPositions calls length item
    let items ← literalItems length rest
    return literalItem (isSingle item) positions :: items

/-- The literal of a known value; what depends on the run of the program is left to be rewritten. -/
def foldLiteral? (e : Expr) : Analysis (Option Expr) := do
  if callsSubroutine (← get).scopes e then fail .nestedCall
  else return (← fold calls e).map Value.toExpr

mutual

/-- The expression of the flat program for an expression. -/
def residualize : Expr → Analysis Expr
  | .name n => do
    match ← foldLiteral? calls (.name n) with
    | some e => return e
    | none => return .name (← runtimeName n)
  | .unary op e => do
    match ← foldLiteral? calls (.unary op e) with
    | some e => return e
    | none => return .unary op (← residualize e)
  | .binary l op r => do
    match ← foldLiteral? calls (.binary l op r) with
    | some e => return e
    | none =>
      let l ← residualize l
      let r ← residualize r
      return .binary l op r
  | .call f args => do
    match ← foldLiteral? calls (.call f args) with
    | some e => return e
    | none => return .call f (← residualizeAll args)
  | .index base items => do
    match ← foldLiteral? calls (.index base items) with
    | some e => return e
    | none =>
      let t ← infer calls base
      let items ← literalItems calls (t.width?.getD 0) items
      return .index (← residualize base) items
  | .cast type e => do
    match ← foldLiteral? calls (.cast type e) with
    | some e => return e
    | none =>
      let t ← resolveType calls type
      return .cast t.toExpr (← residualize e)
  | .array items => do
    match ← foldLiteral? calls (.array items) with
    | some e => return e
    | none => return .array (← residualizeAll items)
  | .paren e => do
    match ← foldLiteral? calls (.paren e) with
    | some e => return e
    | none => return .paren (← residualize e)
  | e => do return (← foldLiteral? calls e).getD e

def residualizeAll : List Expr → Analysis (List Expr)
  | [] => return []
  | e :: es => do
    let e ← residualize e
    let es ← residualizeAll es
    return e :: es

end

/-- The operation on parameters that an operator stands for. -/
def parameterOperation? : BinaryOp → Option (Parameter → Parameter → Parameter)
  | .add => some .add
  | .sub => some .sub
  | .mul => some .mul
  | .div => some .div
  | .pow => some .pow
  | _ => none

/-- A parameter that is a known number, or a name for an expression of the flat program. -/
def parameterLeaf (e : Expr) : Analysis Parameter := do
  match ← fold calls e with
  | some v =>
    match v.real? with
    | some x => return .constant x
    | none => fail (.parameterValue v)
  | none =>
    match ← residualize calls e with
    | .name n => return .symbol n
    | e => return .symbol ("(" ++ e.text ++ ")")

/-- The parameter that a name was bound to by the call of a gate. -/
def boundParameter? (name : String) : Analysis (Option Parameter) := do
  match (← resolve? name).map Symbol.binding with
  | some (.param p) => return some p
  | _ => return none

mutual

/-- The parameter of a gate for an expression, as it is written. -/
def parameterTree : Expr → Analysis Parameter
  | .constant .pi => return .pi
  | .name n => do
    match ← boundParameter? n with
    | some p => return p
    | none => parameterLeaf calls (.name n)
  | .paren e => parameterTree e
  | .unary .neg e => do return .neg (← parameterTree e)
  | .binary l op r =>
    match parameterOperation? op with
    | some combine => do
      let a ← parameterTree l
      let b ← parameterTree r
      return combine a b
    | none => parameterLeaf calls (.binary l op r)
  | .call f args => do
    if (MathFunction.ofName? f).isSome && (← resolve? f).isNone then
      match ← onlyParameter args with
      | some p => return .function f p
      | none => parameterLeaf calls (.call f args)
    else parameterLeaf calls (.call f args)
  | e => parameterLeaf calls e

/-- The parameter for the only argument of a function. -/
def onlyParameter : List Expr → Analysis (Option Parameter)
  | [e] => do return some (← parameterTree e)
  | _ => return none

end

/-- The parameter of a gate for an expression, its known parts being evaluated. -/
def toParameter (e : Expr) : Analysis Parameter := do return (← parameterTree calls e).simplify

end Analysis
end OpenQasm
