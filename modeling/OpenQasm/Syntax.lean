import OpenQasm.Source

/-!
The syntax tree of a program, as it is written: widths and sizes are expressions, and parentheses
are kept.
-/
namespace OpenQasm

inductive TimeUnit
  | ns | us | ms | s | dt
deriving DecidableEq, Repr, Inhabited

def TimeUnit.text : TimeUnit → String
  | .ns => "ns"
  | .us => "us"
  | .ms => "ms"
  | .s => "s"
  | .dt => "dt"

inductive UnaryOp
  | neg | not | bitNot
deriving DecidableEq, Repr

def UnaryOp.symbol : UnaryOp → String
  | .neg => "-"
  | .not => "!"
  | .bitNot => "~"

inductive BinaryOp
  | add | sub | mul | div | mod | pow
  | eq | notEq | lt | ltEq | gt | gtEq
  | and | or | bitAnd | bitOr | bitXor | shiftLeft | shiftRight
  /-- Joins two registers. -/
  | concat
deriving DecidableEq, Repr

namespace BinaryOp

def symbol : BinaryOp → String
  | add => "+"
  | sub => "-"
  | mul => "*"
  | div => "/"
  | mod => "%"
  | pow => "**"
  | eq => "=="
  | notEq => "!="
  | lt => "<"
  | ltEq => "<="
  | gt => ">"
  | gtEq => ">="
  | and => "&&"
  | or => "||"
  | bitAnd => "&"
  | bitOr => "|"
  | bitXor => "^"
  | shiftLeft => "<<"
  | shiftRight => ">>"
  | concat => "++"

/-- How tightly the operator binds. -/
def strength : BinaryOp → Nat
  | concat => 1
  | or => 2
  | and => 3
  | bitOr => 4
  | bitXor => 5
  | bitAnd => 6
  | eq | notEq => 7
  | lt | ltEq | gt | gtEq => 8
  | shiftLeft | shiftRight => 9
  | add | sub => 10
  | mul | div | mod => 11
  | pow => 13

/-- A chain of powers groups to the right, all other chains to the left. -/
def groupsRight (op : BinaryOp) : Bool := op = pow

/-- The least strength that the left operand shows without parentheses. -/
def leftStrength (op : BinaryOp) : Nat := if op.groupsRight then op.strength + 1 else op.strength

/-- The least strength that the right operand shows without parentheses. -/
def rightStrength (op : BinaryOp) : Nat := if op.groupsRight then op.strength else op.strength + 1

end BinaryOp

/-- Prefix operators bind looser than powers and tighter than products. -/
def UnaryOp.strength : Nat := 12

/-- Named numbers. -/
inductive MathConstant
  | pi | tau | euler
deriving DecidableEq, Repr

namespace MathConstant

def text : MathConstant → String
  | pi => "pi"
  | tau => "tau"
  | euler => "euler"

def value : MathConstant → Float
  | pi => 3.141592653589793
  | tau => 6.283185307179586
  | euler => 2.718281828459045

end MathConstant

/-- The kinds of classical type that take a width. -/
inductive SizedKind
  | int | uint | float | angle | bit
  /-- The width is that of the two parts. -/
  | complex
deriving DecidableEq, Repr

mutual

inductive Expr
  | int (n : UInt64)
  | float (x : Float)
  | imaginary (x : Float)
  | bool (b : Bool)
  /-- A string of the digits zero and one. -/
  | bits (digits : String)
  | duration (x : Float) (unit : TimeUnit)
  | name (n : String)
  | constant (c : MathConstant)
  | unary (op : UnaryOp) (operand : Expr)
  | binary (left : Expr) (op : BinaryOp) (right : Expr)
  | call (function : String) (args : List Expr)
  | index (base : Expr) (items : List IndexItem)
  | cast (type : TypeExpr) (operand : Expr)
  | array (items : List Expr)
  | measure (operand : Expr)
  | paren (inner : Expr)

/-- A classical type whose widths are still expressions. -/
inductive TypeExpr
  | bool
  | sized (kind : SizedKind) (width : Option Expr)
  | duration
  | stretch
  | array (element : TypeExpr) (dims : List Expr)

/-- A range whose ends both belong to it. -/
structure RangeExpr where
  start : Option Expr
  step : Option Expr
  stop : Option Expr

/-- What stands between the commas of an index. -/
inductive IndexItem
  | single (e : Expr)
  | range (r : RangeExpr)
  | set (items : List Expr)

end

instance : Inhabited Expr := ⟨.bool false⟩
instance : Inhabited TypeExpr := ⟨.bool⟩

namespace Expr

/-- The name that an operand starts with: `q` in `q[1][0]`. -/
def rootName? : Expr → Option String
  | name n => some n
  | index base _ => base.rootName?
  | _ => none

/-- The expression inside its outer parentheses. -/
def unparen : Expr → Expr
  | paren inner => inner.unparen
  | e => e

/-- The value of an expression made of number literals, named numbers and arithmetic. -/
def literalValue? : Expr → Option Float
  | int n => some n.toFloat
  | float x => some x
  | constant c => some c.value
  | unary .neg e => (literalValue? e).map (- ·)
  | binary l op r =>
    match literalValue? l, literalValue? r with
    | some a, some b =>
      match op with
      | .add => some (a + b)
      | .sub => some (a - b)
      | .mul => some (a * b)
      | .div => some (a / b)
      | .pow => some (a ^ b)
      | _ => none
    | _, _ => none
  | paren e => literalValue? e
  | _ => none

end Expr

/-- How the value of a declared variable passes the border of the program. -/
inductive Direction
  | input | output
deriving DecidableEq, Repr

inductive AssignOp
  | set | add | sub | mul | div
deriving DecidableEq, Repr

/-- The operator that a compound assignment applies. -/
def AssignOp.binary? : AssignOp → Option BinaryOp
  | set => none
  | add => some .add
  | sub => some .sub
  | mul => some .mul
  | div => some .div

/-- The values that a loop runs through. -/
inductive LoopValues
  | range (r : RangeExpr)
  | set (items : List Expr)
  | array (e : Expr)

inductive Modifier
  | ctrl (count : Option Expr)
  | negctrl (count : Option Expr)
  | inv
  | pow (exponent : Expr)

/-- A gate applied to operands; the outermost modifier comes first. -/
structure GateCall where
  name : String
  params : List Expr
  qubits : List Expr
  modifiers : List Modifier

structure ClassicalDecl where
  type : TypeExpr
  name : String
  init : Option Expr
  isConst : Bool
  direction : Option Direction

/-- A formal parameter of a subroutine. -/
inductive Formal
  | classical (type : TypeExpr) (name : String)
  | qubit (name : String) (size : Option Expr)

def Formal.name : Formal → String
  | classical _ n => n
  | qubit n _ => n

mutual

structure Statement where
  kind : StatementKind
  span : Span

inductive StatementKind
  | includeFile (path : String)
  | qubits (name : String) (size : Option Expr)
  | classical (decl : ClassicalDecl)
  | alias (name : String) (value : Expr)
  | gate (call : GateCall)
  | measure (qubits : Expr) (target : Option Expr)
  | reset (operand : Expr)
  /-- Without operands the barrier stands before every qubit. -/
  | barrier (operands : List Expr)
  | branch (condition : Expr) (thenBody : List Statement) (elseBody : Option (List Statement))
  | forLoop (type : Option TypeExpr) (binder : String) (values : LoopValues)
      (body : List Statement)
  | whileLoop (condition : Expr) (body : List Statement)
  | breakLoop
  | continueLoop
  | returnValue (value : Option Expr)
  | block (body : List Statement)
  | defineSubroutine (d : SubroutineDefinition)
  | defineGate (d : GateDefinition)
  | assign (target : Expr) (op : AssignOp) (value : Expr)
  | evaluate (e : Expr)
  | pragma (text : String)
  | annotated (keyword content : String)

structure SubroutineDefinition where
  name : String
  formals : List Formal
  result : Option TypeExpr
  body : List Statement

/-- A gate made of other gates; `params` and `qubits` name what it is applied to. -/
structure GateDefinition where
  name : String
  params : List String
  qubits : List String
  body : List Statement

end

instance : Inhabited Statement := ⟨⟨.breakLoop, .none⟩⟩

/-- A program; the version is that of its first line, if it has one. -/
structure Program where
  version : Option String
  statements : List Statement

end OpenQasm
