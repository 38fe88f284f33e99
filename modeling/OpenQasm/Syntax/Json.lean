import OpenQasm.Json
import OpenQasm.Syntax

/-!
Syntax trees as JSON documents. A structure is an object of its fields, a variant is its name or an
object with one field, and what is left out is null. Numbers that a reader holding doubles could lose
are written as texts.
-/
namespace OpenQasm

namespace Json

/-- The largest whole number that every reader of doubles keeps apart from its neighbours. -/
def largestExact : Nat := 9007199254740991

/-- A whole number; one that doubles cannot hold is a text. -/
def whole (n : Int) : Json := if n.natAbs ≤ largestExact then .int n else .string (toString n)

/-- The shortest text that reads back as a double. -/
def double (x : Float) : Json := .string (Decimal.literal x)

/-- Something that may be left out. -/
def optional {α : Type} (f : α → Json) : Option α → Json
  | none => .null
  | some a => f a

/-- A variant that carries fields with names. -/
def variantOf (name : String) (fields : List (String × Json)) : Json := variant name (.object fields)

def texts (ss : List String) : Json := .array (ss.map .string)

end Json

open Json

def Span.json (s : Span) : Json := .object [("line", whole s.line), ("column", whole s.column)]

/-- A number of the source; one too large for a double is null. -/
def numberJson (x : Float) : Json := if x.isFinite then double x else .null

def TimeUnit.json (u : TimeUnit) : Json :=
  .string (match u with
    | ns => "Ns"
    | us => "Us"
    | ms => "Ms"
    | s => "S"
    | dt => "Dt")

def UnaryOp.json (op : UnaryOp) : Json :=
  .string (match op with
    | neg => "Neg"
    | not => "Not"
    | bitNot => "BitNot")

def BinaryOp.json (op : BinaryOp) : Json :=
  .string (match op with
    | add => "Add"
    | sub => "Sub"
    | mul => "Mul"
    | div => "Div"
    | mod => "Mod"
    | pow => "Pow"
    | eq => "Eq"
    | notEq => "NotEq"
    | lt => "Lt"
    | ltEq => "LtEq"
    | gt => "Gt"
    | gtEq => "GtEq"
    | and => "And"
    | or => "Or"
    | bitAnd => "BitAnd"
    | bitOr => "BitOr"
    | bitXor => "BitXor"
    | shiftLeft => "LShift"
    | shiftRight => "RShift"
    | concat => "Concat")

def MathConstant.json (c : MathConstant) : Json :=
  .string (match c with
    | pi => "Pi"
    | tau => "Tau"
    | euler => "Euler")

def SizedKind.variantName : SizedKind → String
  | int => "Int"
  | uint => "Uint"
  | float => "Float"
  | angle => "Angle"
  | bit => "Bit"
  | complex => "Complex"

mutual

def Expr.json : Expr → Json
  | .int n => variant "Int" (whole n.toNat)
  | .float x => variant "Float" (numberJson x)
  | .imaginary x => variant "Imag" (numberJson x)
  | .bool b => variant "Bool" (.bool b)
  | .bits digits => variant "BitString" (.string digits)
  | .duration x u => variant "Duration" (.array [numberJson x, u.json])
  | .name n => variant "Identifier" (.string n)
  | .constant c => c.json
  | .unary op e => variantOf "Unary" [("op", op.json), ("operand", e.json)]
  | .binary l op r => variantOf "BinOp" [("left", l.json), ("op", op.json), ("right", r.json)]
  | .call f args => variantOf "FnCall" [("name", .string f), ("args", .array (exprJsons args))]
  | .index base items =>
    variantOf "Index" [("base", base.json), ("items", .array (itemJsons items))]
  | .cast type e => variantOf "Cast" [("ty", type.json), ("operand", e.json)]
  | .array items => variant "Array" (.array (exprJsons items))
  | .measure e => variant "Measure" e.json
  | .paren e => variant "Paren" e.json

def exprJsons : List Expr → List Json
  | [] => []
  | e :: es => e.json :: exprJsons es

def optionJson : Option Expr → Json
  | none => .null
  | some e => e.json

def TypeExpr.json : TypeExpr → Json
  | .bool => .string "Bool"
  | .sized kind width => variant kind.variantName (optionJson width)
  | .duration => .string "Duration"
  | .stretch => .string "Stretch"
  | .array element dims =>
    variantOf "Array" [("element", element.json), ("dims", .array (exprJsons dims))]

def RangeExpr.json : RangeExpr → Json
  | ⟨start, step, stop⟩ =>
    .object [("start", optionJson start), ("step", optionJson step), ("end", optionJson stop)]

def IndexItem.json : IndexItem → Json
  | .single e => variant "Single" e.json
  | .range r => variant "Range" r.json
  | .set items => variant "Set" (.array (exprJsons items))

def itemJsons : List IndexItem → List Json
  | [] => []
  | i :: is => i.json :: itemJsons is

end

def Modifier.json : Modifier → Json
  | .ctrl n => variant "Ctrl" (optionJson n)
  | .negctrl n => variant "NegCtrl" (optionJson n)
  | .inv => .string "Inv"
  | .pow e => variant "Pow" e.json

def GateCall.json (c : GateCall) : Json :=
  .object [("name", .string c.name), ("params", .array (exprJsons c.params)),
    ("qubits", .array (exprJsons c.qubits)), ("modifiers", .array (c.modifiers.map Modifier.json))]

def Direction.json (d : Direction) : Json :=
  .string (match d with
    | input => "Input"
    | output => "Output")

def ClassicalDecl.json (d : ClassicalDecl) : Json :=
  .object [("ty", d.type.json), ("name", .string d.name), ("init", optionJson d.init),
    ("is_const", .bool d.isConst), ("io", optional Direction.json d.direction)]

def Formal.json : Formal → Json
  | .classical type n => variantOf "Classical" [("ty", type.json), ("name", .string n)]
  | .qubit n size => variantOf "Qubit" [("name", .string n), ("size", optionJson size)]

def LoopValues.json : LoopValues → Json
  | .range r => variant "Range" r.json
  | .set items => variant "Set" (.array (exprJsons items))
  | .array e => variant "Expr" e.json

def AssignOp.json (op : AssignOp) : Json :=
  .string (match op with
    | set => "Assign"
    | add => "AddAssign"
    | sub => "SubAssign"
    | mul => "MulAssign"
    | div => "DivAssign")

mutual

def Statement.json : Statement → Json
  | ⟨kind, span⟩ => .object [("kind", kind.json), ("span", span.json)]

def StatementKind.json : StatementKind → Json
  | .includeFile path => variant "Include" (.string path)
  | .qubits n size => variantOf "QubitDecl" [("name", .string n), ("size", optionJson size)]
  | .classical d => variant "ClassicalDecl" d.json
  | .alias n e => variantOf "Alias" [("name", .string n), ("value", e.json)]
  | .gate c => variant "Gate" c.json
  | .measure q target => variantOf "Measure" [("qubits", q.json), ("target", optionJson target)]
  | .reset e => variant "Reset" e.json
  | .barrier es => variant "Barrier" (.array (exprJsons es))
  | .branch c thenBody none =>
    variantOf "If" [("condition", c.json), ("then_body", .array (bodyJsons thenBody)),
      ("else_body", .null)]
  | .branch c thenBody (some elseBody) =>
    variantOf "If" [("condition", c.json), ("then_body", .array (bodyJsons thenBody)),
      ("else_body", .array (bodyJsons elseBody))]
  | .forLoop type n values body =>
    variantOf "For" [("var_type", optional TypeExpr.json type), ("variable", .string n),
      ("iterable", values.json), ("body", .array (bodyJsons body))]
  | .whileLoop c body =>
    variantOf "While" [("condition", c.json), ("body", .array (bodyJsons body))]
  | .breakLoop => .string "Break"
  | .continueLoop => .string "Continue"
  | .returnValue e => variant "Return" (optionJson e)
  | .block body => variant "Block" (.array (bodyJsons body))
  | .defineSubroutine d => variant "SubroutineDef" d.json
  | .defineGate d => variant "GateDef" d.json
  | .assign target op e =>
    variantOf "Assignment" [("target", target.json), ("op", op.json), ("value", e.json)]
  | .evaluate e => variant "Expr" e.json
  | .pragma t => variant "Pragma" (.string t)
  | .annotated keyword content =>
    variantOf "Annotation" [("keyword", .string keyword), ("content", .string content)]

def SubroutineDefinition.json : SubroutineDefinition → Json
  | ⟨n, formals, result, body⟩ =>
    .object [("name", .string n), ("params", .array (formals.map Formal.json)),
      ("return_type", optional TypeExpr.json result), ("body", .array (bodyJsons body))]

def GateDefinition.json : GateDefinition → Json
  | ⟨n, params, qubits, body⟩ =>
    .object [("name", .string n), ("params", texts params), ("qubits", texts qubits),
      ("body", .array (bodyJsons body))]

def bodyJsons : List Statement → List Json
  | [] => []
  | s :: ss => s.json :: bodyJsons ss

end

end OpenQasm
