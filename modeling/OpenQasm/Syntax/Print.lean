import OpenQasm.Decimal
import OpenQasm.Syntax

/-!
Writing syntax trees as source text. Parentheses stand only where the strength of the operators needs
them, so reading the text gives the tree back up to redundant parentheses.
-/
namespace OpenQasm

/-- Texts with a comma and a blank between them. -/
def commaJoin (ss : List String) : String := ", ".intercalate ss

def inBraces (s : String) : String := "\x7b" ++ s ++ "\x7d"

def SizedKind.text : SizedKind → String
  | .int => "int"
  | .uint => "uint"
  | .float => "float"
  | .angle => "angle"
  | .bit => "bit"
  | .complex => "complex"

namespace Expr

/-- The strength of an expression that is no operation. -/
def atomStrength : Nat := 14

/-- How tightly the outermost operator binds. -/
def strength : Expr → Nat
  | binary _ op _ => op.strength
  | unary _ _ => UnaryOp.strength
  | _ => atomStrength

end Expr

/-- Puts parentheses around an expression that binds looser than its place asks for. -/
def guarded (strength least : Nat) (s : String) : String :=
  if strength < least then "(" ++ s ++ ")" else s

mutual

/-- The text of an expression at a place that asks for a strength. -/
def Expr.textAt (least : Nat) : Expr → String
  | .int n => toString n.toNat
  | .float x => Decimal.literal x
  | .imaginary x => Decimal.literal x ++ "im"
  | .bool true => "true"
  | .bool false => "false"
  | .bits digits => "\"" ++ digits ++ "\""
  | .duration x u => Decimal.literal x ++ u.text
  | .name n => n
  | .constant c => c.text
  | .unary op e => guarded UnaryOp.strength least (op.symbol ++ e.textAt UnaryOp.strength)
  | .binary l op r =>
    guarded op.strength least
      (l.textAt op.leftStrength ++ " " ++ op.symbol ++ " " ++ r.textAt op.rightStrength)
  | .call f args => f ++ "(" ++ commaJoin (exprTexts args) ++ ")"
  | .index base items => base.textAt Expr.atomStrength ++ "[" ++ commaJoin (itemTexts items) ++ "]"
  | .cast type e => type.text ++ "(" ++ e.textAt 0 ++ ")"
  | .array items => inBraces (commaJoin (exprTexts items))
  | .measure e => "measure " ++ e.textAt Expr.atomStrength
  | .paren e => "(" ++ e.textAt 0 ++ ")"

def exprTexts : List Expr → List String
  | [] => []
  | e :: es => e.textAt 0 :: exprTexts es

def optionText : Option Expr → String
  | none => ""
  | some e => e.textAt 0

def RangeExpr.text : RangeExpr → String
  | ⟨start, some step, stop⟩ => optionText start ++ ":" ++ step.textAt 0 ++ ":" ++ optionText stop
  | ⟨start, none, stop⟩ => optionText start ++ ":" ++ optionText stop

def IndexItem.text : IndexItem → String
  | .single e => e.textAt 0
  | .range r => r.text
  | .set items => inBraces (commaJoin (exprTexts items))

def itemTexts : List IndexItem → List String
  | [] => []
  | i :: is => i.text :: itemTexts is

def TypeExpr.text : TypeExpr → String
  | .bool => "bool"
  | .sized kind none => kind.text
  | .sized .complex (some w) => "complex[float[" ++ w.textAt 0 ++ "]]"
  | .sized kind (some w) => kind.text ++ "[" ++ w.textAt 0 ++ "]"
  | .duration => "duration"
  | .stretch => "stretch"
  | .array element dims => "array[" ++ commaJoin (element.text :: exprTexts dims) ++ "]"

end

def Expr.text (e : Expr) : String := e.textAt 0

def exprsText (es : List Expr) : String := commaJoin (es.map Expr.text)

/-- A size in brackets, or nothing. -/
def sizeText : Option Expr → String
  | none => ""
  | some e => "[" ++ e.text ++ "]"

def Modifier.text : Modifier → String
  | .ctrl none => "ctrl"
  | .ctrl (some n) => "ctrl(" ++ n.text ++ ")"
  | .negctrl none => "negctrl"
  | .negctrl (some n) => "negctrl(" ++ n.text ++ ")"
  | .inv => "inv"
  | .pow e => "pow(" ++ e.text ++ ")"

/-- The call without its semicolon. -/
def GateCall.text (c : GateCall) : String :=
  String.join (c.modifiers.map fun m => m.text ++ " @ ") ++ c.name ++
    (if c.params.isEmpty then "" else "(" ++ exprsText c.params ++ ")") ++ " " ++ exprsText c.qubits

def Direction.text : Direction → String
  | .input => "input"
  | .output => "output"

def ClassicalDecl.text (d : ClassicalDecl) : String :=
  (if d.isConst then "const " else "") ++
    (match d.direction with
      | none => ""
      | some x => x.text ++ " ") ++
    d.type.text ++ " " ++ d.name ++
    (match d.init with
      | none => ""
      | some e => " = " ++ e.text) ++ ";"

def Formal.text : Formal → String
  | .classical type n => type.text ++ " " ++ n
  | .qubit n size => "qubit" ++ sizeText size ++ " " ++ n

def LoopValues.text : LoopValues → String
  | .range r => "[" ++ r.text ++ "]"
  | .set items => inBraces (exprsText items)
  | .array e => e.text

def AssignOp.text (op : AssignOp) : String :=
  match op.binary? with
  | none => "="
  | some b => b.symbol ++ "="

/-- A line at a depth of nesting. -/
def indentedLine (depth : Nat) (s : String) : String :=
  String.ofList (List.replicate (4 * depth) ' ') ++ s ++ "\n"

/-- The line before the body of a block, given what stands in front of the brace. -/
def opening (depth : Nat) (header : String) : String := indentedLine depth (header ++ " \x7b")

def closing (depth : Nat) : String := indentedLine depth "\x7d"

/-- The lines of a block with its header. -/
def braced (depth : Nat) (header : String) (lines : List String) : String :=
  opening depth header ++ String.join lines ++ closing depth

def gateHeader (n : String) (params qubits : List String) : String :=
  "gate " ++ n ++ (if params.isEmpty then "" else "(" ++ commaJoin params ++ ")") ++ " " ++
    commaJoin qubits

def subroutineHeader (n : String) (formals : List Formal) (result : Option TypeExpr) : String :=
  "def " ++ n ++ "(" ++ commaJoin (formals.map Formal.text) ++ ")" ++
    (match result with
      | none => ""
      | some t => " -> " ++ t.text)

def forHeader (type : Option TypeExpr) (n : String) (values : LoopValues) : String :=
  "for " ++
    (match type with
      | none => ""
      | some t => t.text ++ " ") ++
    n ++ " in " ++ values.text

mutual

/-- The lines of a statement at a depth of nesting. -/
def Statement.textAt (depth : Nat) : Statement → String
  | ⟨kind, _⟩ => kind.textAt depth

def StatementKind.textAt (depth : Nat) : StatementKind → String
  | .includeFile path => indentedLine depth ("include \"" ++ path ++ "\";")
  | .qubits n size => indentedLine depth ("qubit" ++ sizeText size ++ " " ++ n ++ ";")
  | .classical d => indentedLine depth d.text
  | .alias n e => indentedLine depth ("let " ++ n ++ " = " ++ e.text ++ ";")
  | .gate c => indentedLine depth (c.text ++ ";")
  | .measure q none => indentedLine depth ("measure " ++ q.text ++ ";")
  | .measure q (some t) => indentedLine depth (t.text ++ " = measure " ++ q.text ++ ";")
  | .reset e => indentedLine depth ("reset " ++ e.text ++ ";")
  | .barrier [] => indentedLine depth "barrier;"
  | .barrier es => indentedLine depth ("barrier " ++ exprsText es ++ ";")
  | .branch c thenBody none =>
    braced depth ("if (" ++ c.text ++ ")") (bodyTexts (depth + 1) thenBody)
  | .branch c thenBody (some elseBody) =>
    braced depth ("if (" ++ c.text ++ ")") (bodyTexts (depth + 1) thenBody) ++
      braced depth "else" (bodyTexts (depth + 1) elseBody)
  | .forLoop type n values body =>
    braced depth (forHeader type n values) (bodyTexts (depth + 1) body)
  | .whileLoop c body =>
    braced depth ("while (" ++ c.text ++ ")") (bodyTexts (depth + 1) body)
  | .breakLoop => indentedLine depth "break;"
  | .continueLoop => indentedLine depth "continue;"
  | .returnValue none => indentedLine depth "return;"
  | .returnValue (some e) => indentedLine depth ("return " ++ e.text ++ ";")
  | .block body =>
    indentedLine depth "\x7b" ++ String.join (bodyTexts (depth + 1) body) ++ closing depth
  | .defineSubroutine d => d.textAt depth
  | .defineGate d => d.textAt depth
  | .assign target op e => indentedLine depth (target.text ++ " " ++ op.text ++ " " ++ e.text ++ ";")
  | .evaluate e => indentedLine depth (e.text ++ ";")
  | .pragma t => indentedLine depth ("#pragma " ++ t)
  | .annotated keyword content =>
    indentedLine depth ("@" ++ keyword ++ if content.isEmpty then "" else " " ++ content)

def SubroutineDefinition.textAt (depth : Nat) : SubroutineDefinition → String
  | ⟨n, formals, result, body⟩ =>
    braced depth (subroutineHeader n formals result) (bodyTexts (depth + 1) body)

def GateDefinition.textAt (depth : Nat) : GateDefinition → String
  | ⟨n, params, qubits, body⟩ =>
    braced depth (gateHeader n params qubits) (bodyTexts (depth + 1) body)

def bodyTexts (depth : Nat) : List Statement → List String
  | [] => []
  | s :: ss => s.textAt depth :: bodyTexts depth ss

end

/-- The lines of statements at a depth of nesting. -/
def bodyText (depth : Nat) (body : List Statement) : String := String.join (bodyTexts depth body)

def Statement.text (s : Statement) : String := s.textAt 0

def Program.text (p : Program) : String :=
  (match p.version with
    | none => ""
    | some v => "OPENQASM " ++ v ++ ";\n") ++ bodyText 0 p.statements

end OpenQasm
