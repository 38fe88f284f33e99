import OpenQasm.Flat.Program

/-!
Flat programs as source text: the registers and variables first, then one line for each operation, with
each operand as an element of its register.
-/
namespace OpenQasm

namespace FlatProgram

/-- The version of programs whose source names none. -/
def defaultVersion : String := "3.0"

def elementText (location : Register × Nat) : String :=
  location.1.name ++ "[" ++ toString location.2 ++ "]"

/-- A qubit as an element of its register, or by its number if no register holds it. -/
def qubitText (p : FlatProgram) (q : Nat) : String :=
  match p.qubitLocation? q with
  | some location => elementText location
  | none => "$" ++ toString q

def qubitsText (p : FlatProgram) (i : Instruction) : String :=
  commaJoin (i.qubits.map p.qubitText)

/-- Where the outcome of a measurement goes, if it is kept. -/
def outcomeText (p : FlatProgram) (i : Instruction) : String :=
  match i.clbits.head?.bind p.clbitLocation? with
  | some location => elementText location ++ " = "
  | none => ""

def operationText (p : FlatProgram) (i : Instruction) : String :=
  match i.kind with
  | .gate g => g.text ++ " " ++ p.qubitsText i ++ ";"
  | .measure => p.outcomeText i ++ "measure " ++ p.qubitsText i ++ ";"
  | .reset => "reset " ++ p.qubitsText i ++ ";"
  | .barrier => "barrier " ++ p.qubitsText i ++ ";"

/-- The text without the blanks at its end. -/
def trimEnd (s : String) : String := String.ofList (s.toList.reverse.dropWhile isBlank).reverse

mutual

/-- The lines of a statement at a depth of nesting. -/
def statementText (p : FlatProgram) (depth : Nat) : FlatStatement → String
  | .op i => indentedLine depth (p.operationText i)
  | .assign target value => indentedLine depth (target.text ++ " = " ++ value.text ++ ";")
  | .branch condition _ thenBody [] =>
    braced depth ("if (" ++ condition.text ++ ")") (bodyTexts p (depth + 1) thenBody)
  | .branch condition _ thenBody elseBody =>
    opening depth ("if (" ++ condition.text ++ ")") ++
      String.join (bodyTexts p (depth + 1) thenBody) ++
      braced depth "\x7d else" (bodyTexts p (depth + 1) elseBody)
  | .pragma text => indentedLine depth (trimEnd (Statement.text ⟨.pragma text, .none⟩))

def bodyTexts (p : FlatProgram) (depth : Nat) : List FlatStatement → List String
  | [] => []
  | s :: ss => statementText p depth s :: bodyTexts p depth ss

end

def registerText (keyword : String) (r : Register) : String :=
  indentedLine 0 (keyword ++ "[" ++ toString r.size ++ "] " ++ r.name ++ ";")

def directionText : Option Direction → String
  | some .input => "input "
  | some .output => "output "
  | none => ""

def declarationText (d : Declaration) : String :=
  indentedLine 0 (directionText d.direction ++ d.type.text ++ " " ++ d.name ++ ";")

/-- The lines before the first statement. -/
def header (p : FlatProgram) : String :=
  indentedLine 0 ("OPENQASM " ++ p.version.getD defaultVersion ++ ";") ++
    (if p.includesStandardGates then indentedLine 0 "include \"stdgates.inc\";" else "") ++
    String.join (p.externalGates.map fun d => d.textAt 0) ++
    String.join (p.qubitRegisters.map (registerText "qubit")) ++
    String.join (p.clbitRegisters.map (registerText "bit")) ++
    String.join (p.declarations.map declarationText)

/-- The source text of the program. -/
def source (p : FlatProgram) : String := p.header ++ String.join (bodyTexts p 0 p.statements)

end FlatProgram
end OpenQasm
