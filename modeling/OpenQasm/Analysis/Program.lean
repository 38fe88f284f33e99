import OpenQasm.Analysis.Statements
import OpenQasm.Flat.Print
import OpenQasm.Grammar.Program
import OpenQasm.Syntax.Calls

/-!
The analysis of whole programs. What is wrong with a program is reported and left out, so that there is
always a flat program.
-/
namespace OpenQasm

namespace Analysis

/-- Runs the statements of a program one by one, unless a report ends the analysis. -/
def topLevel (calls : Calls) : List Statement → Analysis Unit
  | [] => return
  | s :: ss => do
    if (← get).halted then return
    let _ ← attempt (statement calls s)
    topLevel calls ss

/-- Reports the errors of reading a program and runs what could be read. -/
def program (calls : Calls) (p : Program) (errors : List SyntaxError) : Analysis Unit := do
  errors.forM fun e => report (.ofSyntaxError e)
  topLevel calls p.statements

/-- The flat program that a state stands for. -/
def State.flatProgram (s : State) (version : Option String) (config : Config) : FlatProgram :=
  { version
    statements := s.output.reverse
    qubitRegisters := s.registers.ofKind .quantum
    clbitRegisters := s.registers.ofKind .classical
    declarations := s.declarations.reverse
    externalGates := s.externalGates.reverse
    symbols := s.scopes.globals.filter (!·.isBuiltin)
    diagnostics := s.diagnostics.reverse
    fatalSeverity := config.fatalSeverity
    includesStandardGates := true }

/-- How deep calls may be nested. Between two bodies, a chain of calls passes each call of the program
at most once, and it passes each body at most once. -/
def nestingBound (p : Program) : Nat := (p.callees.length + 1) * (p.definedNames.length + 1)

/-- The flat program of a source, with everything that is to be reported about it. -/
def ofSource (config : Config) (source : String) : FlatProgram :=
  let (p, errors) := Program.parse source
  let (_, s) := program (.nested (nestingBound p)) p errors config .initial
  s.flatProgram p.version config

end Analysis

/-- Analyses a source. It fails if a report reaches the severity that the configuration calls fatal. -/
def analyze (config : Config) (source : String) : Except AnalysisFailure FlatProgram :=
  let p := Analysis.ofSource config source
  if p.fatalDiagnostics.isEmpty then .ok p else .error ⟨p⟩

end OpenQasm
