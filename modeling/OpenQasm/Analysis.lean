import OpenQasm.Config
import OpenQasm.Flat.Program

/-!
The state of an analysis and the steps that all parts of it share. A step may fail, and what it did
before stays done; the statement that fails is responsible for taking back its output.
-/
namespace OpenQasm

/-- Why a statement was not completed. -/
inductive Failure
  /-- The statement is dropped. -/
  | statement (d : Diagnostic)
  /-- The construct around the statement is dropped, up to the nearest call. -/
  | construct (d : Diagnostic)
  /-- A construct is being dropped whose failure is reported already. -/
  | leaving
  /-- The statement is dropped, and its failure is reported already. -/
  | reported

/-- What the right-hand side of an assignment stands for. -/
inductive RightValue
  | known (v : Value)
  /-- An expression of the flat program. -/
  | runtime (e : Expr)
  /-- Qubits whose measurements are to be stored. -/
  | measured (qubits : List Nat)

/-- How the flow of control leaves a statement. -/
inductive Signal
  | normal | breakLoop | continueLoop
  | returned (result : Option RightValue)

namespace Analysis

structure State where
  scopes : Scopes
  registers : Registers
  /-- The flat statements so far, the last one first. -/
  output : List FlatStatement
  /-- The variables of the flat program, the last one first. -/
  declarations : List Declaration
  /-- The gates that are kept as calls, the last one first. -/
  externalGates : List GateDefinition
  /-- The gates and subroutines that are being expanded, the innermost first. -/
  calls : List String
  /-- The depth of the scope that the innermost loop stands in. -/
  loopScope : Option Nat
  /-- The depth of the scope of the innermost subroutine. -/
  callScope : Option Nat
  /-- The depth of the scope of the innermost branch that is decided when the program runs. What is
  written there to symbols from outside is not known afterwards. -/
  runtimeFloor : Option Nat
  /-- Where the current statement stands. -/
  span : Span
  /-- The reports so far, the last one first. -/
  diagnostics : List Diagnostic
  /-- Whether a report has ended the analysis. -/
  halted : Bool

def State.initial : State :=
  ⟨.withBuiltins, .empty, [], [], [], [], none, none, none, .none, [], false⟩

end Analysis

/-- A step of the analysis. The state is kept when it fails. -/
abbrev Analysis (α : Type) := ReaderT Config (ExceptT Failure (StateM Analysis.State)) α

namespace Analysis

variable {α : Type}

/-- Fails so that the current statement is dropped. -/
def fail (p : Problem) : Analysis α := do throw (.statement ⟨p, (← get).span⟩)

/-- Fails so that the construct around the current statement is dropped. -/
def failConstruct (p : Problem) : Analysis α := do throw (.construct ⟨p, (← get).span⟩)

/-- The value of a result, or the problem that its error is. -/
def orFail {ε : Type} (problem : ε → Problem) : Except ε α → Analysis α
  | .ok a => pure a
  | .error e => fail (problem e)

/-- Whether a report ends the analysis. -/
def ends (config : Config) (d : Diagnostic) : Bool :=
  config.errorMode = .failFast && d.isFatal config.fatalSeverity

def report (d : Diagnostic) : Analysis Unit := do
  let config ← read
  modify fun s =>
    { s with diagnostics := d :: s.diagnostics, halted := s.halted || ends config d }

/-- Reports a problem of the current statement, which goes on. -/
def reportHere (p : Problem) : Analysis Unit := do report ⟨p, (← get).span⟩

/-- Runs a step and then changes the state, whether the step fails or not. -/
def followedBy (x : Analysis α) (f : State → State) : Analysis α := fun config s =>
  match x config s with
  | (result, s) => (result, f s)

/-- Runs a step and gives its failure as a result. -/
def attempt (x : Analysis α) : Analysis (Except Failure α) := fun config s =>
  match x config s with
  | (result, s) => (.ok result, s)

/-- Runs a step in a scope of its own. -/
def inScope (kind : ScopeKind) (x : Analysis α) : Analysis α := do
  modify fun s => { s with scopes := s.scopes.enter kind }
  followedBy x fun s => { s with scopes := s.scopes.exit }

def resolve? (name : String) : Analysis (Option Symbol) := do return (← get).scopes.resolve? name

/-- The symbol that a name stands for. -/
def resolve (name : String) : Analysis Symbol := do
  match ← resolve? name with
  | some s => return s
  | none => fail (.undefinedName name)

def modifySymbol (name : String) (f : Symbol → Symbol) : Analysis Unit :=
  modify fun s => { s with scopes := s.scopes.modify name f }

/-- The problem that a name is taken by a symbol. -/
def takenBy (s : Symbol) : Problem :=
  if s.isBuiltin then .redeclaredBuiltin s.name else .redeclared s.name s.span

/-- Fails if a name is taken in the current scope. -/
def ensureFree (name : String) : Analysis Unit := do
  match (← get).scopes.here? name with
  | some first => fail (takenBy first)
  | none => return

/-- Declares a symbol in the current scope. -/
def declare (x : Symbol) : Analysis Unit := do
  match (← get).scopes.declare x with
  | .ok scopes => modify fun s => { s with scopes }
  | .error first => fail (takenBy first)

/-- A symbol that is declared by the current statement. -/
def newSymbol (name : String) (kind : SymbolKind) : Analysis Symbol := do
  return { name, kind, span := (← get).span }

/-- Appends a flat statement. -/
def emit (f : FlatStatement) : Analysis Unit := modify fun s => { s with output := f :: s.output }

/-- Appends an elementary operation. -/
def emitOp (i : Instruction) : Analysis Unit := emit (.op i)

/-- Adds a variable to the flat program. -/
def addDeclaration (d : Declaration) : Analysis Unit :=
  modify fun s => { s with declarations := d :: s.declarations }

/-- Takes a name for the flat program. -/
def reserve (name : String) : Analysis String := do
  let (free, registers) := (← get).registers.reserve name
  modify fun s => { s with registers }
  return free

/-- Declares a register: the name that it gets, and the view of its elements. -/
def allocate (name : String) (size : Nat) (kind : RegisterKind) : Analysis (String × View) := do
  match (← get).registers.allocate name size kind with
  | .error e => fail (.register e)
  | .ok (id, view, registers) =>
    modify fun s => { s with registers }
    return (registers.nameOf id, view)

/-- The physical indices of a view. -/
def physical (v : View) : Analysis (List Nat) := do return (← get).registers.physical v

/-- Notes what is done to a qubit; a second measurement is reported. -/
def noteUsage (q : Nat) (usage : Usage) : Analysis Unit := do
  let (warning, registers) := (← get).registers.mark q usage
  modify fun s => { s with registers }
  match warning with
  | some w => reportHere (.remeasured w)
  | none => return

def qubitLabel (q : Nat) : Analysis String := do return (← get).registers.qubitLabel q

/-- Whether a branch that is decided when the program runs was entered inside a scope. -/
def branchedSince (scope : Nat) : Analysis Bool := do
  return (← get).runtimeFloor.any fun floor => scope < floor

end Analysis
end OpenQasm
