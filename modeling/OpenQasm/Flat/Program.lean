import OpenQasm.Diagnostic
import OpenQasm.Flat
import Std.Data.TreeMap
import Std.Data.TreeSet

/-!
Flat programs: the outcome of an analysis. They answer questions about their operations, and the
transformations make new programs of them.
-/
namespace OpenQasm

/-- A variable of the flat program. -/
structure Declaration where
  name : String
  type : ClassicalType
  direction : Option Direction

structure FlatProgram where
  /-- The version as the source gives it. -/
  version : Option String
  statements : List FlatStatement
  qubitRegisters : List Register
  clbitRegisters : List Register
  declarations : List Declaration
  /-- Definitions of the gates that are kept as calls. -/
  externalGates : List GateDefinition
  /-- The global symbols of the source in the order of their declaration. -/
  symbols : List Symbol
  diagnostics : List Diagnostic
  fatalSeverity : Severity
  /-- Whether the printed program includes the standard gates. -/
  includesStandardGates : Bool

/-- The number of elements of all registers. -/
def totalSize : List Register → Nat
  | [] => 0
  | r :: rs => r.size + totalSize rs

/-- The register that holds a physical index, and the place in it. -/
def locateIn? (registers : List Register) (physical : Nat) : Option (Register × Nat) :=
  (registers.find? fun r => r.base ≤ physical && physical < r.base + r.size).map fun r =>
    (r, physical - r.base)

namespace FlatProgram

def qubitCount (p : FlatProgram) : Nat := totalSize p.qubitRegisters

def clbitCount (p : FlatProgram) : Nat := totalSize p.clbitRegisters

/-- The elementary operations in order, those of a branch where it stands. -/
def operations (p : FlatProgram) : List Instruction := FlatStatement.listFrom [p.statements]

def hasMeasurements (p : FlatProgram) : Bool :=
  FlatStatement.anyFrom Instruction.isMeasure [p.statements]

def hasBarriers (p : FlatProgram) : Bool :=
  FlatStatement.anyFrom Instruction.isBarrier [p.statements]

/-- The qubits that operations other than barriers act on. -/
def used (p : FlatProgram) : Std.TreeSet Nat :=
  p.operations.foldl
    (fun found i => if i.isBarrier then found else i.qubits.foldl Std.TreeSet.insert found) ∅

def usedCount (p : FlatProgram) : Nat := p.used.size

/-- The length of the longest chain of operations that depend on each other. -/
def depth (p : FlatProgram) : Nat :=
  (FlatStatement.addAllTo p.qubitCount p.clbitCount [] Circuit.empty p.statements).depth

/-- How often each kind of operation occurs, in the order of their names. -/
def gateCounts (p : FlatProgram) : Std.TreeMap String Nat :=
  p.operations.foldl (fun counts i => counts.insert i.countKey (counts.getD i.countKey 0 + 1)) ∅

def symbol? (p : FlatProgram) (name : String) : Option Symbol := p.symbols.find? (·.name = name)

/-- The reports that reach the severity at which an analysis fails. -/
def fatalDiagnostics (p : FlatProgram) : List Diagnostic :=
  p.diagnostics.filter (·.isFatal p.fatalSeverity)

def diagnosticsJson (p : FlatProgram) : String :=
  (Json.array (p.diagnostics.map Diagnostic.toJson)).pretty

/-- The register of a qubit and the place in it. -/
def qubitLocation? (p : FlatProgram) (q : Nat) : Option (Register × Nat) :=
  locateIn? p.qubitRegisters q

def clbitLocation? (p : FlatProgram) (c : Nat) : Option (Register × Nat) :=
  locateIn? p.clbitRegisters c

def removeMeasurements (p : FlatProgram) : FlatProgram :=
  { p with statements := FlatStatement.keepOps (!·.isMeasure) p.statements }

def removeBarriers (p : FlatProgram) : FlatProgram :=
  { p with statements := FlatStatement.keepOps (!·.isBarrier) p.statements }

/-- The qubit at the mirrored place of its register. -/
def mirrored (registers : List Register) (q : Nat) : Nat :=
  match locateIn? registers q with
  | some (r, place) => r.base + (r.size - 1 - place)
  | none => q

/-- The program with the order of the qubits reversed inside every register. -/
def reverseQubitOrder (p : FlatProgram) : FlatProgram :=
  { p with
    statements :=
      FlatStatement.filterMapBody (fun i => some (i.mapQubits (mirrored p.qubitRegisters)))
        p.statements }

/-- The registers with the kept qubits only, numbered from `next` on, with the old numbers of their
qubits in order. Registers of which nothing is kept are dropped. -/
def compacted (kept : List Nat) : Nat → List Register → List (Register × List Nat)
  | _, [] => []
  | next, r :: rs =>
    match kept.filter (r.holds .quantum) with
    | [] => compacted kept next rs
    | qs => ({ r with size := qs.length, base := next }, qs) :: compacted kept (next + qs.length) rs

/-- A barrier with the qubits that are left, and any other operation with its qubits renumbered. -/
def renumbered (number? : Nat → Option Nat) (i : Instruction) : Option Instruction :=
  if i.isBarrier then
    match i.qubits.filterMap number? with
    | [] => none
    | qs => some (.barrier qs)
  else some (i.mapQubits fun q => (number? q).getD q)

/-- The program without the qubits that no operation but a barrier uses. -/
def removeIdleQubits (p : FlatProgram) : FlatProgram :=
  let parts := compacted p.used.toList 0 p.qubitRegisters
  let numbers : Std.TreeMap Nat Nat := Std.TreeMap.ofList (parts.flatMap (·.2)).zipIdx
  { p with
    statements := FlatStatement.filterMapBody (renumbered (numbers.get? ·)) p.statements
    qubitRegisters := parts.map (·.1) }

/-- An identity gate on a qubit. -/
def idle (q : Nat) : FlatStatement := .op ⟨.gate ⟨.builtin .id, [], []⟩, [q], []⟩

/-- The program with an identity gate at the end for each qubit that is not used. -/
def populateIdleQubits (p : FlatProgram) : FlatProgram :=
  let used := p.used
  let qubits := p.qubitRegisters.flatMap fun r => List.range' r.base r.size
  { p with statements := p.statements ++ (qubits.filter (!used.contains ·)).map idle }

def removeIncludes (p : FlatProgram) : FlatProgram := { p with includesStandardGates := false }

end FlatProgram

/-- An analysis with fatal reports. The program is what could be made of the source. -/
structure AnalysisFailure where
  program : FlatProgram

def AnalysisFailure.message (f : AnalysisFailure) : String :=
  let fatal := f.program.fatalDiagnostics
  "analysis failed with " ++ toString fatal.length ++ " error(s); first: " ++
    (fatal.head?.map Diagnostic.text).getD ""

end OpenQasm
