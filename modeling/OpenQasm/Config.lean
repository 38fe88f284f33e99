import OpenQasm.Diagnostic

/-!
Settings of an analysis.
-/
namespace OpenQasm

/-- What happens at a fatal report. -/
inductive ErrorMode
  | collectAll | failFast
deriving DecidableEq, Repr

namespace ErrorMode

def text : ErrorMode → String
  | collectAll => "collect-all"
  | failFast => "fail-fast"

def ofText? (s : String) : Option ErrorMode := [collectAll, failFast].find? (·.text = s)

end ErrorMode

def Severity.ofText? (s : String) : Option Severity := [Severity.warning, .error].find? (·.text = s)

structure Config where
  errorMode : ErrorMode
  /-- The severity from which on a report is fatal. -/
  fatalSeverity : Severity
  /-- The greatest number of rounds of one loop. -/
  maxLoopIterations : Nat
  unitaryTolerance : Float
  /-- Gates that are kept as calls although they have a body. -/
  externalGates : List String
  /-- The number of qubits that the device has. -/
  deviceQubits : Option Nat

namespace Config

def default : Config := ⟨.collectAll, .error, 1000000, 1e-8, [], none⟩

/-- Whether gates of the name are kept as calls. -/
def isExternal (c : Config) (name : String) : Bool := c.externalGates.contains name

/-- A setting outside its range. -/
inductive Fault
  | noIterations
  | tolerance (x : Float)
  | noQubits

def Fault.message : Fault → String
  | noIterations => "max_loop_iterations must be at least 1"
  | tolerance x => "unitary_tolerance must be a positive number, got " ++ Decimal.plain x
  | noQubits => "device_qubits must be at least 1"

/-- Checks the ranges of the settings. -/
def validate (c : Config) : Except Fault Unit :=
  if c.maxLoopIterations = 0 then .error .noIterations
  else if !(c.unitaryTolerance.isFinite && c.unitaryTolerance > 0.0) then
    .error (.tolerance c.unitaryTolerance)
  else if c.deviceQubits = some 0 then .error .noQubits
  else .ok ()

/-- The settings, if they are valid. -/
def checked (c : Config) : Except Fault Config := c.validate.map fun _ => c

/-- Sets the number of rounds; at least one is allowed. -/
def withMaxLoopIterations (c : Config) (n : Nat) : Config := { c with maxLoopIterations := max n 1 }

/-- A natural number below a bound, written in decimal digits with an optional plus sign. -/
def readNatural? (bound : Nat) (text : String) : Option Nat :=
  let cs := match text.toList with
    | '+' :: cs => cs
    | cs => cs
  if cs.isEmpty || !cs.all Decimal.isDigit then none
  else
    let n := Decimal.natOfDigits cs
    if n < bound then some n else none

def readBool? (text : String) : Option Bool :=
  if text = "true" then some true else if text = "false" then some false else none

/-- Counts of rounds have 64 bits. -/
def countBound : Nat := Bound.literal

/-- Counts of qubits have 32 bits. -/
def qubitBound : Nat := Bound.size

/-- Settings of the environment take precedence. Those that cannot be read are passed over, and ranges
are not checked. -/
def mergeEnvironment (c : Config) (setting? : String → Option String) : Config :=
  let lookup {α : Type} (read? : String → Option α) (name : String) : Option α :=
    (setting? name).bind fun text => read? (String.ofList (trimBlanks text.toList))
  { c with
    maxLoopIterations :=
      (lookup (readNatural? countBound) "QFOLD_MAX_LOOP_ITERATIONS").getD c.maxLoopIterations
    unitaryTolerance := (lookup Decimal.read? "QFOLD_UNITARY_TOLERANCE").getD c.unitaryTolerance
    deviceQubits := (lookup (readNatural? qubitBound) "QFOLD_DEVICE_QUBITS").or c.deviceQubits
    errorMode :=
      match lookup readBool? "QFOLD_FAIL_FAST" with
      | some true => .failFast
      | some false => .collectAll
      | none => c.errorMode }

end Config
end OpenQasm
