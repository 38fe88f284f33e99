import OpenQasm.Analysis.Assign

/-!
Declarations of qubits, classical variables, aliases and subroutines.
-/
namespace OpenQasm

namespace Analysis

/-- Declares a subroutine. Its body is looked at when it is called. -/
def defineSubroutine (d : SubroutineDefinition) : Analysis Unit := do
  if !(← get).scopes.isGlobal then fail .localSubroutine
  let s ← newSymbol d.name .subroutineDefinition
  declare { s with binding := .subroutine d }

/-- Reports that a register takes the program past the qubits of the device. The register is declared
all the same. -/
def checkDevice (size : Nat) : Analysis Unit := do
  let total := min ((← get).registers.qubits + size) Bound.largestSize
  match (← read).deviceQubits with
  | some limit => if total > limit then reportHere (.deviceQubits total limit)
  | none => return

variable (calls : Calls)

def declareQubits (name : String) (size : Option Expr) : Analysis Unit := do
  if !(← get).scopes.isGlobal then fail .localQubits
  let n ← match size with
    | some e => resolveWidth calls e
    | none => pure 1
  ensureFree name
  checkDevice n
  let (_, v) ← allocate name n .quantum
  let s ← newSymbol name .quantumRegister
  declare { s with size := some n, binding := .qubits v }

/-- Declares another name for qubits. -/
def declareAlias (name : String) (value : Expr) : Analysis Unit := do
  match ← viewOf calls value with
  | (.classical, _) => fail (.classicalAlias name)
  | (.quantum, v) =>
    let s ← newSymbol name .alias
    declare { s with size := some v.length, binding := .qubits v }

def declareConstant (name : String) (t : ClassicalType) (init : Option Expr) : Analysis Unit := do
  match init with
  | none => fail (.constantWithoutValue name)
  | some e =>
    checkInitializer calls t e
    match ← rightValue calls e with
    | .known v =>
      let v ← coerceTo t v
      let s ← newSymbol name .constant
      declare { s.withType t with value := some v }
    | _ => fail (.runtimeConstant name)

/-- Declares a variable whose value passes the border of the program. -/
def declareExternal (name : String) (t : ClassicalType) (direction : Direction) : Analysis Unit := do
  ensureFree name
  let emitName ← reserve name
  addDeclaration ⟨emitName, t, some direction⟩
  let s ← newSymbol name .classicalVariable
  declare { s.withType t with mutable := direction = .output, emitName }

/-- Declares a variable. Strings of bits are registers from the start. -/
def declareLocal (name : String) (t : ClassicalType) : Analysis Unit := do
  ensureFree name
  match t with
  | .sized .bit n =>
    let (emitName, v) ← allocate name n .classical
    let s ← newSymbol name .classicalRegister
    declare { s.withType t with mutable := true, binding := .clbits v, emitName }
  | t =>
    let s ← newSymbol name .classicalVariable
    declare { s.withType t with mutable := true }

/-- The checked right-hand side of a declaration. -/
def initialValue (t : ClassicalType) : Option Expr → Analysis (Option RightValue)
  | none => return none
  | some e => do
    checkInitializer calls t e
    return some (← rightValue calls e)

def declareClassical (d : ClassicalDecl) : Analysis Unit := do
  let t ← resolveType calls d.type
  if d.isConst then declareConstant calls d.name t d.init
  else
    let init ← initialValue calls t d.init
    match d.direction, init with
    | some .input, some _ => fail (.initializedInput d.name)
    | some direction, _ => declareExternal d.name t direction
    | none, _ => declareLocal d.name t
    match init with
    | some r => store calls d.name r
    | none => return

end Analysis
end OpenQasm
