import OpenQasm.Analysis.Assign
import OpenQasm.Analysis.Gates

/-!
What passes between a subroutine and its callers. Arguments are evaluated where the call stands. A
variable of the flat program is passed under its own name and cannot be written in the subroutine; any
other expression that is not known is copied into a fresh variable.
-/
namespace OpenQasm

namespace Analysis

variable (calls : Calls)

/-- The formal parameter for a variable of the flat program. -/
def boundByName (formal : String) (t : ClassicalType) (source : String) : Analysis Symbol := do
  let emitName ← runtimeName source
  let origin ← resolve? source
  let s ← newSymbol formal ((origin.map Symbol.kind).getD .classicalVariable)
  return { s.withType t with binding := (origin.map Symbol.binding).getD .none, emitName }

/-- The formal parameter for an argument that is not known. -/
def boundByCopy (formal : String) (t : ClassicalType) (value : Expr) : Analysis Symbol := do
  let emitName ← hoist formal t
  emit (.assign (.name emitName) value)
  let s ← newSymbol formal .classicalVariable
  return { s.withType t with mutable := true, emitName }

/-- The formal parameter for a classical argument. -/
def bindClassical (formal : String) (type : TypeExpr) (arg : Expr) : Analysis Symbol := do
  let t ← resolveType calls type
  checkInitializer calls t arg
  match ← rightValue calls arg with
  | .known v =>
    let v ← coerceTo t v
    let s ← newSymbol formal .classicalVariable
    return { s.withType t with value := some v, mutable := true }
  | .runtime e =>
    match arg.unparen with
    | .name source => boundByName formal t source
    | _ => boundByCopy formal t e
  | .measured _ => fail (.measuredArgument formal)

/-- The first qubit of a list that is among others or occurs before in the list. -/
def checkFresh (subroutine : String) (seen : List Nat) : List Nat → Analysis (List Nat)
  | [] => return seen
  | q :: qs => do
    if seen.contains q then fail (.passedTwice (← qubitLabel q) subroutine)
    else checkFresh subroutine (q :: seen) qs

/-- The number of qubits of a formal parameter. -/
def formalSize : Option Expr → Analysis Nat
  | none => return 1
  | some e => resolveWidth calls e

/-- The symbols for the formal parameters; `seen` are the qubits that are passed before. -/
def bindArguments (subroutine : String) (seen : List Nat) :
    List (Formal × Expr) → Analysis (List Symbol)
  | [] => return []
  | (.qubit formal size, arg) :: rest => do
    let v ← quantumView calls arg
    let expected ← formalSize calls size
    if v.length ≠ expected then fail (.argumentQubits formal subroutine expected v.length)
    let seen ← checkFresh subroutine seen (← physical v)
    let s ← newSymbol formal .alias
    let symbols ← bindArguments subroutine seen rest
    return { s with size := some expected, binding := .qubits v } :: symbols
  | (.classical type formal, arg) :: rest => do
    let s ← bindClassical calls formal type arg
    let symbols ← bindArguments subroutine seen rest
    return s :: symbols

/-- Checks what a subroutine hands back against its declared result. -/
def checkResult (d : SubroutineDefinition) (result : Option RightValue) :
    Analysis (Option RightValue) := do
  match d.result with
  | none =>
    match result with
    | none => return none
    | some _ => fail (.resultWithoutType d.name)
  | some type =>
    let t ← resolveType calls type
    match result with
    | none => fail (.missingResult d.name t)
    | some (.known v) =>
      orFail (.resultType d.name t) (ClassicalType.checkAssignable t v.type)
      return some (.known (← coerceTo t v))
    | some (.measured qubits) =>
      if t = .sized .bit qubits.length then return some (.measured qubits)
      else fail (.resultMeasured d.name t qubits.length)
    | some (.runtime e) => return some (.runtime e)

/-- The step that a call boundary makes of the body: a construct that was dropped inside costs the
calling statement only, unless the analysis has ended. -/
def atCallBoundary {α : Type} (x : Analysis α) : Analysis α := do
  match ← attempt x with
  | .ok a => return a
  | .error .leaving => do
    if (← get).halted then throw .leaving else throw .reported
  | .error e => throw e

/-- Runs the body of a subroutine, which sees no loop around the call. -/
def inCall {α : Type} (name : String) (x : Analysis α) : Analysis α := do
  let s ← get
  let (loopScope, callScope) := (s.loopScope, s.callScope)
  let body : Analysis α := do
    modify fun s => { s with loopScope := none, callScope := some s.scopes.depth }
    x
  followedBy (expanding name .subroutineBody body) fun s => { s with loopScope, callScope }

def declareAll : List Symbol → Analysis Unit
  | [] => return
  | s :: ss => do
    declare s
    declareAll ss

/-- What a body hands back: nothing unless it ends in a `return`. -/
def resultOf : Signal → Option RightValue
  | .returned r => r
  | _ => none

/-- Inlines a subroutine, whose body is run by `block`. A subroutine must not be called while it is
being expanded. -/
def callSubroutine (block : List Statement → Analysis Signal) (d : SubroutineDefinition)
    (args : List Expr) : Analysis (Option RightValue) := do
  if (← get).calls.contains d.name then failConstruct (.recursiveCall d.name)
  else if args.length ≠ d.formals.length then
    fail (.argumentCount d.name d.formals.length args.length)
  else
    let symbols ← bindArguments calls d.name [] (d.formals.zip args)
    let signal ← atCallBoundary <| inCall d.name do
      declareAll symbols
      block d.body
    checkResult calls d (resultOf signal)

end Analysis
end OpenQasm
