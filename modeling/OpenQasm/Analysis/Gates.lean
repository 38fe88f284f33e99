import OpenQasm.Analysis.Residual

/-!
Applications of gates. Modifiers are evaluated and applied from the outermost to the innermost, operands
are broadcast over registers, and gates with a body are replaced by it.
-/
namespace OpenQasm

/-- What a gate name refers to. -/
inductive GateTarget
  | builtin (g : Builtin)
  | user (d : GateDefinition)
  | external (g : ExternalGate)

namespace GateTarget

/-- The number of operands without controls. -/
def qubits : GateTarget → Nat
  | builtin g => g.qubits
  | user d => d.qubits.length
  | external g => g.qubits

def params : GateTarget → Nat
  | builtin g => g.params
  | user d => d.params.length
  | external g => g.params

end GateTarget

/-- A modifier whose argument is known. -/
inductive KnownModifier
  | control (state : Control) (count : Nat)
  | inverse
  | power (exponent : Float)

namespace KnownModifier

/-- Puts a modifier after others, of which the last comes first. Two inversions in a row cancel, and
two powers in a row become one. -/
def push (modifiers : List KnownModifier) (m : KnownModifier) : List KnownModifier :=
  match modifiers, m with
  | inverse :: rest, inverse => rest
  | power a :: rest, power b => power (a * b) :: rest
  | ms, m => m :: ms

/-- The modifiers from the outermost to the innermost, with what cancels taken out. -/
def reduce (modifiers : List KnownModifier) : List KnownModifier :=
  (modifiers.foldl push []).reverse

/-- The number of operands that a modifier adds. -/
def controls : KnownModifier → Nat
  | control _ n => n
  | inverse | power _ => 0

/-- The number of operands that all modifiers add. -/
def controlsOf : List KnownModifier → Nat
  | [] => 0
  | m :: ms => m.controls + controlsOf ms

end KnownModifier

/-- An operation under controls. Measurements, resets and barriers stay as they are. -/
def Instruction.addControls (i : Instruction) (state : Control) (controls : List Nat) : Instruction :=
  match i.kind with
  | .gate g =>
    { i with
      kind := .gate { g with controls := controls.map (fun _ => state) ++ g.controls }
      qubits := controls ++ i.qubits }
  | _ => i

/-- The inverse of an operation, if it has one. -/
def Instruction.inverse? (i : Instruction) : Option Instruction :=
  match i.kind with
  | .gate g => g.inverse?.map fun h => { i with kind := .gate h }
  | _ => some i

namespace Analysis

/-- Whether a number is finite and has no fraction. -/
def isWhole (x : Float) : Bool := (Double.whole? x).isSome

def inverseOf (i : Instruction) : Analysis Instruction :=
  match i.inverse? with
  | some j => return j
  | none => fail (.inverseOfExternal i.name)

/-- The inverse of a list of operations: their inverses in reverse order. -/
def invert (ops : List Instruction) : Analysis (List Instruction) := ops.reverse.mapM inverseOf

/-- Fails if a qubit occurs twice among the operands of one application. -/
def checkDistinct (gate : String) (qubits : List Nat) : Analysis Unit := do
  match Instruction.firstRepeated [] qubits with
  | some q => fail (.usedTwice (← qubitLabel q) gate)
  | none => return

/-- The gate on operands. -/
def gateOn (g : Except OperationError Gate) (qubits : List Nat) : Analysis (List Instruction) := do
  return [← orFail .operation (g.bind fun g => Instruction.ofGate g qubits)]

/-- A fractional power of an operation: a rotation is scaled, any other gate with a matrix becomes a
general gate. -/
def fractionalPower (i : Instruction) (exponent : Float) : Analysis (List Instruction) := do
  match i.gate? with
  | none => fail (.fractionalPower exponent)
  | some g =>
    match g.scaledRotation? exponent with
    | some h => return [{ i with kind := .gate h }]
    | none =>
      match g.matrix? with
      | none => fail (.fractionalPower exponent)
      | some m =>
        let powered ← orFail .matrix (m.power exponent (← read).unitaryTolerance)
        let (theta, phi, lambda) := powered.uAngles
        gateOn (Gate.ofBuiltin .u [.constant theta, .constant phi, .constant lambda]) i.qubits

/-- A power of a list of operations that `inner` makes. Powers with whole exponents repeat the list or
its inverse; the list is not even made for the exponent zero. -/
def power (exponent : Float) (inner : Analysis (List Instruction)) : Analysis (List Instruction) := do
  if exponent == 0.0 then return []
  else if isWhole exponent then
    let limit := (← read).maxLoopIterations
    if exponent.abs > limit.toUInt64.toFloat then fail (.powerLimit exponent limit)
    else
      let once ← inner
      let once ← if exponent < 0.0 then invert once else pure once
      return (List.replicate exponent.abs.toUInt64.toNat once).flatten
  else
    match ← inner with
    | [i] => fractionalPower i exponent
    | _ => fail (.fractionalPower exponent)

variable (calls : Calls)

/-- The operations of a gate without modifiers. -/
def baseOps (target : GateTarget) (params : List Parameter) (qubits : List Nat) :
    Analysis (List Instruction) :=
  match target with
  | .builtin g => gateOn (Gate.ofBuiltin g params) qubits
  | .external g => gateOn (.ok ⟨.external g, params, []⟩) qubits
  | .user d => calls.gate d params qubits

/-- The operations of a gate under modifiers, the outermost first. -/
def applyModifiers (target : GateTarget) (params : List Parameter) :
    List KnownModifier → List Nat → Analysis (List Instruction)
  | [], qubits => baseOps calls target params qubits
  | .control state n :: rest, qubits => do
    let inner ← applyModifiers target params rest (qubits.drop n)
    return inner.map fun i => i.addControls state (qubits.take n)
  | .inverse :: rest, qubits => do invert (← applyModifiers target params rest qubits)
  | .power exponent :: rest, qubits => power exponent (applyModifiers target params rest qubits)

def resolveGate (name : String) : Analysis GateTarget := do
  match ← resolve? name with
  | none => fail (.undefinedGate name)
  | some s =>
    match s.binding with
    | .builtin g => return .builtin g
    | .gate d => return .user d
    | .external g => return .external g
    | _ => fail (.notGate name)

/-- The number of controls of a modifier: one unless it is written. -/
def controlCount : Option Expr → Analysis Nat
  | none => return 1
  | some e => do
    match ← fold calls e with
    | some (.int n) =>
      if n < 1 then fail (.controlCountValue (.int n))
      else if n.toInt < Bound.size then return n.toInt.toNat
      else fail (.controlCountTooLarge n.toInt)
    | some v => fail (.controlCountValue v)
    | none => fail .runtimeControlCount

def powerExponent (e : Expr) : Analysis Float := do
  match ← fold calls e with
  | some v =>
    match v.real? with
    | some x => return x
    | none => fail (.exponentValue v)
  | none => fail .runtimeExponent

def evalModifier : Modifier → Analysis KnownModifier
  | .ctrl n => do return .control .positive (← controlCount calls n)
  | .negctrl n => do return .control .negative (← controlCount calls n)
  | .inv => return .inverse
  | .pow e => do return .power (← powerExponent calls e)

/-- The length that registers among the operands share; an operand of one qubit fits every length. -/
def broadcastLength (gate : String) (shared : Option Nat) : List (List Nat) → Analysis Nat
  | [] => return shared.getD 1
  | qs :: rest =>
    if qs.length = 1 then broadcastLength gate shared rest
    else
      match shared with
      | none => broadcastLength gate (some qs.length) rest
      | some n =>
        if n = qs.length then broadcastLength gate shared rest
        else fail (.broadcast gate n qs.length)

/-- The operand at a position of a register, or the only qubit. -/
def operandAt (qubits : List Nat) (k : Nat) : Nat :=
  match qubits with
  | [q] => q
  | qs => qs[k]?.getD 0

/-- The operands of each application when registers are run through in step. -/
def broadcast (gate : String) (operands : List (List Nat)) : Analysis (List (List Nat)) := do
  let n ← broadcastLength gate none operands
  return (List.range n).map fun k => operands.map fun qs => operandAt qs k

/-- Applies a gate to each group of operands. -/
def applyGroups (gate : String) (apply : List Nat → Analysis (List Instruction)) :
    List (List Nat) → Analysis (List Instruction)
  | [] => return []
  | group :: rest => do
    checkDistinct gate group
    let ops ← apply group
    let more ← applyGroups gate apply rest
    return ops ++ more

/-- The elementary operations of a gate call. -/
def expandCall (call : GateCall) : Analysis (List Instruction) := do
  let target ← resolveGate call.name
  let modifiers := KnownModifier.reduce (← call.modifiers.mapM (evalModifier calls))
  if call.params.length ≠ target.params then
    fail (.gateParameters call.name target.params call.params.length)
  let params ← call.params.mapM (toParameter calls)
  let expected := target.qubits + KnownModifier.controlsOf modifiers
  if expected ≥ Bound.size then fail (.controlOverflow call.name)
  if call.qubits.length ≠ expected then
    fail (.gateOperands call.name expected call.qubits.length)
  let operands ← call.qubits.mapM (quantumQubits calls)
  let groups ← broadcast call.name operands
  applyGroups call.name (applyModifiers calls target params modifiers) groups

/-- Declares the formal parameters of a gate as what it is applied to. -/
def bindParams : List (String × Parameter) → Analysis Unit
  | [] => return
  | (name, p) :: rest => do
    let s ← newSymbol name .classicalVariable
    declare { s.withType (.sized .angle ClassicalType.defaultAngleWidth) with binding := .param p }
    bindParams rest

def bindQubits : List (String × Nat) → Analysis Unit
  | [] => return
  | (name, q) :: rest => do
    match (← get).registers.elementView? .quantum q with
    | none => fail (.undeclaredQubit q)
    | some v =>
      let s ← newSymbol name .alias
      declare { s with size := some 1, binding := .qubits v }
      bindQubits rest

/-- The operations of the gate calls in a body. -/
def bodyOps : List Statement → Analysis (List Instruction)
  | [] => return []
  | s :: rest =>
    match s.kind with
    | .gate call => do
      modify fun state => { state with span := s.span }
      let ops ← expandCall calls call
      let more ← bodyOps rest
      return ops ++ more
    | _ => bodyOps rest

/-- Runs a step while a definition is being expanded, in the scope of its body. -/
def expanding (name : String) (kind : ScopeKind) {α : Type} (x : Analysis α) : Analysis α := do
  modify fun s => { s with calls := name :: s.calls }
  followedBy (inScope kind x) fun s => { s with calls := s.calls.tail }

/-- The operations of a gate with a body, which are made by `ops`. A gate must not be used in its own
expansion. -/
def inlineGate (ops : List Statement → Analysis (List Instruction)) (d : GateDefinition)
    (params : List Parameter) (qubits : List Nat) : Analysis (List Instruction) := do
  if (← get).calls.contains d.name then failConstruct (.recursiveGate d.name)
  else
    let span := (← get).span
    let body : Analysis (List Instruction) := do
      bindParams (d.params.zip params)
      bindQubits (d.qubits.zip qubits)
      ops d.body
    followedBy (expanding d.name .gateBody body) fun s => { s with span }

/-- Whether a statement is a gate call. -/
def isGateCall (s : Statement) : Bool :=
  match s.kind with
  | .gate _ => true
  | _ => false

/-- The first name that occurs twice. -/
def firstRepeatedName (seen : List String) : List String → Option String
  | [] => none
  | n :: ns => if seen.contains n then some n else firstRepeatedName (n :: seen) ns

/-- A gate definition. The definitions of gates that the configuration names are kept. -/
def defineGate (d : GateDefinition) : Analysis Unit := do
  if !(← get).scopes.isGlobal then fail .localGate
  match d.body.find? (!isGateCall ·) with
  | some s => fail (.gateBody d.name s.span.line)
  | none => pure ()
  match firstRepeatedName [] (d.params ++ d.qubits) with
  | some n => fail (.repeatedFormal d.name n)
  | none => pure ()
  let isExternal := (← read).isExternal d.name
  let binding :=
    if isExternal then Binding.external ⟨d.name, d.qubits.length, d.params.length⟩ else .gate d
  let s ← newSymbol d.name .gateDefinition
  declare { s with binding }
  if isExternal then modify fun s => { s with externalGates := d :: s.externalGates }

end Analysis
end OpenQasm
