import OpenQasm.Gate.Builtin
import OpenQasm.Parameter

/-!
Elementary gates: a builtin gate or one that is known by name only, with parameters and controls.
-/
namespace OpenQasm

/-- A gate that is declared but has no body. -/
structure ExternalGate where
  name : String
  qubits : Nat
  params : Nat
deriving DecidableEq, Repr

inductive GateKind
  | builtin (g : Builtin)
  | external (g : ExternalGate)
deriving DecidableEq, Repr

namespace GateKind

def name : GateKind → String
  | builtin g => g.name
  | external g => g.name

/-- The number of operands without controls. -/
def qubits : GateKind → Nat
  | builtin g => g.qubits
  | external g => g.qubits

def params : GateKind → Nat
  | builtin g => g.params
  | external g => g.params

end GateKind

/-- The state of a control qubit in which the gate acts. -/
inductive Control
  | positive | negative
deriving DecidableEq, Repr

def Control.word : Control → String
  | positive => "ctrl"
  | negative => "negctrl"

/-- Why an operation is not well formed or cannot be applied. -/
inductive OperationError
  | qubitNotFound (q : Nat) (gate : Option String)
  | clbitNotFound (c : Nat) (gate : Option String)
  | unknownGate (name : String)
  | qubitCount (gate : String) (expected got : Nat)
  | paramCount (gate : String) (expected got : Nat)
  | duplicateQubit (q : Nat) (gate : Option String)
deriving DecidableEq, Repr

/-- Names the gate an error is about. -/
def gateContext : Option String → String
  | some n => " (gate: " ++ n ++ ")"
  | none => ""

def OperationError.message : OperationError → String
  | qubitNotFound q g => "Qubit q" ++ toString q ++ " not found" ++ gateContext g
  | clbitNotFound c g => "Classical bit c" ++ toString c ++ " not found" ++ gateContext g
  | unknownGate n => "Unknown builtin gate '" ++ n ++ "'"
  | qubitCount g expected got =>
    "Gate '" ++ g ++ "' requires " ++ toString expected ++ " qubits, got " ++ toString got
  | paramCount g expected got =>
    "Gate '" ++ g ++ "' takes " ++ toString expected ++ " parameters, got " ++ toString got
  | duplicateQubit q g => "Duplicate qubit q" ++ toString q ++ " in operation" ++ gateContext g

/-- An elementary gate. Its operands are the controls, outermost first, and then the targets. -/
structure Gate where
  kind : GateKind
  params : List Parameter
  controls : List Control

namespace Gate

def ofBuiltin (g : Builtin) (params : List Parameter) : Except OperationError Gate :=
  if params.length = g.params then .ok ⟨.builtin g, params, []⟩
  else .error (.paramCount g.name g.params params.length)

def ofName (n : String) (params : List Parameter) : Except OperationError Gate :=
  match Builtin.ofName? n with
  | some g => ofBuiltin g params
  | none => .error (.unknownGate n)

def name (g : Gate) : String := g.kind.name

/-- The number of operands, controls included. -/
def qubits (g : Gate) : Nat := g.kind.qubits + g.controls.length

/-- The gate under one more control, which becomes the first operand. -/
def controlled (g : Gate) (c : Control) : Gate := { g with controls := c :: g.controls }

/-- The inverse of a gate without controls. -/
def inverseOf (g : Builtin) (params : List Parameter) : Option (Builtin × List Parameter) :=
  match g.inverse, params with
  | .itself, ps => some (g, ps)
  | .other b, ps => some (b, ps)
  | .negateAngles, ps => some (g, ps.map ParamExpr.negated)
  | .eulerSwap, [theta, phi, lambda] => some (g, [theta.negated, lambda.negated, phi.negated])
  | .u2ToU3, [phi, lambda] =>
    some (.u3, [.constant (-Unitary.pi / 2.0), lambda.negated, phi.negated])
  | .controlledEulerSwap, [theta, phi, lambda, gamma] =>
    some (g, [theta.negated, lambda.negated, phi.negated, gamma.negated])
  | _, _ => none

/-- The inverse gate; an external gate has none. -/
def inverse? (g : Gate) : Option Gate :=
  match g.kind with
  | .builtin b => do
    let (c, ps) ← inverseOf b g.params
    if ps.length = c.params then some ⟨.builtin c, ps, g.controls⟩ else none
  | .external _ => none

/-- A power of a rotation. -/
def scaledRotation? (g : Gate) (exponent : Float) : Option Gate :=
  match g.kind with
  | .builtin b =>
    if b.isRotation then some { g with params := g.params.map (·.scaled exponent) } else none
  | .external _ => none

/-- The matrix of a builtin gate on one qubit whose angles are known. -/
def matrix? (g : Gate) : Option Matrix2 :=
  match g.kind, g.controls with
  | .builtin b, [] => (g.params.mapM ParamExpr.value?).bind b.matrix?
  | _, _ => none

/-- The text of controls: equal neighbours are counted. -/
def controlsText : List Control → String
  | [] => ""
  | c :: cs =>
    let run := 1 + (cs.takeWhile (· = c)).length
    let word := if run = 1 then c.word else c.word ++ "(" ++ toString run ++ ")"
    word ++ " @ " ++ controlsText (cs.dropWhile (· = c))
termination_by cs => cs.length
decreasing_by
  have := (List.dropWhile_suffix (fun x => decide (x = c)) (l := cs)).length_le
  simp only [List.length_cons]
  omega

/-- The texts with commas between them, in parentheses; nothing for no texts. -/
def paramsText (params : List Parameter) : String :=
  if params.isEmpty then "" else "(" ++ ", ".intercalate (params.map Parameter.text) ++ ")"

/-- The gate with modifiers and parameters: `ctrl(2) @ negctrl @ rx(0.5)`. -/
def text (g : Gate) : String := controlsText g.controls ++ g.name ++ paramsText g.params

/-- The key under which gates are counted: every control is named, parameters are left out. -/
def countKey (g : Gate) : String :=
  String.join (g.controls.map fun c => c.word ++ " @ ") ++ g.name

end Gate
end OpenQasm
