import OpenQasm.Instruction
import OpenQasm.Json

/-!
Operations as JSON documents. A structure is an object of its fields, or a list of them in order; a
variant is its name, or an object with one field when it carries something.
-/
namespace OpenQasm.Instruction

open Json

/-- The fields of a structure. Fields with other names are ignored. -/
def fieldsOf? (names : List String) : Json → Option (List Json)
  | .object fs => names.mapM fun n => Json.field? n (.object fs)
  | .array items => if items.length = names.length then some items else none
  | _ => none

/-- A variant with what it carries. -/
def variant? : Json → Option (String × Json)
  | .object [(name, v)] => some (name, v)
  | _ => none

/-- A variant that carries nothing. -/
def plainVariant? : Json → Option String
  | .string s => some s
  | .object [(name, .null)] => some name
  | _ => none

/-- A natural number of so many bits. -/
def natural? (bits : Nat) : Json → Option Nat
  | .int n => if 0 ≤ n ∧ n < Nat.pow 2 bits then some n.toNat else none
  | _ => none

def number? : Json → Option Float
  | .int n => Decimal.read? (toString n)
  | .float x => some x
  | _ => none

def listOf? {α : Type} (f : Json → Option α) : Json → Option (List α)
  | .array items => items.mapM f
  | _ => none

/-- A parameter that is not deeper than so many levels. -/
def parameter? : Nat → Json → Option Parameter
  | 0, _ => none
  | n + 1, j =>
    match plainVariant? j with
    | some "Pi" => some .pi
    | _ =>
      match variant? j with
      | some ("Constant", v) => (number? v).map .constant
      | some ("Symbol", .string s) => some (.symbol s)
      | some ("Neg", e) => (parameter? n e).map .neg
      | some ("Add", .array [a, b]) => do return .add (← parameter? n a) (← parameter? n b)
      | some ("Sub", .array [a, b]) => do return .sub (← parameter? n a) (← parameter? n b)
      | some ("Mul", .array [a, b]) => do return .mul (← parameter? n a) (← parameter? n b)
      | some ("Div", .array [a, b]) => do return .div (← parameter? n a) (← parameter? n b)
      | some ("Pow", .array [a, b]) => do return .pow (← parameter? n a) (← parameter? n b)
      | some ("Function", .array [.string f, e]) => do return .function f (← parameter? n e)
      | _ => none

mutual

/-- A bound on the depth of a document. -/
def depth : Json → Nat
  | .array items => 1 + depthOfItems items
  | .object fields => 1 + depthOfFields fields
  | _ => 1

def depthOfItems : List Json → Nat
  | [] => 0
  | v :: vs => max (depth v) (depthOfItems vs)

def depthOfFields : List (String × Json) → Nat
  | [] => 0
  | (_, v) :: fs => max (depth v) (depthOfFields fs)

end

def control? (j : Json) : Option Control :=
  match plainVariant? j with
  | some "Positive" => some .positive
  | some "Negative" => some .negative
  | _ => none

def gateKind? (j : Json) : Option GateKind :=
  match variant? j with
  | some ("Builtin", .string n) => (Builtin.ofName? n).map .builtin
  | some ("Opaque", v) => do
    match ← fieldsOf? ["name", "num_qubits", "num_params"] v with
    | [.string n, q, p] => return .external ⟨n, ← natural? 32 q, ← natural? 64 p⟩
    | _ => none
  | _ => none

def gateOfJson? (j : Json) : Option Gate := do
  match ← fieldsOf? ["kind", "params", "controls"] j with
  | [k, ps, cs] =>
    return ⟨← gateKind? k, ← listOf? (fun p => parameter? (depth p) p) ps, ← listOf? control? cs⟩
  | _ => none

def kindOfJson? (j : Json) : Option InstructionKind :=
  match plainVariant? j with
  | some "Measure" => some .measure
  | some "Reset" => some .reset
  | some "Barrier" => some .barrier
  | _ =>
    match variant? j with
    | some ("Gate", g) => (gateOfJson? g).map .gate
    | _ => none

/-- Reads an operation; the number of its operands is not checked. -/
def ofJson? (j : Json) : Option Instruction := do
  match ← fieldsOf? ["kind", "qubits", "clbits"] j with
  | [k, qs, cs] =>
    return ⟨← kindOfJson? k, ← listOf? (natural? 32) qs, ← listOf? (natural? 32) cs⟩
  | _ => none

def parameterJson : Parameter → Json
  | .constant x => variant "Constant" (.float x)
  | .symbol n => variant "Symbol" (.string n)
  | .pi => .string "Pi"
  | .neg e => variant "Neg" (parameterJson e)
  | .add a b => variant "Add" (.array [parameterJson a, parameterJson b])
  | .sub a b => variant "Sub" (.array [parameterJson a, parameterJson b])
  | .mul a b => variant "Mul" (.array [parameterJson a, parameterJson b])
  | .div a b => variant "Div" (.array [parameterJson a, parameterJson b])
  | .pow a b => variant "Pow" (.array [parameterJson a, parameterJson b])
  | .function f e => variant "Function" (.array [.string f, parameterJson e])

def controlJson : Control → Json
  | .positive => .string "Positive"
  | .negative => .string "Negative"

def gateKindJson : GateKind → Json
  | .builtin g => variant "Builtin" (.string g.name)
  | .external g =>
    variant "Opaque" (.object [("name", .string g.name), ("num_qubits", .int g.qubits),
      ("num_params", .int g.params)])

def gateJson (g : Gate) : Json :=
  .object [("kind", gateKindJson g.kind), ("params", .array (g.params.map parameterJson)),
    ("controls", .array (g.controls.map controlJson))]

def kindJson : InstructionKind → Json
  | .gate g => variant "Gate" (gateJson g)
  | .measure => .string "Measure"
  | .reset => .string "Reset"
  | .barrier => .string "Barrier"

def indexList (ns : List Nat) : Json := .array (ns.map fun n => .int (n : Nat))

def toJson (i : Instruction) : Json :=
  .object [("kind", kindJson i.kind), ("qubits", indexList i.qubits),
    ("clbits", indexList i.clbits)]

end OpenQasm.Instruction
