import OpenQasm.Analysis.Residual

/-!
Storing values: right-hand sides, measurements, and assignments to variables, elements and bits. The
value of a variable is followed as long as it is known; a variable of the flat program is also assigned
to there.
-/
namespace OpenQasm

namespace Analysis

/-- Appends measurements whose outcomes are dropped. -/
def measureOnly : List Nat → Analysis Unit
  | [] => return
  | q :: qs => do
    emitOp (.measureOnly q)
    noteUsage q .measured
    measureOnly qs

/-- Appends measurements of qubits into bits, pair by pair. -/
def measureEach : List (Nat × Nat) → Analysis Unit
  | [] => return
  | (q, c) :: rest => do
    emitOp (.measure q c)
    noteUsage q .measured
    measureEach rest

def coerceTo (t : ClassicalType) (v : Value) : Analysis Value := orFail .conversion (Value.coerce t v)

/-- The declared type of a name. -/
def declaredType (name : String) : Analysis ClassicalType := do
  let s ← resolve name
  match s.type with
  | some t => return t
  | none => fail (.notValue name s.kind)

/-- The place that an assignment in the flat program writes to. -/
def placeExpr (name : String) : Option (List IndexItem) → Expr
  | some items => .index (.name name) items
  | none => .name name

/-- Notes that a variable was written, as a whole or in part; `value` is what it holds afterwards if
that is known. The assignment goes to the flat program if the variable is one of its own, or becomes one
now. -/
def write (name : String) (items : Option (List IndexItem)) (shown : Expr) (value : Option Value) :
    Analysis Unit := do
  let s ← resolve name
  let runtimeWrite ← branchedSince s.scope
  if s.kind = .classicalRegister || s.emitName.isSome || runtimeWrite || value.isNone then
    let emitName ← runtimeName name
    emit (.assign (placeExpr emitName items) shown)
  modifySymbol name fun s => { s with value := if runtimeWrite then none else value }

variable (calls : Calls)

/-- Appends measurements of qubits into the bits that a target denotes. -/
def measureInto (qubits : List Nat) (target : Expr) : Analysis Unit := do
  match ← viewOf calls target with
  | (.quantum, _) => fail .measuredIntoOther
  | (.classical, v) =>
    if v.length ≠ qubits.length then fail (.outcomeCount qubits.length v.length)
    let clbits ← physical v
    measureEach (qubits.zip clbits)
    match target.rootName? with
    | some n => modifySymbol n fun s => { s with value := none }
    | none => return

/-- A `measure` statement. -/
def measure (operand : Expr) (target : Option Expr) : Analysis Unit := do
  let qubits ← quantumQubits calls operand
  match target with
  | some target => measureInto calls qubits target
  | none => measureOnly qubits

/-- The subroutine that a name stands for. -/
def subroutine? (name : String) : Analysis (Option SubroutineDefinition) := do
  return (← resolve? name).bind Symbol.subroutine?

/-- The value of an expression that is no measurement and no call of a subroutine. -/
def plainValue (e : Expr) : Analysis RightValue := do
  match ← fold calls e with
  | some v => return .known v
  | none => return .runtime (← residualize calls e)

/-- What the right-hand side of an assignment stands for. -/
def rightValue (e : Expr) : Analysis RightValue := do
  match e.unparen with
  | .measure operand => return .measured (← quantumQubits calls operand)
  | .call f args =>
    match ← subroutine? f with
    | some d =>
      match ← calls.subroutine d args with
      | some r => return r
      | none => fail (.noResult f)
    | none => plainValue calls (.call f args)
  | e => plainValue calls e

/-- Checks that an expression may be stored in a place of a type, going by its static type and by the
range of literals. -/
def checkScalar (t : ClassicalType) (e : Expr) : Analysis Unit := do
  let u ← infer calls e
  orFail .type (ClassicalType.checkAssignable t u)
  orFail .type (ClassicalType.checkLiteral t e)

mutual

/-- Checks an initializer, the items of an array one by one. -/
def checkInitializer (t : ClassicalType) : Expr → Analysis Unit
  | .paren e => checkInitializer t e
  | .array items =>
    match t with
    | .array element (d :: ds) =>
      if items.length ≠ d then fail (.arrayLength items.length d)
      else checkItems (.arrayOf element ds) items
    | t => checkScalar calls t (.array items)
  | e => checkScalar calls t e

def checkItems (t : ClassicalType) : List Expr → Analysis Unit
  | [] => return
  | e :: es => do
    checkInitializer t e
    checkItems t es

end

/-- Stores the whole value of a variable. -/
def store (name : String) (r : RightValue) : Analysis Unit := do
  match r with
  | .measured qubits => measureInto calls qubits (.name name)
  | .known v =>
    let v ← coerceTo (← declaredType name) v
    write name none v.toExpr (some v)
  | .runtime e => write name none e none

/-- The positions of each index of an array element, and the type of the element. -/
def elementPath (name : String) : ClassicalType → List IndexItem →
    Analysis (List (List Nat) × ClassicalType)
  | t, [] => return ([], t)
  | t, .single e :: rest => do
    let positions ← itemPositions calls (t.width?.getD 0) (.single e)
    match t.indexed? with
    | none => fail (.tooManyIndices name)
    | some u =>
      let (path, u) ← elementPath name u rest
      return (positions :: path, u)
  | _, _ :: _ => fail .arraySliceTarget

/-- Assigns to an element of an array. -/
def assignElement (name : String) (t : ClassicalType) (current : Option Value)
    (items : List IndexItem) (rhs : Expr) : Analysis Unit := do
  let (path, element) ← elementPath calls name t items
  checkInitializer calls element rhs
  let shown := path.map (literalItem true)
  match ← rightValue calls rhs with
  | .known v =>
    let v ← coerceTo element v
    let updated := current.bind fun c => Value.replaceAt path.flatten c v
    write name (some shown) v.toExpr updated
  | .runtime e => write name (some shown) e none
  | .measured _ => fail .measuredIntoArray

/-- A known word with bits replaced; it is not known if bits past the 64th are. -/
def replaceBits (t : ClassicalType) (current : Option Value) (positions : List Nat) (bits : Value) :
    Analysis (Option Value) := do
  match current.bind Value.int?, bits.int? with
  | some old, some new =>
    match Word.setBits old positions new with
    | some n => return some (← coerceTo t (.int n))
    | none => return none
  | _, _ => return none

/-- Assigns to bits of a variable. -/
def assignBits (name : String) (t : ClassicalType) (width : Nat) (current : Option Value)
    (items : List IndexItem) (rhs : Expr) : Analysis Unit := do
  match items with
  | [item] =>
    let positions ← itemPositions calls width item
    let element := ClassicalType.sized .bit positions.length
    checkInitializer calls element rhs
    let shown := [literalItem (isSingle item) positions]
    match ← rightValue calls rhs with
    | .measured qubits => measureInto calls qubits (.index (.name name) shown)
    | .known v =>
      let bits ← coerceTo element v
      write name (some shown) bits.toExpr (← replaceBits t current positions bits)
    | .runtime e => write name (some shown) e none
  | _ => fail (.indexCount name)

/-- Assigns to a part of a variable. -/
def assignPart (name : String) (items : List IndexItem) (rhs : Expr) : Analysis Unit := do
  let t ← declaredType name
  let current := (← resolve? name).bind Symbol.value
  if t.isArray then assignElement calls name t current items rhs
  else
    match t.width? with
    | some n => if t.hasBits then assignBits calls name t n current items rhs else fail (.notIndexed t)
    | none => fail (.notIndexed t)

/-- Fails unless a symbol may be assigned to. -/
def checkWritable (s : Symbol) : Analysis Unit :=
  match s.kind with
  | .classicalVariable | .classicalRegister =>
    if s.mutable then return else fail (.readOnly s.name)
  | .constant => fail (.assignedConstant s.name)
  | kind => fail (.notValue s.name kind)

/-- The right-hand side that a compound assignment stands for. -/
def expanded (target : Expr) (op : AssignOp) (value : Expr) : Expr :=
  match op.binary? with
  | some b => .binary target b value
  | none => value

/-- An assignment. -/
def assign (target : Expr) (op : AssignOp) (value : Expr) : Analysis Unit := do
  match target.rootName? with
  | none => fail .notAssignable
  | some root =>
    checkWritable (← resolve root)
    let rhs := expanded target op value
    match target.unparen with
    | .name n =>
      checkInitializer calls (← declaredType n) rhs
      store calls n (← rightValue calls rhs)
    | .index base items =>
      match base.unparen with
      | .name _ => assignPart calls root items rhs
      | _ => fail .nestedIndexTarget
    | _ => fail .nestedIndexTarget

end Analysis
end OpenQasm
