import OpenQasm.Analysis

/-!
Expressions at the time of analysis: their values as far as they are known, their types, and the
registers that they denote. Widths in types and positions in indices have to be known.
-/
namespace OpenQasm

/-- How definitions are expanded. Expressions call subroutines, so what expands a definition is given to
the functions below; it need not be the same for every depth of calls. -/
structure Calls where
  /-- Inlines a subroutine on arguments. -/
  subroutine : SubroutineDefinition → List Expr → Analysis (Option RightValue)
  /-- The type that a subroutine declares for its result. -/
  resultType : SubroutineDefinition → TypeExpr → Analysis ClassicalType
  /-- The operations of the body of a gate. -/
  gate : GateDefinition → List Parameter → List Nat → Analysis (List Instruction)

namespace Analysis

/-- The number that a string of bits denotes, if it has at most 64 significant digits. -/
def bitsValue? (digits : String) : Option Int64 :=
  let n := digits.toList.foldl (fun n c => 2 * n + if c = '1' then 1 else 0) 0
  if digits.isEmpty || n ≥ Bound.literal then none else some (Word.ofNat n)

/-- The value of a name, which has to stand for one. -/
def nameValue (name : String) : Analysis (Option Value) := do
  let s ← resolve name
  match s.binding, s.kind with
  | .param p, _ => return p.value?.map .float
  | _, .classicalVariable | _, .constant | _, .classicalRegister => return s.value
  | .clbits _, .alias => return none
  | _, kind => fail (.notValue name kind)

/-- The type of a name. -/
def nameType (name : String) : Analysis ClassicalType := do
  let s ← resolve name
  match s.binding, s.type with
  | .param _, _ => return .sized .angle ClassicalType.defaultAngleWidth
  | _, some t => return t
  | _, none => fail (.notValue name s.kind)

/-- The register or alias that a name stands for. -/
def nameView (name : String) : Analysis (RegisterKind × View) := do
  match (← resolve name).binding with
  | .qubits v => return (.quantum, v)
  | .clbits v => return (.classical, v)
  | _ => fail (.notRegister name)

/-- What a left operand alone says about `&&` and `||`. -/
def decided? (op : BinaryOp) (left : Option Value) : Option Bool :=
  match op, left.bind Value.truth? with
  | .and, some false => some false
  | .or, some true => some true
  | _, _ => none

/-- The value of a subroutine call inside a larger expression. -/
def callValue (name : String) : Option RightValue → Analysis (Option Value)
  | some (.known v) => return some v
  | none => fail (.noResult name)
  | some (.measured _) | some (.runtime _) => fail (.nestedRuntimeResult name)

/-- The value of a function at a value. -/
def functionValue (f : String) : Option Value → Analysis (Option Value)
  | none => return none
  | some v =>
    match v.real? with
    | none => fail (.functionArgument f v)
    | some x =>
      match MathFunction.valueOf? f x with
      | some y => return some (.float y)
      | none => fail (.functionUndefined f x)

/-- An index has to be a known integer. -/
def indexValue (e : Expr) : Option Value → Analysis Int
  | some (.int n) => return n.toInt
  | some v => fail (.indexValue v)
  | none => fail (.runtimeIndex e)

/-- A width has to be a known positive integer of 32 bits. -/
def widthValue (e : Expr) : Option Value → Analysis Nat
  | some (.int n) =>
    if n ≤ 0 then fail (.widthNotPositive n.toInt)
    else if n.toInt < Bound.size then return n.toInt.toNat
    else fail (.widthTooLarge n.toInt)
  | some v => fail (.widthValue v)
  | none => fail (.runtimeWidth e)

/-- The width of a sized type, given the one that is written. -/
def checkWidth (kind : SizedKind) (n : Nat) : Analysis Nat :=
  match kind with
  | .int | .uint => if n > 64 then fail (.integerWidth n) else return n
  | .float | .complex =>
    if ClassicalType.floatWidths.contains n then return n else fail (.floatWidth n)
  | .angle | .bit => return n

/-- The width of a type that is written without one. -/
def defaultWidth : SizedKind → Nat
  | .int | .uint => ClassicalType.defaultIntWidth
  | .float | .complex => ClassicalType.defaultFloatWidth
  | .angle => ClassicalType.defaultAngleWidth
  | .bit => 1

def isSingle : IndexItem → Bool
  | .single _ => true
  | _ => false

/-- The part of a known value at positions. What is read past the end of an array or of 64 bits is not
known. -/
def select (isArray single : Bool) (positions : List Nat) : Option Value → Option Value
  | some (.array items) =>
    if isArray then
      if single then positions.head?.bind (items[·]?)
      else some (.array (positions.filterMap (items[·]?)))
    else none
  | some (.int n) => (Word.extractBits n positions).map .int
  | _ => none

/-- The type of a part of a value. -/
def selectedType? (t : ClassicalType) (single : Bool) (count : Nat) : Option ClassicalType :=
  if single then t.indexed? else if t.isArray then some t else some (.sized .bit count)

/-- The static type after an index item. -/
def itemType? (t : ClassicalType) (single : Bool) : Option ClassicalType :=
  if single then t.indexed? else if t.isArray then some t else if t.hasBits then
    t.width?.map (.sized .bit) else none

/-- The static type after all items of an index. -/
def itemsType : ClassicalType → List IndexItem → Analysis ClassicalType
  | t, [] => return t
  | t, item :: rest =>
    match itemType? t (isSingle item) with
    | some t => itemsType t rest
    | none => fail .notElement

/-- The view of the element that an index names. -/
def elementView (kind : RegisterKind) (v : View) (index : Int) : Analysis View := do
  let registers := (← get).registers
  match registers.resolve v index with
  | .error e => fail (.index e)
  | .ok physical =>
    match registers.elementView? kind physical with
    | some element => return element
    | none => fail (.index (.outOfRange index v.length))

/-- The type of an operation on one operand. -/
def unaryType (op : UnaryOp) (t : ClassicalType) : Analysis ClassicalType :=
  match op with
  | .not => return .bool
  | .neg => if t = .bool then fail .negatedBool else return t
  | .bitNot => return t

variable (calls : Calls)

mutual

/-- The value of an expression, or nothing if it depends on the run of the program. -/
def fold : Expr → Analysis (Option Value)
  | .int n =>
    if n.toNat < Bound.integer then return some (.int n.toInt64)
    else fail (.integerTooLarge n.toNat)
  | .float x => return some (.float x)
  | .imaginary x => return some (.complex (Unitary.imaginary x))
  | .bool b => return some (.bool b)
  | .bits digits =>
    match bitsValue? digits with
    | some n => return some (.int n)
    | none => fail (.bitsTooLong digits)
  | .duration x u => return some (.duration x u)
  | .constant c => return some (.float c.value)
  | .name n => nameValue n
  | .unary op e => do
    match ← fold e with
    | some v => some <$> orFail .evaluation (Value.evalUnary op v)
    | none => return none
  | .binary l op r => do
    let left ← fold l
    match decided? op left with
    | some b => return some (.bool b)
    | none =>
      match left, ← fold r with
      | some v, some w => some <$> orFail .evaluation (Value.evalBinary op v w)
      | _, _ => return none
  | .call f args => do
    let symbol ← resolve? f
    match symbol.bind Symbol.subroutine? with
    | some d => callValue f (← calls.subroutine d args)
    | none =>
      if (MathFunction.ofName? f).isSome then functionValue f (← foldArgument f args)
      else if symbol.isSome then fail (.notCallable f)
      else fail (.undefinedSubroutine f)
  | .index base items => do
    let t ← infer base
    let v ← fold base
    foldItems t v items
  | .cast type e => do
    let t ← resolveType type
    match ← fold e with
    | some v => some <$> orFail .conversion (Value.cast t v)
    | none => return none
  | .array items => do return ((← foldAll items).mapM id).map .array
  | .measure _ => fail .nestedMeasurement
  | .paren e => fold e

def foldAll : List Expr → Analysis (List (Option Value))
  | [] => return []
  | e :: es => do
    let v ← fold e
    let vs ← foldAll es
    return v :: vs

/-- The only argument of a function. -/
def foldArgument (f : String) : List Expr → Analysis (Option Value)
  | [e] => fold e
  | args => fail (.functionArity f args.length)

/-- The part of a value that the items of an index select one after another. -/
def foldItems : ClassicalType → Option Value → List IndexItem → Analysis (Option Value)
  | _, v, [] => return v
  | t, v, item :: rest => do
    match t.width? with
    | none => fail (.notIndexed t)
    | some n =>
      let positions ← itemPositions n item
      let v := select t.isArray (isSingle item) positions v
      match selectedType? t (isSingle item) positions.length with
      | some t => foldItems t v rest
      | none => fail .notElement

/-- The positions that an index item names in a sequence of a length. -/
def itemPositions (length : Nat) : IndexItem → Analysis (List Nat)
  | .single e => do
    let i ← indexValue e (← fold e)
    return [← orFail .index (Index.normalize i length)]
  | .set items => setPositions length items
  | .range r => rangePositions length r

def setPositions (length : Nat) : List Expr → Analysis (List Nat)
  | [] => return []
  | e :: es => do
    let i ← indexValue e (← fold e)
    let p ← orFail .index (Index.normalize i length)
    let ps ← setPositions length es
    return p :: ps

def rangePositions (length : Nat) : RangeExpr → Analysis (List Nat)
  | ⟨start, step, stop⟩ => do
    let start ← rangePart start
    let step ← rangePart step
    let stop ← rangePart stop
    orFail .index (Index.rangePositions start step stop length)

def rangePart : Option Expr → Analysis (Option Int)
  | none => return none
  | some e => do return some (← indexValue e (← fold e))

/-- The static type of an expression. No subroutine is called for it. -/
def infer : Expr → Analysis ClassicalType
  | .int _ => return .defaultInt
  | .float _ | .constant _ => return .defaultFloat
  | .imaginary _ => return .defaultComplex
  | .bool _ => return .bool
  | .bits digits => return .sized .bit digits.length
  | .duration _ _ => return .duration
  | .name n => nameType n
  | .unary op e => do unaryType op (← infer e)
  | .binary l op r => do
    let t ← infer l
    let u ← infer r
    orFail .type (ClassicalType.binary op t u)
  | .call f args => do
    match ← resolve? f with
    | some s =>
      match s.subroutine? with
      | none => fail (.notCallable f)
      | some d =>
        match d.result with
        | some t => calls.resultType d t
        | none => fail (.noResult f)
    | none =>
      if (MathFunction.ofName? f).isSome then
        inferAll args
        return .defaultFloat
      else fail (.undefinedSubroutine f)
  | .index base items => do itemsType (← infer base) items
  | .cast type _ => resolveType type
  | .array items => do return .listOf items.length (← inferFirst items)
  | .measure e => do
    match ← viewOf e with
    | (.quantum, v) => return .sized .bit v.length
    | (.classical, _) => fail .expectedQubits
  | .paren e => infer e

def inferAll : List Expr → Analysis Unit
  | [] => return
  | e :: es => do
    let _ ← infer e
    inferAll es

/-- The type of the elements of an array, which is that of the first one. -/
def inferFirst : List Expr → Analysis ClassicalType
  | [] => return .defaultInt
  | e :: _ => infer e

/-- The type that is written, its widths being known. -/
def resolveType : TypeExpr → Analysis ClassicalType
  | .bool => return .bool
  | .duration => return .duration
  | .stretch => return .stretch
  | .sized kind none => return .sized kind (defaultWidth kind)
  | .sized kind (some e) => do
    let n ← widthValue e (← fold e)
    return .sized kind (← checkWidth kind n)
  | .array element dims => do
    let t ← resolveType element
    if t.isArray then fail .nestedArray
    else return .array t (← resolveWidths dims)

def resolveWidths : List Expr → Analysis (List Nat)
  | [] => return []
  | e :: es => do
    let n ← widthValue e (← fold e)
    let ns ← resolveWidths es
    return n :: ns

/-- The register, alias, part of one, or concatenation that an operand denotes. -/
def viewOf : Expr → Analysis (RegisterKind × View)
  | .name n => nameView n
  | .index base items => do
    let (kind, v) ← viewOf base
    return (kind, ← partView kind v items)
  | .binary l .concat r => do
    let (kind, v) ← viewOf l
    let (other, w) ← viewOf r
    if kind = other then return (kind, v.concat w) else fail .mixedConcat
  | .paren e => viewOf e
  | _ => fail .expectedRegister

/-- The part of a view that an index selects. -/
def partView (kind : RegisterKind) (v : View) : List IndexItem → Analysis View
  | [.single e] => do elementView kind v (← indexValue e (← fold e))
  | [item] => do return v.pick (← itemPositions v.length item)
  | _ => fail .registerIndexCount

end

/-- A width that is written. -/
def resolveWidth (e : Expr) : Analysis Nat := do widthValue e (← fold calls e)

/-- The view of an operand that has to consist of qubits. -/
def quantumView (e : Expr) : Analysis View := do
  match ← viewOf calls e with
  | (.quantum, v) => return v
  | (.classical, _) => fail .expectedQubits

/-- The physical qubits of an operand. -/
def quantumQubits (e : Expr) : Analysis (List Nat) := do physical (← quantumView calls e)

end Analysis
end OpenQasm
