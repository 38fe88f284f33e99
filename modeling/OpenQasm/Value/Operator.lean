import OpenQasm.Value

/-!
Operators on known values. Integers wrap to 64 bits, all other numbers follow IEEE arithmetic.
-/
namespace OpenQasm

inductive EvalError
  | unary (op : UnaryOp) (v : Value)
  | binary (op : BinaryOp) (l r : Value)
  | boolOperand (op : BinaryOp)
  | divisionByZero

def EvalError.message : EvalError → String
  | unary .not v => "`!` is not defined for " ++ v.text
  | unary op v => "unary `" ++ op.symbol ++ "` is not defined for " ++ v.text
  | binary op l r =>
    "operator `" ++ op.symbol ++ "` is not defined for " ++ l.text ++ " and " ++ r.text
  | boolOperand op => "operator `" ++ op.symbol ++ "` is not defined for bool"
  | divisionByZero => "division by zero"

namespace Value

def evalUnary (op : UnaryOp) (v : Value) : Except EvalError Value :=
  match op, v with
  | .neg, int n => .ok (int (-n))
  | .neg, float x => .ok (float (-x))
  | .neg, complex z => .ok (complex (-z))
  | .neg, duration x u => .ok (duration (-x) u)
  | .bitNot, int n => .ok (int (~~~n))
  | .not, v =>
    match v.truth? with
    | some b => .ok (bool !b)
    | none => .error (.unary .not v)
  | op, v => .error (.unary op v)

/-- `&&` and `||` on two known values. -/
def evalLogic (op : BinaryOp) (l r : Value) (combine : Bool → Bool → Bool) :
    Except EvalError Value :=
  match l.truth?, r.truth? with
  | some a, some b => .ok (bool (combine a b))
  | _, _ => .error (.binary op l r)

/-- Whether two values are equal, if they can be compared. Values one of which is complex can always
be. -/
def equal? : Value → Value → Option Bool
  | bool a, bool b => some (a == b)
  | int a, int b => some (a == b)
  | bool _, _ | _, bool _ => none
  | complex a, r => some (r.complex?.any (a == ·))
  | l, complex b => some (l.complex?.any (· == b))
  | l, r =>
    match l.real?, r.real? with
    | some a, some b => some (a == b)
    | _, _ => none

/-- The order of two values, if they can be compared; a NaN has no place in it. -/
def compare? : Value → Value → Option (Option Ordering)
  | int a, int b => some (some (if a < b then .lt else if a = b then .eq else .gt))
  | bool _, _ | _, bool _ => none
  | l, r =>
    match l, r with
    | duration a u, duration b v => if u = v then some (Double.compare? a b) else none
    | l, r =>
      match l.real?, r.real? with
      | some a, some b => some (Double.compare? a b)
      | _, _ => none

/-- An integer operation. Division by zero is an error of its own; a power with an exponent outside
32 bits is a real number; shifts take their amount modulo 64. -/
def intOperation (op : BinaryOp) (a b : Int64) : Except EvalError Value :=
  let undefined := .error (.binary op (int a) (int b))
  let small := 0 ≤ b ∧ b.toInt < Bound.size
  match op with
  | .add => .ok (int (a + b))
  | .sub => .ok (int (a - b))
  | .mul => .ok (int (a * b))
  | .div => if b = 0 then .error .divisionByZero else .ok (int (a / b))
  | .mod => if b = 0 then .error .divisionByZero else .ok (int (a % b))
  | .pow =>
    if small then .ok (int (Word.pow a b.toInt.toNat)) else .ok (float (Word.toFloat a ^ Word.toFloat b))
  | .bitAnd => .ok (int (a &&& b))
  | .bitOr => .ok (int (a ||| b))
  | .bitXor => .ok (int (a ^^^ b))
  | .shiftLeft => if small then .ok (int (a <<< b)) else undefined
  | .shiftRight => if small then .ok (int (a >>> b)) else undefined
  | _ => undefined

def complexOperation? (op : BinaryOp) (a b : Complex) : Option Complex :=
  match op with
  | .add => some (a + b)
  | .sub => some (a - b)
  | .mul => some (a * b)
  | .div => some (a / b)
  | .pow => some (a.pow b)
  | _ => none

def realOperation? (op : BinaryOp) (a b : Float) : Option Float :=
  match op with
  | .add => some (a + b)
  | .sub => some (a - b)
  | .mul => some (a * b)
  | .div => some (a / b)
  | .mod => some (Double.remainder a b)
  | .pow => some (a ^ b)
  | _ => none

/-- Operations that have a duration on one side. -/
def durationOperation? (op : BinaryOp) : Value → Value → Option Value
  | duration a u, duration b v =>
    if u = v then
      match op with
      | .add => some (duration (a + b) u)
      | .sub => some (duration (a - b) u)
      | .div => some (float (a / b))
      | _ => none
    else none
  | duration d u, r =>
    match op, r.real? with
    | .mul, some x => some (duration (d * x) u)
    | .div, some x => some (duration (d / x) u)
    | _, _ => none
  | l, duration d u =>
    match op, l.real? with
    | .mul, some x => some (duration (d * x) u)
    | _, _ => none
  | _, _ => none

/-- Arithmetic on values other than two integers and truth values. -/
def arithmetic? (op : BinaryOp) : Value → Value → Option Value
  | duration d u, r => durationOperation? op (duration d u) r
  | l, duration d u => durationOperation? op l (duration d u)
  | l, r =>
    match l, r with
    | complex _, _ | _, complex _ => do
      let a ← l.complex?
      let b ← r.complex?
      (complexOperation? op a b).map complex
    | _, _ => do
      let a ← l.real?
      let b ← r.real?
      (realOperation? op a b).map float

def isBool : Value → Bool
  | bool _ => true
  | _ => false

/-- An arithmetic or bitwise operation. -/
def evalArithmetic (op : BinaryOp) (l r : Value) : Except EvalError Value :=
  if l.isBool || r.isBool then .error (.boolOperand op)
  else
    match l, r with
    | int a, int b => intOperation op a b
    | l, r =>
      match arithmetic? op l r with
      | some v => .ok v
      | none => .error (.binary op l r)

/-- Whether an order satisfies a comparison. -/
def satisfies (op : BinaryOp) (o : Ordering) : Bool :=
  match op with
  | .lt => o.isLT
  | .ltEq => o.isLE
  | .gt => o.isGT
  | _ => o.isGE

def evalBinary (op : BinaryOp) (l r : Value) : Except EvalError Value :=
  match op with
  | .and => evalLogic op l r (· && ·)
  | .or => evalLogic op l r (· || ·)
  | .eq | .notEq =>
    match equal? l r with
    | some b => .ok (bool (b == (op = .eq)))
    | none => .error (.binary op l r)
  | .lt | .ltEq | .gt | .gtEq =>
    match compare? l r with
    | some (some o) => .ok (bool (satisfies op o))
    | some none => .ok (bool false)
    | none => .error (.binary op l r)
  | .concat =>
    match l, r with
    | array a, array b => .ok (array (a ++ b))
    | l, r => .error (.binary op l r)
  | op => evalArithmetic op l r

end Value
end OpenQasm
