import OpenQasm.Value

/-!
Storing values in places of a declared type, and written conversions.
-/
namespace OpenQasm

/-- Why a value cannot be converted. -/
inductive ConversionFault
  | notBool (v : Value)
  | notInteger (v : Value)
  | notOf (t : ClassicalType) (v : Value)
  | angleRange (x : Float)
  | arrayLength (found declared : Nat)

def ConversionFault.message : ConversionFault → String
  | notBool v => "cannot convert " ++ v.text ++ " to bool"
  | notInteger v => "cannot convert " ++ v.text ++ " to an integer"
  | notOf t v => "cannot convert " ++ v.text ++ " to " ++ t.text
  | angleRange x => "angle " ++ Decimal.plain x ++ " is outside (-2π, 2π)"
  | arrayLength n d =>
    "array of length " ++ toString n ++ " does not match declared length " ++ toString d

namespace Value

/-- A whole turn. -/
def turn : Float := MathConstant.tau.value

def integral (v : Value) : Except ConversionFault Int64 :=
  match v.int? with
  | some n => .ok n
  | none => .error (.notInteger v)

/-- Angles are kept between zero and a whole turn. -/
def coerceAngle (t : ClassicalType) (v : Value) : Except ConversionFault Value :=
  match v.real? with
  | none => .error (.notOf t v)
  | some x =>
    if !x.isFinite || x.abs >= turn then .error (.angleRange x)
    else .ok (float (Double.modulo x turn))

def coerceScalar (kind : SizedKind) (n : Nat) (v : Value) : Except ConversionFault Value :=
  let t := ClassicalType.sized kind n
  match kind with
  | .int => (integral v).map fun w => int (Word.wrapSigned w n)
  | .uint | .bit => (integral v).map fun w => int (Word.wrapUnsigned w n)
  | .float =>
    match v.real? with
    | some x => .ok (float x)
    | none => .error (.notOf t v)
  | .angle => coerceAngle t v
  | .complex =>
    match v.complex? with
    | some z => .ok (complex z)
    | none => .error (.notOf t v)

/-- Converts the elements of an array one by one. -/
def coerceItems (convert : Value → Except ConversionFault Value) :
    List Value → Except ConversionFault (List Value)
  | [] => .ok []
  | v :: vs => do
    let w ← convert v
    let ws ← coerceItems convert vs
    return w :: ws

/-- Converts an array of some dimensions, the elements by `convert`. -/
def coerceArray (element : ClassicalType) (convert : Value → Except ConversionFault Value) :
    List Nat → Value → Except ConversionFault Value
  | d :: ds, array items =>
    let part := if ds.isEmpty then convert else coerceArray element convert ds
    if items.length = d then (coerceItems part items).map array
    else .error (.arrayLength items.length d)
  | dims, v => .error (.notOf (.array element dims) v)

/-- The value as it is stored in a place of the type. -/
def coerce : ClassicalType → Value → Except ConversionFault Value
  | .bool, v =>
    match v.truth? with
    | some b => .ok (bool b)
    | none => .error (.notBool v)
  | .sized kind n, v => coerceScalar kind n v
  | .duration, v =>
    match v with
    | duration _ _ => .ok v
    | _ => .error (.notOf .duration v)
  | .stretch, v =>
    match v with
    | duration _ _ => .ok v
    | _ => .error (.notOf .stretch v)
  | .array element dims, v => coerceArray element (coerce element) dims v

/-- A written conversion; it cuts off the fraction of a number and the whole turns of an angle. -/
def cast (t : ClassicalType) (v : Value) : Except ConversionFault Value :=
  match t, v with
  | .sized .int _, float x | .sized .uint _, float x | .sized .bit _, float x =>
    coerce t (int x.toInt64)
  | .sized .angle _, float x => coerce t (float (Double.remainder x turn))
  | _, _ => coerce t v

end Value
end OpenQasm
