import OpenQasm.Decimal

/-!
Operations on doubles beside the basic ones. Remainders are computed exactly on the binary digits;
lengths of vectors follow a scheme that corrects the rounding error of the square root.
-/
namespace OpenQasm.Double

/-- Whether the sign is minus, also that of a zero. -/
def isSigned (x : Float) : Bool := x.toBits >>> 63 = 1

/-- The number `± mantissa * 2 ^ exponent`, rounded where it has to be. -/
def ofDyadic (negative : Bool) (v : Dyadic) : Float :=
  let bits := Decimal.nearestBits (v.mantissa <<< v.exponent.toNat) (Nat.pow 2 (-v.exponent).toNat)
  let x := Float.ofBits bits.toUInt64
  if negative then -x else x

/-- The remainder of finite magnitudes, which has the sign of the dividend. -/
def remainderOf (negative : Bool) (a b : Dyadic) : Float :=
  let e := min a.exponent b.exponent
  let m := a.mantissa <<< (a.exponent - e).toNat
  let n := b.mantissa <<< (b.exponent - e).toNat
  ofDyadic negative ⟨m % n, e⟩

/-- The remainder of a division whose quotient is cut toward zero. -/
def remainder (x y : Float) : Float :=
  if x.isNaN || y.isNaN || x.isInf || y == 0.0 then 0.0 / 0.0
  else if y.isInf then x
  else remainderOf (isSigned x) (Dyadic.ofFloat x) (Dyadic.ofFloat y)

/-- The remainder that lies between zero and the size of the divisor. -/
def modulo (x y : Float) : Float :=
  let r := remainder x y
  if r < 0.0 then r + y.abs else r

/-- The length of a vector whose squares neither overflow nor vanish, `y` being the shorter part. -/
def lengthOf (x y : Float) : Float :=
  let h := Float.sqrt (x * x + y * y)
  let correction :=
    if h <= 2.0 * y then
      let d := h - y
      x * (2.0 * d - x) + (d - 2.0 * (x - y)) * d
    else
      let d := h - x
      2.0 * d * (x - 2.0 * y) + ((4.0 * d - y) * y + d * d)
  h - correction / (2.0 * h)

/-- Two to a power. -/
def twoPow (e : Int) : Float := ofDyadic false ⟨1, e⟩

/-- The length of the vector `(x, y)`. Very long and very short vectors are scaled first. -/
def hypot (x y : Float) : Float :=
  if x.isInf || y.isInf then 1.0 / 0.0
  else if x.isNaN || y.isNaN then 0.0 / 0.0
  else
    let a := if x.abs < y.abs then y.abs else x.abs
    let b := if x.abs < y.abs then x.abs else y.abs
    let scale := twoPow (-600)
    let tiny := twoPow (-54)
    if a > twoPow 511 then
      if b <= a * tiny then a + b else lengthOf (a * scale) (b * scale) / scale
    else if b < twoPow (-459) then
      if a >= b / tiny then a + b else lengthOf (a / scale) (b / scale) * scale
    else if b <= a * tiny then a + b
    else lengthOf a b

/-- The whole number that a double is, if it is finite and has no fraction. -/
def whole? (x : Float) : Option Int :=
  match x.toModel.unpack with
  | .zero _ => some 0
  | .finite sign mantissa exponent _ =>
    -- A finite double is `± mantissa * 2 ^ exponent`, and here the fraction `scaled / unit`.
    let scaled := mantissa <<< exponent.toNat
    let unit := 1 <<< (-exponent).toNat
    if scaled % unit = 0 then some (sign.apply (scaled / unit : Nat)) else none
  | _ => none

/-- The order of two numbers, if neither is a NaN. -/
def compare? (x y : Float) : Option Ordering :=
  if x < y then some .lt
  else if x == y then some .eq
  else if x > y then some .gt
  else none

end OpenQasm.Double
