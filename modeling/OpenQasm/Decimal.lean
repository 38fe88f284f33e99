/-!
Decimal notation of binary floating-point numbers. A finite magnitude is `mantissa * 2 ^ exponent`;
its shortest decimal is found on the grids of one, two, three … digits in exact arithmetic, and a
decimal is read back to the nearest number, halves going to the even neighbour.
-/
namespace OpenQasm

/-- The number `mantissa * 2 ^ exponent`. -/
structure Dyadic where
  mantissa : Nat
  exponent : Int
deriving DecidableEq, Repr

/-- The number `digits * 10 ^ scale`. -/
structure Decimal where
  digits : Nat
  scale : Int
deriving DecidableEq, Repr

namespace Dyadic

/-- The fields of a double: 52 bits of fraction under 11 bits of exponent. -/
def ofBits (bits : Nat) : Dyadic :=
  let fraction : Nat := bits % Nat.pow 2 52
  let field : Nat := bits / Nat.pow 2 52 % Nat.pow 2 11
  if field = 0 then ⟨fraction, -1074⟩ else ⟨fraction + Nat.pow 2 52, (field : Int) - 1075⟩

/-- The magnitude of a finite number. -/
def ofFloat (x : Float) : Dyadic := ofBits x.toBits.toNat

end Dyadic

namespace Decimal

/-- The number of decimal digits, at least one. -/
def digitCount (n : Nat) : Nat := (Nat.toDigits 10 n).length

/-- The least `e` with `value < 10 ^ e`; the value is positive. A value below one is lifted above one by
a power of ten, and `10 ^ (n / 3 + 1)` exceeds `2 ^ n`. -/
def magnitude (v : Dyadic) : Int :=
  let up := v.exponent.toNat
  let down := (-v.exponent).toNat
  let whole := v.mantissa <<< up >>> down
  if whole = 0 then
    let lift := down / 3 + 1
    (digitCount ((v.mantissa * Nat.pow 10 lift) >>> down) : Int) - lift
  else digitCount whole

/-- The two grid neighbours of a value that read back as it, the nearer one if both do and the upper
one if they are equally near. Quantities are compared as multiples of a quarter of the value's unit:
`value = 4 * mantissa`, and the numbers that read back as it lie between `low` and `high`. -/
def onGrid (v : Dyadic) (scale : Int) : Option Nat :=
  let q := v.exponent - 2
  let unit := Nat.pow 10 scale.toNat <<< (-q).toNat
  let quarter := Nat.pow 10 (-scale).toNat <<< q.toNat
  let value := 4 * v.mantissa * quarter
  let closeBelow := v.mantissa = Nat.pow 2 52 ∧ v.exponent ≠ -1074
  let low := (4 * v.mantissa - if closeBelow then 1 else 2) * quarter
  let high := (4 * v.mantissa + 2) * quarter
  let ends := v.mantissa % 2 = 0
  let reads (c : Nat) : Bool :=
    let x := c * unit
    if ends then low ≤ x && x ≤ high else low < x && x < high
  let below := value / unit
  let above := below + 1
  if reads below && reads above then
    if value - below * unit < above * unit - value then some below else some above
  else if reads below then some below
  else if reads above then some above
  else none

/-- Searches the grids of `count` digits and more. -/
def shortestFrom (v : Dyadic) (e : Int) (count : Nat) : Nat → Decimal
  | 0 => ⟨(onGrid v (e - count)).getD 0, e - count⟩
  | fuel + 1 =>
    match onGrid v (e - count) with
    | some n => ⟨n, e - count⟩
    | none => shortestFrom v e (count + 1) fuel

/-- The decimal with the fewest digits that reads back as the value; seventeen always suffice. -/
def shortest (v : Dyadic) : Decimal :=
  if v.mantissa = 0 then ⟨0, 0⟩ else shortestFrom v (magnitude v) 1 16

/-- The digits without trailing zeros, and the power of ten of the leading digit. -/
def normalForm (d : Decimal) : List Char × Int :=
  let text := Nat.toDigits 10 d.digits
  let kept := (text.reverse.dropWhile (· = '0')).reverse
  (if kept = [] then ['0'] else kept, (text.length : Int) - 1 + d.scale)

/-- Which powers of ten are written without exponent, and whether a whole number keeps `.0`. -/
structure Layout where
  positional : Int → Bool
  wholePoint : Bool

/-- The notation of literals: it always shows a point or an exponent. -/
def Layout.literal : Layout := ⟨fun p => -4 ≤ p && p < 16, true⟩

/-- The notation without exponents. -/
def Layout.plain : Layout := ⟨fun _ => true, false⟩

/-- The notation with an exponent throughout. -/
def Layout.scientific : Layout := ⟨fun _ => false, false⟩

/-- Digits with a point after the power of ten `p` of the leading one. -/
def positionalText (wholePoint : Bool) (digits : List Char) (p : Int) : List Char :=
  if p < 0 then '0' :: '.' :: (List.replicate (-p - 1).toNat '0' ++ digits)
  else
    let n := p.toNat + 1
    let whole := digits.take n ++ List.replicate (n - digits.length) '0'
    match digits.drop n with
    | [] => if wholePoint then whole ++ ['.', '0'] else whole
    | fraction => whole ++ '.' :: fraction

/-- One digit before the point and an exponent. -/
def scientificText (digits : List Char) (p : Int) : List Char :=
  let mantissa := match digits with
    | [] => ['0']
    | [d] => [d]
    | d :: ds => d :: '.' :: ds
  mantissa ++ 'e' :: (toString p).toList

/-- The text of a finite magnitude. -/
def Layout.magnitudeText (layout : Layout) (v : Dyadic) : List Char :=
  let (digits, p) := normalForm (shortest v)
  if v.mantissa = 0 then
    if layout.positional 0 then positionalText layout.wholePoint ['0'] 0 else scientificText ['0'] 0
  else if layout.positional p then positionalText layout.wholePoint digits p
  else scientificText digits p

/-- The text of any number. The sign of zero is written, that of a NaN is not. -/
def Layout.text (layout : Layout) (x : Float) : String :=
  if x.isNaN then "NaN"
  else
    let sign := if x.toBits >>> 63 = 1 then ['-'] else []
    let body := if x.isInf then ['i', 'n', 'f'] else layout.magnitudeText (Dyadic.ofFloat x)
    String.ofList (sign ++ body)

/-- The number as a literal: `1.0`, `0.1`, `1e16`. -/
def literal (x : Float) : String := Layout.literal.text x

/-- The number without exponent and without `.0`: `1`, `0.1`, `10000000000000000`. -/
def plain (x : Float) : String := Layout.plain.text x

/-- The number with an exponent: `1e-8`. -/
def scientific (x : Float) : String := Layout.scientific.text x

/-- The bits of infinity: all exponent bits and no fraction. -/
def infinityBits : Nat := 2047 * Nat.pow 2 52

/-- The bits of the double nearest to `num / den`. The quotient is brought between `2 ^ 52` and
`2 ^ 53` where the exponent range admits it; a carry out of the fraction enters the exponent. -/
def nearestBits (num den : Nat) : Nat :=
  if num = 0 then 0
  else
    let gap : Int := (Nat.log2 num : Int) - Nat.log2 den
    let guess : Int := max (gap - 52) (-1074)
    let wide := num <<< (-guess).toNat / den <<< guess.toNat
    let q := if wide < Nat.pow 2 52 && guess > -1074 then guess - 1 else guess
    let top := num <<< (-q).toNat
    let unit := den <<< q.toNat
    let quotient := top / unit
    let twice := 2 * (top % unit)
    let up := twice > unit || (twice = unit && quotient % 2 = 1)
    let rounded := if up then quotient + 1 else quotient
    let bits := (q + 1074).toNat * Nat.pow 2 52 + rounded
    min bits infinityBits

/-- The double nearest to a decimal. Outside the bounds tested first, only infinity and zero are
near. -/
def toFloat (d : Decimal) : Float :=
  let p := (digitCount d.digits : Int) + d.scale
  if d.digits = 0 then 0.0
  else if p > 400 then Float.ofBits infinityBits.toUInt64
  else if p < -400 then 0.0
  else Float.ofBits (nearestBits (d.digits * Nat.pow 10 d.scale.toNat) (Nat.pow 10 (-d.scale).toNat)).toUInt64

def isDigit (c : Char) : Bool := '0' ≤ c && c ≤ '9'

/-- The value of a list of decimal digits. -/
def natOfDigits (cs : List Char) : Nat := cs.foldl (fun n c => 10 * n + (c.toNat - 48)) 0

/-- The number with the given digits before and after the point. -/
def ofParts (whole fraction : List Char) (exponent : Int) : Float :=
  toFloat ⟨natOfDigits (whole ++ fraction), exponent - fraction.length⟩

/-- The exponent part `e5`, `E-7` at the head of a text: its value and its length. -/
def exponentPart : List Char → Option (Int × Nat)
  | e :: cs =>
    if e = 'e' || e = 'E' then
      let (negative, skipped, tail) := match cs with
        | '-' :: r => (true, 1, r)
        | '+' :: r => (false, 1, r)
        | r => (false, 0, r)
      let digits := tail.takeWhile isDigit
      if digits = [] then none
      else
        let n : Int := natOfDigits digits
        some (if negative then -n else n, 1 + skipped + digits.length)
    else none
  | [] => none

/-- Reads an unsigned decimal with an optional point and exponent that covers the whole text. -/
def readMagnitude? (cs : List Char) : Option Float :=
  let whole := cs.takeWhile isDigit
  let tail := cs.drop whole.length
  let (fraction, tail) := match tail with
    | '.' :: r => (r.takeWhile isDigit, r.dropWhile isDigit)
    | r => ([], r)
  if whole = [] && fraction = [] then none
  else if tail = [] then some (ofParts whole fraction 0)
  else match exponentPart tail with
    | some (e, n) => if n = tail.length then some (ofParts whole fraction e) else none
    | none => none

/-- Reads a number; infinity and NaN are spelt as words in any case. -/
def read? (text : String) : Option Float :=
  let (negative, cs) := match text.toList with
    | '-' :: r => (true, r)
    | '+' :: r => (false, r)
    | r => (false, r)
  let word := String.ofList (cs.map Char.toLower)
  let magnitude? :=
    if word = "inf" || word = "infinity" then some (1.0 / 0.0)
    else if word = "nan" then some (0.0 / 0.0)
    else readMagnitude? cs
  magnitude?.map fun x => if negative then -x else x

end Decimal
end OpenQasm
