/-!
Integers of 64 bits. Arithmetic wraps; signed and unsigned types of fewer bits are kept as the word
whose low bits they are.
-/
namespace OpenQasm.Word

/-- The power by squaring, wrapped. -/
def pow (a : Int64) (n : Nat) : Int64 :=
  if n = 0 then 1
  else
    let half := pow (a * a) (n / 2)
    if n % 2 = 1 then a * half else half
termination_by n
decreasing_by omega

/-- The low `n` bits read as a signed number. -/
def wrapSigned (v : Int64) (n : Nat) : Int64 :=
  if n ≥ 64 then v
  else
    let k := Int64.ofNat (64 - n)
    (v <<< k) >>> k

/-- The low `n` bits read as an unsigned number. -/
def wrapUnsigned (v : Int64) (n : Nat) : Int64 :=
  if n ≥ 64 then v else v &&& ((1 <<< Int64.ofNat n) - 1)

/-- The bit at a position, as zero or one. -/
def bit (v : Int64) (p : Nat) : Int64 := (v >>> Int64.ofNat p) &&& 1

/-- Gathers the bits at positions whose first one counts least, the next going to place `k`. -/
def gatherFrom (v : Int64) : Nat → List Nat → Int64 → Option Int64
  | _, [], acc => some acc
  | k, p :: ps, acc =>
    if p < 64 ∧ k < 64 then gatherFrom v (k + 1) ps (acc ||| (bit v p <<< Int64.ofNat k)) else none

/-- The bits at the positions, the last position giving the lowest bit. There is none when a position
or the width of the result reaches past 64 bits. -/
def extractBits (v : Int64) (positions : List Nat) : Option Int64 :=
  gatherFrom v 0 positions.reverse 0

/-- Writes bit `k` of `bits` to the first position, and so on. -/
def scatterFrom (bits : Int64) : Nat → List Nat → Int64 → Option Int64
  | _, [], acc => some acc
  | k, p :: ps, acc =>
    if p < 64 then
      let b := if k < 64 then bit bits k else 0
      let cleared := acc &&& ~~~(1 <<< Int64.ofNat p)
      scatterFrom bits (k + 1) ps (cleared ||| (b <<< Int64.ofNat p))
    else none

/-- The word with the bits at the positions replaced, the last position taking the lowest bit. -/
def setBits (v : Int64) (positions : List Nat) (bits : Int64) : Option Int64 :=
  scatterFrom bits 0 positions.reverse v

/-- The word of a natural number, cut to 64 bits. -/
def ofNat (n : Nat) : Int64 := n.toUInt64.toInt64

/-- The size of a signed number. -/
def magnitude (v : Int64) : UInt64 := v.toInt.natAbs.toUInt64

/-- The double nearest to a signed number. -/
def toFloat (v : Int64) : Float :=
  if v < 0 then -(magnitude v).toFloat else (magnitude v).toFloat

end OpenQasm.Word
