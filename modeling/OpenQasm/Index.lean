/-!
Positions in a sequence. A negative index counts from the end, and a range holds both of its ends.
-/
namespace OpenQasm.Index

inductive Fault
  | outOfRange (index : Int) (length : Nat)
  | zeroStep
deriving DecidableEq, Repr

def Fault.message : Fault → String
  | outOfRange i n => "index " ++ toString i ++ " is out of range for size " ++ toString n
  | zeroStep => "range step must be non-zero"

/-- The position of an index in a sequence of a length. -/
def normalize (index : Int) (length : Nat) : Except Fault Nat :=
  let position := if index < 0 then index + length else index
  if 0 ≤ position ∧ position < length then .ok position.toNat else .error (.outOfRange index length)

/-- How many steps from `start` do not go beyond `stop`. -/
def progressionLength (start step stop : Int) : Nat :=
  if 0 < step then if start ≤ stop then ((stop - start) / step).toNat + 1 else 0
  else if step < 0 then if stop ≤ start then ((start - stop) / -step).toNat + 1 else 0
  else 0

/-- The values `start`, `start + step`, … up to and including `stop`. -/
def progression (start step stop : Int) : List Int :=
  (List.range (progressionLength start step stop)).map fun (k : Nat) => start + k * step

/-- The positions of a range in a sequence. A missing end is that end of the sequence toward which
the range goes. -/
def rangePositions (start step stop : Option Int) (length : Nat) : Except Fault (List Nat) :=
  let step := step.getD 1
  if step = 0 then .error .zeroStep
  else
    let last : Int := length - 1
    do
      let first ← normalize (start.getD (if 0 < step then 0 else last)) length
      let final ← normalize (stop.getD (if 0 < step then last else 0)) length
      return (progression first step final).map Int.toNat

end OpenQasm.Index
