import OpenQasm.Double

/-!
The functions of one real argument that expressions may call.
-/
namespace OpenQasm

inductive MathFunction
  | sin | cos | tan | arcsin | arccos | arctan | exp | ln | sqrt
deriving DecidableEq, Repr

namespace MathFunction

def name : MathFunction → String
  | sin => "sin"
  | cos => "cos"
  | tan => "tan"
  | arcsin => "arcsin"
  | arccos => "arccos"
  | arctan => "arctan"
  | exp => "exp"
  | ln => "ln"
  | sqrt => "sqrt"

def all : List MathFunction := [sin, cos, tan, arcsin, arccos, arctan, exp, ln, sqrt]

def ofName? (n : String) : Option MathFunction := all.find? (·.name = n)

def value : MathFunction → Float → Float
  | sin => Float.sin
  | cos => Float.cos
  | tan => Float.tan
  | arcsin => Float.asin
  | arccos => Float.acos
  | arctan => Float.atan
  | exp => Float.exp
  | ln => Float.log
  | sqrt => Float.sqrt

/-- The value of the function of a name, where it is finite. -/
def valueOf? (n : String) (x : Float) : Option Float :=
  (ofName? n).bind fun f =>
    let y := f.value x
    if y.isFinite then some y else none

end MathFunction
end OpenQasm
