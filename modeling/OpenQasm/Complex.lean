import OpenQasm.Double

/-!
Complex numbers over doubles. The order of the operations on the parts is fixed, since each of them
rounds.
-/
namespace OpenQasm

structure Complex where
  re : Float
  im : Float
deriving Inhabited

namespace Complex

def ofReal (x : Float) : Complex := ⟨x, 0.0⟩

def zero : Complex := ⟨0.0, 0.0⟩

def one : Complex := ⟨1.0, 0.0⟩

def neg (a : Complex) : Complex := ⟨-a.re, -a.im⟩

def add (a b : Complex) : Complex := ⟨a.re + b.re, a.im + b.im⟩

def sub (a b : Complex) : Complex := ⟨a.re - b.re, a.im - b.im⟩

def mul (a b : Complex) : Complex := ⟨a.re * b.re - a.im * b.im, a.re * b.im + a.im * b.re⟩

/-- The square of the absolute value. -/
def normSq (a : Complex) : Float := a.re * a.re + a.im * a.im

def div (a b : Complex) : Complex :=
  let n := b.normSq
  ⟨(a.re * b.re + a.im * b.im) / n, (a.im * b.re - a.re * b.im) / n⟩

def conj (a : Complex) : Complex := ⟨a.re, -a.im⟩

def scale (a : Complex) (x : Float) : Complex := ⟨a.re * x, a.im * x⟩

instance : Neg Complex := ⟨neg⟩
instance : Add Complex := ⟨add⟩
instance : Sub Complex := ⟨sub⟩
instance : Mul Complex := ⟨mul⟩
instance : Div Complex := ⟨div⟩
instance : BEq Complex := ⟨fun a b => a.re == b.re && a.im == b.im⟩

def isZero (a : Complex) : Bool := a == zero

/-- The absolute value. -/
def norm (a : Complex) : Float := Double.hypot a.re a.im

/-- The angle to the positive real axis. -/
def arg (a : Complex) : Float := Float.atan2 a.im a.re

/-- The number of a length and an angle. -/
def ofPolar (r theta : Float) : Complex := ⟨r * theta.cos, r * theta.sin⟩

def log (a : Complex) : Complex := ⟨a.norm.log, a.arg⟩

/-- The exponential; an infinite or undefined real part decides the limits. -/
def exp (a : Complex) : Complex :=
  if a.re.isInf then
    if a.re < 0.0 then
      if a.im.isFinite then ofPolar a.re.exp a.im else zero
    else if a.im == 0.0 || !a.im.isFinite then
      ⟨a.re, if a.im.isInf then 0.0 / 0.0 else a.im⟩
    else ofPolar a.re.exp a.im
  else if a.re.isNaN && a.im == 0.0 then a
  else ofPolar a.re.exp a.im

def pow (a b : Complex) : Complex := if b.isZero then one else exp (b * log a)

end Complex
end OpenQasm
