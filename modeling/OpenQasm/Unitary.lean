import OpenQasm.Complex

/-!
Complex matrices of two rows and columns: products, powers with real exponents, and the angles of the
rotations that a unitary matrix is made of. Equality up to rounding takes a tolerance.
-/
namespace OpenQasm

inductive MatrixError
  | nonUnitary (tolerance : Float)
  | shape (expected got : Nat)

def MatrixError.message : MatrixError → String
  | nonUnitary t => "Matrix is not unitary within tolerance " ++ Decimal.scientific t
  | shape expected got =>
    "Expected " ++ toString expected ++ " matrix entries, got " ++ toString got

/-- The matrix with the rows `(a, b)` and `(c, d)`. -/
structure Matrix2 where
  a : Complex
  b : Complex
  c : Complex
  d : Complex

namespace Unitary

def epsilon : Float := 1e-10

def pi : Float := 3.141592653589793

def imaginary (x : Float) : Complex := ⟨0.0, x⟩

def entry (data : List Complex) (i : Nat) : Complex := data[i]?.getD Complex.zero

/-- The entry of `U†U` in a row and column. -/
def gramEntry (data : List Complex) (dim row col : Nat) : Complex :=
  (List.range dim).foldl
    (fun acc k => acc + (entry data (k * dim + row)).conj * entry data (k * dim + col))
    Complex.zero

/-- Whether a square matrix, given row by row, is unitary: every entry of `U†U` is that of the
identity up to the tolerance. -/
def isUnitary (data : List Complex) (dim : Nat) (tolerance : Float) : Except MatrixError Bool :=
  if data.length ≠ dim * dim then .error (.shape (dim * dim) data.length)
  else .ok <| (List.range dim).all fun row => (List.range dim).all fun col =>
    let expected := Complex.ofReal (if row = col then 1.0 else 0.0)
    !((gramEntry data dim row col - expected).norm > tolerance)

/-- The angle between minus and plus half a turn. -/
def normalizeAngle (x : Float) : Float :=
  if x.isFinite then
    let a := Double.modulo x (2.0 * pi)
    if a > pi then a - 2.0 * pi else a
  else 0.0

/-- The number, moved to the nearer bound if it lies outside. -/
def clamp (low high x : Float) : Float :=
  if x < low then low else if x > high then high else x

end Unitary

namespace Matrix2

open OpenQasm.Unitary

def diagonal (a d : Complex) : Matrix2 := ⟨a, Complex.zero, Complex.zero, d⟩

def identity : Matrix2 := diagonal Complex.one Complex.one

/-- The phase gate. -/
def p (lambda : Float) : Matrix2 := diagonal Complex.one (Complex.ofPolar 1.0 lambda)

def h : Matrix2 :=
  let s := Complex.ofReal (1.0 / Float.sqrt 2.0)
  ⟨s, s, s, -s⟩

def x : Matrix2 := ⟨Complex.zero, Complex.one, Complex.one, Complex.zero⟩

def y : Matrix2 := ⟨Complex.zero, -imaginary 1.0, imaginary 1.0, Complex.zero⟩

def z : Matrix2 := p pi

def sx : Matrix2 :=
  let r := Complex.ofReal 0.5
  let i := imaginary 0.5
  ⟨r + i, r - i, r - i, r + i⟩

/-- The conjugate transpose. -/
def dagger (m : Matrix2) : Matrix2 := ⟨m.a.conj, m.c.conj, m.b.conj, m.d.conj⟩

def sxdg : Matrix2 := sx.dagger

def rx (theta : Float) : Matrix2 :=
  let c := Complex.ofReal (theta / 2.0).cos
  let s := imaginary (-(theta / 2.0).sin)
  ⟨c, s, s, c⟩

def ry (theta : Float) : Matrix2 :=
  let c := Complex.ofReal (theta / 2.0).cos
  let s := Complex.ofReal (theta / 2.0).sin
  ⟨c, -s, s, c⟩

def rz (theta : Float) : Matrix2 :=
  diagonal (Complex.ofPolar 1.0 (-theta / 2.0)) (Complex.ofPolar 1.0 (theta / 2.0))

/-- The general gate of three angles. -/
def u (theta phi lambda : Float) : Matrix2 :=
  let c := (theta / 2.0).cos
  let s := (theta / 2.0).sin
  ⟨Complex.ofReal c, -Complex.ofPolar s lambda, Complex.ofPolar s phi,
    Complex.ofPolar c (phi + lambda)⟩

def mul (m n : Matrix2) : Matrix2 :=
  ⟨m.a * n.a + m.b * n.c, m.a * n.b + m.b * n.d, m.c * n.a + m.d * n.c, m.c * n.b + m.d * n.d⟩

def add (m n : Matrix2) : Matrix2 := ⟨m.a + n.a, m.b + n.b, m.c + n.c, m.d + n.d⟩

def scale (m : Matrix2) (f : Complex) : Matrix2 := ⟨m.a * f, m.b * f, m.c * f, m.d * f⟩

def det (m : Matrix2) : Complex := m.a * m.d - m.b * m.c

/-- The entries row by row. -/
def entries (m : Matrix2) : List Complex := [m.a, m.b, m.c, m.d]

def isUnitary (m : Matrix2) (tolerance : Float) : Bool :=
  match Unitary.isUnitary m.entries 2 tolerance with
  | .ok b => b
  | .error _ => false

/-- The last pair whose second part is the largest in absolute value. -/
def largest (best : Complex × Complex) : List (Complex × Complex) → Complex × Complex
  | [] => best
  | q :: qs =>
    largest (if q.2.norm.toBits < best.2.norm.toBits then best else q) qs

/-- Whether the matrices are equal up to a common phase. -/
def equalUpToPhase (m n : Matrix2) (tolerance : Float) : Bool :=
  let pivot := largest (m.a, n.a) [(m.b, n.b), (m.c, n.c), (m.d, n.d)]
  if pivot.2.norm < epsilon then false
  else
    let phase := pivot.1 / pivot.2
    if (phase.norm - 1.0).abs > tolerance then false
    else (m.entries.zip n.entries).all fun (v, w) => (v - w * phase).norm <= tolerance

/-- The matrix less a multiple of the identity. -/
def subScalar (m : Matrix2) (x : Float) : Matrix2 :=
  ⟨⟨m.a.re - x, m.a.im⟩, m.b, m.c, ⟨m.d.re - x, m.d.im⟩⟩

/-- The power of a unitary matrix `e^{iδ} (cos α - i sin α G)`: angle and phase are multiplied by the
exponent. -/
def power (m : Matrix2) (exponent tolerance : Float) : Except MatrixError Matrix2 :=
  if !m.isUnitary tolerance then .error (.nonUnitary tolerance)
  else
    let delta := m.det.arg / 2.0
    let v := m.scale (Complex.ofPolar 1.0 (-delta))
    let cosine := clamp (-1.0) 1.0 ((v.a.re + v.d.re) / 2.0)
    let angle := cosine.acos
    let sine := angle.sin
    let generator :=
      if sine.abs < epsilon then z else (v.subScalar cosine).scale (imaginary (1.0 / sine))
    let turned := angle * exponent
    let real := identity.scale (Complex.ofReal turned.cos)
    let rest := generator.scale (imaginary (-turned.sin))
    .ok ((real.add rest).scale (Complex.ofPolar 1.0 (delta * exponent)))

/-- The angles of a product of rotations. -/
structure Zyz where
  alpha : Float
  beta : Float
  gamma : Float
  phase : Float

/-- The angles `α β γ` and the phase such that the matrix is `Rz(α) Ry(β) Rz(γ)` times the phase. -/
def zyz (m : Matrix2) : Zyz :=
  let phase := m.det.arg / 2.0
  let v := m.scale (Complex.ofPolar 1.0 (-phase))
  let beta := 2.0 * (clamp 0.0 1.0 v.a.norm).acos
  if beta.abs < epsilon then
    let sum := -2.0 * v.a.arg
    ⟨sum / 2.0, 0.0, sum / 2.0, phase⟩
  else if (beta - pi).abs < epsilon then
    let difference := -2.0 * (-v.b).arg
    ⟨difference / 2.0, pi, -difference / 2.0, phase⟩
  else
    let sum := -2.0 * v.a.arg
    let difference := 2.0 * v.c.arg
    ⟨(sum + difference) / 2.0, beta, (sum - difference) / 2.0, phase⟩

/-- The angles of the general gate that equals the matrix up to a phase. -/
def uAngles (m : Matrix2) : Float × Float × Float :=
  let r := m.zyz
  (r.beta, normalizeAngle r.alpha, normalizeAngle r.gamma)

end Matrix2
end OpenQasm
