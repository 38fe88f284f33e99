import OpenQasm.Unitary

/-!
The gates that every program knows: how many qubits and angles they take, how they are inverted, and
the matrices of those that act on one qubit.
-/
namespace OpenQasm

inductive Builtin
  | U | CX | id | x | y | z | h | s | sdg | t | tdg | sx | sxdg
  | rx | ry | rz | p | phase | u1 | u2 | u3 | u
  | cx | cy | cz | ch | swap | cp | cphase | crx | cry | crz | cu
  | rxx | ryy | rzz | ccx | cswap
deriving DecidableEq, Repr

/-- How the inverse of a gate is written. -/
inductive InverseRule
  | itself
  /-- Another gate without angles. -/
  | other (g : Builtin)
  | negateAngles
  /-- `(θ, φ, λ)` becomes `(-θ, -λ, -φ)`. -/
  | eulerSwap
  /-- `u2(φ, λ)` becomes `u3(-π/2, -λ, -φ)`. -/
  | u2ToU3
  /-- `(θ, φ, λ, γ)` becomes `(-θ, -λ, -φ, -γ)`. -/
  | controlledEulerSwap
deriving DecidableEq, Repr

namespace Builtin

def all : List Builtin :=
  [U, CX, id, x, y, z, h, s, sdg, t, tdg, sx, sxdg, rx, ry, rz, p, phase, u1, u2, u3, u, cx, cy, cz,
    ch, swap, cp, cphase, crx, cry, crz, cu, rxx, ryy, rzz, ccx, cswap]

def name : Builtin → String
  | U => "U"
  | CX => "CX"
  | id => "id"
  | x => "x"
  | y => "y"
  | z => "z"
  | h => "h"
  | s => "s"
  | sdg => "sdg"
  | t => "t"
  | tdg => "tdg"
  | sx => "sx"
  | sxdg => "sxdg"
  | rx => "rx"
  | ry => "ry"
  | rz => "rz"
  | p => "p"
  | phase => "phase"
  | u1 => "u1"
  | u2 => "u2"
  | u3 => "u3"
  | u => "u"
  | cx => "cx"
  | cy => "cy"
  | cz => "cz"
  | ch => "ch"
  | swap => "swap"
  | cp => "cp"
  | cphase => "cphase"
  | crx => "crx"
  | cry => "cry"
  | crz => "crz"
  | cu => "cu"
  | rxx => "rxx"
  | ryy => "ryy"
  | rzz => "rzz"
  | ccx => "ccx"
  | cswap => "cswap"

def ofName? (n : String) : Option Builtin := all.find? (·.name = n)

/-- The number of operands. -/
def qubits : Builtin → Nat
  | ccx | cswap => 3
  | CX | cx | cy | cz | ch | swap | cp | cphase | crx | cry | crz | cu | rxx | ryy | rzz => 2
  | _ => 1

/-- The number of angles. -/
def params : Builtin → Nat
  | cu => 4
  | U | u3 | u => 3
  | u2 => 2
  | rx | ry | rz | p | phase | u1 | cp | cphase | crx | cry | crz | rxx | ryy | rzz => 1
  | _ => 0

def inverse : Builtin → InverseRule
  | U | u3 | u => .eulerSwap
  | u2 => .u2ToU3
  | cu => .controlledEulerSwap
  | s => .other sdg
  | sdg => .other s
  | t => .other tdg
  | tdg => .other t
  | sx => .other sxdg
  | sxdg => .other sx
  | rx | ry | rz | p | phase | u1 | cp | cphase | crx | cry | crz | rxx | ryy | rzz => .negateAngles
  | _ => .itself

/-- Rotations by one angle, whose powers multiply the angle. -/
def isRotation (g : Builtin) : Bool := g.inverse = .negateAngles

/-- The matrix of a gate on one qubit, given its angles. -/
def matrix? : Builtin → List Float → Option Matrix2
  | id, [] => some .identity
  | x, [] => some .x
  | y, [] => some .y
  | z, [] => some .z
  | h, [] => some .h
  | s, [] => some (.p (Unitary.pi / 2.0))
  | sdg, [] => some (.p (-Unitary.pi / 2.0))
  | t, [] => some (.p (Unitary.pi / 4.0))
  | tdg, [] => some (.p (-Unitary.pi / 4.0))
  | sx, [] => some .sx
  | sxdg, [] => some .sxdg
  | rx, [a] => some (.rx a)
  | ry, [a] => some (.ry a)
  | rz, [a] => some (.rz a)
  | p, [a] | phase, [a] | u1, [a] => some (.p a)
  | u2, [a, b] => some (.u (Unitary.pi / 2.0) a b)
  | U, [a, b, c] | u3, [a, b, c] | u, [a, b, c] => some (.u a b c)
  | _, _ => none

/-- Whether the gate acts on one qubit, so that its matrix is known. -/
def hasMatrix (g : Builtin) : Bool := g.qubits = 1

end Builtin
end OpenQasm
