import OpenQasm.MathFunction

/-!
Gate parameters: arithmetic over constants and over variables that are known only when the program
runs. The rewriting of parameters uses few laws of the numbers, so it is written over any arithmetic.
-/
namespace OpenQasm

/-- Arithmetic in which division and named functions may be undefined. -/
class Arithmetic (K : Type) where
  pi : K
  neg : K → K
  add : K → K → K
  sub : K → K → K
  mul : K → K → K
  div : K → K → Option K
  pow : K → K → K
  function : String → K → Option K
  isOne : K → Bool

/-- Doubles; nothing is divided by zero. -/
instance : Arithmetic Float where
  pi := 3.141592653589793
  neg := (- ·)
  add := (· + ·)
  sub := (· - ·)
  mul := (· * ·)
  div := fun a b => if b == 0.0 then none else some (a / b)
  pow := (· ^ ·)
  function := MathFunction.valueOf?
  isOne := (· == 1.0)

inductive ParamExpr (K : Type)
  | constant (x : K)
  | symbol (name : String)
  | pi
  | neg (e : ParamExpr K)
  | add (a b : ParamExpr K)
  | sub (a b : ParamExpr K)
  | mul (a b : ParamExpr K)
  | div (a b : ParamExpr K)
  | pow (a b : ParamExpr K)
  | function (name : String) (e : ParamExpr K)
deriving Inhabited

/-- The parameter of a gate. -/
abbrev Parameter := ParamExpr Float

namespace ParamExpr

variable {K : Type}

def isSymbolic : ParamExpr K → Bool
  | symbol _ => true
  | constant _ | pi => false
  | neg e | function _ e => e.isSymbolic
  | add a b | sub a b | mul a b | div a b | pow a b => a.isSymbolic || b.isSymbolic

variable [Arithmetic K]

/-- The value under a valuation of the symbols, where it is defined. -/
def eval? (symbols : String → Option K) : ParamExpr K → Option K
  | constant x => some x
  | symbol n => symbols n
  | pi => some Arithmetic.pi
  | neg e => (eval? symbols e).map Arithmetic.neg
  | add a b => do return Arithmetic.add (← eval? symbols a) (← eval? symbols b)
  | sub a b => do return Arithmetic.sub (← eval? symbols a) (← eval? symbols b)
  | mul a b => do return Arithmetic.mul (← eval? symbols a) (← eval? symbols b)
  | div a b => do Arithmetic.div (← eval? symbols a) (← eval? symbols b)
  | pow a b => do return Arithmetic.pow (← eval? symbols a) (← eval? symbols b)
  | function f e => do Arithmetic.function f (← eval? symbols e)

/-- The value that needs no symbol. -/
def value? (e : ParamExpr K) : Option K := e.eval? fun _ => none

/-- Replaces every part that has a value by that value. -/
def simplify (e : ParamExpr K) : ParamExpr K :=
  match e.value? with
  | some x => constant x
  | none =>
    match e with
    | neg a => neg a.simplify
    | function f a => function f a.simplify
    | add a b => add a.simplify b.simplify
    | sub a b => sub a.simplify b.simplify
    | mul a b => mul a.simplify b.simplify
    | div a b => div a.simplify b.simplify
    | pow a b => pow a.simplify b.simplify
    | e => e

/-- The parameter times a number. -/
def scaled (e : ParamExpr K) (factor : K) : ParamExpr K :=
  if Arithmetic.isOne factor then e
  else
    match e.value? with
    | some x => constant (Arithmetic.mul x factor)
    | none => mul (constant factor) e

/-- The parameter with its sign changed. -/
def negated (e : ParamExpr K) : ParamExpr K :=
  match e with
  | neg inner => inner
  | e =>
    match e.value? with
    | some x => constant (Arithmetic.neg x)
    | none => neg e

end ParamExpr

namespace Parameter

/-- How tightly the outermost operator binds; a minus sign binds as a negation does. -/
def strength : Parameter → Nat
  | .add _ _ | .sub _ _ => 1
  | .mul _ _ | .div _ _ => 2
  | .neg _ => 3
  | .constant x => if Double.isSigned x then 3 else 5
  | .pow _ _ => 4
  | _ => 5

/-- The text at a place that asks for a strength. -/
def textAt (least : Nat) (e : Parameter) : String :=
  let s := match e with
    | .constant x => Decimal.plain x
    | .symbol n => n
    | .pi => "pi"
    | .neg a => "-" ++ textAt 4 a
    | .add a b => textAt 1 a ++ " + " ++ textAt 2 b
    | .sub a b => textAt 1 a ++ " - " ++ textAt 2 b
    | .mul a b => textAt 2 a ++ " * " ++ textAt 3 b
    | .div a b => textAt 2 a ++ " / " ++ textAt 3 b
    | .pow a b => textAt 5 a ++ " ** " ++ textAt 4 b
    | .function f a => f ++ "(" ++ textAt 0 a ++ ")"
  if strength e < least then "(" ++ s ++ ")" else s

def text (e : Parameter) : String := textAt 0 e

end Parameter
end OpenQasm
