import OpenQasm.ClassicalType
import OpenQasm.Complex
import OpenQasm.Word

/-!
Classical values that are known before the program runs, and the literals that denote them.
-/
namespace OpenQasm

/-- A value. Integers of every width and sign and strings of bits are words of 64 bits. -/
inductive Value
  | bool (b : Bool)
  | int (n : Int64)
  | float (x : Float)
  | complex (z : Complex)
  | duration (x : Float) (unit : TimeUnit)
  | array (items : List Value)
deriving Inhabited

namespace Value

/-- The integer, a truth value counting as zero or one. -/
def int? : Value → Option Int64
  | int n => some n
  | bool b => some (if b then 1 else 0)
  | _ => none

/-- The real number. -/
def real? : Value → Option Float
  | int n => some (Word.toFloat n)
  | float x => some x
  | complex z => if z.im == 0.0 then some z.re else none
  | _ => none

def complex? : Value → Option Complex
  | complex z => some z
  | v => v.real?.map Complex.ofReal

/-- The truth value in a condition. -/
def truth? : Value → Option Bool
  | bool b => some b
  | int n => some (n != 0)
  | float x => some (x != 0.0)
  | complex z => some (z.norm != 0.0)
  | duration _ _ | array _ => none

/-- The type of a value for which none is declared; arrays go by their first element. -/
def type : Value → ClassicalType
  | bool _ => .bool
  | int _ => .defaultInt
  | float _ => .defaultFloat
  | complex _ => .defaultComplex
  | duration _ _ => .duration
  | array [] => ClassicalType.listOf 0 .defaultInt
  | array (v :: vs) => ClassicalType.listOf (vs.length + 1) v.type

def intExpr (n : Int64) : Expr :=
  if n < 0 then .unary .neg (.int (Word.magnitude n)) else .int (Word.magnitude n)

def floatExpr (x : Float) : Expr :=
  if Double.isSigned x && x != 0.0 then .unary .neg (.float (-x)) else .float x

def complexExpr (z : Complex) : Expr :=
  if z.im == 0.0 then floatExpr z.re
  else if z.im < 0.0 then .binary (floatExpr z.re) .sub (.imaginary (-z.im))
  else .binary (floatExpr z.re) .add (.imaginary z.im)

mutual

/-- The literal that denotes the value. -/
def toExpr : Value → Expr
  | bool b => .bool b
  | int n => intExpr n
  | float x => floatExpr x
  | complex z => complexExpr z
  | duration x u => .duration x u
  | array items => .array (toExprs items)

def toExprs : List Value → List Expr
  | [] => []
  | v :: vs => v.toExpr :: toExprs vs

end

def text (v : Value) : String := v.toExpr.text

/-- Replaces the element that a path of positions leads to. -/
def replaceAt : List Nat → Value → Value → Option Value
  | [], _, new => some new
  | p :: ps, array items, new => do
    let old ← items[p]?
    let inner ← replaceAt ps old new
    return array (items.set p inner)
  | _ :: _, _, _ => none

end Value
end OpenQasm
