import OpenQasm.Bound
import OpenQasm.Syntax.Print

/-!
Classical types with known widths: their text, which values a place of a type takes without a
conversion being written, and the types of operations.
-/
namespace OpenQasm

inductive ClassicalType
  | bool
  | sized (kind : SizedKind) (width : Nat)
  | duration
  | stretch
  | array (element : ClassicalType) (dims : List Nat)
deriving DecidableEq, Inhabited, Repr

namespace ClassicalType

def defaultIntWidth : Nat := 32
def defaultFloatWidth : Nat := 64
def defaultAngleWidth : Nat := 32

def defaultInt : ClassicalType := sized .int defaultIntWidth
def defaultFloat : ClassicalType := sized .float defaultFloatWidth
def defaultComplex : ClassicalType := sized .complex defaultFloatWidth

def floatWidths : List Nat := [16, 32, 64, 128]

/-- The number of bits, or the first dimension of an array. Sizes end at 32 bits. -/
def width? : ClassicalType → Option Nat
  | sized _ n => some n
  | array _ (d :: _) => some (min d Bound.largestSize)
  | _ => none

def isNumeric : ClassicalType → Bool
  | sized _ _ => true
  | _ => false

def isArray : ClassicalType → Bool
  | array _ _ => true
  | _ => false

def intExpr (n : Nat) : Expr := .int n.toUInt64

/-- The type as it is written. -/
def toExpr : ClassicalType → TypeExpr
  | bool => .bool
  | sized kind n => .sized kind (some (intExpr n))
  | duration => .duration
  | stretch => .stretch
  | array element dims => .array element.toExpr (dims.map intExpr)

def text (t : ClassicalType) : String := t.toExpr.text

/-- The array of a type and dimensions; without dimensions, the type itself. -/
def arrayOf (element : ClassicalType) : List Nat → ClassicalType
  | [] => element
  | dims => array element dims

/-- The array of `n` values of a type. -/
def listOf (n : Nat) : ClassicalType → ClassicalType
  | array element dims => array element (n :: dims)
  | t => array t [n]

/-- The type of a single element. -/
def indexed? : ClassicalType → Option ClassicalType
  | sized .int _ | sized .uint _ | sized .bit _ => some (sized .bit 1)
  | array element dims => some (arrayOf element dims.tail)
  | _ => none

/-- Whether indexing selects bits. -/
def hasBits : ClassicalType → Bool
  | sized .int _ | sized .uint _ | sized .bit _ => true
  | _ => false

end ClassicalType

/-- Why a value does not fit a type. -/
inductive TypeFault
  | fromBool (target : ClassicalType)
  | needsCast (target value : ClassicalType)
  | expected (target value : ClassicalType)
  | literal (negative : Bool) (magnitude : UInt64) (target : ClassicalType)
  | concat (l r : ClassicalType)
  | boolOperand (op : BinaryOp)
  | integerOperands (op : BinaryOp)

def TypeFault.message : TypeFault → String
  | fromBool t => "bool cannot be implicitly converted to " ++ t.text
  | needsCast t v =>
    v.text ++ " cannot be implicitly converted to " ++ t.text ++ "; use an explicit cast"
  | expected t v => "expected " ++ t.text ++ ", found " ++ v.text
  | literal negative m t =>
    "literal " ++ (if negative then "-" else "") ++ toString m.toNat ++ " does not fit in " ++ t.text
  | concat l r => "cannot concatenate " ++ l.text ++ " and " ++ r.text
  | boolOperand op => "operator `" ++ op.symbol ++ "` is not defined for bool"
  | integerOperands op => "operator `" ++ op.symbol ++ "` needs integer operands"

namespace ClassicalType

/-- Whether a number of one kind may stand where another kind is declared. -/
def kindAssignable : SizedKind → SizedKind → Bool
  | .int, .int | .int, .uint | .int, .bit => true
  | .uint, .int | .uint, .uint | .uint, .bit => true
  | .float, .int | .float, .uint | .float, .float | .float, .bit => true
  | .angle, .int | .angle, .uint | .angle, .float | .angle, .angle => true
  | .bit, .int | .bit, .uint | .bit, .bit => true
  | .complex, .int | .complex, .uint | .complex, .float | .complex, .complex => true
  | _, _ => false

/-- Whether the conversion loses the fraction and has to be written out. -/
def kindNeedsCast : SizedKind → SizedKind → Bool
  | .int, .float | .int, .angle | .uint, .float | .uint, .angle => true
  | _, _ => false

/-- Whether a value of the second type may be stored in a place of the first. -/
def checkAssignable (target value : ClassicalType) : Except TypeFault Unit :=
  if target = value then .ok ()
  else
    match target, value with
    | array _ _, _ | _, array _ _ => .error (.expected target value)
    | bool, sized _ _ => .ok ()
    | bool, _ => .error (.expected target value)
    | sized .bit _, bool => .ok ()
    | _, bool => .error (.fromBool target)
    | sized k _, sized l _ =>
      if kindAssignable k l then .ok ()
      else if kindNeedsCast k l then .error (.needsCast target value)
      else .error (.expected target value)
    | duration, stretch | stretch, duration => .ok ()
    | _, _ => .error (.expected target value)

/-- An integer literal in parentheses and with a sign: whether it is negated, and its size. -/
def integerLiteral? (e : Expr) : Option (Bool × UInt64) :=
  match e.unparen with
  | .int n => some (false, n)
  | .unary .neg inner =>
    match inner.unparen with
    | .int n => some (true, n)
    | _ => none
  | _ => none

/-- Whether a literal lies in the range of the type. -/
def literalFits (target : ClassicalType) (negative : Bool) (magnitude : Nat) : Bool :=
  match target with
  | sized .int n =>
    let half := Nat.pow 2 (min n 64 - 1)
    if negative then magnitude ≤ half else magnitude ≤ half - 1
  | sized .uint n | sized .bit n => !negative && (n ≥ 64 || magnitude < Nat.pow 2 n)
  | _ => true

def checkLiteral (target : ClassicalType) (e : Expr) : Except TypeFault Unit :=
  match integerLiteral? e with
  | some (negative, m) =>
    if literalFits target negative m.toNat then .ok () else .error (.literal negative m target)
  | none => .ok ()

/-- The type of arithmetic on two types that are not `bool`. -/
def arithmetic (l r : ClassicalType) : ClassicalType :=
  match l, r with
  | sized .complex n, _ | _, sized .complex n => sized .complex n
  | duration, _ | _, duration => duration
  | sized .float m, sized .float n => sized .float (max m n)
  | sized .float n, _ | _, sized .float n => sized .float n
  | sized .angle n, _ | _, sized .angle n => sized .angle n
  | sized .int m, sized .int n => sized .int (max m n)
  | sized .int n, _ | _, sized .int n => sized .int n
  | sized .uint m, sized .uint n => sized .uint (max m n)
  | sized .uint n, _ | _, sized .uint n => sized .uint n
  | _, _ => defaultInt

def isFractional : ClassicalType → Bool
  | sized .float _ | sized .complex _ => true
  | _ => false

/-- The type of two arrays put together. -/
def concat? (l r : ClassicalType) : Option ClassicalType :=
  match l, r with
  | array a (m :: ms), array b (n :: ns) =>
    if a = b ∧ ms = ns then some (array a ((m + n) :: ms)) else none
  | _, _ => none

/-- The type of an operation. -/
def binary (op : BinaryOp) (l r : ClassicalType) : Except TypeFault ClassicalType :=
  match op with
  | .eq | .notEq | .lt | .ltEq | .gt | .gtEq | .and | .or => .ok bool
  | .concat =>
    match concat? l r with
    | some t => .ok t
    | none => .error (.concat l r)
  | .bitAnd | .bitOr | .bitXor | .shiftLeft | .shiftRight =>
    if l = bool ∨ r = bool then .error (.boolOperand op)
    else if l.isFractional ∨ r.isFractional then .error (.integerOperands op)
    else .ok l
  | .add | .sub | .mul | .div | .mod | .pow =>
    if l = bool ∨ r = bool then .error (.boolOperand op) else .ok (arithmetic l r)

end ClassicalType
end OpenQasm
