import OpenQasm.Grammar.Cursor

/-!
Expressions and types. Each level of the grammar is written over readers for the parts nested in it;
every nested part stands after a token of its own, so the number of tokens bounds the depth.
-/
namespace OpenQasm.Grammar

open OpenQasm.Parser

/-- Readers for the nested parts: an expression that binds at least as tightly as asked, a type. -/
structure Nested where
  expression : Nat → Parser Expr
  type : Parser TypeExpr

namespace Nested

variable (self : Nested)

/-- An expression of any strength. -/
def whole : Parser Expr := self.expression 1

/-- `[size]`, if it comes next. -/
def designator? : Parser (Option Expr) := do
  if ← accept .lBracket then
    let size ← self.whole
    expect .rBracket
    return some size
  return none

/-- The expressions between parentheses, after the opening one. -/
def arguments : Parser (List Expr) := do
  let args ← itemsBefore .rParen self.whole
  expect .rParen
  return args

/-- The expressions between braces. -/
def braced : Parser (List Expr) := do
  expect .lBrace
  let items ← itemsBefore .rBrace self.whole
  expect .rBrace
  return items

/-- The end or the step of a range, which may be left out. -/
def rangePart? : Parser (Option Expr) := do
  match ← peek with
  | none | some (.punctuation .colon) | some (.punctuation .rBracket) | some (.punctuation .comma) => return none
  | _ => return some (← self.whole)

/-- The range that goes on with a colon. -/
def rangeAfter (start : Option Expr) : Parser RangeExpr := do
  expect .colon
  let second ← self.rangePart?
  if ← accept .colon then
    let third ← self.rangePart?
    return ⟨start, second, third⟩
  return ⟨start, none, second⟩

/-- The start of a range, which may be left out. -/
def rangeStart? : Parser (Option Expr) := do
  if ← at? .colon then return none
  return some (← self.whole)

def range : Parser RangeExpr := do
  let start ← self.rangeStart?
  unless ← at? .colon do unexpected "':'"
  self.rangeAfter start

def indexItem : Parser IndexItem := do
  if ← at? .lBrace then return .set (← self.braced)
  let start ← self.rangeStart?
  if ← at? .colon then return .range (← self.rangeAfter start)
  match start with
  | some e => return .single e
  | none => unexpected "index"

/-- The indices that follow an expression. -/
def indexed : Nat → Expr → Parser Expr
  | 0, base => return base
  | n + 1, base => do
    if ← accept .lBracket then
      let items ← commaSeparated self.indexItem
      expect .rBracket
      indexed n (.index base items)
    else return base

/-- A name with indices: `q`, `q[1]`, `a[1][0:2]`. -/
def operand : Parser Expr := do
  let n ← Parser.name
  bounded fun fuel => self.indexed fuel (.name n)

def sizedKind? : Keyword → Option SizedKind
  | .int => some .int
  | .uint => some .uint
  | .float => some .float
  | .angle => some .angle
  | .bit => some .bit
  | _ => none

/-- The dimensions of an array type, each after a comma. -/
def dimensions : Parser (List Expr) := bounded (moreItems self.whole)

def typeLevel : Parser TypeExpr := do
  match ← peek with
  | some (.keyword .bool) =>
    advance
    return .bool
  | some (.keyword .duration) =>
    advance
    return .duration
  | some (.keyword .stretch) =>
    advance
    return .stretch
  | some (.keyword .complex) =>
    advance
    if ← accept .lBracket then
      expectKeyword .float
      let width ← self.designator?
      expect .rBracket
      return .sized .complex width
    return .sized .complex none
  | some (.keyword .array) =>
    advance
    expect .lBracket
    let element ← self.type
    let dims ← self.dimensions
    expect .rBracket
    if dims.isEmpty then unexpected "array dimension"
    return .array element dims
  | some (.keyword k) =>
    match sizedKind? k with
    | some kind =>
      advance
      let width ← self.designator?
      return .sized kind width
    | none => unexpected "type"
  | _ => unexpected "type"

/-- The digits of a bit string; underscores between them are dropped. -/
def bitDigits? (text : String) : Option String :=
  let cs := text.toList
  if cs ≠ [] && cs.all (fun c => c = '0' || c = '1' || c = '_') then
    some (String.ofList (cs.filter (· ≠ '_')))
  else none

/-- Keywords that a conversion starts with. -/
def startsCast (k : Keyword) : Bool := k.startsType && k ≠ .stretch && k ≠ .array

/-- Moves past a token that is an expression by itself. -/
def leaf (e : Expr) : Parser Expr := do
  advance
  return e

def primary : Parser Expr := do
  match ← peek with
  | some (.int n) => leaf (.int n)
  | some (.float x) => leaf (.float x)
  | some (.imaginary x) => leaf (.imaginary x)
  | some (.duration x u) => leaf (.duration x u)
  | some (.string text) =>
    match bitDigits? text with
    | some digits => leaf (.bits digits)
    | none => unexpected "bit-string literal"
  | some (.keyword .true) => leaf (.bool true)
  | some (.keyword .false) => leaf (.bool false)
  | some (.keyword .pi) => leaf (.constant .pi)
  | some (.keyword .tau) => leaf (.constant .tau)
  | some (.keyword .euler) => leaf (.constant .euler)
  | some (.name n) =>
    advance
    if ← accept .lParen then return .call n (← self.arguments)
    return .name n
  | some (.punctuation .lParen) =>
    advance
    let inner ← self.whole
    expect .rParen
    return .paren inner
  | some (.punctuation .lBrace) => return .array (← self.braced)
  | some (.keyword .measure) =>
    advance
    return .measure (← self.operand)
  | some (.keyword k) =>
    if startsCast k then
      let type ← self.typeLevel
      expect .lParen
      let e ← self.whole
      expect .rParen
      return .cast type e
    else unexpected "expression"
  | _ => unexpected "expression"

def unaryOp? : Option Token → Option UnaryOp
  | some (.punctuation .minus) => some .neg
  | some (.punctuation .bang) => some .not
  | some (.punctuation .tilde) => some .bitNot
  | _ => none

def binaryOp? : Option Token → Option BinaryOp
  | some (.punctuation s) =>
    match s with
    | .plus => some .add
    | .minus => some .sub
    | .star => some .mul
    | .slash => some .div
    | .percent => some .mod
    | .starStar => some .pow
    | .eqEq => some .eq
    | .bangEq => some .notEq
    | .less => some .lt
    | .lessEq => some .ltEq
    | .greater => some .gt
    | .greaterEq => some .gtEq
    | .ampAmp => some .and
    | .pipePipe => some .or
    | .amp => some .bitAnd
    | .pipe => some .bitOr
    | .caret => some .bitXor
    | .lessLess => some .shiftLeft
    | .greaterGreater => some .shiftRight
    | .plusPlus => some .concat
    | _ => none
  | _ => none

/-- A prefix operator with its operand, or a primary expression with its indices. -/
def unary : Parser Expr := do
  match unaryOp? (← peek) with
  | some op =>
    advance
    return .unary op (← self.expression UnaryOp.strength)
  | none =>
    let e ← self.primary
    bounded fun fuel => self.indexed fuel e

/-- The operators that follow a left operand and bind at least as tightly as asked. -/
def operators (least : Nat) : Nat → Expr → Parser Expr
  | 0, left => return left
  | n + 1, left => do
    match binaryOp? (← peek) with
    | some op =>
      if op.strength < least then return left
      advance
      let right ← self.expression op.rightStrength
      operators least n (.binary left op right)
    | none => return left

def expressionLevel (least : Nat) : Parser Expr := do
  let left ← self.unary
  bounded fun fuel => self.operators least fuel left

end Nested

/-- Readers for parts nested at most so deep. -/
def nested : Nat → Nested
  | 0 => ⟨fun _ => unexpected "expression", unexpected "type"⟩
  | n + 1 =>
    ⟨fun least s c => (nested n).expressionLevel least s c, fun s c => (nested n).typeLevel s c⟩

def expression : Parser Expr := bounded fun n => (nested n).whole

def type : Parser TypeExpr := bounded fun n => (nested n).type

def operand : Parser Expr := bounded fun n => (nested n).operand

def range : Parser RangeExpr := bounded fun n => (nested n).range

def braced : Parser (List Expr) := bounded fun n => (nested n).braced

def arguments : Parser (List Expr) := bounded fun n => (nested n).arguments

def designator? : Parser (Option Expr) := bounded fun n => (nested n).designator?

end OpenQasm.Grammar
