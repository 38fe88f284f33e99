import OpenQasm.Grammar.Expression

/-!
Statements. As with expressions, one level of the grammar is written over a reader for the statements
nested in it. A malformed statement inside a block is recorded and skipped, and the block goes on.
-/
namespace OpenQasm.Grammar

open OpenQasm.Parser

/-- Reads statements up to the brace that closes their block. -/
def blockItems (self : Parser Statement) : Nat → Parser (List Statement)
  | 0 => return []
  | n + 1 => do
    match ← peek with
    | none | some (.punctuation .rBrace) => return []
    | _ =>
      let first ← moving (fun t => isPunctuation .rBrace (some t.token)) (recovering self)
      let others ← blockItems self n
      return first.toList ++ others

/-- Runs a reader inside one more block. -/
def inBlock {α : Type} (p : Parser α) : Parser α := fun s c =>
  match p s { c with nesting := c.nesting + 1 } with
  | (r, c') => (r, { c' with nesting := c'.nesting - 1 })

/-- The statements between braces. -/
def block (self : Parser Statement) : Parser (List Statement) := do
  expect .lBrace
  let body ← inBlock (bounded (blockItems self))
  expect .rBrace
  return body

/-- A block, or one statement in place of it. -/
def body (self : Parser Statement) : Parser (List Statement) := do
  if ← at? .lBrace then block self
  else return [← self]

/-- Closes a statement that is complete. -/
def ended (k : StatementKind) : Parser StatementKind := do
  expect .semicolon
  return k

def operandList : Parser (List Expr) := commaSeparated operand

def nameList : Parser (List String) := commaSeparated Parser.name

def includeStatement : Parser StatementKind := do
  advance
  match ← peek with
  | some (.string path) =>
    advance
    ended (.includeFile path)
  | _ => unexpected "string literal"

def qubitDeclaration : Parser StatementKind := do
  advance
  let size ← designator?
  let n ← Parser.name
  ended (.qubits n size)

def qregDeclaration : Parser StatementKind := do
  advance
  let n ← Parser.name
  let size ← designator?
  ended (.qubits n size)

def cregDeclaration : Parser StatementKind := do
  advance
  let n ← Parser.name
  let size ← designator?
  ended (.classical ⟨.sized .bit size, n, none, false, none⟩)

def direction? : Parser (Option Direction) := do
  if ← acceptKeyword .input then return some .input
  if ← acceptKeyword .output then return some .output
  return none

def initializer? : Parser (Option Expr) := do
  if ← accept .eq then return some (← expression)
  return none

def classicalDeclaration : Parser StatementKind := do
  let isConst ← acceptKeyword .const
  let direction ← direction?
  let type ← type
  let n ← Parser.name
  let init ← initializer?
  ended (.classical ⟨type, n, init, isConst, direction⟩)

def aliasStatement : Parser StatementKind := do
  advance
  let n ← Parser.name
  expect .eq
  let value ← expression
  ended (.alias n value)

def measureStatement : Parser StatementKind := do
  advance
  let qubits ← operand
  if ← accept .arrow then
    let target ← operand
    ended (.measure qubits (some target))
  else ended (.measure qubits none)

def resetStatement : Parser StatementKind := do
  advance
  let e ← operand
  ended (.reset e)

def barrierStatement : Parser StatementKind := do
  advance
  if ← at? .semicolon then ended (.barrier [])
  else
    let operands ← operandList
    ended (.barrier operands)

/-- The condition of a branch or loop, in parentheses. -/
def condition : Parser Expr := do
  advance
  expect .lParen
  let e ← expression
  expect .rParen
  return e

def branchStatement (self : Parser Statement) : Parser StatementKind := do
  let cond ← condition
  let thenBody ← body self
  if ← acceptKeyword .else then
    let elseBody ← body self
    return .branch cond thenBody (some elseBody)
  return .branch cond thenBody none

def loopType? : Parser (Option TypeExpr) := do
  match ← peek with
  | some (.keyword k) => if k.startsType then return some (← type) else return none
  | _ => return none

def loopValues : Parser LoopValues := do
  if ← accept .lBracket then
    let r ← range
    expect .rBracket
    return .range r
  if ← at? .lBrace then return .set (← braced)
  return .array (← expression)

def forStatement (self : Parser Statement) : Parser StatementKind := do
  advance
  let type ← loopType?
  let n ← Parser.name
  expectKeyword .in
  let values ← loopValues
  let body ← body self
  return .forLoop type n values body

def whileStatement (self : Parser Statement) : Parser StatementKind := do
  let cond ← condition
  let body ← body self
  return .whileLoop cond body

def returnStatement : Parser StatementKind := do
  advance
  if ← at? .semicolon then ended (.returnValue none)
  else
    let e ← expression
    ended (.returnValue (some e))

/-- Access qualifiers of a formal parameter carry no meaning. -/
def skipAccess : Parser Unit := do
  match ← peek with
  | some (.name n) => if n = "readonly" || n = "mutable" then advance
  | _ => return

def formal : Parser Formal := do
  skipAccess
  if ← acceptKeyword .qubit then
    let size ← designator?
    let n ← Parser.name
    return .qubit n size
  if ← acceptKeyword .qreg then
    let n ← Parser.name
    let size ← designator?
    return .qubit n size
  let type ← type
  let n ← Parser.name
  return .classical type n

def subroutineDefinition (self : Parser Statement) : Parser StatementKind := do
  advance
  let n ← Parser.name
  expect .lParen
  let formals ← itemsBefore .rParen formal
  expect .rParen
  let result ← if ← accept .arrow then some <$> type else pure none
  let body ← block self
  return .defineSubroutine ⟨n, formals, result, body⟩

def gateDefinition (self : Parser Statement) : Parser StatementKind := do
  advance
  let n ← Parser.name
  let params ← gateParams
  let qubits ← nameList
  let body ← block self
  return .defineGate ⟨n, params, qubits, body⟩
where
  gateParams : Parser (List String) := do
    if ← accept .lParen then
      let params ← itemsBefore .rParen Parser.name
      expect .rParen
      return params
    return []

/-- A keyword after `@`; its content is the rest of the line, whatever tokens that holds. -/
def annotated : Parser StatementKind := fun s c =>
  match c.rest with
  | _ :: ⟨.name keyword, _, stop⟩ :: ts =>
    let content := s.lineRest stop
    let lineEnd := stop + byteLength content
    (.ok (.annotated keyword (String.ofList (trimBlanks content))),
      c.moveTo (ts.dropWhile (·.start < lineEnd)))
  | _ :: _ => unexpected "identifier" s c.next
  | [] => unexpected "identifier" s c

/-- The control count in parentheses, if it comes next. -/
def controlCount? : Parser (Option Expr) := do
  if ← accept .lParen then
    let e ← expression
    expect .rParen
    return some e
  return none

def modifier? : Parser (Option Modifier) := do
  match ← peek with
  | some (.keyword .inv) =>
    advance
    return some .inv
  | some (.keyword .pow) =>
    advance
    expect .lParen
    let e ← expression
    expect .rParen
    return some (.pow e)
  | some (.keyword .ctrl) =>
    advance
    return some (.ctrl (← controlCount?))
  | some (.keyword .negctrl) =>
    advance
    return some (.negctrl (← controlCount?))
  | _ => return none

/-- The modifiers in front of a gate, each followed by `@`. -/
def modifiers : Nat → Parser (List Modifier)
  | 0 => return []
  | n + 1 => do
    match ← modifier? with
    | some m =>
      expect .atSign
      let others ← modifiers n
      return m :: others
    | none => return []

def gateOperands (modifiers : List Modifier) (n : String) (params : List Expr) :
    Parser StatementKind := do
  let qubits ← operandList
  ended (.gate ⟨n, params, qubits, modifiers⟩)

def gateStatement : Parser StatementKind := do
  let ms ← bounded modifiers
  let n ← Parser.name
  if ← accept .lParen then
    let params ← arguments
    gateOperands ms n params
  else gateOperands ms n []

def assignOp? : Option Token → Option AssignOp
  | some (.punctuation .eq) => some .set
  | some (.punctuation .plusEq) => some .add
  | some (.punctuation .minusEq) => some .sub
  | some (.punctuation .starEq) => some .mul
  | some (.punctuation .slashEq) => some .div
  | _ => none

/-- An assignment; that of a measurement is a measurement with a target. -/
def assignment : Parser StatementKind := do
  let target ← operand
  match assignOp? (← peek) with
  | some op =>
    advance
    let value ← expression
    match op, value with
    | .set, .measure qubits => ended (.measure qubits (some target))
    | _, _ => ended (.assign target op value)
  | none => unexpected "assignment operator"

/-- A statement that starts with a name: a gate call, an assignment or an expression. -/
def nameStatement : Parser StatementKind := do
  match ← peekSecond with
  | some (.punctuation .lParen) =>
    let n ← Parser.name
    expect .lParen
    let args ← arguments
    if ← accept .semicolon then return .evaluate (.call n args)
    gateOperands [] n args
  | some (.name _) => gateStatement
  | some (.punctuation .semicolon) =>
    let n ← Parser.name
    ended (.evaluate (.name n))
  | _ => assignment

/-- A statement that is a single keyword. -/
def keywordStatement (k : StatementKind) : Parser StatementKind := do
  advance
  ended k

/-- A statement that starts with a keyword. -/
def keywordLed (self : Parser Statement) (k : Keyword) : Parser StatementKind :=
  match k with
  | .openqasm => fun s c =>
    match here s c with
    | (.ok span, _) => (.error ⟨.lateVersion, span⟩, c)
    | (.error e, _) => (.error e, c)
  | .include => includeStatement
  | .qubit => qubitDeclaration
  | .qreg => qregDeclaration
  | .creg => cregDeclaration
  | .const | .input | .output => classicalDeclaration
  | .let => aliasStatement
  | .measure => measureStatement
  | .reset => resetStatement
  | .barrier => barrierStatement
  | .if => branchStatement self
  | .for => forStatement self
  | .while => whileStatement self
  | .break => keywordStatement .breakLoop
  | .continue => keywordStatement .continueLoop
  | .return => returnStatement
  | .define => subroutineDefinition self
  | .gate => gateDefinition self
  | .inv | .pow | .ctrl | .negctrl => gateStatement
  | k => if k.startsType then classicalDeclaration else unexpected "statement"

def statementKind (self : Parser Statement) : Parser StatementKind := do
  match ← peek with
  | some (.keyword k) => keywordLed self k
  | some (.punctuation .lBrace) => return .block (← block self)
  | some (.pragma text) =>
    advance
    return .pragma text
  | some (.punctuation .atSign) => annotated
  | some (.name _) => nameStatement
  | _ => unexpected "statement"

def statementLevel (self : Parser Statement) : Parser Statement := do
  let span ← here
  let kind ← statementKind self
  return ⟨kind, span⟩

/-- A statement that nests others at most so deep. -/
def nestedStatement : Nat → Parser Statement
  | 0 => unexpected "statement"
  | n + 1 => statementLevel fun s c => nestedStatement n s c

def statement : Parser Statement := bounded nestedStatement

end OpenQasm.Grammar
