import OpenQasm.Token.Scan

/-!
Reading tokens one after another. A reader keeps its place when it fails, so that the tokens of a
malformed statement can be skipped from there.
-/
namespace OpenQasm

/-- What is wrong with a piece of source text. -/
inductive SyntaxFault
  | invalidToken (text : String)
  | integerTooLarge
  | unexpected (expected found : String)
  | unexpectedEnd (expected : String)
  | invalidVersion (version : String)
  | lateVersion
deriving DecidableEq, Repr

structure SyntaxError where
  fault : SyntaxFault
  span : Span
deriving DecidableEq, Repr

/-- The fault by itself, without its place. -/
def SyntaxFault.description : SyntaxFault → String
  | invalidToken t => "Invalid token: '" ++ t ++ "'"
  | integerTooLarge => "integer literal out of range"
  | unexpected expected found => "expected " ++ expected ++ ", found " ++ found
  | unexpectedEnd expected => "expected " ++ expected
  | invalidVersion v => v
  | lateVersion => "version declaration must be the first statement"

def SyntaxError.message (e : SyntaxError) : String :=
  let place := e.span.text
  let what := e.fault.description
  match e.fault with
  | .invalidToken _ => "invalid token at " ++ place ++ ": " ++ what
  | .unexpected _ _ => "unexpected token at " ++ place ++ ": " ++ what
  | .unexpectedEnd _ => "unexpected end of input at " ++ place ++ ": " ++ what
  | .invalidVersion _ => "invalid OPENQASM version at " ++ place ++ ": " ++ what
  | .integerTooLarge | .lateVersion => what ++ " at " ++ place

/-- The tokens still to be read and how many they are, the number of open blocks, and the errors met so
far. -/
structure Cursor where
  rest : List PlacedToken
  left : Nat
  left_eq : left = rest.length
  nesting : Nat
  errors : List SyntaxError

namespace Cursor

/-- Before the first of some tokens, outside all blocks. -/
def start (tokens : List PlacedToken) (errors : List SyntaxError) : Cursor :=
  ⟨tokens, tokens.length, rfl, 0, errors⟩

/-- After the next token. -/
def next (c : Cursor) : Cursor :=
  { c with rest := c.rest.tail, left := c.left - 1, left_eq := by simp [c.left_eq] }

/-- Before other tokens. -/
def moveTo (c : Cursor) (rest : List PlacedToken) : Cursor :=
  { c with rest, left := rest.length, left_eq := rfl }

end Cursor

/-- A reader of tokens. -/
def Parser (α : Type) : Type := Source → Cursor → Except SyntaxError α × Cursor

namespace Parser

variable {α β : Type}

protected def pure (a : α) : Parser α := fun _ c => (.ok a, c)

protected def bind (p : Parser α) (f : α → Parser β) : Parser β := fun s c =>
  match p s c with
  | (.ok a, c') => f a s c'
  | (.error e, c') => (.error e, c')

instance : Monad Parser where
  pure := Parser.pure
  bind := Parser.bind

def fail (e : SyntaxError) : Parser α := fun _ c => (.error e, c)

/-- The place of the next token, or the end of the text. -/
def here : Parser Span := fun s c =>
  (.ok (s.spanAt ((c.rest.head?.map (·.start)).getD s.size)), c)

def peek : Parser (Option Token) := fun _ c => (.ok (c.rest.head?.map (·.token)), c)

/-- The token after the next one. -/
def peekSecond : Parser (Option Token) := fun _ c => (.ok (c.rest[1]?.map (·.token)), c)

/-- Moves past the next token. -/
def advance : Parser Unit := fun _ c => (.ok (), c.next)

/-- Fails because something else was expected in place of the next token. -/
def unexpected (expected : String) : Parser α := fun s c =>
  match here s c, c.rest.head? with
  | (.ok span, _), some found => (.error ⟨.unexpected expected found.token.text, span⟩, c)
  | (.ok span, _), none => (.error ⟨.unexpectedEnd expected, span⟩, c)
  | (.error e, _), _ => (.error e, c)

def isPunctuation (s : Punctuation) : Option Token → Bool
  | some (.punctuation t) => t = s
  | _ => false

def isKeyword (k : Keyword) : Option Token → Bool
  | some (.keyword l) => l = k
  | _ => false

/-- Whether the next token is the symbol. -/
def at? (s : Punctuation) : Parser Bool := do return isPunctuation s (← peek)

/-- Moves past the symbol if it comes next. -/
def accept (s : Punctuation) : Parser Bool := do
  if isPunctuation s (← peek) then
    advance
    return true
  return false

def acceptKeyword (k : Keyword) : Parser Bool := do
  if isKeyword k (← peek) then
    advance
    return true
  return false

/-- Moves past the symbol, which has to come next. -/
def expect (s : Punctuation) : Parser Unit := do
  unless ← accept s do unexpected ("'" ++ s.text ++ "'")

def expectKeyword (k : Keyword) : Parser Unit := do
  unless ← acceptKeyword k do unexpected ("'" ++ k.text ++ "'")

def name : Parser String := do
  match ← peek with
  | some (.name n) =>
    advance
    return n
  | _ => unexpected "identifier"

/-- Runs a reader whose depth is bounded by the number of tokens left. -/
def bounded (p : Nat → Parser α) : Parser α := fun s c => p (c.left + 1) s c

/-- The items after further commas. -/
def moreItems (item : Parser α) : Nat → Parser (List α)
  | 0 => return []
  | n + 1 => do
    if ← accept .comma then
      let a ← item
      let others ← moreItems item n
      return a :: others
    return []

/-- One or more items between commas. -/
def commaSeparated (item : Parser α) : Parser (List α) := do
  let a ← item
  let others ← bounded (moreItems item)
  return a :: others

/-- Items between commas up to a closing symbol, which is not consumed. -/
def itemsBefore (close : Punctuation) (item : Parser α) : Parser (List α) := do
  if ← at? close then return []
  commaSeparated item

/-- Skips the rest of a broken statement: up to and including a semicolon outside braces or the brace
that closes a block opened on the way, and up to a brace that closes an enclosing block. Outside all
blocks such a brace is dropped. -/
def skipFrom (nesting : Nat) : Nat → List PlacedToken → List PlacedToken
  | _, [] => []
  | depth, t :: ts =>
    match t.token with
    | .punctuation .semicolon => if depth = 0 then ts else skipFrom nesting depth ts
    | .punctuation .lBrace => skipFrom nesting (depth + 1) ts
    | .punctuation .rBrace =>
      if depth = 0 then (if nesting = 0 then ts else t :: ts)
      else if depth = 1 then ts
      else skipFrom nesting (depth - 1) ts
    | _ => skipFrom nesting depth ts

/-- Reads a statement, or records why it cannot be read and skips it. -/
def recovering (p : Parser α) : Parser (Option α) := fun s c =>
  match p s c with
  | (.ok a, c') => (.ok (some a), c')
  | (.error e, c') =>
    let c' := c'.moveTo (skipFrom c'.nesting 0 c'.rest)
    (.ok none, { c' with errors := c'.errors ++ [e] })

/-- Runs a reader and drops a token if it stood still, unless `keep` holds of that token. -/
def moving (keep : PlacedToken → Bool) (p : Parser α) : Parser α := fun s c =>
  match p s c with
  | (r, c') =>
    if c'.left = c.left && !c'.rest.head?.any keep then (r, c'.next) else (r, c')

end Parser
end OpenQasm
