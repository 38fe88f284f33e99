import OpenQasm.Grammar.Statement

/-!
Whole programs. Reading never stops at an error: all of them are reported, and the statements that
could be read are kept.
-/
namespace OpenQasm

namespace Grammar

open OpenQasm.Parser

/-- The text of a version number. -/
def versionText? : Token → Option String
  | .float x => some (Decimal.literal x)
  | .int n => some (toString n.toNat ++ ".0")
  | _ => none

/-- The major versions that programs may be written for. -/
def knownVersion (v : String) : Bool := v.startsWith "2." || v.startsWith "3."

def versionLine : Parser String := do
  advance
  let span ← here
  match ← peek with
  | none => unexpected "version number"
  | some t =>
    advance
    match versionText? t with
    | some v =>
      if knownVersion v then
        expect .semicolon
        return v
      else fail ⟨.invalidVersion v, span⟩
    | none => fail ⟨.invalidVersion t.text, span⟩

def version? : Parser (Option String) := do
  if isKeyword .openqasm (← peek) then recovering versionLine else return none

/-- Reads statements up to the end. -/
def statements : Nat → Parser (List Statement)
  | 0 => return []
  | n + 1 => do
    match ← peek with
    | none => return []
    | some _ =>
      let first ← moving (fun _ => false) (recovering statement)
      let others ← statements n
      return first.toList ++ others

def program : Parser Program := do
  let version ← version?
  let statements ← bounded statements
  return ⟨version, statements⟩

/-- The error that an invalid lexeme is: a number of decimal digits is too large. -/
def lexicalError (s : Source) (l : Lexeme) : SyntaxError :=
  let fault :=
    if l.chars.all Decimal.isDigit then .integerTooLarge
    else .invalidToken (String.ofList l.chars)
  ⟨fault, s.spanAt l.start⟩

/-- The place to start reading from. Invalid lexemes are reported and left out. -/
def cursor (s : Source) : Cursor :=
  let lexemes := Token.scan s
  .start (lexemes.filterMap fun l => l.token.map fun t => ⟨t, l.start, l.stop⟩)
    ((lexemes.filter (·.token.isNone)).map (lexicalError s))

end Grammar

/-- Reads a program and lists all errors, those of invalid tokens first. -/
def Program.parse (text : String) : Program × List SyntaxError :=
  let s := Source.ofString text
  match Grammar.program s (Grammar.cursor s) with
  | (.ok p, c) => (p, c.errors)
  | (.error e, c) => (⟨none, []⟩, c.errors ++ [e])

/-- Reads a program that has no errors, or gives the first one. -/
def Program.parseStrict (text : String) : Except SyntaxError Program :=
  match Program.parse text with
  | (p, []) => .ok p
  | (_, e :: _) => .error e

end OpenQasm
