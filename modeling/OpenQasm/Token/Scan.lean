import OpenQasm.Bound
import OpenQasm.Digits
import OpenQasm.Token

/-!
Cutting a text into tokens. The longest token at the head of the text is taken, and a keyword wins
over a name of the same length; blanks and complete comments separate tokens. A string or block
comment that is never closed is invalid up to the end of the text, a number that does not fit is
invalid as a whole, and any other character that starts no token is invalid by itself.
-/
namespace OpenQasm.Token

/-- What stands at the head of a text. -/
inductive Piece
  | separator
  | token (t : Token)
  | invalid

def isSpace (c : Char) : Bool := c = ' ' || c = '\t' || c = '\r' || c = '\n' || c = '\x0c'

def isNameStart (c : Char) : Bool := ('a' ≤ c && c ≤ 'z') || ('A' ≤ c && c ≤ 'Z') || c = '_'

def isNameChar (c : Char) : Bool := isNameStart c || Decimal.isDigit c

/-- An integer literal, if it fits into 64 bits. -/
def ofNat (n : Nat) : Piece := if n < Bound.literal then .token (.int n.toUInt64) else .invalid

/-- An integer literal of digits of a base. -/
def ofDigits (base : Nat) (cs : List Char) : Piece := ofNat ((Digits.value? base cs).getD 0)

/-- The number of characters up to and including the first `*/`. -/
def commentLength? : List Char → Option Nat
  | '*' :: '/' :: _ => some 2
  | _ :: cs => (commentLength? cs).map (· + 1)
  | [] => none

/-- The unit of a duration at the head of a text, and its length. -/
def unit? : List Char → Option (TimeUnit × Nat)
  | 'n' :: 's' :: _ => some (.ns, 2)
  | 'u' :: 's' :: _ => some (.us, 2)
  | 'µ' :: 's' :: _ => some (.us, 2)
  | 'm' :: 's' :: _ => some (.ms, 2)
  | 's' :: _ => some (.s, 1)
  | 'd' :: 't' :: _ => some (.dt, 2)
  | _ => none

/-- A number that has a point, an exponent or a suffix, or else a decimal integer. -/
def decimal (cs : List Char) : Piece × Nat :=
  let whole := cs.takeWhile Decimal.isDigit
  let afterWhole := cs.drop whole.length
  let (pointed, fraction, tail) := match afterWhole with
    | '.' :: r => (true, r.takeWhile Decimal.isDigit, r.dropWhile Decimal.isDigit)
    | r => (false, [], r)
  let size := whole.length + fraction.length + if pointed then 1 else 0
  match unit? tail with
  | some (u, n) => (.token (.duration (Decimal.ofParts whole fraction 0) u), size + n)
  | none =>
    let (exponent, n) := (Decimal.exponentPart tail).getD (0, 0)
    let value := Decimal.ofParts whole fraction exponent
    match tail.drop n with
    | 'i' :: 'm' :: _ => (.token (.imaginary value), size + n + 2)
    | _ =>
      if pointed || n > 0 then (.token (.float value), size + n)
      else (ofNat (Decimal.natOfDigits whole), size)

/-- A number: hexadecimal, binary or decimal. -/
def number : List Char → Piece × Nat
  | '0' :: x :: cs =>
    let hex := cs.takeWhile (Digits.isDigit 16)
    let binary := cs.takeWhile (Digits.isDigit 2)
    if (x = 'x' || x = 'X') && hex ≠ [] then (ofDigits 16 hex, hex.length + 2)
    else if (x = 'b' || x = 'B') && binary ≠ [] then (ofDigits 2 binary, binary.length + 2)
    else decimal ('0' :: x :: cs)
  | cs => decimal cs

/-- A keyword or a name. -/
def ofWord (word : List Char) : Token :=
  let text := String.ofList word
  match Keyword.ofText? text with
  | some k => .keyword k
  | none => .name text

/-- A number, a symbol, a letter that stands for a number, or a character that starts no token. -/
def numberOrPunctuation (c : Char) (cs : List Char) : Piece × Nat :=
  let startsNumber := Decimal.isDigit c || (c = '.' && (cs.head?.map Decimal.isDigit).getD false)
  if startsNumber then number (c :: cs)
  else match Punctuation.scan? (c :: cs) with
    | some s => (.token (.punctuation s), s.text.length)
    | none =>
      match Keyword.ofLetter? c with
      | some k => (.token (.keyword k), 1)
      | none => (.invalid, 1)

def pragmaWord : List Char := "pragma".toList

/-- What stands at the head of the text `c :: cs`, and how many characters it covers. -/
def headPiece (c : Char) (cs : List Char) : Piece × Nat :=
  if isSpace c then (.separator, 1 + (cs.takeWhile isSpace).length)
  else if isNameStart c then
    let word := c :: cs.takeWhile isNameChar
    (.token (ofWord word), word.length)
  else if c = '"' then
    let body := cs.takeWhile (· ≠ '"')
    if body.length < cs.length then (.token (.string (String.ofList body)), body.length + 2)
    else (.invalid, 1 + cs.length)
  else if c = '#' && pragmaWord.isPrefixOf cs then
    let body := (cs.drop pragmaWord.length).takeWhile (· ≠ '\n')
    (.token (.pragma (String.ofList (trimBlanks body))), 1 + pragmaWord.length + body.length)
  else if c = '/' && cs.head? = some '/' then
    (.separator, 1 + (cs.takeWhile (· ≠ '\n')).length)
  else if c = '/' && cs.head? = some '*' then
    match commentLength? cs.tail with
    | some n => (.separator, 2 + n)
    | none => (.invalid, 1 + cs.length)
  else numberOrPunctuation c cs

/-- The lexemes of a text that starts at an offset. -/
def scanFrom (offset : Nat) : List Char → List Lexeme
  | [] => []
  | c :: cs =>
    let (piece, n) := headPiece c cs
    let chars := c :: cs.take (n - 1)
    let stop := offset + byteLength chars
    let rest := scanFrom stop (cs.drop (n - 1))
    match piece with
    | .separator => rest
    | .token t => ⟨some t, chars, offset, stop⟩ :: rest
    | .invalid => ⟨none, chars, offset, stop⟩ :: rest
termination_by cs => cs.length
decreasing_by simp only [List.length_drop, List.length_cons]; omega

/-- The lexemes of a source text in order. -/
def scan (s : Source) : List Lexeme := scanFrom 0 s.chars

end OpenQasm.Token
