import OpenQasm.Digits
import OpenQasm.Yaml.Text

/-!
The scalars of YAML. Inside plain and quoted ones, a gap between words that runs over the end of a line
is folded: one end of a line becomes a space, and of several all but the first are kept.
-/
namespace OpenQasm.Yaml

/-- The blanks and the ends of lines since the last word, latest first. A gap is escaped if a backslash
stands before its first end of a line, which is then dropped. -/
structure Gap where
  blanks : List Char
  breaks : List Char
  escaped : Bool

namespace Gap

def none : Gap := ⟨[], [], false⟩

/-- A gap that starts with a backslash and the end of a line. -/
def escapedBreak : Gap := ⟨[], [], true⟩

def isEmpty (g : Gap) : Bool := g.blanks.isEmpty && g.breaks.isEmpty && !g.escaped

/-- Whether the gap runs over the end of a line. -/
def isBroken (g : Gap) : Bool := !g.breaks.isEmpty || g.escaped

/-- Adds a blank or the end of a line. No tab may stand before the column `limit` of a later line. -/
def add? (limit : Nat) (g : Gap) (c : Char) (p : Place) : Option Gap :=
  if isBreak c then some { g with breaks := c :: g.breaks }
  else if !g.isBroken then some { g with blanks := c :: g.blanks }
  else if c = '\t' && p.column < limit then Option.none
  else some g

/-- What the gap stands for. -/
def text (g : Gap) : List Char :=
  if g.escaped then g.breaks.reverse
  else
    match g.breaks.reverse with
    | [] => g.blanks.reverse
    | ['\n'] => [' ']
    | '\n' :: more => more
    | breaks => breaks

end Gap

def isFlowIndicator (c : Char) : Bool := ",[]\x7b\x7d".toList.contains c

/-- A plain scalar from its first character on, whether the line ends before what follows, and that.
Later lines start at the column `limit` or after it unless the scalar stands in brackets. -/
def plain? (limit : Nat) (flow : Bool) (done : List Char) (gap : Gap) :
    Text → Option (List Char × Bool × Text)
  | [] => none
  | (c, p) :: rest =>
    let ended := some (done.reverse, gap.isBroken, (c, p) :: rest)
    if c = endMark then ended
    else if isWhite c || isBreak c then do plain? limit flow done (← gap.add? limit c p) rest
    else if !gap.isEmpty && (c = '#' || Text.startsDocumentMark ((c, p) :: rest) ||
        (!flow && p.column < limit)) then ended
    else if flow && c = ':' && (isFlowIndicator (Text.peek rest) || Text.peek rest = '?') then none
    else if (c = ':' && endsWord (Text.peek rest)) || (flow && isFlowIndicator c) then ended
    else plain? limit flow (c :: (gap.text.reverse ++ done)) .none rest

/-- What a backslash and a letter stand for. -/
def escaped? : Char → Option Char
  | '0' => some '\x00'
  | 'a' => some '\x07'
  | 'b' => some '\x08'
  | 't' | '\t' => some '\t'
  | 'n' => some '\n'
  | 'v' => some '\x0b'
  | 'f' => some '\x0c'
  | 'r' => some '\r'
  | 'e' => some '\x1b'
  | ' ' => some ' '
  | '"' => some '"'
  | '/' => some '/'
  | '\\' => some '\\'
  | 'N' => some '\x85'
  | '_' => some '\xa0'
  | 'L' => some '\u2028'
  | 'P' => some '\u2029'
  | _ => none

/-- How many digits of a code point follow a backslash and a letter. -/
def escapedDigits : Char → Nat
  | 'x' => 2
  | 'u' => 4
  | 'U' => 8
  | _ => 0

/-- The character of a code point, which is no surrogate. -/
def ofCodePoint? (n : Nat) : Option Char := if n.isValidChar then some (Char.ofNat n) else none

/-- The character that an escape with the letter `e` stands for, and how many digits it takes. -/
def escape? (e : Char) (following : Text) : Option (Char × Nat) :=
  let count := escapedDigits e
  if count = 0 then (escaped? e).map (·, 0)
  else do
    let n ← Digits.value? 16 ((following.take count).map (·.1))
    return (← ofCodePoint? n, count)

/-- A quoted scalar after its opening quote, and what follows its closing one. In single quotes a quote
is written twice, in double quotes a backslash starts an escape. -/
def quoted? (single : Bool) (done : List Char) (gap : Gap) (t : Text) : Option (List Char × Text) :=
  match t with
  | [] => none
  | (c, p) :: rest =>
    if c = endMark then none
    else if isWhite c || isBreak c then do quoted? single done (← gap.add? 0 c p) rest
    else if Text.startsDocumentMark t then none
    else
      let done := gap.text.reverse ++ done
      if single && c = '\'' then
        match rest with
        | ('\'', _) :: rest => quoted? single ('\'' :: done) .none rest
        | rest => some (done.reverse, rest)
      else if !single && c = '"' then some (done.reverse, rest)
      else if !single && c = '\\' then
        match rest with
        | (e, _) :: following =>
          if isBreak e then quoted? single done .escapedBreak following
          else do
            let (c, count) ← escape? e following
            quoted? single (c :: done) .none (following.drop count)
        | [] => none
      else quoted? single (c :: done) .none rest
termination_by t.length
decreasing_by all_goals simp only [List.length_cons, List.length_drop]; omega

/-- What becomes of the ends of lines at the end of a block scalar. -/
inductive Chomping
  | strip
  | clip
  | keep
deriving DecidableEq

/-- The ends of empty lines, the furthest column of a line among them or of the next one, and what
follows the indentation of that. An indentation of zero is not known yet. -/
def emptyLines? (indent widest : Nat) (breaks : List Char) :
    Text → Option (Nat × List Char × Text)
  | [] => none
  | (c, p) :: rest =>
    let inIndent := indent = 0 || p.column < indent
    if inIndent && c = ' ' then emptyLines? indent widest breaks rest
    else if inIndent && c = '\t' then none
    else if isBreak c then emptyLines? indent (max widest p.column) (c :: breaks) rest
    else some (max widest p.column, breaks.reverse, (c, p) :: rest)

/-- The lines of a block scalar that have its indentation. `ended` is the end of the last line, `empty`
the ends of the empty lines after it, and `deeper` tells whether that line starts with a blank. -/
def blockLines? (literal : Bool) (chomping : Chomping) (indent : Nat) :
    Nat → List Char → List Char → List Char → Bool → Text → Option (List Char × Text)
  | 0, _, _, _, _, _ => none
  | n + 1, done, ended, empty, deeper, t =>
    if t.place.column = indent && t.peek ≠ endMark then do
      let startsBlank := isWhite t.peek
      let folds := !literal && ended = ['\n'] && !deeper && !startsBlank
      let joint := if folds then (if empty.isEmpty then [' '] else []) else ended
      let (line, rest) := t.restOfLine
      let ended := if isBreak rest.peek then [rest.peek] else []
      let (_, empty', rest) ← emptyLines? indent 0 [] (rest.drop ended.length)
      blockLines? literal chomping indent n (done ++ joint ++ empty ++ line) ended empty' startsBlank
        rest
    else
      let tail := match chomping with
        | .strip => []
        | .clip => ended
        | .keep => ended ++ empty
      some (done ++ tail, t)

/-- The two marks after the sign of a block scalar, in either order: what becomes of its end, and its
indentation. -/
def blockHeader? (t : Text) : Option (Chomping × Nat × Text) := do
  let (chomping, t) := chompingMark t
  let (digit, t) ← digitMark? t
  match chomping with
  | some c => return (c, digit, t)
  | none =>
    if digit = 0 then return (.clip, digit, t)
    let (chomping, t) := chompingMark t
    return (chomping.getD .clip, digit, t)
where
  chompingMark (t : Text) : Option Chomping × Text :=
    if t.peek = '+' then (some .keep, t.drop 1)
    else if t.peek = '-' then (some .strip, t.drop 1)
    else (none, t)
  digitMark? (t : Text) : Option (Nat × Text) :=
    if t.peek = '0' then none
    else if '1' ≤ t.peek && t.peek ≤ '9' then some (t.peek.toNat - 48, t.drop 1)
    else some (0, t)

/-- A block scalar after its sign, inside a node of an indentation. -/
def block? (literal : Bool) (outer : Int) (t : Text) : Option (List Char × Text) := do
  let (chomping, increment, t) ← blockHeader? t
  let t ← t.afterComment?
  let given := if increment = 0 then 0 else outer.toNat + increment
  let (widest, empty, t) ← emptyLines? given 0 [] t
  let indent := if given = 0 then max widest (max (outer + 1).toNat 1) else given
  blockLines? literal chomping indent (t.length + 1) [] [] empty false t

end OpenQasm.Yaml
