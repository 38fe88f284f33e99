/-!
The characters of a YAML document with their places. Line ends are unified to a line feed, apart from
the two separators of Unicode. A NUL, which no document holds, marks the end.
-/
namespace OpenQasm.Yaml

/-- Lines and columns count characters from zero. -/
structure Place where
  line : Nat
  column : Nat

/-- A part of a document that runs to its end. -/
abbrev Text := List (Char × Place)

def endMark : Char := '\x00'

/-- The mark of the order of bytes, which may stand before a document. -/
def byteOrderMark : Char := '\ufeff'

def isWhite (c : Char) : Bool := c = ' ' || c = '\t'

def isBreak (c : Char) : Bool := c = '\n' || c = '\u2028' || c = '\u2029'

/-- Whether a word ends before a character. -/
def endsWord (c : Char) : Bool := isWhite c || isBreak c || c = endMark

/-- Letters and digits, underscore and hyphen. -/
def isWordChar (c : Char) : Bool := c.isAlphanum || c = '_' || c = '-'

/-- Control characters are not allowed, but for the tab and the ends of lines. -/
def isAllowed (c : Char) : Bool :=
  let n := c.toNat
  n = 9 || n = 10 || (0x20 ≤ n && n ≤ 0x7E) || (0xA0 ≤ n && n ≤ 0xFFFD) || 0x10000 ≤ n

namespace Place

def next (p : Place) : Place := { p with column := p.column + 1 }

def nextLine (p : Place) : Place := ⟨p.line + 1, 0⟩

end Place

namespace Text

/-- The characters from a place on, if all are allowed. -/
def ofChars? (p : Place) : List Char → Option Text
  | [] => some [(endMark, p)]
  | '\r' :: '\n' :: cs => (ofChars? p.nextLine cs).map (('\n', p) :: ·)
  | c :: cs =>
    if c = '\r' || c = '\x85' then (ofChars? p.nextLine cs).map (('\n', p) :: ·)
    else if isBreak c then (ofChars? p.nextLine cs).map ((c, p) :: ·)
    else if isAllowed c then (ofChars? p.next cs).map ((c, p) :: ·)
    else none

def ofString? (text : String) : Option Text := ofChars? ⟨0, 0⟩ text.toList

def peek : Text → Char
  | (c, _) :: _ => c
  | [] => endMark

def place : Text → Place
  | (_, p) :: _ => p
  | [] => ⟨0, 0⟩

/-- The characters of a class at the head, and the rest. -/
def span (inClass : Char → Bool) (t : Text) : List Char × Text :=
  ((t.takeWhile (inClass ·.1)).map (·.1), t.dropWhile (inClass ·.1))

def skip (inClass : Char → Bool) (t : Text) : Text := t.dropWhile (inClass ·.1)

/-- Whether a line starts with three times the character and nothing else in the word. -/
def startsMark (m : Char) : Text → Bool
  | (a, p) :: (b, _) :: (c, _) :: rest =>
    p.column = 0 && a = m && b = m && c = m && endsWord (peek rest)
  | _ => false

/-- Whether a line starts with a mark between documents. -/
def startsDocumentMark (t : Text) : Bool := t.startsMark '-' || t.startsMark '.'

/-- The rest of a line, and what follows from its end on. -/
def restOfLine (t : Text) : List Char × Text := t.span fun c => !isBreak c && c ≠ endMark

/-- What follows a line that holds at most a comment from here on, its end included. -/
def afterComment? (t : Text) : Option Text :=
  let t := t.skip isWhite
  let t := if peek t = '#' then (restOfLine t).2 else t
  if isBreak (peek t) then some (t.drop 1) else if peek t = endMark then some t else none

end Text

end OpenQasm.Yaml
