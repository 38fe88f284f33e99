/-!
Positions in a source text. An offset counts bytes of the UTF-8 form; lines and columns count from
one, and a column counts bytes as an offset does.
-/
namespace OpenQasm

/-- Where something starts in a source text. -/
structure Span where
  line : Nat
  column : Nat
deriving DecidableEq, Repr, Inhabited

namespace Span

/-- The position of things that no source text holds. -/
def none : Span := ⟨0, 0⟩

def text (s : Span) : String := toString s.line ++ ":" ++ toString s.column

end Span

/-- The number of bytes of a list of characters. -/
def byteLength : List Char → Nat
  | [] => 0
  | c :: cs => c.utf8Size + byteLength cs

/-- The offsets at which the lines after the first one start, the first character of `cs` being at
`offset`. -/
def laterLines : Nat → List Char → List Nat
  | _, [] => []
  | offset, c :: cs =>
    let next := offset + c.utf8Size
    if c = '\n' then next :: laterLines next cs else laterLines next cs

/-- A text with the offsets at which its lines after the first one start. -/
structure Source where
  chars : List Char
  laterStarts : List Nat

namespace Source

def ofString (text : String) : Source :=
  let chars := text.toList
  ⟨chars, laterLines 0 chars⟩

/-- The position of an offset in the last of the lines that start at or before it. Line `line` starts
at `start`, and `later` are the starts of the lines after it. -/
def spanFrom (offset line start : Nat) : List Nat → Span
  | [] => ⟨line, offset - start + 1⟩
  | next :: later =>
    if next ≤ offset then spanFrom offset (line + 1) next later else ⟨line, offset - start + 1⟩

def spanAt (s : Source) (offset : Nat) : Span := spanFrom offset 1 0 s.laterStarts

/-- The characters from an offset on. -/
def dropBytes : Nat → List Char → List Char
  | _, [] => []
  | n, c :: cs => if n = 0 then c :: cs else dropBytes (n - c.utf8Size) cs

/-- The rest of the line that the offset stands in. -/
def lineRest (s : Source) (offset : Nat) : List Char :=
  (dropBytes offset s.chars).takeWhile (· ≠ '\n')

/-- The length of the text in bytes. -/
def size (s : Source) : Nat := byteLength s.chars

end Source

/-- Characters of the class White_Space, which trimming removes. -/
def isBlank (c : Char) : Bool :=
  let n := c.toNat
  (9 ≤ n && n ≤ 13) || n = 0x20 || n = 0x85 || n = 0xA0 || n = 0x1680 ||
    (0x2000 ≤ n && n ≤ 0x200A) || n = 0x2028 || n = 0x2029 || n = 0x202F || n = 0x205F || n = 0x3000

/-- The text without the blanks at its two ends. -/
def trimBlanks (cs : List Char) : List Char :=
  ((cs.dropWhile isBlank).reverse.dropWhile isBlank).reverse

end OpenQasm
