import OpenQasm.Bound
import OpenQasm.Decimal
import OpenQasm.Digits

/-!
JSON documents: reading and two ways of writing. Whole numbers and numbers with a point or an
exponent stay apart. A document may hold what follows the grammar but stands for no value, as long as
nobody asks for it.
-/
namespace OpenQasm

inductive Json
  | null
  | bool (b : Bool)
  | int (n : Int)
  | float (x : Float)
  | string (s : String)
  | array (items : List Json)
  | object (fields : List (String × Json))
  /-- A number beyond all doubles, a string with half of a pair of surrogates, or an object with such a
  name. -/
  | unreadable
deriving Inhabited

namespace Json

/-- What a name stands for in an object; the last of several fields counts. -/
def field? (name : String) : Json → Option Json
  | object fields => (fields.reverse.find? (·.1 = name)).map (·.2)
  | _ => none

def string? : Json → Option String
  | string s => some s
  | _ => none

def array? : Json → Option (List Json)
  | array items => some items
  | _ => none

/-- A variant that carries something. -/
def variant (name : String) (v : Json) : Json := object [(name, v)]

def isSpace (c : Char) : Bool := c = ' ' || c = '\t' || c = '\n' || c = '\r'

def skipSpace (cs : List Char) : List Char := cs.dropWhile isSpace

/-- Four hexadecimal digits. -/
def hexUnit? : List Char → Option (Nat × List Char)
  | a :: b :: c :: d :: cs => (Digits.value? 16 [a, b, c, d]).map (·, cs)
  | _ => none

/-- The character after `\u`, or none for half of a pair of surrogates. -/
def unicodeEscape? (cs : List Char) : Option (Option Char × List Char) := do
  let (u, rest) ← hexUnit? cs
  if 0xD800 ≤ u && u < 0xDC00 then
    match lowHalf? rest with
    | some (v, rest) => return (some (Char.ofNat (0x10000 + (u - 0xD800) * 0x400 + v)), rest)
    | none => return (none, rest)
  else if 0xDC00 ≤ u && u < 0xE000 then return (none, rest)
  else return (some (Char.ofNat u), rest)
where
  lowHalf? : List Char → Option (Nat × List Char)
    | '\\' :: 'u' :: cs => do
      let (v, rest) ← hexUnit? cs
      if 0xDC00 ≤ v && v < 0xE000 then some (v - 0xDC00, rest) else none
    | _ => none

def escaped? : Char → Option Char
  | '"' => some '"'
  | '\\' => some '\\'
  | '/' => some '/'
  | 'b' => some '\x08'
  | 'f' => some '\x0c'
  | 'n' => some '\n'
  | 'r' => some '\r'
  | 't' => some '\t'
  | _ => none

/-- The characters of a string after its opening quote, in reverse. -/
def stringBody? : Nat → List (Option Char) → List Char → Option (List (Option Char) × List Char)
  | 0, _, _ => none
  | n + 1, done, cs =>
    match cs with
    | '"' :: rest => some (done, rest)
    | '\\' :: 'u' :: rest =>
      match unicodeEscape? rest with
      | some (c, rest) => stringBody? n (c :: done) rest
      | none => none
    | '\\' :: e :: rest =>
      match escaped? e with
      | some c => stringBody? n (some c :: done) rest
      | none => none
    | c :: rest => if c.toNat < 0x20 then none else stringBody? n (some c :: done) rest
    | [] => none

/-- A string after its opening quote, and the rest. A string with half of a pair is no text. -/
def string?At (cs : List Char) : Option (Option String × List Char) :=
  (stringBody? (cs.length + 1) [] cs).map fun (done, rest) =>
    ((done.reverse.mapM id).map String.ofList, rest)

/-- Takes digits as long as the number stays below two to the 64th, and tells how many it took. -/
def takeDigits (n : Nat) : List Char → Nat × Nat
  | [] => (n, 0)
  | c :: cs =>
    let m := 10 * n + (c.toNat - 48)
    if m < Bound.literal then
      let (m, count) := takeDigits m cs
      (m, count + 1)
    else (n, 0)

def tenPow (n : Nat) : Float := Decimal.toFloat ⟨1, n⟩

/-- A number times a power of ten. The power is rounded first, so that the last digit of a long or a very
small number may be off. -/
def scaled (n : Nat) (scale : Int) : Float :=
  let x := n.toUInt64.toFloat
  if n = 0 then x
  else if scale > 308 then 1.0 / 0.0
  else if scale ≥ 0 then x * tenPow scale.toNat
  else if scale ≥ -308 then x / tenPow (-scale).toNat
  else if scale ≥ -616 then x / tenPow 308 / tenPow (-scale - 308).toNat
  else 0.0

/-- A number whose sign has been read. It is whole if it has neither a point nor an exponent and fits
into 64 bits. -/
def unsigned? (negative : Bool) (cs : List Char) : Option (Json × List Char) :=
  let whole := cs.takeWhile Decimal.isDigit
  let tail := cs.drop whole.length
  if whole = [] || (whole.length > 1 && whole.head? = some '0') then none
  else
    let (pointed, fraction, tail) := match tail with
      | '.' :: r => (true, r.takeWhile Decimal.isDigit, r.dropWhile Decimal.isDigit)
      | r => (false, [], r)
    if pointed && fraction = [] then none
    else
      let startsExponent := match tail with
        | c :: _ => c = 'e' || c = 'E'
        | [] => false
      let (n, taken) := takeDigits 0 whole
      let (m, takenAfter) := takeDigits n fraction
      let scale : Int := whole.length - taken - takenAfter
      match Decimal.exponentPart tail with
      | some (e, length) => float (scaled m (scale + e)) (tail.drop length)
      | none =>
        if startsExponent then none
        else if pointed || taken < whole.length || (negative && (n = 0 || n > Bound.integer)) then
          float (scaled m scale) tail
        else some (.int (if negative then -n else n), tail)
where
  float (x : Float) (rest : List Char) : Option (Json × List Char) :=
    some (if x.isInf then .unreadable else .float (if negative then -x else x), rest)

/-- An object of fields whose names have been read. -/
def ofFields (fields : List (Option String × Json)) : Json :=
  match fields.mapM fun (name?, v) => name?.map (·, v) with
  | some fields => .object fields
  | none => .unreadable

mutual

/-- A document at the head of a text, and the rest. -/
def value? : Nat → List Char → Option (Json × List Char)
  | 0, _ => none
  | n + 1, cs =>
    match skipSpace cs with
    | 'n' :: 'u' :: 'l' :: 'l' :: rest => some (.null, rest)
    | 't' :: 'r' :: 'u' :: 'e' :: rest => some (.bool true, rest)
    | 'f' :: 'a' :: 'l' :: 's' :: 'e' :: rest => some (.bool false, rest)
    | '"' :: rest =>
      (string?At rest).map fun (s?, rest) => ((s?.map .string).getD .unreadable, rest)
    | '[' :: rest =>
      match skipSpace rest with
      | ']' :: rest => some (.array [], rest)
      | rest => (items? n rest).map fun (items, rest) => (.array items, rest)
    | '{' :: rest =>
      match skipSpace rest with
      | '}' :: rest => some (.object [], rest)
      | rest => (fields? n rest).map fun (fields, rest) => (ofFields fields, rest)
    | '-' :: rest => unsigned? true rest
    | rest => unsigned? false rest

def items? : Nat → List Char → Option (List Json × List Char)
  | 0, _ => none
  | n + 1, cs =>
    match value? n cs with
    | none => none
    | some (v, rest) =>
      match skipSpace rest with
      | ',' :: rest => (items? n rest).map fun (vs, rest) => (v :: vs, rest)
      | ']' :: rest => some ([v], rest)
      | _ => none

def fields? : Nat → List Char → Option (List (Option String × Json) × List Char)
  | 0, _ => none
  | n + 1, cs =>
    match skipSpace cs with
    | '"' :: rest =>
      match string?At rest with
      | none => none
      | some (name, rest) =>
        match skipSpace rest with
        | ':' :: rest =>
          match value? n rest with
          | none => none
          | some (v, rest) =>
            match skipSpace rest with
            | ',' :: rest => (fields? n rest).map fun (fs, rest) => ((name, v) :: fs, rest)
            | '}' :: rest => some ([(name, v)], rest)
            | _ => none
        | _ => none
    | _ => none

end

/-- Reads a document that covers the whole text. -/
def read? (text : String) : Option Json :=
  let cs := text.toList
  match value? (2 * cs.length + 2) cs with
  | some (v, rest) => if skipSpace rest = [] then some v else none
  | none => none

def hexChar (n : Nat) : Char := (Nat.toDigits 16 n).headD '0'

/-- A character inside a written string. -/
def escaped (c : Char) : List Char :=
  match c with
  | '"' => ['\\', '"']
  | '\\' => ['\\', '\\']
  | '\n' => ['\\', 'n']
  | '\r' => ['\\', 'r']
  | '\t' => ['\\', 't']
  | '\x08' => ['\\', 'b']
  | '\x0c' => ['\\', 'f']
  | c =>
    if c.toNat < 0x20 then
      ['\\', 'u', '0', '0', hexChar (c.toNat / 16), hexChar (c.toNat % 16)]
    else [c]

def quoted (s : String) : String := "\"" ++ String.ofList (s.toList.flatMap escaped) ++ "\""

def numberText (x : Float) : String :=
  if x.isNaN || x.isInf then "null" else Decimal.literal x

mutual

/-- The document on one line without blanks. -/
def compact : Json → String
  | null | unreadable => "null"
  | bool true => "true"
  | bool false => "false"
  | int n => toString n
  | float x => numberText x
  | string s => quoted s
  | array items => "[" ++ ",".intercalate (compactItems items) ++ "]"
  | object fields => "\x7b" ++ ",".intercalate (compactFields fields) ++ "\x7d"

def compactItems : List Json → List String
  | [] => []
  | v :: vs => v.compact :: compactItems vs

def compactFields : List (String × Json) → List String
  | [] => []
  | (name, v) :: fs => (quoted name ++ ":" ++ v.compact) :: compactFields fs

end

/-- A new line at a depth of nesting. -/
def newline (depth : Nat) : String := "\n" ++ String.ofList (List.replicate (2 * depth) ' ')

mutual

/-- The document over several lines, each level indented by two blanks. -/
def prettyAt (depth : Nat) : Json → String
  | null | unreadable => "null"
  | bool true => "true"
  | bool false => "false"
  | int n => toString n
  | float x => numberText x
  | string s => quoted s
  | array [] => "[]"
  | array items => "[" ++ ",".intercalate (prettyItems (depth + 1) items) ++ newline depth ++ "]"
  | object [] => "\x7b\x7d"
  | object fields =>
    "\x7b" ++ ",".intercalate (prettyFields (depth + 1) fields) ++ newline depth ++ "\x7d"

def prettyItems (depth : Nat) : List Json → List String
  | [] => []
  | v :: vs => (newline depth ++ v.prettyAt depth) :: prettyItems depth vs

def prettyFields (depth : Nat) : List (String × Json) → List String
  | [] => []
  | (name, v) :: fs =>
    (newline depth ++ quoted name ++ ": " ++ v.prettyAt depth) :: prettyFields depth fs

end

def pretty (v : Json) : String := v.prettyAt 0

end Json
end OpenQasm
