import OpenQasm.Yaml.Scalar
import OpenQasm.Yaml.Token

/-!
Splitting a YAML document into tokens. A mapping is known to start only when the colon after its first
key is read, so that the places where a key may have started are kept in mind, one for each level of
brackets, and tokens are put in there later.
-/
namespace OpenQasm.Yaml

/-- A place where a key may have started. In a block, what starts at its indentation has to be one. -/
structure PossibleKey where
  required : Bool
  /-- How many tokens stand before it. -/
  index : Nat
  place : Place

/-- Whether a key that starts at a place cannot reach another one: it stays on its line, and within 1024
characters. -/
def PossibleKey.isStale (k : PossibleKey) (p : Place) : Bool :=
  k.place.line < p.line || k.place.column + 1024 < p.column

structure Scanner where
  rest : Text
  tokens : Array Token
  /-- The indentation of the block, less than zero outside of all blocks. -/
  indent : Int
  /-- The indentations around it, the next one first. -/
  outerIndents : List Int
  key : Option PossibleKey
  /-- The possible keys outside of brackets, the next ones first. -/
  outerKeys : List (Option PossibleKey)
  /-- Whether a key may start here. -/
  keyAllowed : Bool

namespace Scanner

def start (t : Text) : Scanner := ⟨t, #[], -1, [], none, [], true⟩

def inBrackets (s : Scanner) : Bool := !s.outerKeys.isEmpty

def column (s : Scanner) : Nat := s.rest.place.column

/-- Goes on to another text after a token. -/
def push (s : Scanner) (t : Token) (rest : Text) : Scanner :=
  { s with tokens := s.tokens.push t, rest }

/-- Skips blanks, comments and the ends of lines. A new line allows keys in blocks. Tabs are blanks
where no key may start, and in brackets. -/
def afterGap (brackets allowed comment : Bool) : Text → Bool × Text
  | [] => (allowed, [])
  | (c, p) :: rest =>
    if isBreak c then afterGap brackets (allowed || !brackets) false rest
    else if c = endMark then (allowed, (c, p) :: rest)
    else if comment || c = '#' then afterGap brackets allowed true rest
    else if c = ' ' || (c = '\t' && (brackets || !allowed)) then afterGap brackets allowed false rest
    else if c = byteOrderMark && p.line = 0 && p.column = 0 then
      afterGap brackets allowed false rest
    else (allowed, (c, p) :: rest)

def skipGap (s : Scanner) : Scanner :=
  let (keyAllowed, rest) := afterGap s.inBrackets s.keyAllowed false s.rest
  { s with keyAllowed, rest }

/-- Closes the blocks that are indented more than to a column. -/
def closeFrom (column indent : Int) (tokens : Array Token) : List Int → Int × List Int × Array Token
  | [] => (indent, [], tokens)
  | outer :: more =>
    if indent > column then closeFrom column outer (tokens.push .blockEnd) more
    else (indent, outer :: more, tokens)

def closeTo (column : Int) (s : Scanner) : Scanner :=
  if s.inBrackets then s
  else
    let (indent, outerIndents, tokens) := closeFrom column s.indent s.tokens s.outerIndents
    { s with indent, outerIndents, tokens }

/-- Opens a block at a column unless one is open there; its token has `index` tokens before it. -/
def openAt (column index : Nat) (t : Token) (s : Scanner) : Scanner :=
  if !s.inBrackets && s.indent < column then
    { s with
      indent := column
      outerIndents := s.indent :: s.outerIndents
      tokens := s.tokens.insertIdxIfInBounds index t }
  else s

/-- Opens a block here; a new part of it has to be allowed. -/
def openHere? (t : Token) (s : Scanner) : Option Scanner :=
  if s.inBrackets then some s
  else if s.keyAllowed then some (s.openAt s.column s.tokens.size t)
  else none

/-- Gives up the possible key, which must not be required. -/
def dropKey? (s : Scanner) : Option Scanner :=
  match s.key with
  | some k => if k.required then none else some { s with key := none }
  | none => some s

/-- Keeps in mind that a key may start here. -/
def saveKey? (s : Scanner) : Option Scanner :=
  if s.keyAllowed then do
    let required := !s.inBrackets && s.indent = s.column
    return { ← s.dropKey? with key := some ⟨required, s.tokens.size, s.rest.place⟩ }
  else some s

/-- Gives up the possible keys that cannot reach here. -/
def dropStaleKeys? (s : Scanner) : Option Scanner := do
  return { s with key := ← kept? s.key, outerKeys := ← s.outerKeys.mapM kept? }
where
  kept? : Option PossibleKey → Option (Option PossibleKey)
    | some k =>
      if !k.isStale s.rest.place then some (some k) else if k.required then none else some none
    | none => some none

/-- Three characters between documents. -/
def documentMark? (t : Token) (s : Scanner) : Option Scanner := do
  let s ← (s.closeTo (-1)).dropKey?
  return { s.push t (s.rest.drop 3) with keyAllowed := false }

def openBracket? (t : Token) (s : Scanner) : Option Scanner := do
  let s ← s.saveKey?
  return { s.push t (s.rest.drop 1) with
    key := none, outerKeys := s.key :: s.outerKeys, keyAllowed := true }

def closeBracket? (t : Token) (s : Scanner) : Option Scanner := do
  let s ← s.dropKey?
  let s := match s.outerKeys with
    | key :: outerKeys => { s with key, outerKeys }
    | [] => s
  return { s.push t (s.rest.drop 1) with keyAllowed := false }

def comma? (s : Scanner) : Option Scanner := do
  let s ← s.dropKey?
  return { s.push .comma (s.rest.drop 1) with keyAllowed := true }

def item? (s : Scanner) : Option Scanner := do
  let s ← (← s.openHere? .blockListStart).dropKey?
  return { s.push .item (s.rest.drop 1) with keyAllowed := true }

/-- A key that is marked as one. -/
def key? (s : Scanner) : Option Scanner := do
  let s ← (← s.openHere? .blockMappingStart).dropKey?
  return { s.push .key (s.rest.drop 1) with keyAllowed := !s.inBrackets }

/-- A value; what may have been its key was one. -/
def value? (s : Scanner) : Option Scanner := do
  let rest := s.rest.drop 1
  match s.key with
  | some k =>
    let s := { s with tokens := s.tokens.insertIdxIfInBounds k.index .key }
    let s := s.openAt k.place.column k.index .blockMappingStart
    return { s.push .value rest with key := none, keyAllowed := false }
  | none =>
    let s ← s.openHere? .blockMappingStart
    return { s.push .value rest with keyAllowed := !s.inBrackets }

/-- A name that starts here, after its sign; a gap or one of some other characters ends it. -/
def name? (token : String → Token) (s : Scanner) : Option Scanner := do
  let s ← s.saveKey?
  let (name, rest) := Text.span isWordChar (s.rest.drop 1)
  if name.isEmpty || !(endsWord rest.peek || "?:,]\x7d%@`".toList.contains rest.peek) then none
  else return { s.push (token (String.ofList name)) rest with keyAllowed := false }

def isUriChar (brackets : Bool) (c : Char) : Bool :=
  isWordChar c || ";/?:@&=+$.!~*'()".toList.contains c || (brackets && ",[]".toList.contains c)

/-- A byte that is written as a percent sign and two digits. -/
def octet? : Text → Option (Nat × Text)
  | ('%', _) :: (a, _) :: (b, _) :: rest => do return (16 * (← Digits.digit? a) + (← Digits.digit? b), rest)
  | _ => none

/-- The later bytes of a character. -/
def laterOctets? : Nat → Nat → Text → Option (Nat × Text)
  | 0, n, t => some (n, t)
  | count + 1, n, t => do
    let (byte, t) ← octet? t
    if byte / 64 = 2 then laterOctets? count (64 * n + byte % 64) t else none

/-- A character whose bytes in UTF-8 are written with percent signs. -/
def octets? (t : Text) : Option (Char × Text) := do
  let (byte, t) ← octet? t
  let (n, t) ←
    if byte < 0x80 then some (byte, t)
    else if byte < 0xC0 then none
    else if byte < 0xE0 then laterOctets? 1 (byte - 0xC0) t
    else if byte < 0xF0 then laterOctets? 2 (byte - 0xE0) t
    else if byte < 0xF8 then laterOctets? 3 (byte - 0xF0) t
    else none
  return (Char.ofNat n, t)

/-- The part of a tag that is written like the address of a resource. -/
def uri? (brackets : Bool) : Nat → List Char → Text → Option (List Char × Text)
  | 0, _, _ => none
  | n + 1, done, t =>
    if t.peek = '%' then do
      let (c, t) ← octets? t
      uri? brackets n (c :: done) t
    else if isUriChar brackets t.peek then uri? brackets n (t.peek :: done) (t.drop 1)
    else some (done.reverse, t)

/-- A tag from its exclamation mark on: its handle and its suffix. A tag that is only the mark has no
handle. -/
def tagParts? (t : Text) : Option (String × String × Text) := do
  if Text.peek (t.drop 1) = '<' then
    let (suffix, rest) ← uri? true t.length [] (t.drop 2)
    if suffix.isEmpty || rest.peek ≠ '>' then none
    else return ("", String.ofList suffix, rest.drop 1)
  else
    let (word, rest) := Text.span isWordChar (t.drop 1)
    if rest.peek = '!' then
      let (suffix, rest) ← uri? false t.length [] (rest.drop 1)
      if suffix.isEmpty then none
      else return ("!" ++ String.ofList word ++ "!", String.ofList suffix, rest)
    else
      let (suffix, rest) ← uri? false t.length word.reverse rest
      if suffix.isEmpty then return ("", "!", rest) else return ("!", String.ofList suffix, rest)

def tag? (s : Scanner) : Option Scanner := do
  let s ← s.saveKey?
  let (handle, suffix, rest) ← tagParts? s.rest
  if endsWord rest.peek || (s.inBrackets && rest.peek = ',') then
    return { s.push (.tag handle suffix) rest with keyAllowed := false }
  else none

/-- A part of a version: at most nine digits. -/
def versionNumber? (t : Text) : Option (Nat × Text) :=
  let (digits, rest) := t.span Char.isDigit
  if digits.isEmpty || digits.length > 9 then none
  else some (digits.foldl (fun n c => 10 * n + (c.toNat - 48)) 0, rest)

/-- The handle that a directive gives a meaning to. -/
def directiveHandle? (t : Text) : Option (String × Text) :=
  if t.peek ≠ '!' then none
  else
    let (word, rest) := Text.span isWordChar (t.drop 1)
    if rest.peek = '!' then some ("!" ++ String.ofList word ++ "!", rest.drop 1)
    else if word.isEmpty then some ("!", rest)
    else none

/-- A directive from its percent sign on. -/
def directiveToken? (t : Text) : Option (Token × Text) := do
  let (name, rest) := Text.span isWordChar (t.drop 1)
  if !endsWord rest.peek then none
  else
    match String.ofList name with
    | "YAML" =>
      let (major, rest) ← versionNumber? (rest.skip isWhite)
      if rest.peek ≠ '.' then none
      else
        let (minor, rest) ← versionNumber? (rest.drop 1)
        return (.version major minor, rest)
    | "TAG" =>
      let (handle, rest) ← directiveHandle? (rest.skip isWhite)
      if !isWhite rest.peek then none
      else
        let (replacement, rest) ← uri? true t.length [] (rest.skip isWhite)
        if replacement.isEmpty || !endsWord rest.peek then none
        else return (.tagPrefix handle (String.ofList replacement), rest)
    | _ => none

def directive? (s : Scanner) : Option Scanner := do
  let s ← (s.closeTo (-1)).dropKey?
  let (t, rest) ← directiveToken? s.rest
  return { s.push t (← rest.afterComment?) with keyAllowed := false }

def blockScalar? (literal : Bool) (s : Scanner) : Option Scanner := do
  let s ← s.dropKey?
  let (text, rest) ← block? literal s.indent (s.rest.drop 1)
  let style := if literal then Style.literal else .folded
  return { s.push (.scalar style (String.ofList text)) rest with keyAllowed := true }

def quotedScalar? (single : Bool) (s : Scanner) : Option Scanner := do
  let s ← s.saveKey?
  let (text, rest) ← quoted? single [] .none (s.rest.drop 1)
  let style := if single then Style.singleQuoted else .doubleQuoted
  return { s.push (.scalar style (String.ofList text)) rest with keyAllowed := false }

def plainScalar? (s : Scanner) : Option Scanner := do
  let s ← s.saveKey?
  let (text, keyAllowed, rest) ←
    plain? (s.indent + 1).toNat s.inBrackets [] .none s.rest
  return { s.push (.scalar .plain (String.ofList text)) rest with keyAllowed }

/-- Whether a plain scalar may start with a character before another one. -/
def startsPlain (brackets : Bool) (c next : Char) : Bool :=
  if c = '-' then !isWhite next
  else if c = '?' || c = ':' then !brackets && !endsWord next
  else !endsWord c && !",[]\x7b\x7d#&*!|>'\"%@`".toList.contains c

/-- Reads the token that starts with a character. -/
def token? (c next : Char) (s : Scanner) : Option Scanner :=
  if c = '%' && s.column = 0 then s.directive?
  else if s.rest.startsMark '-' then s.documentMark? .documentStart
  else if s.rest.startsMark '.' then s.documentMark? .documentEnd
  else if c = '[' then s.openBracket? .listStart
  else if c = '{' then s.openBracket? .mappingStart
  else if c = ']' then s.closeBracket? .listEnd
  else if c = '}' then s.closeBracket? .mappingEnd
  else if c = ',' then s.comma?
  else if c = '-' && endsWord next then s.item?
  else if c = '?' && (s.inBrackets || endsWord next) then s.key?
  else if c = ':' && (s.inBrackets || endsWord next) then s.value?
  else if c = '*' then s.name? .reference
  else if c = '&' then s.name? .anchor
  else if c = '!' then s.tag?
  else if c = '|' && !s.inBrackets then s.blockScalar? true
  else if c = '>' && !s.inBrackets then s.blockScalar? false
  else if c = '\'' then s.quotedScalar? true
  else if c = '"' then s.quotedScalar? false
  else if startsPlain s.inBrackets c next then s.plainScalar?
  else none

/-- Reads at most so many tokens up to the end. -/
def tokens? : Nat → Scanner → Option (Array Token)
  | 0, _ => none
  | n + 1, s => do
    let s ← s.skipGap.dropStaleKeys?
    let s := s.closeTo s.column
    match s.rest with
    | (c, _) :: following =>
      if c = endMark then
        let s ← (s.closeTo (-1)).dropKey?
        return s.tokens.push .streamEnd
      else tokens? n (← s.token? c (Text.peek following))
    | [] => none

end Scanner

/-- The tokens of a document. Each takes one character at least. -/
def Token.scan? (text : String) : Option (List Token) := do
  let t ← Text.ofString? text
  return (← (Scanner.start t).tokens? t.length).toList

end OpenQasm.Yaml
