import OpenQasm.Yaml.Token.Scan

/-!
The node of a YAML document. A text holds one document at most.
-/
namespace OpenQasm.Yaml

/-- The tokens that are left, the meanings of the handles of tags, and the numbers of the names of
anchors. -/
structure Input where
  tokens : List Token
  handles : List (String × String)
  names : List (String × Nat)

abbrev Reading := StateT Input Option

namespace Reading

def peek : Reading Token := do
  match (← get).tokens with
  | t :: _ => return t
  | [] => return .streamEnd

def skip : Reading Unit := modify fun s => { s with tokens := s.tokens.tail }

/-- Skips a token if it is the given one, and tells whether it was. -/
def accept (t : Token) : Reading Bool := do
  if (← peek) = t then
    skip
    return true
  return false

def expect (t : Token) : Reading Unit := do
  if !(← accept t) then failure

/-- The tag that a handle and a suffix stand for. -/
def tagOf (handle suffix : String) : Reading String := do
  if handle.isEmpty then return suffix
  match (← get).handles.lookup handle with
  | some replacement => return replacement ++ suffix
  | none => failure

def tag? : Reading (Option String) := do
  match ← peek with
  | .tag handle suffix =>
    skip
    return some (← tagOf handle suffix)
  | _ => return none

def anchorName? : Reading (Option String) := do
  match ← peek with
  | .anchor name =>
    skip
    return some name
  | _ => return none

/-- What may stand before a node, in either order: the name of its anchor, and its tag. -/
def properties : Reading (Option String × Option String) := do
  match ← anchorName? with
  | some name => return (some name, ← tag?)
  | none =>
    let tag ← tag?
    if tag.isSome then return (← anchorName?, tag) else return (none, none)

/-- Numbers an anchor by how many names there are. -/
def number : Option String → Reading (Option Nat)
  | none => return none
  | some name => do
    let s ← get
    let n := s.names.length
    set { s with names := (name, n) :: s.names.filter (·.1 ≠ name) }
    return some n

/-- What a name refers to has to come before it. -/
def referenceTo (name : String) : Reading Yaml := do
  match (← get).names.lookup name with
  | some n => return .reference n
  | none => failure

/-- A node, or nothing before one of some tokens. -/
def absentBefore (ends : List Token) (node : Reading Yaml) : Reading Yaml := do
  if ends.contains (← peek) then return absent else node

mutual

/-- A node. Blocks may be excluded, and the items of a list may stand without a block for it. -/
def node (blocks bareItems : Bool) : Nat → Reading Yaml
  | 0 => failure
  | n + 1 => do
    match ← peek with
    | .reference name =>
      skip
      referenceTo name
    | _ =>
      let (name, tag) ← properties
      let anchor ← number name
      match ← peek, blocks, bareItems with
      | .item, _, true => return .list anchor (← bareListItems n)
      | .scalar style text, _, _ =>
        skip
        return .scalar anchor (if tag = some "!" then none else tag) style text
      | .listStart, _, _ =>
        skip
        return .list anchor (← listItems true n)
      | .mappingStart, _, _ =>
        skip
        return .mapping anchor (← mappingFields true n)
      | .blockListStart, true, _ =>
        skip
        return .list anchor (← blockItems n)
      | .blockMappingStart, true, _ =>
        skip
        return .mapping anchor (← blockFields n)
      | _, _, _ => if name.isSome || tag.isSome then return .scalar anchor tag .plain "" else failure

/-- The items of a list in a block. -/
def blockItems : Nat → Reading (List Yaml)
  | 0 => failure
  | n + 1 => do
    if ← accept .item then
      let v ← absentBefore [.item, .blockEnd] (node true false n)
      return v :: (← blockItems n)
    expect .blockEnd
    return []

/-- The items of a list that stands in the block of a mapping. -/
def bareListItems : Nat → Reading (List Yaml)
  | 0 => failure
  | n + 1 => do
    if ← accept .item then
      let v ← absentBefore [.item, .key, .value, .blockEnd] (node true false n)
      return v :: (← bareListItems n)
    return []

/-- The fields of a mapping in a block. -/
def blockFields : Nat → Reading (List (Yaml × Yaml))
  | 0 => failure
  | n + 1 => do
    if ← accept .key then
      let key ← absentBefore [.key, .value, .blockEnd] (node true true n)
      let v ← blockValue n
      return (key, v) :: (← blockFields n)
    expect .blockEnd
    return []

def blockValue : Nat → Reading Yaml
  | 0 => failure
  | n + 1 => do
    if ← accept .value then absentBefore [.key, .value, .blockEnd] (node true true n) else return absent

/-- The items of a list in brackets; a comma stands before each but the first. -/
def listItems (first : Bool) : Nat → Reading (List Yaml)
  | 0 => failure
  | n + 1 => do
    if ← accept .listEnd then return []
    if !first then
      expect .comma
      if ← accept .listEnd then return []
    if ← accept .key then
      let v ← pair n
      return v :: (← listItems false n)
    let v ← node false false n
    return v :: (← listItems false n)

/-- A mapping of one field among the items of a list. A key that is left out takes the token after it
along. -/
def pair : Nat → Reading Yaml
  | 0 => failure
  | n + 1 => do
    let key ←
      if [.value, .comma, .listEnd].contains (← peek) then
        skip
        pure absent
      else node false false n
    let v ← if ← accept .value then absentBefore [.comma, .listEnd] (node false false n) else pure absent
    return .mapping none [(key, v)]

/-- The fields of a mapping in brackets. -/
def mappingFields (first : Bool) : Nat → Reading (List (Yaml × Yaml))
  | 0 => failure
  | n + 1 => do
    if ← accept .mappingEnd then return []
    if !first then
      expect .comma
      if ← accept .mappingEnd then return []
    if ← accept .key then
      let key ← absentBefore [.value, .comma, .mappingEnd] (node false false n)
      let v ←
        if ← accept .value then absentBefore [.comma, .mappingEnd] (node false false n) else pure absent
      return (key, v) :: (← mappingFields false n)
    let key ← node false false n
    return (key, absent) :: (← mappingFields false n)

end

/-- The directives before a document: one version at most, and handles for tags, each given once. -/
def directives (versioned : Bool) : Nat → Reading Unit
  | 0 => failure
  | n + 1 => do
    match ← peek with
    | .version major minor =>
      if versioned || major ≠ 1 || (minor ≠ 1 && minor ≠ 2) then failure
      skip
      directives true n
    | .tagPrefix handle replacement =>
      let s ← get
      if (s.handles.lookup handle).isSome then failure
      set { s with handles := (handle, replacement) :: s.handles }
      skip
      directives versioned n
    | _ => return

/-- The handles that every document has unless its directives give them another meaning. -/
def addDefaultHandles : Reading Unit :=
  modify fun s => { s with handles := s.handles ++ [("!", "!"), ("!!", "tag:yaml.org,2002:")] }

/-- The node of a document that a mark starts, after its directives. -/
def markedDocument (n : Nat) : Reading Yaml := do
  directives false n
  addDefaultHandles
  expect .documentStart
  match ← peek with
  | .version _ _ | .tagPrefix _ _ | .documentStart | .documentEnd | .streamEnd => return absent
  | _ => node true false n

def documentEnds : Nat → Reading Unit
  | 0 => failure
  | n + 1 => do if ← accept .documentEnd then documentEnds n

/-- The node of the only document. -/
def document (n : Nat) : Reading Yaml := do
  match ← peek with
  | .streamEnd => return absent
  | .version _ _ | .tagPrefix _ _ | .documentStart =>
    let v ← markedDocument n
    documentEnds n
    expect .streamEnd
    return v
  | _ =>
    addDefaultHandles
    let v ← node true false n
    documentEnds n
    expect .streamEnd
    return v

end Reading

/-- Reads a document; an empty one is the absent value. At most three nested calls go by before a token
is taken. -/
def read? (text : String) : Option Yaml := do
  let tokens ← Token.scan? text
  (Reading.document (4 * tokens.length + 4)).run' ⟨tokens, [], []⟩

end OpenQasm.Yaml
