/-!
The nodes of a YAML document. A node may be anchored under a number; a reference stands for the last
node that is anchored under its number.
-/
namespace OpenQasm

/-- How a scalar is written. -/
inductive Yaml.Style
  | plain
  | singleQuoted
  | doubleQuoted
  | literal
  | folded
deriving DecidableEq, Repr

inductive Yaml
  | scalar (anchor : Option Nat) (tag : Option String) (style : Yaml.Style) (text : String)
  | list (anchor : Option Nat) (items : List Yaml)
  | mapping (anchor : Option Nat) (fields : List (Yaml × Yaml))
  | reference (anchor : Nat)

namespace Yaml

/-- The value of what is left out. -/
def absent : Yaml := scalar none none .plain ""

instance : Inhabited Yaml := ⟨absent⟩

mutual

/-- The last node that is anchored under a number, in the order in which nodes start. -/
def anchored? (number : Nat) : Yaml → Option Yaml
  | scalar a tag style text => if a = some number then some (scalar a tag style text) else none
  | list a items =>
    match anchoredItem? number items with
    | some v => some v
    | none => if a = some number then some (list a items) else none
  | mapping a fields =>
    match anchoredField? number fields with
    | some v => some v
    | none => if a = some number then some (mapping a fields) else none
  | reference _ => none

def anchoredItem? (number : Nat) : List Yaml → Option Yaml
  | [] => none
  | v :: vs => (anchoredItem? number vs).or (anchored? number v)

def anchoredField? (number : Nat) : List (Yaml × Yaml) → Option Yaml
  | [] => none
  | (key, v) :: fs =>
    (anchoredField? number fs).or ((anchored? number v).or (anchored? number key))

end

/-- What a node of the document `root` stands for. -/
def resolve (root : Yaml) : Yaml → Yaml
  | reference number => (root.anchored? number).getD (reference number)
  | v => v

/-- The words for nothing. -/
def nullWords : List String := ["~", "null", "Null", "NULL"]

end Yaml
end OpenQasm
