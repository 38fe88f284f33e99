import OpenQasm.Config
import OpenQasm.Yaml.Document

/-!
Settings from documents. A document names the settings it changes; names that are no settings are
passed over. No setting may be given twice.
-/
namespace OpenQasm.Config

/-- How the values of settings are read from the nodes of a kind of document. -/
structure Format (N : Type) where
  /-- One of several words. -/
  word? : N → Option String
  natural? : Nat → N → Option Nat
  /-- A number that may be left out. -/
  optional? : Nat → N → Option (Option Nat)
  number? : N → Option Float
  names? : N → Option (List String)

def settingNames : List String :=
  ["error_mode", "fatal_severity", "max_loop_iterations", "unitary_tolerance", "external_gates",
    "device_qubits"]

variable {N : Type} (f : Format N)

/-- Changes one setting. -/
def set? (c : Config) (name : String) (v : N) : Option Config :=
  match name with
  | "error_mode" => do return { c with errorMode := ← (f.word? v).bind ErrorMode.ofText? }
  | "fatal_severity" => do return { c with fatalSeverity := ← (f.word? v).bind Severity.ofText? }
  | "max_loop_iterations" => do return { c with maxLoopIterations := ← f.natural? countBound v }
  | "unitary_tolerance" => do return { c with unitaryTolerance := ← f.number? v }
  | "external_gates" => do return { c with externalGates := ← f.names? v }
  | "device_qubits" => do return { c with deviceQubits := ← f.optional? qubitBound v }
  | _ => some c

/-- Changes the settings of a list of fields; `done` names those that were given before. -/
def setAll? (done : List String) (c : Config) : List (String × N) → Option Config
  | [] => some c
  | (name, v) :: rest =>
    if settingNames.contains name then
      if done.contains name then none
      else (set? f c name v).bind fun c => setAll? (name :: done) c rest
    else setAll? done c rest

def ofFields? (fields : List (String × N)) : Option Config := setAll? f [] default fields

/-- Settings in their fixed order; the last ones may be missing. -/
def ofItems? (items : List N) : Option Config :=
  if items.length ≤ settingNames.length then ofFields? f (settingNames.zip items) else none

def jsonNatural? (bound : Nat) : Json → Option Nat
  | .int n => if 0 ≤ n ∧ n < bound then some n.toNat else none
  | _ => none

def jsonFormat : Format Json where
  word?
    | .string s => some s
    | .object [(s, .null)] => some s
    | _ => none
  natural? := jsonNatural?
  optional? bound
    | .null => some none
    | v => (jsonNatural? bound v).map some
  number?
    | .int n => Decimal.read? (toString n)
    | .float x => if x.isFinite then some x else none
    | _ => none
  names?
    | .array items => items.mapM Json.string?
    | _ => none

/-- Reads settings that are named or listed. -/
def ofJson? (text : String) : Option Config :=
  match Json.read? text with
  | some (.object fields) => ofFields? jsonFormat fields
  | some (.array items) => ofItems? jsonFormat items
  | _ => none

def natOfBase? (base : Nat) (cs : List Char) : Option Nat :=
  if cs.isEmpty then none else Digits.value? base cs

/-- A plain natural number: decimal without needless zeros, or with a letter for the base. -/
def yamlNatural? (s : String) : Option Nat :=
  let cs := match s.toList with
    | '+' :: cs => cs
    | cs => cs
  match cs with
  | '0' :: 'x' :: ds => natOfBase? 16 ds
  | '0' :: 'o' :: ds => natOfBase? 8 ds
  | '0' :: 'b' :: ds => natOfBase? 2 ds
  | '0' :: _ :: _ => none
  | cs => natOfBase? 10 cs

/-- A plain number; infinity and NaN are written with a point in front. -/
def yamlNumber? (s : String) : Option Float :=
  if [".inf", ".Inf", ".INF", "+.inf", "+.Inf", "+.INF"].contains s then some (1.0 / 0.0)
  else if ["-.inf", "-.Inf", "-.INF"].contains s then some (-1.0 / 0.0)
  else if [".nan", ".NaN", ".NAN"].contains s then some (0.0 / 0.0)
  else (Decimal.read? s).filter Float.isFinite

/-- The tag of one of the standard types. -/
def standardTag (type : String) : Option String := some ("tag:yaml.org,2002:" ++ type)

/-- The text of any scalar. -/
def yamlText? (root v : Yaml) : Option String :=
  match root.resolve v with
  | .scalar _ _ _ s => some s
  | _ => none

/-- A word is a scalar, or a tag of the document's own before nothing. -/
def yamlWord? (root v : Yaml) : Option String :=
  match root.resolve v with
  | .scalar _ tag style s =>
    match (tag.getD "").toList with
    | '!' :: name =>
      if style = .plain ∧ (s = "" ∨ s ∈ Yaml.nullWords) then
        some (if name.isEmpty then "!" else String.ofList name)
      else none
    | _ => some s
  | _ => none

/-- The text of a number of a standard type. Only a tag makes a literal scalar one. -/
def yamlNumeral? (type : String) (root v : Yaml) : Option String :=
  match root.resolve v with
  | .scalar _ tag style s =>
    if style = .plain ∨ (style = .literal ∧ tag = standardTag type) then some s else none
  | _ => none

def yamlNaturalOf? (root : Yaml) (bound : Nat) (v : Yaml) : Option Nat :=
  ((yamlNumeral? "int" root v).bind yamlNatural?).filter (· < bound)

/-- Nothing is a plain word for it, or left out. -/
def yamlOptional? (root : Yaml) (bound : Nat) (v : Yaml) : Option (Option Nat) :=
  let present := (yamlNaturalOf? root bound v).map some
  match root.resolve v with
  | .scalar _ tag .plain s =>
    if tag = standardTag "null" then if s ∈ Yaml.nullWords then some none else none
    else if tag = none ∧ (s = "" ∨ s ∈ Yaml.nullWords) then some none
    else present
  | _ => present

/-- The items of a list of texts, which may be left out. -/
def yamlTexts? (root v : Yaml) : Option (List String) :=
  match root.resolve v with
  | .list _ items => items.mapM (yamlText? root)
  | .scalar _ _ .plain "" => some []
  | _ => none

def yamlFormat (root : Yaml) : Format Yaml where
  word? := yamlWord? root
  natural? := yamlNaturalOf? root
  optional? := yamlOptional? root
  number? v := (yamlNumeral? "float" root v).bind yamlNumber?
  names? := yamlTexts? root

/-- Reads settings that are named by scalars. -/
def ofYaml? (text : String) : Option Config := do
  let root ← Yaml.read? text
  match root with
  | .mapping _ fields =>
    ofFields? (yamlFormat root)
      (← fields.mapM fun (key, v) => do return (← yamlText? root key, v))
  | .scalar _ _ .plain "" => some default
  | _ => none

end OpenQasm.Config
