import OpenQasm.Yaml

/-!
The tokens of a YAML document. Blocks, which indentation marks, have tokens at both ends, and the keys
and values of mappings start with tokens of their own.
-/
namespace OpenQasm.Yaml

inductive Token
  | version (major minor : Nat)
  | tagPrefix (handle replacement : String)
  | documentStart
  | documentEnd
  | blockListStart
  | blockMappingStart
  | blockEnd
  | listStart
  | listEnd
  | mappingStart
  | mappingEnd
  | item
  | comma
  | key
  | value
  | reference (name : String)
  | anchor (name : String)
  | tag (handle suffix : String)
  | scalar (style : Style) (text : String)
  | streamEnd
deriving DecidableEq, Repr

end OpenQasm.Yaml
