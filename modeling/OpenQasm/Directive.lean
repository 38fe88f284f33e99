/-!
Comments by which a source file opts out of being processed. Only the lines up to the version line
count.
-/
namespace OpenQasm.Directive

/-- Whether a text occurs in another one. -/
def occursIn (part : List Char) : List Char → Bool
  | [] => part.isEmpty
  | c :: cs => part.isPrefixOf (c :: cs) || occursIn part cs

/-- The comment that switches off every mode. -/
def ignoreAll : List Char := "// qfold: ignore".toList

/-- The comment that switches off one mode. -/
def disable (mode : String) : List Char := ("// qfold disable: " ++ mode).toList

def versionKeyword : List Char := "OPENQASM".toList

/-- The lines of a text, without the line feed that ends them, or the carriage return and the line
feed. -/
def linesOf (cs : List Char) : List (List Char) :=
  match cs with
  | [] => [[]]
  | '\r' :: '\n' :: cs => [] :: linesOf cs
  | '\n' :: cs => [] :: linesOf cs
  | c :: cs =>
    match linesOf cs with
    | line :: lines => (c :: line) :: lines
    | [] => [[c]]

/-- Whether one of the lines opts out, before a line with the version. -/
def skipsIn (mode : String) : List (List Char) → Bool
  | [] => false
  | line :: rest =>
    if occursIn ignoreAll line || occursIn (disable mode) line then true
    else if occursIn versionKeyword line then false
    else skipsIn mode rest

/-- Whether the source opts out of a mode. -/
def skips (source mode : String) : Bool := skipsIn mode (linesOf source.toList)

end OpenQasm.Directive
