import OpenQasm.Proofs.JoinedTexts
import OpenQasm.Analysis.Program

/-!
A program whose characters are known. A string is kept as bytes that have to be taken apart before they are read,
so what a written source comes to is decided on the list of its characters.
-/
namespace OpenQasm

/-- The program of a source, and what is wrong with it. -/
def Program.read (s : Source) : Program × List SyntaxError :=
  match Grammar.program s (Grammar.cursor s) with
  | (.ok p, c) => (p, c.errors)
  | (.error e, c) => (⟨none, []⟩, c.errors ++ [e])

theorem Program.parse_ofList (cs : List Char) : Program.parse (String.ofList cs) = Program.read (.ofChars cs) :=
  congrArg Program.read (congrArg Source.ofChars String.toList_ofList)

namespace Analysis

/-- The flat program of a program that has been read. -/
def ofRead (config : Config) (r : Program × List SyntaxError) : FlatProgram :=
  let (_, s) := program (.nested (nestingBound r.1)) r.1 r.2 config .initial
  s.flatProgram r.1.version config

theorem ofSource_ofList (config : Config) (cs : List Char) :
    ofSource config (String.ofList cs) = ofRead config (Program.read (.ofChars cs)) :=
  congrArg (ofRead config) (Program.parse_ofList cs)

end Analysis
end OpenQasm
