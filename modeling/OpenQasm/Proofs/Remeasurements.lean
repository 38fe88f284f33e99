import OpenQasm.Proofs.OrderlyStatements
import OpenQasm.Proofs.SourceCharacters
import OpenQasm.Proofs.Transformations

/-!
The warnings about qubits that are measured twice, in whole programs: they are as many as the operations of the
flat program give reason for.
-/
namespace OpenQasm

namespace Instruction

/-- The positions of the operations that measure a qubit which was last measured before, and not reset. -/
def remeasurements (ops : List Instruction) : List Nat :=
  (List.range ops.length).filter fun k => (ops[k]?).any (remeasures (ops.take k))

theorem length_remeasurements (ops : List Instruction) :
    (remeasurements ops).length = countRemeasured [] ops := (countRemeasured_eq [] ops).symm

end Instruction

theorem Registers.notes_empty : Registers.empty.Notes [] := by
  intro q
  rw [Registers.empty, Std.TreeSet.contains_emptyc]
  exact ⟨(fun h => by cases h), fun h => by cases h⟩

namespace Analysis

/-- Where all errors are collected and there is none, the notes and reports of a program are in tally with
its output. -/
theorem program_tallied (n : Nat) (p : Program) (errors : List SyntaxError) {config : Config}
    (hmode : config.errorMode = .collectAll)
    (herrors : ∀ d ∈ (program (.nested n) p errors config .initial).2.diagnostics, d.severity ≠ .error) :
    Tallied .initial (program (.nested n) p errors config .initial).2 := by
  have htallies := (program_keeps n p errors config).tallies trivial
  rcases htallies.ok () (program_ok _ p errors config .initial) with hspoiled | htallied
  · rcases hspoiled with hend | ⟨d, hd, herror⟩
    · have htransitions : Transitions config .initial (program (.nested n) p errors config .initial).2 :=
        program_transitions n p errors Scopes.Sound.withBuiltins
      have hhalted := htransitions.halted hmode
      nomatch hhalted.symm.trans hend
    · exact absurd herror (herrors d hd)
  · exact htallied

/-- Where all errors are collected and there is none, a program is warned about as often as its operations, those
of a first body before those of a second one, measure a qubit that was last measured and not reset. -/
theorem remeasurements_reported {config : Config} {source : String} (hmode : config.errorMode = .collectAll)
    (herrors : ∀ d ∈ (ofSource config source).diagnostics, d.severity ≠ .error) :
    ((ofSource config source).diagnostics.filter Diagnostic.isRemeasurement).length =
      (Instruction.remeasurements (ofSource config source).operations).length := by
  let p := (Program.parse source).1
  let t := (program (.nested (nestingBound p)) p (Program.parse source).2 config .initial).2
  obtain ⟨added, hadded, htally⟩ : Tallied .initial t :=
    program_tallied _ p _ hmode fun d hd => herrors d (List.mem_reverse.2 hd)
  have houtput : (ofSource config source).statements = added.reverse := by
    have hstatements : (ofSource config source).statements = t.output.reverse := rfl
    rw [hstatements, hadded]
    exact congrArg List.reverse (List.append_nil added)
  have hdiagnostics : (ofSource config source).diagnostics = t.diagnostics.reverse := rfl
  have hwarnings : t.warnings = 0 + _ := (htally [] Registers.notes_empty).2
  rw [FlatProgram.operations_eq, Instruction.length_remeasurements, houtput, hdiagnostics,
    ← List.countP_eq_length_filter, List.countP_reverse]
  exact hwarnings.trans (Nat.zero_add _)

/-- A qubit is measured, measured again in both bodies of a branch, and another one is reset in between. -/
def measuredInBranches : String :=
  "qubit[2] q;\nbit[2] c;\nc = measure q;\n" ++
    "if (c[0]) \x7b measure q[0]; \x7d else \x7b measure q[0]; reset q[1]; \x7d\nmeasure q[1];\n"

theorem remeasurements_reported_branches :
    (ofSource .default measuredInBranches).diagnostics.length = 2 ∧
      Instruction.remeasurements (ofSource .default measuredInBranches).operations = [2, 3] ∧
      ((ofSource .default measuredInBranches).diagnostics.filter Diagnostic.isRemeasurement).length =
        (Instruction.remeasurements (ofSource .default measuredInBranches).operations).length := by
  have hrun : (ofSource .default measuredInBranches).diagnostics.length = 2 ∧
      Instruction.remeasurements (ofSource .default measuredInBranches).operations = [2, 3] ∧
      ∀ d ∈ (ofSource .default measuredInBranches).diagnostics, d.severity ≠ .error := by
    unfold measuredInBranches
    rw [← String.ofList_append, ofSource_ofList]
    decide +kernel
  exact ⟨hrun.1, hrun.2.1, remeasurements_reported rfl hrun.2.2⟩

end Analysis

end OpenQasm
