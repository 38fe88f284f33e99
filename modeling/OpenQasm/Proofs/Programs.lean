import OpenQasm.Analysis.Program
import OpenQasm.Proofs.Statements

/-!
Whole programs: what all statements keep holds at the end.
-/
namespace OpenQasm

namespace Analysis

variable {I : Invariant} {calls calls' : Calls}

theorem statement_leaving (calls : Calls) (s : Statement) (config : Config) (t : State) (e : Failure)
    (h : (statement calls s config t).1 = .error e) : e = .leaving := by
  obtain ⟨kind, span⟩ := s
  exact settled_leaving span _ config t e h

theorem topLevel_agree {body : List Statement}
    (hbody : ∀ s ∈ body, Agree I (statement calls s) (statement calls' s)) :
    Agree I (topLevel calls body) (topLevel calls' body) := by
  induction body with
  | nil => exact Agree.pure _
  | cons s ss ih =>
    have hrest := ih fun t ht => hbody t (List.mem_cons_of_mem _ ht)
    unfold topLevel
    refine Agree.get.bind fun t => Agree.ite (Agree.pure _) ?_
    exact (attempt_agree (hbody s List.mem_cons_self) (statement_leaving calls s)).bind
      fun _ => hrest

/-- Errors of reading a program are reported before it runs. -/
theorem program_agree {p : Program} (errors : List SyntaxError)
    (hbody : ∀ s ∈ p.statements, Agree I (statement calls s) (statement calls' s)) :
    Agree I (program calls p errors) (program calls' p errors) := by
  have hreports : Agree I (errors.forM fun e => report (.ofSyntaxError e))
      (errors.forM fun e => report (.ofSyntaxError e)) := by
    induction errors with
    | nil => exact Agree.pure _
    | cons e es ih =>
      exact (report_ensures _ fun _ => rfl).agree.bind fun _ => ih
  exact hreports.bind fun _ => topLevel_agree hbody

theorem topLevel_ok (calls : Calls) (body : List Statement) (config : Config) (s : State) :
    (topLevel calls body config s).1 = .ok () := by
  induction body generalizing s with
  | nil => rfl
  | cons st rest ih =>
    unfold topLevel
    rw [run_get]
    split
    · rfl
    · exact ih _

/-- A program never fails as a whole. -/
theorem program_ok (calls : Calls) (p : Program) (errors : List SyntaxError) (config : Config)
    (s : State) : (program calls p errors config s).1 = .ok () := by
  unfold program
  induction errors generalizing s with
  | nil => exact topLevel_ok calls p.statements config s
  | cons e es ih => exact ih _

end Analysis
end OpenQasm
