import OpenQasm.Analysis.Program
import OpenQasm.Proofs.GateCalls
import OpenQasm.Proofs.SourceCharacters

/-!
What a gate call puts out under modifiers. Its applications are put out one after another; controls stand
in front of every operation, and an `inv` turns around what each application puts out without it.
-/
namespace OpenQasm

namespace Analysis

open Instruction KnownModifier

variable {calls : Calls} {config : Config} {s t u : State}

theorem Applied.inverse {gate : GateTarget} {values : List Parameter}
    {front back : List KnownModifier} (hfront : ∀ m ∈ front, m.Uniform) {groups : List (List Nat)}
    {opss : List (List Instruction)}
    (h : Applied (applyModifiers calls gate values (front ++ .inverse :: back)) config groups opss s t) :
    ∃ plain, Applied (applyModifiers calls gate values (front ++ back)) config groups plain s t ∧
      List.Forall₂ (fun before after => inverses? before = some after) plain opss := by
  induction h with
  | nil => exact ⟨[], Applied.nil, List.Forall₂.nil⟩
  | cons hdistinct heach _ ih =>
    obtain ⟨before, hbefore, hinverse⟩ := applyModifiers_inverse hfront heach
    obtain ⟨plain, hplain, hrest⟩ := ih
    exact ⟨before :: plain, Applied.cons hdistinct hbefore hplain, List.Forall₂.cons hinverse hrest⟩

theorem quiet_of_no_subroutine {scopes : Scopes} {call : GateCall} (hinner : scopes.inner = [])
    (hglobal : ∀ x ∈ scopes.global, x.subroutine? = none) : scopes.Quiet call := by
  have hfind (fromBody : Bool) (f : String) :
      (Scopes.globalSymbol? scopes.global fromBody f).bind Symbol.subroutine? = none := by
    rcases hx : Scopes.globalSymbol? scopes.global fromBody f with - | x
    · rfl
    · exact hglobal x (List.mem_of_find?_eq_some (Option.filter_eq_some_iff.1 hx).1)
  refine ⟨fun f _ => ?_, fun _ inner _ _ f _ => ?_⟩
  · rw [Scopes.subroutine?, Scopes.resolve?, hinner]
    exact hfind false f
  · exact hfind true f

end Analysis
end OpenQasm
