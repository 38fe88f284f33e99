import OpenQasm.Analysis.Program
import OpenQasm.Proofs.Protection
import OpenQasm.Proofs.SourceCharacters

/-!
Calls in an index. Everything that asks for the positions of an index evaluates it again, and the search
for calls does not look at indices. Where the bits of a register are not known, an element is evaluated to
find that it is not, evaluated for its literal, and evaluated for the place that is read.
-/
namespace OpenQasm

/-- A register of bits that are not known, with its name in the flat program. -/
structure Symbol.IsUnknownRegister (x : Symbol) (width : Nat) (emitName : String) : Prop where
  kind : x.kind = .classicalRegister
  binding : ∃ v, x.binding = .clbits v
  type : x.type = some (.sized .bit width)
  value : x.value = none
  emitName : x.emitName = some emitName

theorem Symbol.IsUnknownRegister.kept {x y : Symbol} {width : Nat} {emitName : String}
    (h : x.IsUnknownRegister width emitName) (hkept : x.Kept False y) :
    y.IsUnknownRegister width emitName where
  kind := by
    rw [hkept.same]
    exact h.kind
  binding := by
    rw [hkept.same]
    exact h.binding
  type := by
    rw [hkept.same]
    exact h.type
  value := hkept.value_none h.value
  emitName := hkept.emitName_eq h.emitName

namespace Analysis

/-- A name stands for a register of bits that are not known. -/
def UnknownRegister (name : String) (width : Nat) (emitName : String) (s : State) : Prop :=
  s.scopes.Numbered ∧
    ∃ x, s.scopes.resolve? name = some x ∧ x.IsUnknownRegister width emitName

section Elements

variable {α β : Type} {x y : Analysis α} {f g : α → Analysis β} {calls : Calls}
  {name emitName : String} {width : Nat} {s : State} {config : Config}

theorem run_bind_congr (h : x config s = y config s) :
    (x >>= f) config s = (y >>= f) config s := by
  rw [run_bind, run_bind, h]

theorem run_bind_tail (h : ∀ a t, x config s = (.ok a, t) → f a config t = g a config t) :
    (x >>= f) config s = (x >>= g) config s := by
  rw [run_bind, run_bind]
  rcases hr : x config s with ⟨e | a, t⟩
  · rfl
  · exact h a t hr

theorem resolve_bind_run {x : Symbol} {f : Symbol → Analysis β}
    (hx : s.scopes.resolve? name = some x) : (resolve name >>= f) config s = f x config s := by
  have hlooked : resolve? name config s = (.ok (some x), s) := congrArg (fun y => (Except.ok y, s)) hx
  rw [resolve, bind_assoc, run_bind, hlooked]
  rfl

/-- Evaluation makes no bits known. -/
theorem UnknownRegister.evaluated (h : UnknownRegister name width emitName s) (n length : Nat)
    (item : IndexItem) (config : Config) :
    UnknownRegister name width emitName (itemPositions (.nested n) length item config s).2 := by
  obtain ⟨hnumbered, x, hx, hregister⟩ := h
  have hstep := itemPositions_agree (nested_evaluated s.scopes n) length item
    (Nat.le_of_eq (weigh_zero _))
  have hevaluated := (hstep config s (Evaluated.refl hnumbered) trivial).2.core
  obtain ⟨y, hy, hkept⟩ := hevaluated.resolve? hnumbered hx
  exact ⟨hevaluated.numbered, y, hy, hregister.kept hkept⟩

theorem UnknownRegister.infer_run (h : UnknownRegister name width emitName s) :
    infer calls (.name name) config s = (.ok (.sized .bit width), s) := by
  obtain ⟨-, x, hx, hregister⟩ := h
  obtain ⟨v, hbinding⟩ := hregister.binding
  simp only [infer, nameType]
  rw [resolve_bind_run hx, hbinding, hregister.type]
  rfl

theorem UnknownRegister.fold_run (h : UnknownRegister name width emitName s) :
    fold calls (.name name) config s = (.ok none, s) := by
  obtain ⟨-, x, hx, hregister⟩ := h
  obtain ⟨v, hbinding⟩ := hregister.binding
  simp only [fold, nameValue]
  rw [resolve_bind_run hx, hbinding, hregister.kind, hregister.value]
  rfl

theorem UnknownRegister.residualize_run (h : UnknownRegister name width emitName s) :
    residualize calls (.name name) config s = (.ok (.name emitName), s) := by
  have hliteral : foldLiteral? calls (.name name) config s = (.ok none, s) := by
    have hrun : foldLiteral? calls (.name name) config s =
        (fold calls (.name name) >>= fun v => pure (v.map Value.toExpr)) config s := rfl
    rw [hrun, run_bind, h.fold_run]
    rfl
  obtain ⟨-, x, hx, hregister⟩ := h
  have hname : runtimeName name config s = (.ok emitName, s) := by
    unfold runtimeName
    rw [resolve_bind_run hx, hregister.emitName]
    rfl
  simp only [residualize]
  rw [run_bind, hliteral]
  dsimp only
  rw [run_bind, hname]
  rfl

/-- The positions are evaluated, even though what they select is not known. -/
theorem UnknownRegister.fold_index_run (h : UnknownRegister name width emitName s) (e : Expr) :
    fold calls (.index (.name name) [.single e]) config s =
      (itemPositions calls width (.single e) >>= fun _ => pure none) config s := by
  have hitems : foldItems calls (.sized .bit width) none [.single e] =
      (itemPositions calls width (.single e) >>= fun _ => pure none) := by
    simp only [foldItems]
    rfl
  rw [fold, run_bind, h.infer_run]
  dsimp only
  rw [run_bind, h.fold_run]
  exact congrFun (congrFun hitems config) s

/-- The positions are evaluated for the place that is read. -/
theorem UnknownRegister.place_run (h : UnknownRegister name width emitName s) (n : Nat) (e : Expr) :
    (do
      let t ← infer (.nested n) (.name name)
      let items ← literalItems (.nested n) (t.width?.getD 0) [.single e]
      return Expr.index (← residualize (.nested n) (.name name)) items : Analysis Expr) config s =
    (do
      let positions ← itemPositions (.nested n) width (.single e)
      return Expr.index (.name emitName) [literalItem true positions] : Analysis Expr) config s := by
  rw [run_bind, h.infer_run]
  dsimp only [ClassicalType.width?, Option.getD_some]
  simp only [literalItems, isSingle, bind_assoc, pure_bind]
  refine run_bind_tail fun positions t hr => ?_
  have ht := h.evaluated n width (.single e) config
  rw [hr] at ht
  rw [run_bind, ht.residualize_run]

/-- An element of a register of unknown bits is rewritten for the flat program. Its index is evaluated
for a value, which there is none, and once more for the place. -/
theorem UnknownRegister.residualize_index_run (h : UnknownRegister name width emitName s) (n : Nat)
    (e : Expr) :
    residualize (.nested n) (.index (.name name) [.single e]) config s =
      (do
        let _ ← itemPositions (.nested n) width (.single e)
        let positions ← itemPositions (.nested n) width (.single e)
        return .index (.name emitName) [literalItem true positions] : Analysis Expr) config s := by
  have hliteral : foldLiteral? (.nested n) (.index (.name name) [.single e]) config s =
      (itemPositions (.nested n) width (.single e) >>= fun _ => pure none) config s := by
    have hfold : fold (.nested n) (.index (.name name) [.single e]) config s =
        (itemPositions (.nested n) width (.single e) >>= fun _ => pure none) config s :=
      h.fold_index_run e
    refine (run_bind_congr hfold).trans ?_
    simp only [bind_assoc, pure_bind, Option.map_none]
  rw [residualize]
  refine (run_bind_congr hliteral).trans ?_
  simp only [bind_assoc, pure_bind]
  refine run_bind_tail fun positions t hr => ?_
  have ht := h.evaluated n width (.single e) config
  rw [hr] at ht
  exact ht.place_run n e

/-- Where an element of a register of unknown bits is a value, its index is evaluated three times, and
the calls in it are inlined as often. -/
theorem element_evaluated_thrice (h : UnknownRegister name width emitName s) (n : Nat) (e : Expr) :
    plainValue (.nested n) (.index (.name name) [.single e]) config s =
      (do
        let _ ← itemPositions (.nested n) width (.single e)
        let _ ← itemPositions (.nested n) width (.single e)
        let positions ← itemPositions (.nested n) width (.single e)
        return .runtime (.index (.name emitName) [literalItem true positions]) :
        Analysis RightValue) config s := by
  rw [plainValue]
  refine (run_bind_congr (h.fold_index_run e)).trans ?_
  simp only [bind_assoc, pure_bind]
  refine run_bind_tail fun positions t hr => ?_
  have ht := h.evaluated n width (.single e) config
  rw [hr] at ht
  refine (run_bind_congr (ht.residualize_index_run n e)).trans ?_
  simp only [bind_assoc, pure_bind]

end Elements

/-- The index of an element calls a subroutine that applies a gate. The call is written once, and the gate
is applied three times. -/
theorem index_call_inlined_thrice :
    let p := ofSource .default
      "def f(qubit a) -> int { h a; return 0; }\nqubit q;\nbit[2] c;\nbit b = c[f(q)];\n"
    p.diagnostics.length = 0 ∧ (p.statements.filter (fun f => f matches .op _)).length = 3 := by
  rw [ofSource_ofList]
  decide +kernel

end Analysis
end OpenQasm
