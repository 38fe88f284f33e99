import OpenQasm.Proofs.TrackedValues

/-!
How wide symbols are declared, compared with the registers that they stand for. Indices are checked against the
declared width where a value is folded or a part is assigned, and against the length of the view where qubits
and the targets of measurements are looked up; the two are the same for all names of qubits, and for names of
bits unless they are parameters that stand for a variable of the caller.
-/
namespace OpenQasm

namespace Analysis

/-- In every state that occurs, registers, aliases and parameters of qubits have the size of what they stand for,
and so has the type of what stands for bits and can be written to. What cannot be written to is a parameter
that stands for a variable of the caller; its type is the one of the parameter. -/
theorem symbols_stored (config : Config) :
    (∀ source k, Occurs config (stateAfter config source k)) ∧
      ∀ s, Occurs config s → ∀ x v, s.scopes.Has x →
        (x.binding = .qubits v → x.size = some v.length) ∧
        (x.binding = .clbits v → x.mutable = true → x.type = some (.sized .bit v.length)) := by
  refine ⟨stateAfter_occurs config, fun s hs x v hx => ?_⟩
  have hstored : x.Stored := (hs.reachable.sound.symbol x hx).stored
  exact ⟨fun hv => (hstored.qubits v hv).2.2, hstored.clbits v⟩

/-- What a symbol stands for of the registers of a kind. -/
def Symbol.view? (kind : RegisterKind) (x : Symbol) : Option View :=
  match kind, x.binding with
  | .quantum, .qubits v => some v
  | .classical, .clbits v => some v
  | _, _ => none

theorem Symbol.qubits_of_view? {x : Symbol} {v : View} (h : Symbol.view? .quantum x = some v) :
    x.binding = .qubits v := by
  unfold Symbol.view? at h
  split at h
  · next hx =>
    cases h
    exact hx
  · next hkind _ => cases hkind
  · cases h

theorem Symbol.clbits_of_view? {x : Symbol} {v : View} (h : Symbol.view? .classical x = some v) :
    x.binding = .clbits v := by
  unfold Symbol.view? at h
  split at h
  · next hkind _ => cases hkind
  · next hx =>
    cases h
    exact hx
  · cases h

/-- An alias of two qubits that are apart, and a register. -/
theorem symbols_stored_alias :
    let s := stateAfter .default "qubit[3] q;\nlet a = q[0:2:2];\nbit[2] b;\n" 3
    (∃ x v, s.scopes.Has x ∧ x.binding = .qubits v ∧ v.length = 2 ∧ x.size = some v.length) ∧
      ∃ x v, s.scopes.Has x ∧ x.binding = .clbits v ∧ v.length = 2 ∧
        x.type = some (.sized .bit v.length) := by
  intro s
  have hs : s = stateAfterRead .default _ 3 := stateAfter_ofList .default _ 3
  have hstored := (symbols_stored .default).2 s ((symbols_stored .default).1 _ 3)
  constructor
  · have hfound : (s.scopes.resolve? "a").any (fun x => (Symbol.view? .quantum x).any (·.length = 2)) = true := by
      rw [hs]
      decide +kernel
    obtain ⟨x, hx, hview⟩ := (Option.any_eq_true _ _).1 hfound
    have hhas := Scopes.has_of_resolve? hx
    obtain ⟨v, hview, hlength⟩ := (Option.any_eq_true _ _).1 hview
    have hv := Symbol.qubits_of_view? hview
    exact ⟨x, v, hhas, hv, of_decide_eq_true hlength, (hstored x v hhas).1 hv⟩
  · have hfound : (s.scopes.resolve? "b").any (fun x => x.mutable &&
        (Symbol.view? .classical x).any (·.length = 2)) = true := by
      rw [hs]
      decide +kernel
    obtain ⟨x, hx, hview⟩ := (Option.any_eq_true _ _).1 hfound
    have hhas := Scopes.has_of_resolve? hx
    obtain ⟨hmutable, hview⟩ := Bool.and_eq_true_iff.1 hview
    obtain ⟨v, hview, hlength⟩ := (Option.any_eq_true _ _).1 hview
    have hv := Symbol.clbits_of_view? hview
    exact ⟨x, v, hhas, hv, of_decide_eq_true hlength, (hstored x v hhas).2 hv hmutable⟩

theorem eq_ok_of_isSome {ε α : Type} {r : Except ε α} (a : α) (h : r.toOption.isSome = true) :
    r = .ok (r.toOption.getD a) := by
  cases r with
  | error e => nomatch h
  | ok b => rfl

/-- The state in which the body of a subroutine starts that is called on some arguments, with the result of
declaring its parameters. -/
def bodyStart (config : Config) (s : State) (d : SubroutineDefinition) (args : List Expr) :
    Option Unit × State :=
  let (symbols, t) := bindArguments (.nested 0) d.name [] (d.formals.zip args) config s
  let (declared, u) := declareAll (symbols.toOption.getD []) config (t.inBody d.name)
  (symbols.toOption.bind fun _ => declared.toOption, u)

theorem bodyStart_occurs {config : Config} {s : State} {d : SubroutineDefinition} {args : List Expr}
    (hs : Occurs config s) (h : (bodyStart config s d args).1.isSome = true) :
    Occurs config (bodyStart config s d args).2 := by
  unfold bodyStart at h ⊢
  rcases hbound : bindArguments (.nested 0) d.name [] (d.formals.zip args) config s with ⟨_ | symbols, t⟩
  · rw [hbound] at h
    nomatch h
  · rw [hbound] at h
    exact hs.called hbound (Prod.ext (eq_ok_of_isSome () h) rfl)

/-- A parameter of four bits is bound to a register of two. -/
def longParameter : String :=
  "def f(bit[4] a) -> bit \x7b return a[3]; \x7d\nqubit q;\nbit[2] c;\nc[0] = measure q;\nbit r = f(c);\n"

/-- A parameter may be declared longer than the register that is passed for it. The program is accepted, and
reads a bit that the register does not have. -/
theorem parameter_longer_than_register :
    (∃ s x v, Occurs .default s ∧ s.scopes.Has x ∧ x.binding = .clbits v ∧ v.length = 2 ∧
        x.type = some (.sized .bit 4)) ∧
      (ofSource .default longParameter).diagnostics.length = 0 ∧
      ((ofSource .default longParameter).clbitRegisters.map fun r => (r.name, r.size)) =
        [("c", 2), ("r", 1)] ∧
      ((ofSource .default longParameter).statements.filterMap fun f => match f with
        | .assign target value => some (target.text, value.text)
        | _ => none) = [("r", "c[3]")] := by
  refine ⟨?_, ?_⟩
  swap
  · unfold longParameter
    rw [ofSource_ofList]
    decide +kernel
  let s := stateAfter .default longParameter 4
  have hs : s = stateAfterRead .default _ 4 := stateAfter_ofList .default _ 4
  let d := ((s.scopes.resolve? "f").bind Symbol.subroutine?).getD ⟨"", [], none, []⟩
  let mismatch (x : Symbol) : Bool := x.type = some (.sized .bit 4) &&
    (Symbol.view? .classical x).any (·.length = 2)
  have hrun : (bodyStart .default s d [.name "c"]).1.isSome = true ∧
      ((bodyStart .default s d [.name "c"]).2.scopes.resolve? "a").any mismatch = true := by
    unfold d
    rw [hs]
    decide +kernel
  have hoccurs : Occurs .default (bodyStart .default s d [.name "c"]).2 :=
    bodyStart_occurs (stateAfter_occurs .default longParameter 4) hrun.1
  generalize (bodyStart .default s d [.name "c"]).2 = u at hrun hoccurs
  obtain ⟨x, hx, hmismatch⟩ := (Option.any_eq_true mismatch _).1 hrun.2
  obtain ⟨htype, hview⟩ := Bool.and_eq_true_iff.1 hmismatch
  obtain ⟨v, hview, hlength⟩ := (Option.any_eq_true _ _).1 hview
  exact ⟨u, x, v, hoccurs, Scopes.has_of_resolve? hx, Symbol.clbits_of_view? hview,
    of_decide_eq_true hlength, of_decide_eq_true htype⟩

end Analysis
end OpenQasm
