import OpenQasm.Analysis.Program
import OpenQasm.Proofs.AssignedNames
import OpenQasm.Proofs.Programs
import OpenQasm.Proofs.SourceCharacters

/-!
Variables that are passed to a subroutine under their own names. The body may not assign to them, but it may
measure into them. A formal parameter that is a copy has a name of its own, so that it does not matter that the
body may assign to it.
-/
namespace OpenQasm

namespace Analysis

variable {n : Nat} {config : Config} {s u : State} {x : Symbol} {m : String}

/-- All names that symbols have in the flat program are taken. -/
abbrev NamesTaken (s : State) : Prop := Withheld (fun _ => False) s

/-- In every state that a program ends in, the names are taken. -/
theorem program_namesTaken (n : Nat) (p : Program) (errors : List SyntaxError) (config : Config) :
    NamesTaken (program (.nested n) p errors config .initial).2 := by
  have hinitial : NamesTaken .initial := by
    refine ⟨fun _ => False.elim, fun x hx m hm => ?_⟩
    rcases hx with hx | ⟨scope, hscope, -⟩
    · obtain ⟨g, -, rfl⟩ := List.mem_map.1 (List.mem_reverse.1 hx)
      nomatch hm
    · nomatch hscope
  have hprogram := program_agree (p := p) errors fun st _ =>
    (pervasive_withholding fun _ => False).statement n st
  exact (hprogram config .initial hinitial trivial).2.core

section Copies

/-- A name that was free is the one of no symbol. -/
theorem NamesTaken.withheld_reserve (h : NamesTaken s) {registers : Registers}
    (hextends : s.registers.Extends registers) (hfree : ¬s.registers.Taken m) (htaken : registers.Taken m) :
    Withheld (· = m) { s with registers } := by
  refine ⟨?_, fun x hx name hname => ?_⟩
  · rintro _ rfl
    exact htaken
  · have hname := (h.symbols x hx name hname).1
    exact ⟨hextends.taken hname, fun heq => hfree (heq ▸ hname)⟩

theorem hoist_fresh {name : String} {t : ClassicalType} (h : NamesTaken s)
    (hrun : hoist name t config s = (.ok m, u)) : ¬s.registers.Taken m ∧ Withheld (· = m) u := by
  generalize hhoist : hoist name t = x at hrun
  unfold hoist at hhoist
  split at hhoist
  · next width =>
    subst hhoist
    obtain ⟨⟨_, v⟩, _, hallocate, hrun⟩ := run_bind_eq_ok.1 hrun
    cases hrun
    unfold allocate at hallocate
    rw [run_get] at hallocate
    rcases hr : s.registers.allocate name width .classical with e | ⟨id, view, registers⟩
    · rw [hr] at hallocate
      nomatch hallocate
    · rw [hr] at hallocate
      cases hallocate
      obtain ⟨hfree, htaken⟩ := Registers.taken_allocate hr
      exact ⟨hfree, h.withheld_reserve (Registers.extends_allocate hr) hfree htaken⟩
  · subst hhoist
    cases hrun
    have hfree := s.registers.not_taken_reserve name
    have htaken := s.registers.taken_reserved name
    exact ⟨hfree, (h.withheld_reserve (Registers.extends_reserve _ name) hfree htaken).congr rfl rfl⟩

/-- What the binding of a formal parameter does, from a state to another one: the parameter has a name that is
taken then, and if it is a copy, the name was free and is the one of no symbol. -/
structure BoundFormal (s u : State) (x : Symbol) : Prop where
  frame : Frame s u
  names : NamesTaken u
  taken : ∀ m, x.emitName = some m → u.registers.Taken m
  copied : x.mutable = true → ∀ m, x.emitName = some m → ¬s.registers.Taken m ∧ Withheld (· = m) u

theorem boundByCopy_fresh {formal : String} {t : ClassicalType} {value : Expr} (h : NamesTaken s)
    (hrun : boundByCopy formal t value config s = (.ok x, u)) (hname : x.emitName = some m) :
    ¬s.registers.Taken m ∧ Withheld (· = m) u := by
  obtain ⟨emitName, v, hhoist, hrun⟩ := run_bind_eq_ok.1 hrun
  cases hrun
  cases hname
  obtain ⟨hfree, hwithheld⟩ := hoist_fresh h hhoist
  exact ⟨hfree, hwithheld.congr rfl rfl⟩

theorem bindClassical_bound {formal : String} {type : TypeExpr} {arg : Expr} (h : NamesTaken s)
    (hrun : bindClassical (.nested n) formal type arg config s = (.ok x, u)) : BoundFormal s u x := by
  have hcalls := (pervasive_withholding fun _ => False).nested n
  have hkeeps := (bindClassical_ensures hcalls hcalls formal type arg (Nat.le_of_eq (weigh_zero _))
    (Nat.le_of_eq (weigh_zero _))).keeps h trivial hrun
  refine ⟨hkeeps.frame, hkeeps.core, fun m hm => (hkeeps.post x rfl m hm).1, fun hmutable m hm => ?_⟩
  -- Everything before the copy only takes further names.
  obtain ⟨t, s₁, htype, hrun⟩ := run_bind_eq_ok.1 hrun
  have h₁ := (resolveType_agree hcalls type (Nat.le_of_eq (weigh_zero _))).keeps h trivial htype
  obtain ⟨_, s₂, hcheck, hrun⟩ := run_bind_eq_ok.1 hrun
  have h₂ := (checkInitializer_agree hcalls t arg (Nat.le_of_eq (weigh_zero _))).keeps h₁.core trivial hcheck
  obtain ⟨r, s₃, hright, hrun⟩ := run_bind_eq_ok.1 hrun
  have h₃ := (rightValue_ensures hcalls arg (Nat.le_of_eq (weigh_zero _))).keeps h₂.core trivial hright
  have hframe := (h₁.frame.trans h₂.frame).trans h₃.frame
  cases r with
  | known v =>
    obtain ⟨w, s₄, -, hrun⟩ := run_bind_eq_ok.1 hrun
    cases hrun
    nomatch hm
  | runtime e =>
    have hcopy (hrun : boundByCopy formal t e config s₃ = (.ok x, u)) :
        ¬s.registers.Taken m ∧ Withheld (· = m) u := by
      obtain ⟨hfree, hwithheld⟩ := boundByCopy_fresh h₃.core hrun hm
      exact ⟨fun htaken => hfree (hframe.registers.taken htaken), hwithheld⟩
    have hname (source : String) (hrun : boundByName formal t source config s₃ = (.ok x, u)) :
        x.mutable = false := by
      obtain ⟨emitName, s₄, -, hrun⟩ := run_bind_eq_ok.1 hrun
      cases hrun
      rfl
    dsimp only at hrun
    generalize arg.unparen = shape at hrun
    cases shape with
    | name source => nomatch hmutable.symm.trans (hname source hrun)
    | _ => exact hcopy hrun
  | measured qubits => nomatch hrun

/-- The first formal parameter is bound, then the rest. -/
theorem bindArguments_cons {subroutine : String} {p : Formal × Expr} {pairs : List (Formal × Expr)}
    {seen : List Nat} {xs : List Symbol} (h : NamesTaken s)
    (hrun : bindArguments (.nested n) subroutine seen (p :: pairs) config s = (.ok xs, u)) :
    ∃ x ys t seen', xs = x :: ys ∧ BoundFormal s t x ∧
      bindArguments (.nested n) subroutine seen' pairs config t = (.ok ys, u) := by
  have hcalls := (pervasive_withholding fun _ => False).nested n
  obtain ⟨formal, arg⟩ := p
  cases formal with
  | qubit formal size =>
    rw [bindArguments] at hrun
    obtain ⟨v, s₁, hview, hrun⟩ := run_bind_eq_ok.1 hrun
    have h₁ := (quantumView_ensures hcalls arg (Nat.le_of_eq (weigh_zero _))).keeps h trivial hview
    obtain ⟨expected, s₂, hsize, hrun⟩ := run_bind_eq_ok.1 hrun
    have h₂ := (formalSize_agree hcalls size (Nat.le_of_eq (weigh_zero _))).keeps h₁.core trivial hsize
    by_cases hlength : v.length ≠ expected
    · rw [if_pos hlength] at hrun
      cases hrun
    · rw [if_neg hlength] at hrun
      obtain ⟨qubits, s₃, hphysical, hrun⟩ := run_bind_eq_ok.1 hrun
      cases hphysical
      obtain ⟨seen', t, hfresh, hrun⟩ := run_bind_eq_ok.1 hrun
      have h₃ := (checkFresh_agree subroutine seen _).keeps h₂.core trivial hfresh
      obtain ⟨y, t', hsymbol, hrun⟩ := run_bind_eq_ok.1 hrun
      cases hsymbol
      obtain ⟨ys, u', hrest, hrun⟩ := run_bind_eq_ok.1 hrun
      cases hrun
      have hframe := (h₁.frame.trans h₂.frame).trans h₃.frame
      exact ⟨_, ys, t, seen', rfl, ⟨hframe, h₃.core, (fun _ h => by cases h), fun h => by cases h⟩, hrest⟩
  | classical type formal =>
    rw [bindArguments] at hrun
    obtain ⟨x, t, hx, hrun⟩ := run_bind_eq_ok.1 hrun
    obtain ⟨ys, u', hrest, hrun⟩ := run_bind_eq_ok.1 hrun
    cases hrun
    exact ⟨x, ys, t, seen, rfl, bindClassical_bound h hx, hrest⟩

variable {subroutine : String} {pairs : List (Formal × Expr)} {seen : List Nat} {xs : List Symbol}

/-- No formal parameter gets a name that is kept back from the symbols around the call. -/
theorem bindArguments_withheld {kept : String → Prop} (h : Withheld kept s)
    (hrun : bindArguments (.nested n) subroutine seen pairs config s = (.ok xs, u)) :
    ∀ x ∈ xs, ∀ m, x.emitName = some m → u.registers.Taken m ∧ ¬kept m := by
  have hcalls := (pervasive_withholding kept).nested n
  have hbind := bindArguments_ensures hcalls hcalls subroutine pairs seen
    fun _ _ => ⟨Nat.le_of_eq (weigh_zero _), Nat.le_of_eq (weigh_zero _)⟩
  exact (hbind.keeps h trivial hrun).post xs rfl

theorem copies_free (h : NamesTaken s)
    (hrun : bindArguments (.nested n) subroutine seen pairs config s = (.ok xs, u)) :
    ∀ x ∈ xs, x.mutable = true → ∀ m, x.emitName = some m → ¬s.registers.Taken m := by
  induction pairs generalizing s seen xs with
  | nil =>
    cases hrun
    exact fun _ hx => nomatch hx
  | cons p pairs ih =>
    obtain ⟨x, ys, t, seen', rfl, hbound, hrest⟩ := bindArguments_cons h hrun
    refine List.forall_mem_cons.2 ⟨fun hmutable m hm => (hbound.copied hmutable m hm).1, ?_⟩
    intro y hy hmutable m hm htaken
    exact ih hbound.names hrest y hy hmutable m hm (hbound.frame.registers.taken htaken)

/-- A copy has not the name of a variable that is passed under its own name, whichever of the two arguments
comes first. -/
theorem references_apart (h : NamesTaken s)
    (hrun : bindArguments (.nested n) subroutine seen pairs config s = (.ok xs, u)) :
    ∀ x ∈ xs, ∀ y ∈ xs, x.mutable = false → x.emitName = some m → y.emitName = some m → y.mutable = false := by
  induction pairs generalizing s seen xs with
  | nil =>
    cases hrun
    exact fun _ hx => nomatch hx
  | cons p pairs ih =>
    obtain ⟨z, zs, t, seen', rfl, hbound, hrest⟩ := bindArguments_cons h hrun
    intro x hx y hy himmutable hxm hym
    rw [List.mem_cons] at hx hy
    rcases hx with rfl | hx <;> rcases hy with rfl | hy
    · exact himmutable
    · -- The name is taken when the copy gets its own.
      refine Bool.eq_false_iff.2 fun hmutable => ?_
      exact copies_free hbound.names hrest y hy hmutable m hym (hbound.taken m hxm)
    · -- The name of the copy is kept back from then on.
      refine Bool.eq_false_iff.2 fun hmutable => ?_
      exact (bindArguments_withheld (hbound.copied hmutable m hym).2 hrest x hx m hxm).2 rfl
    · exact ih hbound.names hrest x hx y hy himmutable hxm hym

end Copies

section Bodies

variable {d : SubroutineDefinition} {symbols : List Symbol}

/-- A body does not assign to names that are taken, if no formal parameter of such a name can be written to. -/
theorem body_avoids {kept : String → Prop} (n : Nat) (config : Config)
    (htaken : ∀ m, kept m → s.registers.Taken m)
    (hsymbols : ∀ x ∈ symbols, ∀ m, x.emitName = some m → kept m → x.mutable = false) :
    ∃ added, (inCall d.name (declareAll symbols >>= fun _ => block (.nested n) d.body) config s).2.output =
      added ++ s.output ∧ ∀ f ∈ added, f.Avoids kept := by
  let D := StatementInvariant.locking kept s.scopes.depth
  have hlocking := pervasive_locking kept s.scopes.depth
  have hbody := (declareAll_ensures (D := D.toDeclaringInvariant) symbols).bind fun _ =>
    hlocking.block (hlocking.nested n) d.body
  have hentered : Locked kept s.scopes.depth
      { s with
        calls := d.name :: s.calls, scopes := s.scopes.enter .subroutineBody
        loopScope := none, callScope := some (s.scopes.enter .subroutineBody).depth } :=
    ⟨htaken, Scope.locks_of_empty _, if_pos rfl ▸ rfl⟩
  exact (hbody config _ hentered ⟨hsymbols, _, rfl, rfl⟩).2.putsOut

/-- In the body of a subroutine, nothing is assigned to a variable that was passed under its own name, also not
by the subroutines that it is passed on to. -/
theorem references_unassigned {n : Nat} {d : SubroutineDefinition} {args : List Expr} {config : Config}
    {s t : State} {symbols : List Symbol} (hnames : NamesTaken s)
    (hbind : bindArguments (.nested n) d.name [] (d.formals.zip args) config s = (.ok symbols, t)) :
    ∃ added, (inCall d.name (declareAll symbols >>= fun _ => block (.nested n) d.body) config t).2.output =
        added ++ t.output ∧
      ∀ x ∈ symbols, x.mutable = false → ∀ m, x.emitName = some m → ∀ f ∈ added, ¬f.Assigns m := by
  -- The names are kept back all together.
  let kept (m : String) : Prop := ∃ x ∈ symbols, x.mutable = false ∧ x.emitName = some m
  have htaken (m : String) (hm : kept m) : t.registers.Taken m := by
    obtain ⟨x, hx, -, hm⟩ := hm
    exact (bindArguments_withheld hnames hbind x hx m hm).1
  have hsymbols (y : Symbol) (hy : y ∈ symbols) (m : String) (hym : y.emitName = some m) (hm : kept m) :
      y.mutable = false := by
    obtain ⟨x, hx, himmutable, hm⟩ := hm
    exact references_apart hnames hbind x hx y hy himmutable hm hym
  obtain ⟨added, hadded, havoids⟩ := body_avoids (d := d) n config htaken hsymbols
  refine ⟨added, hadded, fun x hx himmutable m hm f hf hassigns => ?_⟩
  exact havoids f hf m hassigns ⟨x, hx, himmutable, hm⟩

/-- The body assigns to a variable of its own that has the value of the one that was passed. -/
theorem references_unassigned_copied :
    let s := (program (.nested 0) (Program.parse "bit b;\nint c;\nif (b) c = 1;\n").1 [] .default .initial).2
    let body := (Program.parse "int w = v;\nw = 2;\nif (v == 1) w = 3;\nv = 4;\n").1.statements
    let d : SubroutineDefinition := ⟨"f", [.classical (.sized .int none) "v"], none, body⟩
    let bound := bindArguments (.nested 0) d.name [] (d.formals.zip [.name "c"]) .default s
    let symbols := bound.1.toOption.getD []
    let t := (inCall d.name (declareAll symbols >>= fun _ => block (.nested 0) d.body) .default bound.2).2
    symbols.map (fun x => (x.mutable, x.emitName)) = [(false, some "c")] ∧
      ∃ added, t.output = added ++ bound.2.output ∧ added.length = 3 ∧ ∀ f ∈ added, ¬f.Assigns "c" := by
  rw [Program.parse_ofList, Program.parse_ofList]
  intro s body d bound symbols t
  have hsymbols : symbols.map (fun x => (x.mutable, x.emitName)) = [(false, some "c")] := by decide +kernel
  have hlength : t.output.length = 3 + bound.2.output.length := by decide +kernel
  have hbound : bound.1 = .ok symbols := by
    rcases h : bound.1 with _ | xs
    · have hnil : symbols = [] := by simp only [symbols, h, Except.toOption, Option.getD_none]
      rw [hnil] at hsymbols
      nomatch hsymbols
    · simp only [symbols, h, Except.toOption, Option.getD_some]
  obtain ⟨added, hadded, hunassigned⟩ : ∃ added, t.output = added ++ bound.2.output ∧ _ :=
    references_unassigned (program_namesTaken 0 _ [] .default) (Prod.ext hbound rfl)
  refine ⟨hsymbols, added, hadded, ?_, ?_⟩
  · rw [hadded, List.length_append] at hlength
    exact Nat.add_right_cancel hlength
  · obtain ⟨x, hx, hx'⟩ := List.mem_map.1 (hsymbols ▸ List.mem_singleton_self _)
    obtain ⟨himmutable, hname⟩ := Prod.ext_iff.1 hx'
    exact hunassigned x hx himmutable "c" hname

/-- A measurement in the body goes to the register that was passed, in both ways to write it, although an
assignment there is refused. -/
theorem reference_measured :
    let body (written : String) := ofSource .default
      ("def f(qubit p, bit a) \x7b " ++ written ++ " \x7d\nqubit q;\nbit c;\nf(q, c);\n")
    let measured (p : FlatProgram) := p.statements.filterMap fun f => match f with
      | .op i => some (i.qubits, i.clbits)
      | _ => none
    (∀ written ∈ ["a = measure p;", "measure p -> a;"],
      (body written).diagnostics.length = 0 ∧ measured (body written) = [([0], [0])]) ∧
    ∀ written ∈ ["a = 1;", "a = (measure p);"],
      (body written).diagnostics.map Diagnostic.text = ["1:25: error[type-mismatch]: `a` is read-only"] ∧
        measured (body written) = [] := by
  dsimp only
  rw [List.forall_mem_cons, List.forall_mem_singleton, List.forall_mem_cons, List.forall_mem_singleton]
  repeat rw [← String.ofList_append]
  repeat rw [ofSource_ofList]
  decide +kernel

end Bodies

end Analysis
end OpenQasm
