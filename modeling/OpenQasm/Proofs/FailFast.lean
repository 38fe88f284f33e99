import OpenQasm.Proofs.OrderlyStatements
import OpenQasm.Proofs.Rollback
import OpenQasm.Proofs.SourceCharacters

/-!
Whole programs where the first fatal report ends the analysis. What such an analysis puts out is the beginning
of what is put out when all errors are collected, and it is everything when nothing fatal is reported. The
fatal reports all belong to the statement that the analysis ends with.
-/
namespace OpenQasm

/-- Everything that is in a flat program is at the beginning of what is in another one. -/
structure FlatProgram.Begins (p q : FlatProgram) : Prop where
  diagnostics : p.diagnostics <+: q.diagnostics
  statements : p.statements <+: q.statements
  qubitRegisters : p.qubitRegisters <+: q.qubitRegisters
  clbitRegisters : p.clbitRegisters <+: q.clbitRegisters
  declarations : p.declarations <+: q.declarations
  externalGates : p.externalGates <+: q.externalGates

namespace Analysis

variable {calls : Calls} {config : Config} {s t cut full : State}

section Prefixes

/-- A statement that leaves the construct around it has put out nothing. -/
theorem statement_error_output (n : Nat) (st : Statement) {failure : Failure}
    (h : statement (.nested n) st config s = (.error failure, t)) : t.output = s.output := by
  obtain ⟨kind, span⟩ := st
  rcases hr : perform (.nested n) kind config { s with span } with ⟨e | signal, u⟩
  · have hrecovered := recover_output e config { u with span := s.span, output := s.output }
    rw [← statement_failed hr, h] at hrecovered
    exact hrecovered
  · rw [statement_ok hr] at h
    nomatch h

theorem topLevel_output (n : Nat) (body : List Statement) (config : Config) (s : State) :
    s.output <:+ (topLevel (.nested n) body config s).2.output := by
  induction body generalizing s with
  | nil => exact List.suffix_rfl
  | cons st rest ih =>
    cases hhalted : s.halted with
    | true =>
      rw [topLevel_halted _ hhalted]
    | false =>
      rw [topLevel_cons_run st rest hhalted]
      exact (statement_frame n st config s).output.trans (ih _)

/-- The analysis that has ended has put out the beginning of what the other one has, or both are in the same
state. -/
structure Curtails (cut full : State) : Prop where
  before : Before cut full
  output : cut.output <:+ full.output
  ended : cut.halted = true ∨ ∃ halted, cut = full.noting halted

/-- The induction is on the statements that are left. As long as the analysis has not ended, both runs are in
the same state before each of them. -/
theorem topLevel_curtails (n : Nat) (body : List Statement) (hmode : config.errorMode = .collectAll)
    (hs : s.scopes.Sound) (hhalted : s.halted = false) (halted : Bool) :
    Curtails (topLevel (.nested n) body config.failingFast (s.noting halted)).2
      (topLevel (.nested n) body config s).2 := by
  induction body generalizing s halted with
  | nil => exact ⟨(Before.refl s).noting halted, List.suffix_rfl, Or.inr ⟨halted, rfl⟩⟩
  | cons st rest ih =>
    cases halted with
    -- The analysis has ended before; the full run goes on and only adds to what is put out.
    | true =>
      rw [topLevel_halted (s := s.noting true) _ rfl]
      exact ⟨(topLevel_transitions n (st :: rest) hs).before.noting true,
        topLevel_output n (st :: rest) config s, Or.inl rfl⟩
    | false =>
      rw [topLevel_cons_run st rest hhalted, topLevel_cons_run (s := s.noting false) st rest rfl]
      obtain ⟨htransitions, hcut⟩ := statement_orderly (nested_orderly n) st config s hs
      have hcut := hcut hmode hhalted false
      have hrunning := (htransitions.halted hmode).trans hhalted
      rcases hfull : statement (.nested n) st config s with ⟨r, u⟩
      rcases hleft : statement (.nested n) st config.failingFast (s.noting false) with ⟨r', u'⟩
      rw [hfull] at hcut htransitions hrunning
      rw [hleft] at hcut
      cases hcut with
      | same _ _ halted' => exact ih (htransitions.sound hs) hrunning halted'
      -- The analysis ends inside of this statement, whose output is taken back.
      | left hend hbefore =>
        rw [topLevel_halted rest hend]
        have houtput : u'.output = s.output := statement_error_output (s := s.noting false) n st hleft
        refine ⟨hbefore.trans (topLevel_transitions n rest (htransitions.sound hs)).before, ?_,
          Or.inl hend⟩
        have hgrown := (statement_frame n st config s).output
        rw [hfull] at hgrown
        rw [houtput]
        exact hgrown.trans (topLevel_output n rest config u)

theorem program_curtails (n : Nat) (p : Program) (errors : List SyntaxError)
    (hmode : config.errorMode = .collectAll) (hs : s.scopes.Sound) (hhalted : s.halted = false)
    (halted : Bool) :
    Curtails (program (.nested n) p errors config.failingFast (s.noting halted)).2
      (program (.nested n) p errors config s).2 := by
  induction errors generalizing s halted with
  | nil => exact topLevel_curtails n p.statements hmode hs hhalted halted
  | cons e es ih =>
    have hreport : Transition config s _ := .report (.ofSyntaxError e)
    exact ih (hreport.sound hs) ((hreport.halted hmode).trans hhalted) _

/-- What is put out for good is at the beginning of the flat program. -/
theorem Curtails.begins (h : Curtails cut full) (version : Option String) (config config' : Config) :
    (cut.flatProgram version config).Begins (full.flatProgram version config') where
  diagnostics := List.reverse_prefix.2 h.before.diagnostics
  statements := List.reverse_prefix.2 h.output
  qubitRegisters := h.before.registers.list.filter _
  clbitRegisters := h.before.registers.list.filter _
  declarations := List.reverse_prefix.2 h.before.declarations
  externalGates := List.reverse_prefix.2 h.before.externalGates

end Prefixes

section Sources

/-- The state after the first statements of a source, whose reading errors are all reported before. -/
def stateAfter (config : Config) (source : String) (k : Nat) : State :=
  let p := (Program.parse source).1
  (program (.nested (nestingBound p)) { p with statements := p.statements.take k }
    (Program.parse source).2 config .initial).2

/-- The state after the first statements of a program that has been read. -/
def stateAfterRead (config : Config) (r : Program × List SyntaxError) (k : Nat) : State :=
  (program (.nested (nestingBound r.1)) { r.1 with statements := r.1.statements.take k } r.2 config .initial).2

theorem stateAfter_ofList (config : Config) (cs : List Char) (k : Nat) :
    stateAfter config (String.ofList cs) k = stateAfterRead config (Program.read (.ofChars cs)) k :=
  congrArg (stateAfterRead config · k) (Program.parse_ofList cs)

/-- The flat program of the first statements of a source. -/
def ofFirst (config : Config) (source : String) (k : Nat) : FlatProgram :=
  (stateAfter config source k).flatProgram (Program.parse source).1.version config

theorem ofFirst_length (config : Config) (source : String) :
    ofFirst config source (Program.parse source).1.statements.length = ofSource config source := by
  unfold ofFirst stateAfter
  dsimp only
  rw [List.take_length]
  rfl

theorem stateAfter_ended (config : Config) (source : String) (k : Nat) :
    Ended config (stateAfter config source k) :=
  (program_transitions _ _ _ Scopes.Sound.withBuiltins).ended rfl

/-- Where the first fatal report ends the analysis, it has ended if there is a fatal report. -/
theorem halted_iff_fatal (hmode : config.errorMode = .failFast) (source : String) (k : Nat) :
    (stateAfter config source k).halted = true ↔ (ofFirst config source k).fatalDiagnostics ≠ [] := by
  have hends : ends config = fun d : Diagnostic => d.isFatal config.fatalSeverity := by
    funext d
    rw [ends, hmode]
    rfl
  rw [stateAfter_ended config source k, hends, List.any_eq_true]
  simp only [FlatProgram.fatalDiagnostics, ofFirst, State.flatProgram, ne_eq, List.filter_eq_nil_iff,
    List.mem_reverse, not_forall, not_not, exists_prop]

/-- Where the first fatal report ends the analysis, what is put out is the beginning of what is put out when
all errors are collected. It is everything if nothing fatal is reported. -/
theorem failFast_begins (config : Config) (source : String) :
    (ofSource config.failingFast source).Begins (ofSource config.collectingAll source) ∧
      ((ofSource config.collectingAll source).fatalDiagnostics = [] →
        ofSource config.failingFast source = ofSource config.collectingAll source) := by
  rw [← ofFirst_length config.failingFast, ← ofFirst_length config.collectingAll]
  generalize (Program.parse source).1.statements.length = k
  have hcurtails : Curtails (stateAfter config.failingFast source k)
      (stateAfter config.collectingAll source k) :=
    program_curtails _ _ _ (rfl : config.collectingAll.errorMode = .collectAll)
      Scopes.Sound.withBuiltins (rfl : State.initial.halted = false) false
  have hbegins := hcurtails.begins (Program.parse source).1.version config.failingFast config.collectingAll
  refine ⟨hbegins, fun hclean => ?_⟩
  rcases hcurtails.ended with hended | ⟨halted, hsame⟩
  -- What has ended the analysis is a fatal report of the full run, too.
  · refine absurd ((halted_iff_fatal rfl source k).1 hended) (not_not.2 ?_)
    have hfatal := hbegins.diagnostics.filter (·.isFatal config.fatalSeverity)
    exact List.prefix_nil.1 (hclean ▸ hfatal)
  · unfold ofFirst
    rw [hsame]
    rfl

/-- A program without errors. -/
theorem failFast_begins_bell :
    let source := "qubit[2] q;\nbit[2] c;\nh q[0];\ncx q[0], q[1];\nc = measure q;\n"
    (ofSource Config.default.collectingAll source).fatalDiagnostics = [] ∧
      ofSource Config.default.failingFast source = ofSource Config.default.collectingAll source := by
  intro source
  have hclean : (ofSource Config.default.collectingAll source).fatalDiagnostics = [] := by
    rw [ofSource_ofList]
    exact List.isEmpty_iff.1 (by decide +kernel)
  exact ⟨hclean, (failFast_begins .default source).2 hclean⟩

end Sources

section Ending

/-- A program runs up to the first statement in which the analysis ends. -/
theorem topLevel_stops (calls : Calls) (body : List Statement) (config : Config) (s : State) :
    ∃ k ≤ body.length,
      topLevel calls body config s = topLevel calls (body.take k) config s ∧
      (∀ j < k, (topLevel calls (body.take j) config s).2.halted = false) ∧
      (k < body.length → (topLevel calls (body.take k) config s).2.halted = true) := by
  induction body generalizing s with
  | nil =>
    exact ⟨0, Nat.le_refl _, rfl, fun j hj => absurd hj (Nat.not_lt_zero j),
      fun h => absurd h (Nat.lt_irrefl _)⟩
  | cons st rest ih =>
    cases hhalted : s.halted with
    | true =>
      exact ⟨0, Nat.zero_le _, topLevel_halted _ hhalted, fun j hj => absurd hj (Nat.not_lt_zero j),
        fun _ => hhalted⟩
    | false =>
      obtain ⟨k, hk, hrun, hbefore, hstop⟩ := ih (statement calls st config s).2
      refine ⟨k + 1, Nat.succ_le_succ hk, ?_, fun j hj => ?_, fun hlt => ?_⟩
      · rw [List.take_succ_cons, topLevel_cons_run st rest hhalted, topLevel_cons_run st _ hhalted, hrun]
      · cases j with
        | zero => exact hhalted
        | succ j =>
          rw [List.take_succ_cons, topLevel_cons_run st _ hhalted]
          exact hbefore j (Nat.lt_of_succ_lt_succ hj)
      · rw [List.take_succ_cons, topLevel_cons_run st _ hhalted]
        exact hstop (Nat.lt_of_succ_lt_succ hlt)

/-- The state after the reports about reading a source. -/
def afterReading (config : Config) (errors : List SyntaxError) (s : State) : State :=
  ((errors.forM fun e => report (.ofSyntaxError e) : Analysis Unit) config s).2

theorem program_run (calls : Calls) (p : Program) (errors : List SyntaxError) (config : Config)
    (s : State) :
    program calls p errors config s =
      topLevel calls p.statements config (afterReading config errors s) := by
  induction errors generalizing s with
  | nil => rfl
  | cons e es ih => exact ih _

theorem stateAfter_eq (config : Config) (source : String) (k : Nat) :
    stateAfter config source k =
      (topLevel (.nested (nestingBound (Program.parse source).1))
        ((Program.parse source).1.statements.take k) config
        (afterReading config (Program.parse source).2 .initial)).2 :=
  congrArg Prod.snd (program_run _ _ _ config .initial)

/-- Where the first fatal report ends the analysis, statements are run up to the first one in which there is a
fatal report, and none if there is one about reading the source. All fatal reports belong to that statement. -/
theorem failFast_stops (config : Config) (source : String) :
    let first := ofFirst config.failingFast source
    let length := (Program.parse source).1.statements.length
    ∃ k ≤ length, ofSource config.failingFast source = first k ∧
      (∀ j < k, (first j).fatalDiagnostics = []) ∧ (k < length → (first k).fatalDiagnostics ≠ []) := by
  intro first length
  obtain ⟨k, hk, hrun, hbefore, hstop⟩ :=
    topLevel_stops (.nested (nestingBound (Program.parse source).1)) (Program.parse source).1.statements
      config.failingFast (afterReading config.failingFast (Program.parse source).2 .initial)
  refine ⟨k, hk, ?_, fun j hj => ?_, fun hlt => ?_⟩
  · rw [← ofFirst_length]
    unfold first ofFirst
    rw [stateAfter_eq, stateAfter_eq, List.take_length, hrun]
  · have hrunning := hbefore j hj
    rw [← stateAfter_eq] at hrunning
    by_contra hfatal
    exact Bool.false_ne_true (hrunning.symm.trans ((halted_iff_fatal rfl source j).2 hfatal))
  · refine (halted_iff_fatal rfl source k).1 ?_
    rw [stateAfter_eq]
    exact hstop hlt

/-- A statement is not left at once when something fatal is reported in it: here the failure of a body, and
then that there is no result. -/
theorem failFast_reports_twice :
    (ofSource Config.default.failingFast
        "def f() -> int { x q; }\nint r = f();\n").fatalDiagnostics.map Diagnostic.text =
      ["1:18: error[undefined-symbol]: undefined name `q`",
        "2:1: error[type-mismatch]: subroutine `f` must return int[32]"] := by
  rw [ofSource_ofList]
  decide +kernel

end Ending

end Analysis
end OpenQasm
