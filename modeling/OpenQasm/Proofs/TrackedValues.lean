import OpenQasm.Proofs.FailFast

/-!
The states that occur in an analysis, between its statements, in their bodies and in the bodies of calls.
In all of them every value that is followed is one of the type that its symbol is declared with.
-/
namespace OpenQasm

namespace Analysis

/-- The state in which the arguments of a subroutine are declared. -/
def State.inBody (s : State) (name : String) : State :=
  { s with
    calls := name :: s.calls, scopes := s.scopes.enter .subroutineBody
    loopScope := none, callScope := some (s.scopes.enter .subroutineBody).depth }

/-- The state in which the parameters of a gate are declared. -/
def State.inGate (s : State) (name : String) : State :=
  { s with calls := name :: s.calls, scopes := s.scopes.enter .gateBody }

/-- The parts of statements in which calls can stand. -/
inductive Evaluation (calls : Calls) : {α : Type} → Analysis α → Prop
  | value (e : Expr) : Evaluation calls (fold calls e)
  | shown (e : Expr) : Evaluation calls (residualize calls e)
  | typed (e : Expr) : Evaluation calls (infer calls e)
  | type (t : TypeExpr) : Evaluation calls (resolveType calls t)
  | view (e : Expr) : Evaluation calls (viewOf calls e)
  | right (e : Expr) : Evaluation calls (rightValue calls e)
  | parameter (e : Expr) : Evaluation calls (toParameter calls e)
  | operations (call : GateCall) : Evaluation calls (expandCall calls call)
  | arguments (subroutine : String) (seen : List Nat) (bound : List (Formal × Expr)) :
      Evaluation calls (bindArguments calls subroutine seen bound)

/-- The states that occur in an analysis. -/
inductive Occurs (config : Config) : State → Prop
  | initial : Occurs config .initial
  | reported {s} (d : Diagnostic) : Occurs config s → Occurs config (report d config s).2
  /-- A statement starts at its place in the source. -/
  | starts {s} (span : Span) : Occurs config s → Occurs config { s with span }
  /-- A statement has done what it does, or it has failed. -/
  | performed {s} (n : Nat) (kind : StatementKind) : Occurs config s →
      Occurs config (perform (.nested n) kind config s).2
  | ends {s} (n : Nat) (st : Statement) : Occurs config s →
      Occurs config (statement (.nested n) st config s).2
  /-- A body of a statement starts. -/
  | enters {s n kind body t} : Occurs config s → Enters (.nested n) config kind s body t →
      Occurs config t
  | evaluated {s n β} {x : Analysis β} : Occurs config s → Evaluation (.nested n) x →
      Occurs config (x config s).2
  /-- The body of a subroutine starts. -/
  | called {s n args symbols t u} {d : SubroutineDefinition} : Occurs config s →
      bindArguments (.nested n) d.name [] (d.formals.zip args) config s = (.ok symbols, t) →
      declareAll symbols config (t.inBody d.name) = (.ok (), u) → Occurs config u
  /-- The body of a gate starts. -/
  | expanded {s name params qubits t} : Occurs config s →
      (bindParams params >>= fun _ => bindQubits qubits) config (s.inGate name) = (.ok (), t) →
      Occurs config t

variable {n : Nat} {calls : Calls} {config : Config} {s t : State} {α : Type}

section Steps

theorem Evaluation.orderly (h : calls.Orderly) {x : Analysis α} (hx : Evaluation calls x) :
    Orderly x := by
  cases hx with
  | value e => exact fold_orderly h e
  | shown e => exact residualize_orderly h e
  | typed e => exact infer_orderly h e
  | type t => exact resolveType_orderly h t
  | view e => exact viewOf_orderly h e
  | right e => exact rightValue_orderly h e
  | parameter e => exact toParameter_orderly h e
  | operations call => exact expandCall_orderly h call
  | arguments subroutine seen bound => exact bindArguments_orderly h subroutine bound seen

theorem transitions_inBody (s : State) (name : String) : Transitions config s (s.inBody name) :=
  transitions_enter .subroutineBody rfl

theorem transitions_inGate (s : State) (name : String) : Transitions config s (s.inGate name) :=
  transitions_enter .gateBody rfl

theorem transitions_opened (s : State) : Transitions config s s.opened := transitions_enter .block rfl

theorem transitions_closed (s t : State) : Transitions config t (s.closed t) := by
  have hreturns : Returns fun t => s.closed t := returns_exit (fun _ => rfl) fun _ _ => rfl
  exact hreturns.transitions config t

theorem transitions_inLoop (s : State) :
    Transitions config s { s with loopScope := some s.scopes.depth } := transitions_place rfl

theorem RoundStarts.transitions {round : Value → Analysis Signal} {values : List Value} {v : Value}
    {u : State} (h : RoundStarts round config values s v u)
    (hround : ∀ v ∈ values, Orderly (round v)) (hs : s.scopes.Sound) : Transitions config s u := by
  induction h with
  | first => exact .refl _
  | next hrun _ _ ih =>
    have hfirst := (hround _ List.mem_cons_self).transitions hs hrun
    exact hfirst.trans (ih (fun v hv => hround v (List.mem_cons_of_mem _ hv)) (hfirst.sound hs))

theorem RoundStarts.mem {round : Value → Analysis Signal} {values : List Value} {v : Value} {u : State}
    (h : RoundStarts round config values s v u) : v ∈ values := by
  induction h with
  | first => exact List.mem_cons_self
  | next _ _ _ ih => exact List.mem_cons_of_mem _ ih

theorem IterationStarts.transitions {condition : Analysis Bool} {round : Analysis Signal} {left : Nat}
    {u : State} (h : IterationStarts condition round config left s u)
    (hcondition : Orderly condition) (hround : Orderly round) (hs : s.scopes.Sound) :
    Transitions config s u := by
  induction h with
  | first hrun => exact hcondition.transitions hs hrun
  | next hholds hrun _ _ ih =>
    have hfirst := hcondition.transitions hs hholds
    have hsecond := hround.transitions (hfirst.sound hs) hrun
    exact (hfirst.trans hsecond).trans (ih ((hfirst.trans hsecond).sound hs))

/-- What is done before a body starts is a sequence of transitions. -/
theorem Enters.transitions {kind : StatementKind} {body : List Statement}
    (h : Enters (.nested n) config kind s body t) (hs : s.scopes.Sound) : Transitions config s t := by
  have hcalls := nested_orderly n
  cases h with
  | block => exact (Transition.enter .block).transitions
  | taken hfold htruth =>
    have hfirst := (fold_orderly hcalls _).transitions hs hfold
    have hsecond := (conditionTruth_orderly _).transitions (hfirst.sound hs) htruth
    exact (hfirst.trans hsecond).trans (Transition.enter .block).transitions
  | thenPart hfold hhead =>
    have hfirst := (fold_orderly hcalls _).transitions hs hfold
    have hsecond := (branchHead_orderly hcalls _ (materializeAll_orderly _)).transitions
      (hfirst.sound hs) hhead
    exact (hfirst.trans hsecond).trans (transitions_opened _)
  | elsePart hfold hhead hblock =>
    -- The body for the other case starts after the first one has been run and closed.
    have hfirst := (fold_orderly hcalls _).transitions hs hfold
    have hsecond := (branchHead_orderly hcalls _ (materializeAll_orderly _)).transitions
      (hfirst.sound hs) hhead
    have hopened := (hfirst.trans hsecond).trans (transitions_opened _)
    have hthen := hopened.trans ((block_orderly hcalls _).transitions (hopened.sound hs) hblock)
    exact (hthen.trans (transitions_closed _ _)).trans (transitions_opened _)
  | round htyped hstarts hdeclared =>
    -- The loop variable is declared anew in each round, after the rounds before have been run.
    obtain ⟨ht, hvalues⟩ := typedValues_inhabits htyped
    have hfirst := (typedValues_orderly hcalls _ _).transitions hs htyped
    have hinner := hfirst.trans (transitions_inLoop _)
    have hround := hinner.trans (hstarts.transitions
      (fun v hv => forRound_orderly _ ht (block_orderly hcalls _) (hvalues v hv)) (hinner.sound hs))
    have hentered := hround.trans (Transition.enter .block).transitions
    exact hentered.trans ((loopVariable_orderly _ ht (hvalues _ hstarts.mem)).transitions
      (hentered.sound hs) hdeclared)
  | iteration hstarts =>
    have hinner : Transitions config s _ := transitions_inLoop s
    have hround := hinner.trans (hstarts.transitions (whileCondition_orderly hcalls _)
      (inScope_orderly .block (block_orderly hcalls _)) (hinner.sound hs))
    exact hround.trans (Transition.enter .block).transitions

end Steps

section Occurring

/-- Every state that occurs is reached by transitions. -/
theorem Occurs.reachable (h : Occurs config s) : Reachable config s := by
  induction h with
  | initial => exact .refl _
  | reported d _ ih => exact ih.trans (Transition.report d).transitions
  | starts span _ ih => exact ih.trans (transitions_place rfl)
  | performed n kind _ ih =>
    have hperform := perform_orderly (nested_orderly n) kind fun body _ =>
      block_orderly (nested_orderly n) body
    exact ih.trans (hperform config _ ih.sound).transitions
  | ends n st _ ih =>
    exact ih.trans (statement_orderly (nested_orderly n) st config _ ih.sound).transitions
  | enters _ henters ih => exact ih.trans (henters.transitions ih.sound)
  | evaluated _ hx ih => exact ih.trans (hx.orderly (nested_orderly _) config _ ih.sound).transitions
  | @called _ _ _ _ t _ d _ hbound hdeclared ih =>
    have hfirst := ih.trans ((bindArguments_orderly (nested_orderly _) _ _ _).transitions ih.sound hbound)
    have hentered := hfirst.trans (transitions_inBody t d.name)
    have hsymbols := bindArguments_sound (nested_orderly _) ih.sound hbound
    exact hentered.trans ((declareAll_orderly hsymbols).transitions (Reachable.sound hentered) hdeclared)
  | @expanded u name params qubits _ _ hbound ih =>
    have hentered := ih.trans (transitions_inGate u name)
    have hparams := (bindParams_orderly params).bind fun _ => bindQubits_orderly qubits
    exact hentered.trans (hparams.transitions (Reachable.sound hentered) hbound)

theorem topLevel_occurs (n : Nat) (body : List Statement) (hs : Occurs config s) :
    Occurs config (topLevel (.nested n) body config s).2 := by
  induction body generalizing s with
  | nil => exact hs
  | cons st rest ih =>
    cases hhalted : s.halted with
    | true =>
      rw [topLevel_halted _ hhalted]
      exact hs
    | false =>
      rw [topLevel_cons_run st rest hhalted]
      exact ih (hs.ends n st)

theorem afterReading_occurs (errors : List SyntaxError) (hs : Occurs config s) :
    Occurs config (afterReading config errors s) := by
  induction errors generalizing s with
  | nil => exact hs
  | cons e es ih => exact ih (hs.reported (.ofSyntaxError e))

theorem stateAfterRead_occurs (config : Config) (r : Program × List SyntaxError) (k : Nat) :
    Occurs config (stateAfterRead config r k) := by
  unfold stateAfterRead
  rw [program_run]
  exact topLevel_occurs _ _ (afterReading_occurs _ .initial)

/-- The states between the statements of a source occur. -/
theorem stateAfter_occurs (config : Config) (source : String) (k : Nat) :
    Occurs config (stateAfter config source k) :=
  stateAfterRead_occurs config (Program.parse source) k

/-- In every state that occurs, such as those between the statements of a source, a value that is followed is
one of the type that its symbol is declared with. -/
theorem followed_inhabits (config : Config) :
    (∀ source k, Occurs config (stateAfter config source k)) ∧
      ∀ s, Occurs config s → ∀ x t v, s.scopes.Has x → x.type = some t → x.value = some v →
        t.Inhabits v := by
  refine ⟨stateAfter_occurs config, fun s hs x t v hx ht hv => ?_⟩
  exact ((hs.reachable.sound.symbol x hx).typed t ht).2 v hv

theorem eq_int_of_int? {v : Value} {n : Int64} (h : v.int? = some n) (h₀ : n ≠ 0) (h₁ : n ≠ 1) :
    v = .int n := by
  cases v with
  | int m => rw [Option.some.inj h]
  | bool b =>
    cases b with
    | false => exact absurd (Option.some.inj h).symm h₀
    | true => exact absurd (Option.some.inj h).symm h₁
  | _ => cases h

/-- A sum that does not fit the declared type is wrapped. -/
theorem followed_inhabits_wrapped :
    let s := stateAfter .default "int[8] n = 100;\nn += 100;\n" 2
    ∃ x, s.scopes.Has x ∧ x.type = some (.sized .int 8) ∧ x.value = some (.int (-56)) ∧
      (ClassicalType.sized .int 8).Inhabits (.int (-56)) := by
  intro s
  have hs : s = stateAfterRead .default _ 2 := stateAfter_ofList .default _ 2
  have hfound : (s.scopes.resolve? "n").any (fun x => x.type = some (.sized .int 8) &&
      x.value.bind Value.int? = some (-56)) = true := by
    rw [hs]
    decide +kernel
  obtain ⟨x, hx, hdeclared⟩ := (Option.any_eq_true _ _).1 hfound
  obtain ⟨htype, hvalue⟩ := (Bool.and_eq_true _ _ ▸ hdeclared : _ ∧ _)
  have htype := of_decide_eq_true htype
  obtain ⟨v, hv, hint⟩ := Option.bind_eq_some_iff.1 (of_decide_eq_true hvalue)
  have hvalue : x.value = some (.int (-56)) := eq_int_of_int? hint (by decide) (by decide) ▸ hv
  have hhas := Scopes.has_of_resolve? hx
  exact ⟨x, hhas, htype, hvalue,
    (followed_inhabits .default).2 s ((followed_inhabits .default).1 _ 2) x _ _ hhas htype hvalue⟩

end Occurring

end Analysis
end OpenQasm
