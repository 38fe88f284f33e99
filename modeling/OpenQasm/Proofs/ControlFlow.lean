import OpenQasm.Analysis.Statements
import OpenQasm.Proofs.Assignments

/-!
What surrounds the bodies of statements: loops, branches and the recovery from failures. Each of these
changes a part of the state that describes the place of a step, or takes output away, and puts it back on
every way out.
-/
namespace OpenQasm

namespace Analysis

variable {I J : Invariant} {α : Type} {x y : Analysis α} {post post' : α → State → Prop}

/-- A signal that is made of qubits that are there. -/
def SignalFits (I : Invariant) (signal : Signal) (s : State) : Prop :=
  signal.Fits I.toFacts s.registers

section Brackets

theorem inLoop_run (x : Analysis α) (config : Config) (s : State) :
    inLoop x config s =
      followedBy x (fun t => { t with loopScope := s.loopScope }) config
        { s with loopScope := some s.scopes.depth } := rfl

theorem inLoop_ensures (hx : Ensures I (fun _ => True) x y post)
    (hpost : ∀ a t loopScope, post a t → post a { t with loopScope }) :
    Ensures I (fun _ => True) (inLoop x) (inLoop y) post := by
  intro config s hs _
  have hentered : I.core { s with loopScope := some s.scopes.depth } := I.core_congr hs rfl rfl rfl rfl
  rw [inLoop_run, inLoop_run]
  refine followedBy_keeps (hx config _ hentered trivial) (fun _ => id) id ⟨rfl, rfl, rfl, rfl⟩
    (fun _ => ⟨rfl, rfl, rfl, rfl⟩) ?_ ?_ ?_ ?_
  · exact fun t hframe => hframe.inLoop
  · exact fun t _ ht => I.core_congr ht rfl rfl rfl rfl
  · exact fun t _ h => h
  · exact fun a t _ ha => hpost a t _ ha

/-- What runs in a block of its own, and hands its signal on. -/
structure Nests (I J : Invariant) : Prop extends Encloses I J .block where
  measured : ∀ r q, J.measured r q → I.measured r q

theorem Nests.signal (hnests : Nests I J) {signal : Signal} {s : State}
    (h : SignalFits J signal s) : SignalFits I signal s := by
  cases signal with
  | returned r =>
    cases r with
    | none => trivial
    | some v =>
      cases v with
      | measured qubits => exact fun q hq => hnests.measured _ q (h q hq)
      | known _ => trivial
      | runtime _ => trivial
  | normal => trivial
  | breakLoop => trivial
  | continueLoop => trivial

theorem block_inScope_ensures (hnests : Nests I J) {x y : Analysis Signal}
    (hx : Ensures J (fun _ => True) x y (SignalFits J)) :
    Ensures I (fun _ => True) (inScope .block x) (inScope .block y) (SignalFits I) :=
  inScope_ensures hnests.toEncloses hx fun _ _ _ h => hnests.signal h

theorem underRuntimeCondition_run (x : Analysis α) (config : Config) (s : State) :
    underRuntimeCondition x config s =
      followedBy x (fun t => { t with scopes := t.scopes.exit, runtimeFloor := s.runtimeFloor })
        config
        { s with
          scopes := s.scopes.enter .block
          runtimeFloor := some (s.scopes.enter .block).depth } := rfl

theorem underRuntimeCondition_agree {J : StatementInvariant} (hnests : Nests I J.toInvariant)
    (hx : Ensures J.toInvariant (fun _ => True) x y post) :
    Agree I (underRuntimeCondition x) (underRuntimeCondition y) := by
  intro config s hs _
  have hentered := hnests.entered s hs
  have hframe (t : State) (h : Frame
      { s with
        scopes := s.scopes.enter .block
        runtimeFloor := some (s.scopes.enter .block).depth } t) :
      Frame { s with scopes := s.scopes.enter .block } { t with runtimeFloor := s.runtimeFloor } :=
    { h with runtimeFloor := rfl }
  rw [underRuntimeCondition_run, underRuntimeCondition_run]
  refine followedBy_keeps (hx config _ (J.core_branch hentered) trivial) hnests.excuses
    hnests.tallied ⟨rfl, rfl, rfl, rfl⟩ (fun _ => ⟨rfl, rfl, rfl, rfl⟩) ?_ ?_ ?_ ?_
  · exact fun t h => (hframe t h).inScope
  · intro t h ht
    have hcore := J.core_floor hentered ht
    exact hnests.left s _ hs (hframe t h) hcore
  · exact fun t _ h => h.imp hnests.flat
  · exact fun _ _ _ _ => trivial

theorem collecting_run (x : Analysis α) (config : Config) (s : State) :
    collecting x config s =
      followedBy (x >>= fun a => get >>= fun t => pure (a, t.output.reverse))
        (fun t => { t with output := s.output }) config { s with output := [] } := rfl

/-- The flat statements that are collected are ones of the program. What is noted for them is not in tally
with the output before they are put out. -/
theorem collecting_ensures (htallied : ¬I.tallied) (hx : Agree I x y) :
    Ensures I (fun _ => True) (collecting x) (collecting y)
      (fun r s => ∀ f ∈ r.2, I.flat s.registers f) := by
  intro config s hs _
  have hentered : I.core { s with output := [] } := I.core_congr hs rfl rfl rfl rfl
  have hcollected : Ensures I (fun _ => True)
      (x >>= fun a => get >>= fun t => pure (a, t.output.reverse))
      (y >>= fun a => get >>= fun t => pure (a, t.output.reverse))
      (fun r t => r.2 = t.output.reverse) := by
    refine hx.andThen fun a => Ensures.get.bind fun t => Ensures.pure ?_
    rintro _ _ ⟨rfl, -⟩
    rfl
  obtain ⟨halike, hkeeps⟩ := hcollected config _ hentered trivial
  -- Nothing was put out when the step began, so that all that is there in the end is from the step.
  obtain ⟨added, hadded, hflat⟩ := hkeeps.putsOut
  rw [collecting_run, collecting_run]
  refine ⟨halike.followedBy fun _ => rfl, hkeeps.frame.collected, I.core_congr hkeeps.core rfl rfl rfl rfl,
    .nothing rfl, fun h => absurd h htallied, fun r hr f hf => ?_⟩
  have hf' := hkeeps.post r hr ▸ hf
  rw [List.mem_reverse, hadded, List.append_nil] at hf'
  exact hflat f hf'

/-- What a step with an output of its own leaves behind: what it notes and reports is in tally with that
output, which is not put out yet. -/
structure Collects (s : State) (result : Except Failure (α × List FlatStatement) × State) : Prop where
  output : result.2.output = s.output
  ok : ∀ r, result.1 = .ok r → result.2.Spoiled ∨ Tally s result.2 (FlatStatement.opsOf r.2)
  error : ∀ e, result.1 = .error e → Accounted result.2 e

theorem collecting_collects (hx : Agree I x y) (htallied : I.tallied) (config : Config) {s : State}
    (hs : I.core s) : Collects s (collecting x config s) := by
  have hentered : I.core { s with output := [] } := I.core_congr hs rfl rfl rfl rfl
  have htallies := (hx config _ hentered trivial).2.tallies htallied
  rw [collecting_run]
  unfold followedBy
  rw [run_bind]
  rcases hr : x config { s with output := [] } with ⟨e | a, t⟩
  · rw [hr] at htallies
    refine ⟨rfl, (fun _ h => nomatch h), ?_⟩
    rintro _ ⟨⟩
    have haccounted := htallies.error e rfl
    cases e <;> exact haccounted
  · rw [hr] at htallies
    refine ⟨rfl, ?_, fun _ h => nomatch h⟩
    rintro _ ⟨⟩
    refine (htallies.ok a rfl).imp_right ?_
    rintro ⟨added, hadded, htally⟩
    rw [hadded, List.append_nil]
    exact htally

/-- The parts of a branch are put out together, those of the first body before those of the second. -/
theorem branchParts_ensures {x x' y y' : Analysis Signal} (hx : Agree I x x') (hy : Agree I y y')
    (condition : Expr) (clbits : List Nat) :
    Ensures I (fun s => ∀ c ∈ clbits, I.place s.registers .classical c)
      (collecting x >>= fun thenPart => collecting y >>= fun elsePart =>
        emit (.branch condition clbits thenPart.2 elsePart.2) >>= fun _ => pure .normal)
      (collecting x' >>= fun thenPart => collecting y' >>= fun elsePart =>
        emit (.branch condition clbits thenPart.2 elsePart.2) >>= fun _ => pure .normal)
      (SignalFits I) := by
  have hthen := collecting_ensures (I := I.untallied) id hx.untallied
  have helse := collecting_ensures (I := I.untallied) id hy.untallied
  apply Ensures.tallying
  · have hstable := stable_places (I := I.untallied) .classical clbits
    apply (hthen.carrying hstable).bind
    intro thenPart
    have hflats : Stable fun s => ∀ f ∈ thenPart.2, I.flat s.registers f :=
      fun s t hframe h f hf => I.flat_mono hframe.registers (h f hf)
    refine (helse.carrying (hflats.and hstable)).bind fun elsePart => ?_
    refine Ensures.bind ((emit_ensures _ False.elim).mono ?_ fun _ _ _ h => h) fun _ =>
      Ensures.pure fun _ _ _ => trivial
    exact fun s _ h => I.flat_branch _ h.2.2 h.2.1 h.1
  · intro htallied config s hs _
    have hfirst := collecting_collects hx htallied config hs
    rw [run_bind]
    rcases hr : collecting x config s with ⟨e | thenPart, t⟩
    · rw [hr] at hfirst
      exact .throw (hfirst.error e rfl)
    rw [hr] at hfirst
    have hkeeps := hthen.keeps (I := I.untallied) hs trivial hr
    have hsecond := collecting_collects hy htallied config hkeeps.core
    dsimp only
    rw [run_bind]
    rcases hr' : collecting y config t with ⟨e | elsePart, u⟩
    · rw [hr'] at hsecond
      exact .throw (hsecond.error e rfl)
    rw [hr'] at hsecond
    have hkeeps' := helse.keeps (I := I.untallied) hkeeps.core trivial hr'
    refine ⟨fun _ _ => ?_, fun _ h => nomatch h⟩
    rcases hfirst.ok thenPart rfl with hspoiled | htally
    · have hstays : State.Spoiled u := hspoiled.mono hkeeps'.frame
      exact Or.inl hstays
    rcases hsecond.ok elsePart rfl with hspoiled | htally'
    · exact Or.inl hspoiled
    · refine Or.inr ⟨[.branch condition clbits thenPart.2 elsePart.2], ?_, ?_⟩
      · exact congrArg (List.cons _) (hsecond.output.trans hfirst.output)
      · have hops : FlatStatement.opsOf [FlatStatement.branch condition clbits thenPart.2 elsePart.2].reverse =
            FlatStatement.opsOf thenPart.2 ++ FlatStatement.opsOf elsePart.2 := List.append_nil _
        rw [hops]
        exact htally.trans htally'

end Brackets

section Recovery

/-- What is done about a failure when the output is taken back. -/
def recover : Failure → Analysis Signal
  | .statement d => do
    report d
    return .normal
  | .construct d => do
    report d
    throw .leaving
  | .leaving => throw .leaving
  | .reported => do if (← get).halted then throw .leaving else return .normal

/-- What fails because of an error is recovered from with the error reported. -/
theorem recover_ensures (failure : Failure) :
    Ensures I (fun s => I.tallied → Accounted s failure) (recover failure) (recover failure)
      (fun signal s => SignalFits I signal s ∧ (I.tallied → s.Spoiled)) := by
  cases failure with
  | statement d =>
    refine Ensures.mono (Ensures.assuming (p := I.tallied → d.severity = .error) fun hd => ?_)
      (fun _ _ h => h) fun _ _ _ h => h
    exact (report_ensures d hd).bind fun _ => Ensures.pure fun _ _ h => ⟨trivial, h⟩
  | construct d =>
    refine Ensures.mono (Ensures.assuming (p := I.tallied → d.severity = .error) fun hd => ?_)
      (fun _ _ h => h) fun _ _ _ h => h
    exact (report_ensures d hd).bind fun _ => Ensures.throw fun h _ hspoiled => hspoiled h
  | leaving => exact Ensures.throw fun h _ hspoiled => hspoiled h
  | reported =>
    refine Ensures.get.bind fun s => Ensures.ite (fun _ => Ensures.throw fun h _ hp => hp.2 h) fun _ => ?_
    exact Ensures.pure fun _ _ hp => ⟨trivial, hp.2⟩

theorem settled_run (span : Span) (x : Analysis Signal) (config : Config) (s : State) :
    settled span x config s =
      match x config { s with span } with
      | (.ok signal, t) => (.ok signal, { t with span := s.span })
      | (.error failure, t) =>
        recover failure config { t with span := s.span, output := s.output } := by
  have hrun : settled span x config s =
      settle s.output (x config { s with span }).1 config
        { (x config { s with span }).2 with span := s.span } := rfl
  rw [hrun]
  rcases x config { s with span } with ⟨failure | signal, t⟩
  · cases failure <;> rfl
  · rfl

section Settled

variable {calls : Calls} {config : Config} {kind : StatementKind} {span : Span} {s t : State}

/-- After a statement the place is that of the statement around it again. -/
theorem statement_ok {signal : Signal} (h : perform calls kind config { s with span } = (.ok signal, t)) :
    statement calls ⟨kind, span⟩ config s = (.ok signal, { t with span := s.span }) := by
  rw [statement, settled_run, h]

/-- The output of a statement that fails is taken back before anything is done about the failure. -/
theorem statement_failed {failure : Failure}
    (h : perform calls kind config { s with span } = (.error failure, t)) :
    statement calls ⟨kind, span⟩ config s =
      recover failure config { t with span := s.span, output := s.output } := by
  rw [statement, settled_run, h]

end Settled

/-- A failure is handed on after it is reported. -/
theorem settled_leaving (span : Span) (x : Analysis Signal) (config : Config) (s : State) (e : Failure)
    (h : (settled span x config s).1 = .error e) : e = .leaving := by
  rw [settled_run] at h
  rcases hr : x config { s with span } with ⟨failure | signal, t⟩
  · rw [hr] at h
    cases failure with
    | statement d => nomatch h
    | construct d =>
      cases h
      rfl
    | leaving =>
      cases h
      rfl
    | reported =>
      dsimp only [recover] at h
      rw [run_get] at h
      rcases hhalted : t.halted with - | -
      · rw [hhalted] at h
        nomatch h
      · rw [hhalted] at h
        cases h
        rfl
  · rw [hr] at h
    nomatch h

/-- A problem at which a statement drops the construct around is reported. -/
theorem meets_settled {problems : Problem → Prop} {span : Span} {x : Analysis Signal}
    {config : Config} {s : State} (h : Meets problems (x config { s with span })) :
    Meets problems (settled span x config s) := by
  rw [settled_run]
  rcases hr : x config { s with span } with ⟨failure | signal, t⟩
  · rw [hr] at h
    rcases h with ⟨d, hd, hfailure⟩ | ⟨d, hmem, hd⟩
    -- A dropped construct is reported by the recovery itself.
    · cases hfailure
      exact Or.inr ⟨d, List.mem_cons_self, hd⟩
    · refine Or.inr ⟨d, ?_, hd⟩
      cases failure with
      | statement d' => exact List.mem_cons_of_mem _ hmem
      | construct d' => exact List.mem_cons_of_mem _ hmem
      | leaving => exact hmem
      | reported =>
        dsimp only [recover]
        rw [run_get]
        cases t.halted <;> exact hmem
  · rw [hr] at h
    rcases h with ⟨d, -, hd⟩ | hreported
    · nomatch hd
    · exact Or.inr hreported

/-- A statement that fails takes its output back. -/
theorem settled_ensures (span : Span) {x y : Analysis Signal}
    (hx : Ensures I (fun _ => True) x y (SignalFits I)) :
    Ensures I (fun _ => True) (settled span x) (settled span y) (SignalFits I) := by
  intro config s hs _
  obtain ⟨halike, hframe, hcore, hputsOut, htallies, hpost⟩ :=
    hx config { s with span } (I.core_congr hs rfl rfl rfl rfl) trivial
  refine ⟨halike.elim (fun heq => ?_) fun h => Or.inr (meets_settled h), ?_⟩
  · rw [settled_run, settled_run, ← heq]
    exact Alike.refl _
  rw [settled_run]
  rcases hr : x config { s with span } with ⟨failure | signal, t⟩
  · rw [hr] at hframe hcore htallies
    have hback : Frame s { t with span := s.span, output := s.output } := hframe.atSpan.takenBack
    have hback' : I.core { t with span := s.span, output := s.output } := I.core_congr hcore rfl rfl rfl rfl
    -- Output that is taken back is not noted any more, but then there was an error.
    have haccounted (h : I.tallied) : Accounted { t with span := s.span, output := s.output } failure := by
      have haccounted := (htallies h).error failure rfl
      cases failure <;> exact haccounted
    obtain ⟨-, hkeeps⟩ := recover_ensures failure config _ hback' haccounted
    exact ⟨hback.trans hkeeps.frame, hkeeps.core, hkeeps.putsOut,
      fun h => ⟨fun a ha => Or.inl ((hkeeps.post a ha).2 h), (hkeeps.tallies h).error⟩,
      fun a ha => (hkeeps.post a ha).1⟩
  · rw [hr] at hframe hcore hputsOut htallies hpost
    exact ⟨hframe.atSpan, I.core_congr hcore rfl rfl rfl rfl, hputsOut,
      fun h => (htallies h).bracket ⟨rfl, rfl, rfl, rfl⟩ ⟨rfl, rfl, rfl, rfl⟩, hpost⟩

end Recovery

section Rounds

variable {x y : Analysis Signal}

theorem unroll_ensures {body body' : Value → Analysis Signal}
    (hbody : ∀ v, Ensures I (fun _ => True) (body v) (body' v) (SignalFits I)) (values : List Value) :
    Ensures I (fun _ => True) (unroll body values) (unroll body' values) (SignalFits I) := by
  induction values with
  | nil => exact Ensures.pure fun _ _ _ => trivial
  | cons v vs ih =>
    apply (hbody v).bind
    intro signal
    cases signal with
    | breakLoop => exact Ensures.pure fun _ _ _ => trivial
    | returned r => exact Ensures.pure fun _ _ h => h
    | normal => exact ih.forget
    | continueLoop => exact ih.forget

theorem iterate_ensures (limit : Nat) {condition condition' : Analysis Bool}
    (hcondition : Agree I condition condition')
    (hx : Ensures I (fun _ => True) x y (SignalFits I)) (left : Nat) :
    Ensures I (fun _ => True) (iterate limit condition x left) (iterate limit condition' y left)
      (SignalFits I) := by
  induction left with
  | zero =>
    refine hcondition.andThen fun go => Ensures.ite (fun _ => Ensures.failConstruct _ rfl) fun _ => ?_
    exact Ensures.pure fun _ _ _ => trivial
  | succ left ih =>
    refine hcondition.andThen fun go => Ensures.ite (fun _ => ?_) fun _ =>
      Ensures.pure fun _ _ _ => trivial
    apply hx.bind
    intro signal
    cases signal with
    | breakLoop => exact Ensures.pure fun _ _ _ => trivial
    | returned r => exact Ensures.pure fun _ _ h => h
    | normal => exact ih.forget
    | continueLoop => exact ih.forget

theorem conditionTruth_agree (v : Value) : Agree I (conditionTruth v) (conditionTruth v) := by
  unfold conditionTruth
  split
  · exact Agree.pure _
  · exact Agree.fail _ rfl

variable {weight : String → Nat} {k : Nat} {calls calls' : Calls}

theorem whileCondition_agree (h : CallsAgree I weight k calls calls') (e : Expr)
    (hk : weigh weight e.callees ≤ k) :
    Agree I (whileCondition calls e) (whileCondition calls' e) := by
  apply (fold_agree h e hk).bind
  intro v
  split
  · exact conditionTruth_agree _
  · exact Agree.failConstruct _ rfl

theorem loopBound_agree (h : CallsAgree I weight k calls calls') (e : Expr)
    (hk : weigh weight e.callees ≤ k) : Agree I (loopBound calls e) (loopBound calls' e) := by
  apply (fold_agree h e hk).bind
  intro v
  split
  · exact Agree.pure _
  · exact Agree.fail _ rfl
  · exact Agree.failConstruct _ rfl

theorem rangeValues_agree (h : CallsAgree I weight k calls calls') (r : RangeExpr)
    (hk : weigh weight r.callees ≤ k) : Agree I (rangeValues calls r) (rangeValues calls' r) := by
  obtain ⟨start, step, stop⟩ := r
  simp only [RangeExpr.callees, weigh_append] at hk
  cases start with
  | none => exact Agree.fail _ rfl
  | some start =>
    cases stop with
    | none => exact Agree.fail _ rfl
    | some stop =>
      simp only [optionCallees] at hk
      have hstart : weigh weight start.callees ≤ k := by omega
      have hstop : weigh weight stop.callees ≤ k := by omega
      apply (loopBound_agree h start hstart).bind
      intro first
      apply (loopBound_agree h stop hstop).bind
      intro last
      have hrounds (d : Int) : Agree I
          (if d = 0 then failConstruct .zeroLoopStep
            else read >>= fun config =>
              if roundCount first d last > config.maxLoopIterations then
                failConstruct (.loopLimit (roundCount first d last) config.maxLoopIterations)
              else pure ((Index.progression first d last).map fun n => Value.int (Int64.ofInt n)))
          (if d = 0 then failConstruct .zeroLoopStep
            else read >>= fun config =>
              if roundCount first d last > config.maxLoopIterations then
                failConstruct (.loopLimit (roundCount first d last) config.maxLoopIterations)
              else pure ((Index.progression first d last).map fun n => Value.int (Int64.ofInt n))) :=
        Agree.ite (Agree.failConstruct _ rfl)
          (Agree.read.bind fun config => Agree.ite (Agree.failConstruct _ rfl) (Agree.pure _))
      cases step with
      | none => exact (Agree.pure 1).bind hrounds
      | some step =>
        simp only [optionCallees] at hk
        have hstep : weigh weight step.callees ≤ k := by omega
        exact (loopBound_agree h step hstep).bind hrounds

theorem setValues_agree (h : CallsAgree I weight k calls calls') (es : List Expr)
    (hk : weigh weight (exprsCallees es) ≤ k) :
    Agree I (setValues calls es) (setValues calls' es) := by
  induction es with
  | nil => exact Agree.pure _
  | cons e es ih =>
    simp only [exprsCallees, weigh_append] at hk
    have he : weigh weight e.callees ≤ k := by omega
    have hes : weigh weight (exprsCallees es) ≤ k := by omega
    unfold setValues
    apply (fold_agree h e he).bind
    intro v
    split
    · exact (ih hes).bind fun _ => Agree.pure _
    · exact Agree.failConstruct _ rfl

theorem loopValues_agree (h : CallsAgree I weight k calls calls') (values : LoopValues)
    (hk : weigh weight values.callees ≤ k) :
    Agree I (loopValues calls values) (loopValues calls' values) := by
  cases values with
  | range r => exact rangeValues_agree h r hk
  | set items => exact setValues_agree h items hk
  | array e =>
    apply (fold_agree h e hk).bind
    intro v
    split
    · exact Agree.pure _
    · exact Agree.fail _ rfl
    · exact Agree.failConstruct _ rfl

theorem typedValues_agree (h : CallsAgree I weight k calls calls') (type : Option TypeExpr)
    (values : LoopValues) (hk : weigh weight (typeCallees type ++ values.callees) ≤ k) :
    Agree I (typedValues calls type values) (typedValues calls' type values) := by
  rw [weigh_append] at hk
  have hvalues : weigh weight values.callees ≤ k := by omega
  apply (loopValues_agree h values hvalues).bind
  intro vs
  have htyped (t : ClassicalType) : Agree I
      (vs.mapM (coerceTo t) >>= fun ws => pure (t, ws))
      (vs.mapM (coerceTo t) >>= fun ws => pure (t, ws)) :=
    (Agree.mapM vs fun v _ => coerceTo_agree t v).bind fun _ => Agree.pure _
  cases type with
  | none => exact (Agree.pure _).bind htyped
  | some type =>
    rw [typeCallees] at hk
    have htype : weigh weight type.callees ≤ k := by omega
    exact (resolveType_agree h type htype).bind htyped

end Rounds

end Analysis
end OpenQasm
