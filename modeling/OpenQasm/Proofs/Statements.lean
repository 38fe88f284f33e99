import OpenQasm.Proofs.ControlFlow
import OpenQasm.Proofs.Declarations

/-!
Statements. Two expansions of definitions that agree on the calls in a statement agree on the statement,
and an invariant that both keep is kept by it. The bodies of a statement run in scopes of their own, where
another invariant may hold.
-/
namespace OpenQasm

theorem Statement.callees_eq (s : Statement) : s.callees = s.kind.callees := by
  cases s
  rfl

/-- The bodies that run as a part of a statement. -/
def StatementKind.bodies : StatementKind → List (List Statement)
  | .branch _ thenBody none => [thenBody]
  | .branch _ thenBody (some elseBody) => [thenBody, elseBody]
  | .forLoop _ _ _ body | .whileLoop _ body | .block body => [body]
  | _ => []

/-- A body is smaller than its statement. -/
theorem StatementKind.sizeOf_body {kind : StatementKind} {body : List Statement}
    (h : body ∈ kind.bodies) : sizeOf body < sizeOf kind := by
  unfold bodies at h
  split at h
  · simp only [List.mem_singleton] at h
    simp only [h, branch.sizeOf_spec]
    omega
  · simp only [List.mem_cons, List.not_mem_nil, or_false] at h
    rcases h with rfl | rfl
    · simp only [branch.sizeOf_spec]
      omega
    · simp only [branch.sizeOf_spec, Option.some.sizeOf_spec]
      omega
  · simp only [List.mem_singleton] at h
    simp only [h, forLoop.sizeOf_spec]
    omega
  · simp only [List.mem_singleton] at h
    simp only [h, whileLoop.sizeOf_spec]
    omega
  · simp only [List.mem_singleton] at h
    simp only [h, block.sizeOf_spec]
    omega
  · nomatch h

/-- The calls in a body are calls in its statement. -/
theorem StatementKind.weigh_body (weight : String → Nat) {kind : StatementKind}
    {body : List Statement} (h : body ∈ kind.bodies) :
    weigh weight (bodyCallees body) ≤ weigh weight kind.callees := by
  unfold bodies at h
  split at h
  · simp only [List.mem_singleton] at h
    simp only [h, callees, weigh_append]
    omega
  · simp only [List.mem_cons, List.not_mem_nil, or_false] at h
    simp only [callees, weigh_append]
    rcases h with rfl | rfl <;> omega
  · simp only [List.mem_singleton] at h
    simp only [h, callees, weigh_append]
    omega
  · simp only [List.mem_singleton] at h
    simp only [h, callees, weigh_append]
    omega
  · simp only [List.mem_singleton] at h
    simp only [h, callees]
    omega
  · exact absurd h List.not_mem_nil

namespace Analysis

section Leaves

variable {I : Invariant} {W : WritingInvariant}

theorem includeFile_agree (path : String) : Agree I (includeFile path) (includeFile path) :=
  Agree.ite (Agree.pure _) (Agree.fail _ rfl)

theorem resetEach_ensures (qubits : List Nat) :
    Ensures I (fun s => ∀ q ∈ qubits, I.place s.registers .quantum q) (resetEach qubits)
      (resetEach qubits) (fun _ _ => True) := by
  induction qubits with
  | nil => exact Ensures.pure fun _ _ _ => trivial
  | cons q qs ih =>
    have hstable := stable_places (I := I) .quantum qs
    have hop := (useQubit_ensures (I := I) (.reset q) rfl (Or.inr ⟨rfl, rfl⟩)).carry hstable
    unfold resetEach
    rw [← bind_assoc]
    refine Ensures.bind (hop.mono ?_ fun _ _ _ h => h.2) fun _ => ih
    intro s _ h
    rw [List.forall_mem_cons] at h
    exact ⟨⟨I.flat_reset h.1, I.measured_place h.1⟩, h.2⟩

theorem needsName_iff {x : Symbol} :
    needsName x = true ↔ x.kind = .classicalVariable ∧ x.mutable = true ∧ x.emitName = none := by
  simp only [needsName, Bool.and_eq_true, decide_eq_true_eq, Option.isNone_iff_eq_none, and_assoc]

theorem materializeTarget_agree (target : Expr) :
    Agree W.toInvariant (materializeTarget target) (materializeTarget target) := by
  unfold materializeTarget
  split
  · exact Agree.pure _
  · next root _ =>
    refine (resolve?_ensures root).bind fun x => Ensures.ite (fun hx => ?_) fun _ =>
      Ensures.pure fun _ _ _ => trivial
    refine Ensures.bind ((materialize_ensures root (fun _ => True) True).mono ?_ fun _ _ _ h => h)
      fun _ => Ensures.pure fun _ _ _ => trivial
    rintro s hs ⟨hresolve, -⟩
    cases x with
    | none => nomatch hx
    | some x =>
      rw [Option.any_some, needsName_iff] at hx
      obtain ⟨hkind, hmutable, hnone⟩ := hx
      exact ⟨⟨x, hresolve, hkind, hnone, trivial, .inr (.inr trivial)⟩,
        fun _ => W.writable_of_resolve hs hresolve (.inl hkind) hmutable⟩

mutual

theorem materializeTargets_agree : ∀ s : Statement,
    Agree W.toInvariant (materializeTargets s) (materializeTargets s)
  | ⟨kind, _⟩ => materializeTargetsOf_agree kind

theorem materializeTargetsOf_agree : ∀ kind : StatementKind,
    Agree W.toInvariant (materializeTargetsOf kind) (materializeTargetsOf kind)
  | .assign target _ _ => materializeTarget_agree target
  | .branch _ thenBody none => materializeAll_agree thenBody
  | .branch _ thenBody (some elseBody) =>
    (materializeAll_agree thenBody).bind fun _ => materializeAll_agree elseBody
  | .forLoop _ _ _ body | .whileLoop _ body | .block body => materializeAll_agree body
  | .includeFile _ | .qubits _ _ | .classical _ | .alias _ _ | .gate _ | .measure _ _ | .reset _
  | .barrier _ | .breakLoop | .continueLoop | .returnValue _ | .defineSubroutine _ | .defineGate _
  | .evaluate _ | .pragma _ | .annotated _ _ => Agree.pure _

theorem materializeAll_agree : ∀ body : List Statement,
    Agree W.toInvariant (materializeAll body) (materializeAll body)
  | [] => Agree.pure _
  | s :: ss => (materializeTargets_agree s).bind fun _ => materializeAll_agree ss

end

theorem jump_ensures (signal : Signal) (keyword : String)
    (hsignal : signal = .breakLoop ∨ signal = .continueLoop) :
    Ensures I (fun _ => True) (jump signal keyword) (jump signal keyword) (SignalFits I) := by
  apply Agree.get.andThen
  intro s
  split
  · exact Ensures.fail _ rfl
  · next scope _ =>
    refine (branchedSince_agree scope).andThen fun _ => Ensures.ite (fun _ => Ensures.fail _ rfl) ?_
    rcases hsignal with rfl | rfl <;> exact fun _ => Ensures.pure fun _ _ _ => trivial

theorem thenNext_ensures {x y : Analysis Unit} (hx : Agree I x y) :
    Ensures I (fun _ => True) (thenNext x) (thenNext y) (SignalFits I) :=
  hx.andThen fun _ => Ensures.pure fun _ _ _ => trivial

/-- The operations of a gate call are appended one by one. -/
theorem emitAll_ensures (ops : List Instruction) :
    Ensures I (OpsFit I ops) (ops.forM emitOp) (ops.forM emitOp) (fun _ _ => True) := by
  induction ops with
  | nil => exact Ensures.pure fun _ _ _ => trivial
  | cons i is ih =>
    have hop (hi : I.tallied → i.Unnoted) := (emit_ensures (I := I) (.op i) fun h =>
      List.forall_mem_singleton.2 (hi h)).carry (stable_opsFit (I := I) is)
    have hcons : (i :: is).forM emitOp = emitOp i >>= fun _ => is.forM emitOp := rfl
    rw [hcons]
    refine Ensures.bind ((Ensures.given hop).mono ?_ fun _ _ _ h => h.2) fun _ => ih
    intro s _ h
    obtain ⟨⟨qubits, hplaces, hi⟩, his⟩ := List.forall_mem_cons.1 h
    exact ⟨fun h => I.tallied_gate h hi, I.flat_gate hplaces hi, his⟩

/-- The bits of the registers that a name stands for are there. -/
theorem bitsOf_places {s : State} (hs : I.core s) (name : String) :
    ∀ c ∈ bitsOf s name, I.place s.registers .classical c := by
  unfold bitsOf
  split
  · next v hv =>
    obtain ⟨x, hx, hbinding⟩ := Option.map_eq_some_iff.1 hv
    exact fun c hc => I.view_place (I.resolves_clbits hs hx hbinding) hc
  · exact fun _ h => nomatch h

mutual

theorem readBits_places {s : State} (hs : I.core s) : ∀ e : Expr,
    ∀ c ∈ readBits s e, I.place s.registers .classical c
  | .name n => bitsOf_places hs n
  | .index base _ => readBits_places hs base
  | .unary _ e | .cast _ e | .paren e => readBits_places hs e
  | .binary l _ r => List.forall_mem_append.2 ⟨readBits_places hs l, readBits_places hs r⟩
  | .call _ items | .array items => readBitsAll_places hs items
  | .int _ | .float _ | .imaginary _ | .bool _ | .bits _ | .duration _ _ | .constant _
  | .measure _ => fun _ h => nomatch h

theorem readBitsAll_places {s : State} (hs : I.core s) : ∀ es : List Expr,
    ∀ c ∈ readBitsAll s es, I.place s.registers .classical c
  | [] => fun _ h => nomatch h
  | e :: es => List.forall_mem_append.2 ⟨readBits_places hs e, readBitsAll_places hs es⟩

end

end Leaves

section Branches

variable {I : Invariant} {W : WritingInvariant} {J : StatementInvariant} {weight : String → Nat}
  {k : Nat} {calls calls' : Calls}

theorem evaluate_agree (h : CallsAgree W.toInvariant weight k calls calls') (e : Expr)
    (hk : weigh weight e.callees ≤ k) :
    Agree W.toInvariant (evaluate calls e) (evaluate calls' e) := by
  rw [← unparen_callees] at hk
  unfold evaluate
  split
  · next f args he =>
    rw [he] at hk
    refine (subroutine?_ensures f).bind fun d => Ensures.assuming fun hd => ?_
    split
    · next d =>
      refine (h.subroutine f d args (hd d rfl) ?_).bind fun r => ?_
      · simpa only [Expr.callees, weigh_cons] using hk
      · split
        · exact (measureOnly_ensures _).mono (fun _ _ hr => hr _ rfl) fun _ _ _ h => h
        · exact Ensures.pure fun _ _ _ => trivial
    · exact (fold_agree h _ hk).bind fun _ => Agree.pure _
  · next operand he =>
    rw [he] at hk
    apply measure_agree h operand none
    simpa only [Expr.callees, optionCallees, List.append_nil] using hk
  · exact (fold_agree h _ hk).bind fun _ => Agree.pure _

theorem handBack_ensures (h : CallsAgree I weight k calls calls') (value : Option Expr)
    (hk : weigh weight (optionCallees value) ≤ k) :
    Ensures I (fun _ => True) (handBack calls value) (handBack calls' value) (SignalFits I) := by
  apply Agree.get.andThen
  intro s
  split
  · exact Ensures.fail _ rfl
  · next scope _ =>
    refine (branchedSince_agree scope).andThen fun _ => Ensures.ite (fun _ => Ensures.fail _ rfl)
      fun _ => ?_
    cases value with
    | none => exact Ensures.pure fun _ _ _ => trivial
    | some e => exact (rightValue_ensures h e hk).bind fun _ => Ensures.pure fun _ _ hv => hv

theorem runtimeBranch_ensures (h : CallsAgree I weight k calls calls') (hnests : Nests I J.toInvariant)
    (condition : Expr) (hk : weigh weight condition.callees ≤ k) {assigned : Analysis Unit}
    (hassigned : Agree I assigned assigned) {thenBody thenBody' elseBody elseBody' : Analysis Signal}
    (hthen : Ensures J.toInvariant (fun _ => True) thenBody thenBody' (SignalFits J.toInvariant))
    (helse : Ensures J.toInvariant (fun _ => True) elseBody elseBody' (SignalFits J.toInvariant)) :
    Ensures I (fun _ => True) (runtimeBranch calls condition assigned thenBody elseBody)
      (runtimeBranch calls' condition assigned thenBody' elseBody') (SignalFits I) := by
  apply (residualize_agree h condition hk).andThen
  intro shown
  -- The bits of the condition are taken first and have to outlast both bodies.
  have hbits : Ensures I (fun _ => True) get get
      (fun s t => ∀ c ∈ (readBits s condition).eraseDups, I.place t.registers .classical c) := by
    apply Ensures.get.weaken
    rintro _ s hs ⟨rfl, -⟩ c hc
    exact readBits_places hs condition c (List.mem_eraseDups.1 hc)
  apply hbits.bind
  intro s
  have hstable := stable_places (I := I) .classical (readBits s condition).eraseDups
  apply (hassigned.carrying hstable).bind
  intro _
  exact branchParts_ensures (underRuntimeCondition_agree hnests hthen)
    (underRuntimeCondition_agree hnests helse) shown (readBits s condition).eraseDups

theorem branch_ensures (h : CallsAgree I weight k calls calls') (hnests : Nests I J.toInvariant)
    (condition : Expr) (hk : weigh weight condition.callees ≤ k) {assigned : Analysis Unit}
    (hassigned : Agree I assigned assigned) {thenBody thenBody' elseBody elseBody' : Analysis Signal}
    (hthen : Ensures J.toInvariant (fun _ => True) thenBody thenBody' (SignalFits J.toInvariant))
    (helse : Ensures J.toInvariant (fun _ => True) elseBody elseBody' (SignalFits J.toInvariant)) :
    Ensures I (fun _ => True) (branch calls condition assigned thenBody elseBody)
      (branch calls' condition assigned thenBody' elseBody') (SignalFits I) := by
  apply (fold_agree h condition hk).andThen
  intro v
  split
  · exact runtimeBranch_ensures h hnests condition hk hassigned hthen helse
  · refine (conditionTruth_agree _).andThen fun _ => Ensures.ite (fun _ => ?_) fun _ => ?_
    · exact block_inScope_ensures hnests hthen
    · exact block_inScope_ensures hnests helse

end Branches

section Performing

variable {I J : StatementInvariant} {weight : String → Nat} {k : Nat}
  {calls calls' : Calls}

theorem barrier_agree (h : CallsAgree I.toInvariant weight k calls calls') (operands : List Expr)
    (hk : weigh weight (exprsCallees operands) ≤ k) :
    Agree I.toInvariant (barrier calls operands) (barrier calls' operands) := by
  have hqubits : Ensures I.toInvariant (fun _ => True) (barrierQubits calls operands)
      (barrierQubits calls' operands)
      (fun qs s => (∀ q ∈ qs, I.place s.registers .quantum q) ∧ qs.Nodup) := by
    -- Without operands, the barrier is on all qubits of the program.
    refine Ensures.ite (fun _ => ?_) fun _ => ?_
    · refine Ensures.get.bind fun s => Ensures.pure ?_
      rintro _ hs ⟨rfl, -⟩
      exact ⟨fun q hq => I.place_declared hs (List.mem_range.1 hq), List.nodup_range⟩
    · have hoperands := Ensures.mapM (fun qs => stable_places (I := I.toInvariant) .quantum qs)
        operands fun e he => quantumQubits_ensures h e (Nat.le_trans (weigh_le_of_mem weight he) hk)
      refine hoperands.bind fun qss => Ensures.pure ?_
      rintro s _ ⟨-, hplaces⟩
      refine ⟨fun q hq => ?_, nodup_eraseDups _⟩
      obtain ⟨qs, hqs, hq⟩ := List.mem_flatten.1 (List.mem_eraseDups.1 hq)
      exact hplaces qs hqs q hq
  apply hqubits.bind
  intro qs
  split
  · exact Ensures.pure fun _ _ _ => trivial
  · next hsome =>
    have hbarrier : ∀ i ∈ (FlatStatement.op (.barrier qs)).ops, i.Unnoted :=
      List.forall_mem_singleton.2 ⟨rfl, rfl⟩
    exact (emit_ensures _ fun _ => hbarrier).mono (fun s _ h => I.flat_barrier hsome h.1 h.2) fun _ _ _ h => h

theorem perform_ensures (h : CallsAgree I.toInvariant weight k calls calls')
    (hnests : Nests I.toInvariant J.toInvariant) (kind : StatementKind) (hk : weigh weight kind.callees ≤ k)
    (hdefines : ∀ d, kind = .defineSubroutine d →
      Agree I.toInvariant (defineSubroutine d) (defineSubroutine d))
    (hgates : ∀ d, kind = .defineGate d → Agree I.toInvariant (defineGate d) (defineGate d))
    (hbodies : ∀ body ∈ kind.bodies,
      Ensures J.toInvariant (fun _ => True) (block calls body) (block calls' body) (SignalFits J.toInvariant)) :
    Ensures I.toInvariant (fun _ => True) (perform calls kind) (perform calls' kind)
      (SignalFits I.toInvariant) := by
  cases kind with
  | includeFile path => exact thenNext_ensures (includeFile_agree path)
  | qubits name size => exact thenNext_ensures (declareQubits_agree h name size hk)
  | classical d => exact thenNext_ensures (declareClassical_agree h d hk)
  | «alias» name value => exact thenNext_ensures (declareAlias_agree h name value hk)
  | gate call =>
    exact thenNext_ensures ((expandCall_ensures h call hk).bind fun ops => emitAll_ensures ops)
  | measure operand target => exact thenNext_ensures (measure_agree h operand target hk)
  | reset operand =>
    exact thenNext_ensures ((quantumQubits_ensures h operand hk).bind fun qs => resetEach_ensures qs)
  | barrier operands => exact thenNext_ensures (barrier_agree h operands hk)
  | branch condition thenBody elseBody =>
    have hcondition : weigh weight condition.callees ≤ k := by
      cases elseBody <;> simp only [StatementKind.callees, weigh_append] at hk <;> omega
    cases elseBody with
    | none =>
      have hthen := hbodies thenBody List.mem_cons_self
      exact branch_ensures h hnests condition hcondition (materializeAll_agree thenBody) hthen
        (Ensures.pure fun _ _ _ => trivial)
    | some elseBody =>
      have hthen := hbodies thenBody List.mem_cons_self
      have helse := hbodies elseBody (List.mem_cons_of_mem _ List.mem_cons_self)
      exact branch_ensures h hnests condition hcondition (materializeAll_agree _) hthen helse
  | forLoop type name values body =>
    have hbody := hbodies body List.mem_cons_self
    rw [StatementKind.callees, weigh_append] at hk
    have hvalues : weigh weight (typeCallees type ++ values.callees) ≤ k := by omega
    unfold perform
    apply (typedValues_agree h type values hvalues).andThen
    intro typed
    -- Each round is a block of its own in which the variable is declared anew.
    refine inLoop_ensures (unroll_ensures (fun v => block_inScope_ensures hnests ?_) typed.2)
      fun _ _ _ h => h
    have hvariable : Ensures J.toInvariant (fun _ => True) (loopVariable name typed.1 v)
        (loopVariable name typed.1 v)
        (fun x s => J.symbol s.registers x ∧ (x.Targeted J.toFacts s.registers ∨ s.scopes.InBody)) :=
      (newSymbol_ensures (fun _ => True) name .classicalVariable).bind fun x =>
        Ensures.pure fun _ _ hx => ⟨J.symbol_none hx.1.binding hx.1.targeted, .inl hx.1.targeted⟩
    exact hvariable.bind fun x => (declare_ensures x).bind fun _ => hbody.forget
  | whileLoop condition body =>
    have hbody := hbodies body List.mem_cons_self
    rw [StatementKind.callees, weigh_append] at hk
    have hcondition : weigh weight condition.callees ≤ k := by omega
    unfold perform
    refine Agree.read.andThen fun config => inLoop_ensures ?_ fun _ _ _ h => h
    exact iterate_ensures _ (whileCondition_agree h condition hcondition)
      (block_inScope_ensures hnests hbody) _
  | breakLoop => exact jump_ensures _ _ (Or.inl rfl)
  | continueLoop => exact jump_ensures _ _ (Or.inr rfl)
  | returnValue value => exact handBack_ensures h value hk
  | block body => exact block_inScope_ensures hnests (hbodies body List.mem_cons_self)
  | defineSubroutine d => exact thenNext_ensures (hdefines d rfl)
  | defineGate d => exact thenNext_ensures (hgates d rfl)
  | assign target op value => exact thenNext_ensures (assign_ensures h target op value hk).agree
  | evaluate e => exact thenNext_ensures (evaluate_agree h e hk)
  | pragma text =>
    exact thenNext_ensures ((emit_ensures (.pragma text) fun _ => nofun).mono (fun s _ _ => I.flat_pragma s.registers text)
      fun _ _ _ h => h)
  | annotated _ _ => exact Ensures.pure fun _ _ _ => trivial

/-- A statement at its place in the source. -/
theorem statement_ensures (h : CallsAgree I.toInvariant weight k calls calls')
    (hnests : Nests I.toInvariant J.toInvariant) (s : Statement) (hk : weigh weight s.callees ≤ k)
    (hdefines : ∀ d, s.kind = .defineSubroutine d →
      Agree I.toInvariant (defineSubroutine d) (defineSubroutine d))
    (hgates : ∀ d, s.kind = .defineGate d → Agree I.toInvariant (defineGate d) (defineGate d))
    (hbodies : ∀ body ∈ s.kind.bodies,
      Ensures J.toInvariant (fun _ => True) (block calls body) (block calls' body) (SignalFits J.toInvariant)) :
    Ensures I.toInvariant (fun _ => True) (statement calls s) (statement calls' s)
      (SignalFits I.toInvariant) := by
  obtain ⟨kind, span⟩ := s
  exact settled_ensures span (perform_ensures h hnests kind hk hdefines hgates hbodies)

/-- Statements in scopes where one invariant holds throughout. The induction is on the statements; what
bodies do is known for the smaller ones. -/
theorem block_ensures (h : CallsAgree I.toInvariant weight k calls calls')
    (hnests : Nests I.toInvariant I.toInvariant)
    (hdefines : ∀ d, Agree I.toInvariant (defineSubroutine d) (defineSubroutine d))
    (hgates : ∀ d, Agree I.toInvariant (defineGate d) (defineGate d)) (body : List Statement)
    (hk : weigh weight (bodyCallees body) ≤ k) :
    Ensures I.toInvariant (fun _ => True) (block calls body) (block calls' body)
      (SignalFits I.toInvariant) := by
  match body with
  | [] => exact Ensures.pure fun _ _ _ => trivial
  | s :: ss =>
    rw [bodyCallees, weigh_append] at hk
    have hs : weigh weight s.callees ≤ k := by omega
    have hss : weigh weight (bodyCallees ss) ≤ k := by omega
    have hstatement := statement_ensures h hnests s hs (fun d _ => hdefines d)
      (fun d _ => hgates d) fun body hbody =>
        have hsize := StatementKind.sizeOf_body hbody
        have hweigh := StatementKind.weigh_body weight hbody
        have hcallees := congrArg (weigh weight) s.callees_eq
        block_ensures h hnests hdefines hgates body (by omega)
    have hrest := block_ensures h hnests hdefines hgates ss hss
    unfold block
    refine Ensures.get.bind fun t => Ensures.ite (fun hhalted => ?_) fun _ => ?_
    · have hspoiled (u : State) (hu : t = u ∧ True) : u.Spoiled := Or.inl (hu.1 ▸ hhalted)
      exact (Ensures.throw (q := fun _ _ => False) fun _ => hspoiled).bind fun _ _ _ _ hf => hf.elim
    apply hstatement.forget.bind
    intro signal
    cases signal with
    | normal => exact hrest.forget
    | breakLoop => exact Ensures.pure fun _ _ h => h
    | continueLoop => exact Ensures.pure fun _ _ h => h
    | returned r => exact Ensures.pure fun _ _ h => h
termination_by sizeOf body
-- A body is a part of its statement, and the rest of the statements is a part of them all.
decreasing_by
  · simp only [List.cons.sizeOf_spec]
    have hkind : sizeOf s.kind < sizeOf s := by
      cases s
      simp only [Statement.mk.sizeOf_spec]
      omega
    omega
  · simp only [List.cons.sizeOf_spec]
    omega

end Performing

/-- Without any expansion all calls fail. -/
theorem nested_zero_agree (I : Invariant) : CallsAgree I (fun _ => 0) 0 (.nested 0) (.nested 0) :=
  ⟨fun _ _ _ _ _ => Ensures.failConstruct _ rfl, fun _ _ _ _ _ _ => Agree.failConstruct _ rfl,
    fun _ _ _ _ _ _ _ => Ensures.failConstruct _ rfl⟩

end Analysis
end OpenQasm
