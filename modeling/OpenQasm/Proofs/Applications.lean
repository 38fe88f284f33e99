import OpenQasm.Proofs.Instructions
import OpenQasm.Proofs.Residuals

/-!
Applications of gates. Whatever the modifiers do with the operations of a gate, these stay operations on
the operands of the application, which are all different.
-/
namespace OpenQasm

namespace Analysis

variable {I : Invariant} {pre : State → Prop}

/-- All operations are ones of a gate on qubits. -/
def OpsOn (I : Invariant) (qubits : List Nat) (ops : List Instruction) : Prop :=
  ∀ i ∈ ops, I.op qubits i

/-- All operations are ones of gates on qubits that are there. -/
def OpsFit (I : Invariant) (ops : List Instruction) (s : State) : Prop :=
  ∀ i ∈ ops, ∃ qubits, (∀ q ∈ qubits, I.place s.registers .quantum q) ∧ I.op qubits i

theorem stable_opsFit (ops : List Instruction) : Stable (OpsFit I ops) := by
  intro s t hframe h i hi
  obtain ⟨qubits, hplaces, hop⟩ := h i hi
  exact ⟨qubits, stable_places .quantum qubits s t hframe hplaces, hop⟩

section Operations

variable {qubits : List Nat} {ops : List Instruction}

theorem invert_ensures (h : OpsOn I qubits ops) :
    Ensures I pre (invert ops) (invert ops) (fun ops _ => OpsOn I qubits ops) := by
  have hinverse : ∀ i ∈ ops.reverse, Ensures I (fun _ => True) (inverseOf i) (inverseOf i)
      (fun j _ => I.op qubits j) := by
    intro i hi
    have hop := h i (List.mem_reverse.1 hi)
    unfold inverseOf
    split
    · next j hj => exact Ensures.pure fun _ _ _ => I.op_inverse hop hj
    · exact Ensures.fail _ rfl
  refine Ensures.forget ((Ensures.mapM (fun _ => stable_const _) _ hinverse).weaken ?_)
  exact fun ops _ _ hops => hops.2

theorem checkDistinct_ensures (gate : String) (qubits : List Nat) :
    Ensures I pre (checkDistinct gate qubits) (checkDistinct gate qubits)
      (fun _ s => qubits.Nodup ∧ pre s) := by
  unfold checkDistinct
  split
  · exact (qubitLabel_agree _).forget.bind fun _ => Ensures.fail _ rfl
  · next hnone =>
    exact Ensures.pure fun s _ h => ⟨(Instruction.firstRepeated_eq_none.1 hnone).1, h⟩

theorem gateOn_ensures {g : Except OperationError Gate} (qubits : List Nat)
    (hg : ∀ h, g = .ok h → h.params.length = h.kind.params) :
    Ensures I pre (gateOn g qubits) (gateOn g qubits) (fun ops _ => OpsOn I qubits ops) := by
  unfold gateOn
  rcases g with e | g
  · exact Ensures.failing _ rfl
  · rcases hi : Instruction.ofGate g qubits with e | i
    · simp only [Except.bind, hi]
      exact Ensures.failing _ rfl
    · have hop : I.op qubits i := I.op_gate (hg g rfl) hi
      simp only [Except.bind, hi]
      exact Ensures.pure fun _ _ _ j hj => List.mem_singleton.1 hj ▸ hop

theorem ofBuiltin_params {b : Builtin} {params : List Parameter} (g : Gate)
    (h : Gate.ofBuiltin b params = .ok g) : g.params.length = g.kind.params := by
  unfold Gate.ofBuiltin at h
  split at h
  · next hparams =>
    cases h
    exact hparams
  · nomatch h

theorem fractionalPower_ensures {i : Instruction} (hi : I.op qubits i) (exponent : Float) :
    Ensures I pre (fractionalPower i exponent) (fractionalPower i exponent)
      (fun ops _ => OpsOn I qubits ops) := by
  unfold fractionalPower
  split
  · exact Ensures.fail _ rfl
  · next g hg =>
    split
    · next h hh =>
      exact Ensures.pure fun _ _ _ j hj => List.mem_singleton.1 hj ▸ I.op_scaled hi hg hh
    · split
      · exact Ensures.fail _ rfl
      · next m _ =>
        apply Agree.read.forget.bind
        intro config
        apply (orFail_agree _ _ fun _ => rfl).forget.bind
        intro powered
        apply (gateOn_ensures i.qubits ofBuiltin_params).weaken
        exact fun ops _ _ hops j hj => I.op_replaced hi (hops j hj)

/-- Repetition and inversion keep operations on their qubits. -/
theorem power_ensures (hpre : Stable pre) {x y : Analysis (List Instruction)}
    (hx : Ensures I pre x y (fun ops _ => OpsOn I qubits ops)) (exponent : Float) :
    Ensures I pre (power exponent x) (power exponent y) (fun ops _ => OpsOn I qubits ops) := by
  have hrepeat : ∀ n {ops : List Instruction}, OpsOn I qubits ops →
      OpsOn I qubits (List.replicate n ops).flatten := by
    intro n ops hops i hi
    obtain ⟨once, honce, hi⟩ := List.mem_flatten.1 hi
    exact hops i ((List.mem_replicate.1 honce).2 ▸ hi)
  unfold power
  -- A power of zero is no operation; a whole one repeats the operations; any other scales one of them.
  refine Ensures.ite (fun _ => Ensures.pure fun _ _ _ _ h => nomatch h) fun _ => ?_
  refine Ensures.ite (fun _ => ?_) fun _ => ?_
  · apply (Agree.read.carrying hpre).bind
    intro config
    apply Ensures.ite (fun _ => Ensures.fail _ rfl)
    intro _
    refine hx.bind fun once => Ensures.assuming fun honce => ?_
    refine Ensures.ite (fun _ => ?_) fun _ => Ensures.pure fun _ _ _ => hrepeat _ honce
    exact (invert_ensures honce).bind fun inverted => Ensures.assuming fun hinverted =>
      Ensures.pure fun _ _ _ => hrepeat _ hinverted
  · refine hx.bind fun once => Ensures.assuming fun honce => ?_
    split
    · exact fractionalPower_ensures (honce _ List.mem_cons_self) exponent
    · exact Ensures.fail _ rfl

end Operations

section Operands

/-- Registers that are run through in step have one length. -/
theorem broadcastLength_ensures (gate : String) (shared : Option Nat) (operands : List (List Nat)) :
    Ensures I pre (broadcastLength gate shared operands) (broadcastLength gate shared operands)
      (fun n s => ((∀ m, shared = some m → n = m) ∧ ∀ qs ∈ operands, qs.length = 1 ∨ qs.length = n) ∧
        pre s) := by
  -- The length that the operands so far have in common is handed on.
  induction operands generalizing shared with
  | nil =>
    refine Ensures.pure fun s _ h => ⟨⟨?_, fun _ h => nomatch h⟩, h⟩
    rintro m rfl
    rfl
  | cons qs rest ih =>
    unfold broadcastLength
    refine Ensures.ite (fun hone => ?_) fun _ => ?_
    · refine (ih shared).weaken fun n s _ h => ⟨⟨h.1.1, ?_⟩, h.2⟩
      exact List.forall_mem_cons.2 ⟨Or.inl hone, h.1.2⟩
    · split
      · refine (ih (some qs.length)).weaken fun n s _ h => ⟨⟨fun m hm => (nomatch hm), ?_⟩, h.2⟩
        exact List.forall_mem_cons.2 ⟨Or.inr (h.1.1 _ rfl).symm, h.1.2⟩
      · next m =>
        refine Ensures.ite (fun hm => ?_) fun _ => Ensures.fail _ rfl
        refine (ih (some m)).weaken fun n s _ h => ⟨⟨h.1.1, ?_⟩, h.2⟩
        exact List.forall_mem_cons.2 ⟨Or.inr (hm ▸ (h.1.1 _ rfl).symm), h.1.2⟩

theorem operandAt_mem {qubits : List Nat} {n k : Nat} (h : qubits.length = 1 ∨ qubits.length = n)
    (hk : k < n) : operandAt qubits k ∈ qubits := by
  unfold operandAt
  split
  · exact List.mem_singleton.2 rfl
  · next hsingle =>
    have hlength : k < qubits.length := by
      rcases h with hone | hn
      · obtain ⟨q, rfl⟩ := List.length_eq_one_iff.1 hone
        exact absurd rfl (hsingle q)
      · exact hn ▸ hk
    rw [List.getElem?_eq_getElem hlength, Option.getD_some]
    exact List.getElem_mem hlength

/-- The operands of each application are among the operands of the call. -/
theorem broadcast_ensures (gate : String) (operands : List (List Nat)) :
    Ensures I (fun s => ∀ qs ∈ operands, ∀ q ∈ qs, I.place s.registers .quantum q)
      (broadcast gate operands) (broadcast gate operands)
      (fun groups s => ∀ group ∈ groups, ∀ q ∈ group, I.place s.registers .quantum q) := by
  refine (broadcastLength_ensures gate none operands).bind fun n => Ensures.pure ?_
  rintro s _ ⟨⟨-, hlengths⟩, hplaces⟩ group hgroup q hq
  obtain ⟨k, hk, rfl⟩ := List.mem_map.1 hgroup
  obtain ⟨qs, hqs, rfl⟩ := List.mem_map.1 hq
  exact hplaces qs hqs _ (operandAt_mem (hlengths qs hqs) (List.mem_range.1 hk))

/-- A gate is applied to each group of different operands. -/
theorem applyGroups_ensures (gate : String) {apply apply' : List Nat → Analysis (List Instruction)}
    (happly : ∀ group, group.Nodup →
      Ensures I (fun s => ∀ q ∈ group, I.place s.registers .quantum q) (apply group) (apply' group)
        (fun ops _ => OpsOn I group ops))
    (groups : List (List Nat)) :
    Ensures I (fun s => ∀ group ∈ groups, ∀ q ∈ group, I.place s.registers .quantum q)
      (applyGroups gate apply groups) (applyGroups gate apply' groups) (OpsFit I) := by
  induction groups with
  | nil => exact Ensures.pure fun _ _ _ _ h => nomatch h
  | cons group rest ih =>
    have hstable : Stable fun s => (∀ q ∈ group, I.place s.registers .quantum q) ∧
        ∀ group ∈ rest, ∀ q ∈ group, I.place s.registers .quantum q :=
      fun s t hframe h => ⟨stable_places .quantum group s t hframe h.1,
        fun qs hqs => stable_places .quantum qs s t hframe (h.2 qs hqs)⟩
    unfold applyGroups
    refine ((checkDistinct_ensures gate group).mono (fun _ _ h => List.forall_mem_cons.1 h)
      fun _ _ _ h => h).bind fun _ => Ensures.given fun hnodup => ?_
    -- The places of the other groups are carried past the operations of this one, and back.
    have hops := ((happly group hnodup).carry hstable).mono (fun _ _ h => ⟨h.1, h⟩)
      fun _ _ _ h => h
    refine hops.bind fun ops => Ensures.given fun hops => ?_
    have hmore := ih.carry (stable_places (I := I) .quantum group)
    refine Ensures.bind (hmore.mono ?_ fun _ _ _ h => h) fun more => Ensures.pure ?_
    · exact fun _ _ h => ⟨h.2, h.1⟩
    · rintro s _ ⟨hmore, hplaces⟩ i hi
      rcases List.mem_append.1 hi with hi | hi
      · exact ⟨group, hplaces, hops i hi⟩
      · exact hmore i hi

end Operands

section Calls

variable {weight : String → Nat} {k : Nat} {calls calls' : Calls}

/-- What a gate name refers to, if it is a gate with a body, is a gate that the name may stand for. -/
theorem resolveGate_ensures (name : String) :
    Ensures I (fun _ => True) (resolveGate name) (resolveGate name)
      (fun target _ => ∀ d, target = .user d → I.gate name d) := by
  refine (resolve?_ensures name).bind fun x => ?_
  split
  · exact Ensures.fail _ rfl
  · split
    · exact Ensures.pure fun _ _ _ d hd => nomatch hd
    · next hbinding =>
      apply Ensures.pure
      intro s hs h d hd
      cases hd
      exact I.resolves_gate hs h.1 hbinding
    · exact Ensures.pure fun _ _ _ d hd => nomatch hd
    · exact Ensures.fail _ rfl

theorem controlCount_agree (h : CallsAgree I weight k calls calls') (e : Option Expr)
    (hk : weigh weight (optionCallees e) ≤ k) :
    Agree I (controlCount calls e) (controlCount calls' e) := by
  cases e with
  | none => exact Agree.pure _
  | some e =>
    apply (fold_agree h e hk).bind
    intro v
    split
    · exact Agree.ite (Agree.fail _ rfl) (Agree.ite (Agree.pure _) (Agree.fail _ rfl))
    · exact Agree.fail _ rfl
    · exact Agree.fail _ rfl

theorem powerExponent_agree (h : CallsAgree I weight k calls calls') (e : Expr)
    (hk : weigh weight e.callees ≤ k) : Agree I (powerExponent calls e) (powerExponent calls' e) := by
  apply (fold_agree h e hk).bind
  intro v
  split
  · split
    · exact Agree.pure _
    · exact Agree.fail _ rfl
  · exact Agree.fail _ rfl

theorem evalModifier_agree (h : CallsAgree I weight k calls calls') (m : Modifier)
    (hk : weigh weight m.callees ≤ k) : Agree I (evalModifier calls m) (evalModifier calls' m) := by
  cases m with
  | ctrl n => exact (controlCount_agree h n hk).bind fun _ => Agree.pure _
  | negctrl n => exact (controlCount_agree h n hk).bind fun _ => Agree.pure _
  | inv => exact Agree.pure _
  | pow e => exact (powerExponent_agree h e hk).bind fun _ => Agree.pure _

/-- A target that fits the parameters that it is applied to, and is among the gates that are known. -/
structure TargetFits (I : Invariant) (weight : String → Nat) (k : Nat) (target : GateTarget)
    (params : List Parameter) : Prop where
  params : params.length = target.params
  user : ∀ d, target = .user d → ∃ f, I.gate f d ∧ weight f ≤ k

theorem baseOps_ensures (h : CallsAgree I weight k calls calls') {target : GateTarget}
    {params : List Parameter} (htarget : TargetFits I weight k target params) (qubits : List Nat)
    (hnodup : qubits.Nodup) :
    Ensures I (fun s => ∀ q ∈ qubits, I.place s.registers .quantum q)
      (baseOps calls target params qubits) (baseOps calls' target params qubits)
      (fun ops _ => OpsOn I qubits ops) := by
  cases target with
  | builtin g => exact gateOn_ensures qubits ofBuiltin_params
  | external g =>
    apply gateOn_ensures qubits
    rintro _ ⟨⟩
    exact htarget.params
  | user d =>
    obtain ⟨f, hd, hk⟩ := htarget.user d rfl
    exact h.gate f d params qubits hd hk hnodup

/-- The invariant of the expansion: the operations under any modifiers are on the operands. -/
theorem applyModifiers_ensures (h : CallsAgree I weight k calls calls') {target : GateTarget}
    {params : List Parameter} (htarget : TargetFits I weight k target params)
    (modifiers : List KnownModifier) (qubits : List Nat) (hnodup : qubits.Nodup) :
    Ensures I (fun s => ∀ q ∈ qubits, I.place s.registers .quantum q)
      (applyModifiers calls target params modifiers qubits)
      (applyModifiers calls' target params modifiers qubits) (fun ops _ => OpsOn I qubits ops) := by
  induction modifiers generalizing qubits with
  | nil => exact baseOps_ensures h htarget qubits hnodup
  | cons m rest ih =>
    cases m with
    -- The first operands are the controls; the modifiers inside see only the others.
    | control state n =>
      have hdrop := ih (qubits.drop n) (hnodup.sublist (List.drop_sublist n qubits))
      refine (hdrop.mono (fun s _ hplaces q hq => hplaces q (List.mem_of_mem_drop hq))
        fun _ _ _ h => h).bind fun inner => Ensures.assuming fun hinner => Ensures.pure ?_
      intro _ _ _ i hi
      obtain ⟨j, hj, rfl⟩ := List.mem_map.1 hi
      exact I.op_control state n hnodup (hinner j hj)
    | inverse =>
      exact (ih qubits hnodup).bind fun inner => Ensures.assuming fun hinner => invert_ensures hinner
    | power exponent => exact power_ensures (stable_places .quantum qubits) (ih qubits hnodup) exponent

theorem weigh_le_of_mem (weight : String → Nat) {es : List Expr} {e : Expr} (he : e ∈ es) :
    weigh weight e.callees ≤ weigh weight (exprsCallees es) := by
  induction es with
  | nil => nomatch he
  | cons e' es ih =>
    rw [exprsCallees, weigh_append]
    rcases List.mem_cons.1 he with rfl | he
    · exact Nat.le_add_right _ _
    · exact Nat.le_trans (ih he) (Nat.le_add_left _ _)

theorem weigh_le_flatMap (weight : String → Nat) {γ : Type} (callees : γ → List String)
    {xs : List γ} {x : γ} (hx : x ∈ xs) :
    weigh weight (callees x) ≤ weigh weight (xs.flatMap callees) := by
  induction xs with
  | nil => nomatch hx
  | cons x' xs ih =>
    rw [List.flatMap_cons, weigh_append]
    rcases List.mem_cons.1 hx with rfl | hx
    · exact Nat.le_add_right _ _
    · exact Nat.le_trans (ih hx) (Nat.le_add_left _ _)

/-- The operations of a gate call are ones of gates on qubits that are there. -/
theorem expandCall_ensures (h : CallsAgree I weight k calls calls') (call : GateCall)
    (hk : weigh weight call.callees ≤ k) :
    Ensures I (fun _ => True) (expandCall calls call) (expandCall calls' call) (OpsFit I) := by
  simp only [GateCall.callees, weigh_cons, weigh_append] at hk
  unfold expandCall
  refine (resolveGate_ensures call.name).bind fun target => Ensures.assuming fun htarget => ?_
  have hmodifiers : Agree I (call.modifiers.mapM (evalModifier calls))
      (call.modifiers.mapM (evalModifier calls')) := by
    apply Agree.mapM
    intro m hm
    have hweigh := weigh_le_flatMap weight Modifier.callees hm
    apply evalModifier_agree h m
    omega
  apply hmodifiers.andThen
  intro modifiers
  apply Ensures.ite (fun _ => Ensures.failing _ rfl)
  intro hlength
  have hexprs : ∀ e ∈ call.params, weigh weight e.callees ≤ k := by
    intro e he
    have hweigh := weigh_le_of_mem weight he
    omega
  have hparams : Ensures I (fun _ => True) (call.params.mapM (toParameter calls))
      (call.params.mapM (toParameter calls')) (fun params _ => params.length = call.params.length ∧ _) :=
    Ensures.mapM (q := fun _ _ => True) (fun _ => stable_const _) _ fun e he =>
      toParameter_agree h e (hexprs e he)
  refine hparams.bind fun params => Ensures.assuming fun hparams => ?_
  apply Ensures.ite (fun _ => Ensures.failing _ rfl)
  intro _
  apply Ensures.ite (fun _ => Ensures.failing _ rfl)
  intro _
  have hqubits : ∀ e ∈ call.qubits, weigh weight e.callees ≤ k := by
    intro e he
    have hweigh := weigh_le_of_mem weight he
    omega
  have hoperands := Ensures.mapM (fun qs => stable_places .quantum qs) call.qubits fun e he =>
    quantumQubits_ensures h e (hqubits e he)
  apply hoperands.bind
  intro operands
  apply ((broadcast_ensures call.name operands).mono (fun _ _ h => h.2) fun _ _ _ h => h).bind
  intro groups
  -- A gate with a body weighs as much as its name does, which is a part of the call.
  have hfits : TargetFits I weight k target params :=
    ⟨hparams.1.trans (Decidable.not_not.1 hlength), fun d hd => ⟨call.name, htarget d hd, by omega⟩⟩
  exact applyGroups_ensures call.name (applyModifiers_ensures h hfits _) groups

end Calls

section Bodies

variable {J : Invariant} {x y : Analysis (List Instruction)}

/-- Two ways to make the operations of a body agree and keep what steps keep, but for the place in the
source, which is left to be restored. -/
def BodyAgree (J : Invariant) (pre : State → Prop) (x y : Analysis (List Instruction)) : Prop :=
  ∀ config s, J.core s → pre s → Alike J (x config s) (y config s) ∧
    Keeps J s (OpsFit J) ((x config s).1, { (x config s).2 with span := s.span })

theorem Ensures.bodyAgree (h : Ensures J pre x y (OpsFit J)) : BodyAgree J pre x y := by
  intro config s hs hp
  obtain ⟨halike, hframe, hcore, hputsOut, htallies, hpost⟩ := h config s hs hp
  exact ⟨halike, hframe.keepingSpan, J.core_congr hcore rfl rfl rfl rfl, hputsOut,
    fun h => (htallies h).bracket ⟨rfl, rfl, rfl, rfl⟩ ⟨rfl, rfl, rfl, rfl⟩, hpost⟩

theorem Ensures.bind_body {β : Type} {x y : Analysis β} {post : β → State → Prop}
    {f g : β → Analysis (List Instruction)} (hx : Ensures J pre x y post)
    (hf : ∀ a, BodyAgree J (post a) (f a) (g a)) : BodyAgree J pre (x >>= f) (y >>= g) := by
  intro config s hs hp
  obtain ⟨halike, hframe, hcore, hputsOut, htallies, hpost⟩ := hx config s hs hp
  have hnext : ∀ a t, x config s = (.ok a, t) → Alike J (f a config t) (g a config t) ∧
      Keeps J t (OpsFit J) ((f a config t).1, { (f a config t).2 with span := t.span }) := by
    intro a t hr
    rw [hr] at hcore hpost
    exact hf a config t hcore (hpost a rfl)
  refine ⟨halike.bind fun a t hr => ⟨(hnext a t hr).1, (hnext a t hr).2.frame.diagnostics⟩, ?_⟩
  rw [run_bind]
  rcases hr : x config s with ⟨e | a, t⟩
  · rw [hr] at hframe hcore hputsOut htallies
    exact ⟨hframe.keepingSpan, J.core_congr hcore rfl rfl rfl rfl, hputsOut,
      fun h => (htallies h).failed.bracket ⟨rfl, rfl, rfl, rfl⟩ ⟨rfl, rfl, rfl, rfl⟩, fun _ h => nomatch h⟩
  -- The first step put the place in the source back, so the second one restores the same.
  · rw [hr] at hframe hputsOut htallies
    obtain ⟨-, hkeeps⟩ := hnext a t hr
    have hspan : t.span = s.span := hframe.span
    rw [hspan] at hkeeps
    exact ⟨hframe.trans hkeeps.frame, hkeeps.core, hputsOut.trans hkeeps.putsOut hkeeps.frame.registers,
      fun h => (htallies h).trans hkeeps.frame (hkeeps.tallies h), hkeeps.post⟩

/-- The operations of a first step are put before those of a body. -/
theorem BodyAgree.append (h : BodyAgree J (fun _ => True) x y) (ops : List Instruction) :
    BodyAgree J (OpsFit J ops) (x >>= fun more => pure (ops ++ more))
      (y >>= fun more => pure (ops ++ more)) := by
  intro config s hs hops
  obtain ⟨halike, hkeeps⟩ := h config s hs trivial
  refine ⟨halike.bind fun more t _ => ⟨Alike.refl _, List.suffix_rfl⟩, ?_⟩
  rw [run_bind]
  rcases hr : x config s with ⟨e | more, t⟩
  · rw [hr] at hkeeps
    exact ⟨hkeeps.frame, hkeeps.core, hkeeps.putsOut, fun h => (hkeeps.tallies h).failed,
      fun _ h => nomatch h⟩
  · rw [hr] at hkeeps
    refine ⟨hkeeps.frame, hkeeps.core, hkeeps.putsOut, fun h => (hkeeps.tallies h).onResult, ?_⟩
    rintro _ ⟨⟩ i hi
    rcases List.mem_append.1 hi with hi | hi
    · exact stable_opsFit ops _ _ hkeeps.frame hops i hi
    · exact hkeeps.post more rfl i hi

/-- A body may be run at another place of the source. -/
theorem BodyAgree.atSpan (h : BodyAgree J (fun _ => True) x y) (span : Span) :
    BodyAgree J (fun _ => True) (modify (fun s => { s with span }) >>= fun _ => x)
      (modify (fun s => { s with span }) >>= fun _ => y) := by
  intro config s hs _
  obtain ⟨halike, hkeeps⟩ := h config { s with span } (J.core_congr hs rfl rfl rfl rfl) trivial
  exact ⟨halike, hkeeps.frame.atSpan, J.core_congr hkeeps.core rfl rfl rfl rfl, hkeeps.putsOut,
    fun h => (hkeeps.tallies h).bracket ⟨rfl, rfl, rfl, rfl⟩ ⟨rfl, rfl, rfl, rfl⟩, hkeeps.post⟩

theorem bodyOps_agree {weight : String → Nat} {k : Nat} {calls calls' : Calls}
    (h : CallsAgree J weight k calls calls') : ∀ body : List Statement,
      weigh weight (bodyCallees body) ≤ k →
        BodyAgree J (fun _ => True) (bodyOps calls body) (bodyOps calls' body)
  | [], _ => (Ensures.pure fun _ _ _ _ h => nomatch h).bodyAgree
  | ⟨kind, span⟩ :: rest, hk => by
    simp only [bodyCallees, Statement.callees, weigh_append] at hk
    have hkind : weigh weight kind.callees ≤ k := by omega
    have hbody : weigh weight (bodyCallees rest) ≤ k := by omega
    have hrest := bodyOps_agree h rest hbody
    unfold bodyOps
    dsimp only
    split
    · next call =>
      refine BodyAgree.atSpan ?_ span
      exact (expandCall_ensures h call hkind).bind_body fun ops => hrest.append ops
    · exact hrest

/-- The invariants before and in the expansion of a definition that is not being expanded yet. -/
structure Expands (I J : Invariant) (name : String) (kind : ScopeKind) (pre : State → Prop) :
    Prop where
  excuses : ∀ p, J.excuses p → I.excuses p
  tallied : I.tallied → J.tallied
  flat : ∀ r f, J.flat r f → I.flat r f
  entered : ∀ s, I.core s → pre s → name ∉ s.calls →
    J.core { s with calls := name :: s.calls, scopes := s.scopes.enter kind }
  left : ∀ s t, I.core s → Frame { s with calls := name :: s.calls, scopes := s.scopes.enter kind } t →
    J.core t → I.core { t with scopes := t.scopes.exit, calls := s.calls }

variable {D : DeclaringInvariant}

theorem bindParams_agree (params : List (String × Parameter)) :
    Agree D.toInvariant (bindParams params) (bindParams params) := by
  induction params with
  | nil => exact Agree.pure _
  | cons p rest ih =>
    unfold bindParams
    refine (newSymbol_ensures (fun _ => True) p.1 .classicalVariable).bind fun x => Ensures.given fun hx => ?_
    refine ((declare_ensures _).mono ?_ fun _ _ _ h => h).bind fun _ => ih.forget
    exact fun _ _ _ => ⟨D.symbol_param rfl hx.targeted, .inl hx.targeted⟩

/-- The formal qubits of a gate become names for single qubits. -/
theorem bindQubits_agree (qubits : List (String × Nat))
    (hview : ∀ s q v, D.core s → q ∈ qubits.map Prod.snd →
      s.registers.elementView? .quantum q = some v → D.view s.registers .quantum v) :
    Agree D.toInvariant (bindQubits qubits) (bindQubits qubits) := by
  induction qubits with
  | nil => exact Agree.pure _
  | cons p rest ih =>
    have hrest := ih fun s q v hs hq => hview s q v hs (List.mem_cons_of_mem _ hq)
    unfold bindQubits
    apply Ensures.get.bind
    intro s
    split
    · exact Ensures.fail _ rfl
    · next v hv =>
      refine (newSymbol_ensures _ p.1 .alias).bind fun x => Ensures.given fun hx => ?_
      refine ((declare_ensures _).mono ?_ fun _ _ _ h => h).bind fun _ => hrest.forget
      rintro _ ht ⟨rfl, -⟩
      have hbound := hview _ p.2 v ht List.mem_cons_self hv
      exact ⟨D.symbol_qubits (Or.inr hx.kind) rfl hbound hx.targeted, .inl hx.targeted⟩

theorem inlineGate_run (ops : List Statement → Analysis (List Instruction)) (d : GateDefinition)
    (params : List Parameter) (qubits : List Nat) (config : Config) {s : State}
    (h : s.calls.contains d.name = false) :
    inlineGate ops d params qubits config s =
      followedBy
        (bindParams (d.params.zip params) >>= fun _ => bindQubits (d.qubits.zip qubits) >>= fun _ =>
          ops d.body)
        (fun t => { t with scopes := t.scopes.exit, calls := t.calls.tail, span := s.span }) config
        { s with calls := d.name :: s.calls, scopes := s.scopes.enter .gateBody } := by
  unfold inlineGate
  rw [run_get, h]
  rfl

/-- The operations of a gate are on the qubits that it is applied to, given that the body sees no others.
A gate that is being expanded already is not entered. -/
theorem inlineGate_ensures {ops ops' : List Statement → Analysis (List Instruction)}
    {d : GateDefinition} {params : List Parameter} {qubits : List Nat}
    (hexpands : Expands I D.toInvariant d.name .gateBody fun s => ∀ q ∈ qubits, I.place s.registers .quantum q)
    (hview : ∀ s q v, D.core s → q ∈ qubits → s.registers.elementView? .quantum q = some v →
      D.view s.registers .quantum v)
    (hop : ∀ r group i, (∀ q ∈ group, D.place r .quantum q) → D.op group i → I.op qubits i)
    (hops : BodyAgree D.toInvariant (fun _ => True) (ops d.body) (ops' d.body)) :
    Ensures I (fun s => ∀ q ∈ qubits, I.place s.registers .quantum q)
      (inlineGate ops d params qubits) (inlineGate ops' d params qubits)
      (fun is _ => OpsOn I qubits is) := by
  intro config s hs hp
  rcases hcalls : s.calls.contains d.name with _ | _
  · have hname : d.name ∉ s.calls := by
      intro hmem
      rw [List.contains_iff_mem.2 hmem] at hcalls
      nomatch hcalls
    have hqubits : ∀ t q v, D.core t → q ∈ (d.qubits.zip qubits).map Prod.snd →
        t.registers.elementView? .quantum q = some v → D.view t.registers .quantum v := by
      intro t q v ht hq
      obtain ⟨p, hp, rfl⟩ := List.mem_map.1 hq
      exact hview t p.2 v ht (List.of_mem_zip hp).2
    have hbody := (bindParams_agree (D := D) (d.params.zip params)).bind_body fun _ =>
      (bindQubits_agree (d.qubits.zip qubits) hqubits).bind_body fun _ => hops
    obtain ⟨halike, hkeeps⟩ := hbody config _ (hexpands.entered s hs hp hname) trivial
    rw [inlineGate_run ops d params qubits config hcalls,
      inlineGate_run ops' d params qubits config hcalls]
    refine ⟨(halike.imp hexpands.excuses).followedBy fun _ => rfl, ?_⟩
    unfold followedBy
    rcases hr : (bindParams (d.params.zip params) >>= fun _ => bindQubits (d.qubits.zip qubits) >>=
      fun _ => ops d.body) config _ with ⟨r, t⟩
    rw [hr] at hkeeps
    have htail : t.calls.tail = s.calls := congrArg List.tail hkeeps.frame.calls
    dsimp only
    rw [htail]
    -- Whatever qubits the operations of the body are on had names there, and only operands have.
    refine ⟨hkeeps.frame.expanded, hexpands.left s _ hs hkeeps.frame hkeeps.core,
      hkeeps.putsOut.imp hexpands.flat, fun h => ?_, ?_⟩
    · exact (hkeeps.tallies (hexpands.tallied h)).bracket ⟨rfl, rfl, rfl, rfl⟩ ⟨rfl, rfl, rfl, rfl⟩
    intro is his i hi
    obtain ⟨group, hplaces, hi⟩ := hkeeps.post is his i hi
    exact hop _ group i hplaces hi
  -- The gate is open already: both ways fail alike.
  · unfold inlineGate
    rw [run_get, run_get, hcalls]
    have hfails : Ensures I (fun _ => True) (failConstruct (.recursiveGate d.name))
        (failConstruct (.recursiveGate d.name)) (fun is _ => OpsOn I qubits is) :=
      Ensures.failConstruct _ rfl
    exact hfails config s hs trivial

end Bodies

end Analysis
end OpenQasm
