import OpenQasm.Proofs.Evaluation

/-!
Rewriting an expression for the flat program gives names to variables, which is all that it does to the
state beside the calls in the expression.
-/
namespace OpenQasm

namespace Analysis

variable {I : Invariant} {pre : State → Prop}

section Names

theorem hoist_keeping (name : String) (t : ClassicalType) (p : Scopes → Prop) :
    Ensures I (fun s => p s.scopes) (hoist name t) (hoist name t)
      (fun m s => I.target s.registers m ∧ p s.scopes) := by
  unfold hoist
  split
  · apply (allocate_keeping name _ .classical p (q := fun _ _ => True) nofun fun _ _ => trivial).bind
    intro r
    exact Ensures.pure fun _ _ h => ⟨h.1, h.2.2⟩
  · apply (reserve_keeping name p).bind
    intro emitName
    have hstable := stable_target (I := I) emitName
    have hdeclared := (addDeclaration_keeping (I := I) ⟨emitName, t, none⟩ p).carry hstable
    refine Ensures.bind (hdeclared.mono (fun _ _ h => h.symm) fun _ _ _ h => h) fun _ => ?_
    exact Ensures.pure fun _ _ h => h.symm

/-- Only variables are given names later than their declaration. -/
theorem materialize_ensures (name : String) (place : Nat → Prop) (reason : Prop) :
    Ensures I (fun s => Unnamed name place reason s.scopes ∧ (reason → I.writable name s))
      (materialize name) (materialize name)
      (fun m s => I.target s.registers m ∧ Named name place m s.scopes) := by
  have hstable : Stable fun s => reason → I.writable name s :=
    fun s t hframe h hreason => I.writable_mono hframe (h hreason)
  apply (resolve_ensures name).bind
  intro x
  split
  · exact Ensures.fail _ rfl
  -- Hoisting and the first assignment leave the symbol unnamed, so that it may be named at the end.
  · next t _ =>
    have hhoist := (hoist_keeping (I := I) name t (Unnamed name place reason)).carry hstable
    apply (hhoist.mono (fun _ _ h => h.2) fun _ _ _ h => h).bind
    intro emitName
    have hname := (setName_ensures (I := I) name emitName place reason).bind
      (r := fun m s => I.target s.registers m ∧ Named name place m s.scopes) fun _ =>
        Ensures.pure (a := emitName) fun _ _ h => h
    split
    · next v _ =>
      have hassign := (emit_keeping (I := I) (.assign (.name emitName) v.toExpr) (fun _ _ h => by cases h)
        (Unnamed name place reason)).carry ((stable_target (I := I) emitName).and hstable)
      refine Ensures.bind (hassign.mono ?_ fun _ _ _ h => ⟨h.2.1, h.1, h.2.2⟩) fun _ => hname
      rintro s _ ⟨⟨htarget, hunnamed⟩, hreason⟩
      exact ⟨⟨I.flat_assign none _ htarget, hunnamed⟩, htarget, hreason⟩
    · exact hname.mono (fun _ _ h => ⟨h.1.1, h.1.2, h.2⟩) fun _ _ _ h => h

/-- Where a variable needs a name in the flat program, it has one afterwards. Assignments go to the name if
the variable may be written to. -/
theorem runtimeName_ensures (name : String) (place : Nat → Prop) :
    Ensures I
      (fun s => MayName I name s ∧ ∀ x, s.scopes.resolve? name = some x → place x.scope)
      (runtimeName name) (runtimeName name)
      (fun m s => (I.writable name s → I.target s.registers m) ∧ Named name place m s.scopes) := by
  apply (resolve_ensures name).bind
  intro x
  split
  · next emitName hname =>
    refine Ensures.pure fun s hs h => ⟨fun hwritable => ?_, x, h.1, hname, h.2.2 x h.1⟩
    exact I.target_writable hs hwritable h.1 hname
  · next hnone =>
    refine Ensures.ite (fun hkind => ?_) fun _ => Ensures.fail _ rfl
    have hmaterialize (reason : Prop) : Ensures I
        (fun s => Unnamed name place reason s.scopes ∧ (reason → I.writable name s))
        (materialize name) (materialize name)
        (fun m s => (I.writable name s → I.target s.registers m) ∧ Named name place m s.scopes) :=
      (materialize_ensures name place reason).weaken fun _ _ _ h => ⟨fun _ => h.1, h.2⟩
    -- Whether the name is writable may depend on the state, so that it is fixed first.
    rintro config s hs ⟨hx, hmay, hplace⟩
    rcases hmay x hx hkind hnone with hvalue | hparam | hwritable
    · exact hmaterialize False config s hs
        ⟨⟨x, hx, hkind, hnone, hplace x hx, .inl hvalue⟩, False.elim⟩
    · exact hmaterialize False config s hs
        ⟨⟨x, hx, hkind, hnone, hplace x hx, .inr (.inl hparam)⟩, False.elim⟩
    · exact hmaterialize True config s hs
        ⟨⟨x, hx, hkind, hnone, hplace x hx, .inr (.inr trivial)⟩, fun _ => hwritable⟩

theorem runtimeName_named (name : String) :
    Ensures I (MayName I name) (runtimeName name) (runtimeName name)
      (fun m s => Named name (fun _ => True) m s.scopes) :=
  (runtimeName_ensures name _).mono (fun _ _ h => ⟨h, fun _ _ => trivial⟩) fun _ _ _ h => h.2

theorem Named.mayName {name emitName : String} {place : Nat → Prop} {s : State}
    (h : Named name place emitName s.scopes) : MayName I name s := by
  obtain ⟨x, hx, hnamed, -⟩ := h
  intro y hy _ hnone
  cases hx.symm.trans hy
  nomatch hnone.symm.trans hnamed

/-- A variable whose value is not known may be given a name. -/
theorem nameValue_ensures (name : String) :
    Ensures I pre (nameValue name) (nameValue name)
      (fun v s => pre s ∧ (v = none → MayName I name s)) := by
  apply (resolve_ensures name).bind
  intro x
  have hmay (s : State) (hx : s.scopes.resolve? name = some x)
      (h : x.kind = .classicalVariable → x.value = none ∨ ∃ p, x.binding = .param p) :
      MayName I name s := by
    intro y hy hkind _
    cases hx.symm.trans hy
    exact (h hkind).imp_right .inl
  have hvalue : Ensures I (fun s => s.scopes.resolve? name = some x ∧ pre s) (pure x.value)
      (pure x.value) (fun v s => pre s ∧ (v = none → MayName I name s)) :=
    Ensures.pure fun s _ h => ⟨h.2, fun hv => hmay s h.1 fun _ => .inl hv⟩
  split
  · next p hparam =>
    exact Ensures.pure fun s _ h => ⟨h.2, fun _ => hmay s h.1 fun _ => .inr ⟨p, hparam⟩⟩
  · exact hvalue
  · exact hvalue
  · exact hvalue
  · next hkind => exact Ensures.pure fun s _ h => ⟨h.2, fun _ => hmay s h.1 fun h => nomatch hkind.symm.trans h⟩
  · exact Ensures.fail _ rfl

theorem boundParameter?_agree (name : String) :
    Agree I (boundParameter? name) (boundParameter? name) := by
  refine (resolve?_agree name).bind fun x => ?_
  split
  · exact Agree.pure _
  · exact Agree.pure _

end Names

section Rewriting

variable {weight : String → Nat} {k : Nat} {calls calls' : Calls}

theorem literalItems_agree (h : CallsAgree I weight k calls calls') (n : Nat) :
    ∀ items : List IndexItem, weigh weight (itemsCallees items) ≤ k →
      Agree I (literalItems calls n items) (literalItems calls' n items)
  | [], _ => Agree.pure _
  | item :: rest, hk => by
    simp only [itemsCallees, weigh_append] at hk
    have hitem : weigh weight item.callees ≤ k := by omega
    have hrest : weigh weight (itemsCallees rest) ≤ k := by omega
    simp only [literalItems]
    apply (itemPositions_agree h n item hitem).bind
    intro ps
    exact (literalItems_agree h n rest hrest).bind fun items => Agree.pure _

theorem foldLiteral?_agree (h : CallsAgree I weight k calls calls') (e : Expr)
    (hk : weigh weight e.callees ≤ k) :
    Agree I (foldLiteral? calls e) (foldLiteral? calls' e) := by
  refine Agree.get.bind fun s => Agree.ite (Agree.fail _ rfl) ?_
  exact (fold_agree h e hk).bind fun v => Agree.pure _

/-- A name that is no literal stands for something that may be given a name in the flat program. -/
theorem foldLiteral?_name_ensures (n : String) :
    Ensures I pre (foldLiteral? calls (.name n)) (foldLiteral? calls' (.name n))
      (fun e s => pre s ∧ (e = none → MayName I n s)) := by
  refine Ensures.get.bind fun s => Ensures.ite (fun _ => Ensures.fail _ rfl) fun _ => ?_
  refine ((nameValue_ensures n).mono (fun _ _ h => h.2) fun _ _ _ h => h).bind fun v => Ensures.pure ?_
  exact fun _ _ h => ⟨h.1, fun hnone => h.2 (Option.map_eq_none_iff.1 hnone)⟩

theorem residualize_name_ensures (n : String) :
    Ensures I pre (residualize calls (.name n)) (residualize calls' (.name n))
      (fun _ s => pre s ∨ MayName I n s) := by
  simp only [residualize]
  refine (foldLiteral?_name_ensures n).bind fun r => ?_
  split
  · exact Ensures.pure fun _ _ h => .inl h.1
  · refine Ensures.bind ((runtimeName_named n).mono (fun _ _ h => h.2 rfl) fun _ _ _ h => h) fun _ => ?_
    exact Ensures.pure fun _ _ h => .inr h.mayName

mutual

theorem residualize_agree (h : CallsAgree I weight k calls calls') : ∀ e : Expr,
    weigh weight e.callees ≤ k → Agree I (residualize calls e) (residualize calls' e)
  | .name n, _ => (residualize_name_ensures n).agree
  | .unary op e, hk => by
    simp only [residualize]
    refine (foldLiteral?_agree h _ hk).bind fun r => ?_
    split
    · exact Agree.pure _
    · exact (residualize_agree h e hk).bind fun _ => Agree.pure _
  | .binary l op r, hk => by
    simp only [residualize]
    refine (foldLiteral?_agree h _ hk).bind fun v => ?_
    simp only [Expr.callees, weigh_append] at hk
    have hl : weigh weight l.callees ≤ k := by omega
    have hr : weigh weight r.callees ≤ k := by omega
    split
    · exact Agree.pure _
    · apply (residualize_agree h l hl).bind
      intro _
      exact (residualize_agree h r hr).bind fun _ => Agree.pure _
  | .call f args, hk => by
    simp only [residualize]
    refine (foldLiteral?_agree h _ hk).bind fun v => ?_
    simp only [Expr.callees, weigh_cons] at hk
    have hargs : weigh weight (exprsCallees args) ≤ k := by omega
    split
    · exact Agree.pure _
    · exact (residualizeAll_agree h args hargs).bind fun _ => Agree.pure _
  | .index base items, hk => by
    simp only [residualize]
    refine (foldLiteral?_agree h _ hk).bind fun v => ?_
    simp only [Expr.callees, weigh_append] at hk
    have hbase : weigh weight base.callees ≤ k := by omega
    have hitems : weigh weight (itemsCallees items) ≤ k := by omega
    split
    · exact Agree.pure _
    · apply (infer_agree h base hbase).bind
      intro t
      apply (literalItems_agree h _ items hitems).bind
      intro _
      exact (residualize_agree h base hbase).bind fun _ => Agree.pure _
  | .cast type e, hk => by
    simp only [residualize]
    refine (foldLiteral?_agree h _ hk).bind fun v => ?_
    simp only [Expr.callees, weigh_append] at hk
    have htype : weigh weight type.callees ≤ k := by omega
    have he : weigh weight e.callees ≤ k := by omega
    split
    · exact Agree.pure _
    · apply (resolveType_agree h type htype).bind
      intro t
      exact (residualize_agree h e he).bind fun _ => Agree.pure _
  | .array items, hk => by
    simp only [residualize]
    refine (foldLiteral?_agree h _ hk).bind fun v => ?_
    split
    · exact Agree.pure _
    · exact (residualizeAll_agree h items hk).bind fun _ => Agree.pure _
  | .paren e, hk => by
    simp only [residualize]
    refine (foldLiteral?_agree h _ hk).bind fun v => ?_
    split
    · exact Agree.pure _
    · exact (residualize_agree h e hk).bind fun _ => Agree.pure _
  | .int _, hk | .float _, hk | .imaginary _, hk | .bool _, hk | .bits _, hk | .duration _ _, hk
  | .constant _, hk | .measure _, hk =>
    (foldLiteral?_agree h _ hk).bind fun _ => Agree.pure _

theorem residualizeAll_agree (h : CallsAgree I weight k calls calls') : ∀ es : List Expr,
    weigh weight (exprsCallees es) ≤ k → Agree I (residualizeAll calls es) (residualizeAll calls' es)
  | [], _ => Agree.pure _
  | e :: es, hk => by
    simp only [exprsCallees, weigh_append] at hk
    have he : weigh weight e.callees ≤ k := by omega
    have hes : weigh weight (exprsCallees es) ≤ k := by omega
    simp only [residualizeAll]
    apply (residualize_agree h e he).bind
    intro _
    exact (residualizeAll_agree h es hes).bind fun _ => Agree.pure _

end

theorem parameterLeaf_agree (h : CallsAgree I weight k calls calls') (e : Expr)
    (hk : weigh weight e.callees ≤ k) :
    Agree I (parameterLeaf calls e) (parameterLeaf calls' e) := by
  apply (fold_agree h e hk).bind
  intro v
  split
  · split
    · exact Agree.pure _
    · exact Agree.fail _ rfl
  · apply (residualize_agree h e hk).bind
    intro r
    split
    · exact Agree.pure _
    · exact Agree.pure _

mutual

theorem parameterTree_agree (h : CallsAgree I weight k calls calls') : ∀ e : Expr,
    weigh weight e.callees ≤ k → Agree I (parameterTree calls e) (parameterTree calls' e)
  | .constant c, hk => by
    cases c with
    | pi => exact Agree.pure _
    | tau => exact parameterLeaf_agree h _ hk
    | euler => exact parameterLeaf_agree h _ hk
  | .name n, hk => by
    simp only [parameterTree]
    refine (boundParameter?_agree n).bind fun p => ?_
    split
    · exact Agree.pure _
    · exact parameterLeaf_agree h _ hk
  | .paren e, hk => parameterTree_agree h e hk
  | .unary op e, hk => by
    cases op with
    | neg => exact (parameterTree_agree h e hk).bind fun _ => Agree.pure _
    | not => exact parameterLeaf_agree h _ hk
    | bitNot => exact parameterLeaf_agree h _ hk
  | .binary l op r, hk => by
    simp only [parameterTree]
    split
    · simp only [Expr.callees, weigh_append] at hk
      have hl : weigh weight l.callees ≤ k := by omega
      have hr : weigh weight r.callees ≤ k := by omega
      apply (parameterTree_agree h l hl).bind
      intro _
      exact (parameterTree_agree h r hr).bind fun _ => Agree.pure _
    · exact parameterLeaf_agree h _ hk
  | .call f args, hk => by
    simp only [parameterTree]
    refine (resolve?_agree f).bind fun x => Agree.ite ?_ (parameterLeaf_agree h _ hk)
    refine (onlyParameter_agree h args ?_).bind fun p => ?_
    · simp only [Expr.callees, weigh_cons] at hk
      omega
    · split
      · exact Agree.pure _
      · exact parameterLeaf_agree h _ hk
  | .int _, hk | .float _, hk | .imaginary _, hk | .bool _, hk | .bits _, hk | .duration _ _, hk
  | .index _ _, hk | .cast _ _, hk | .array _, hk | .measure _, hk => parameterLeaf_agree h _ hk

theorem onlyParameter_agree (h : CallsAgree I weight k calls calls') : ∀ es : List Expr,
    weigh weight (exprsCallees es) ≤ k → Agree I (onlyParameter calls es) (onlyParameter calls' es)
  | [], _ => Agree.pure _
  | [e], hk => by
    simp only [exprsCallees, weigh_append] at hk
    have he : weigh weight e.callees ≤ k := by omega
    simp only [onlyParameter]
    exact (parameterTree_agree h e he).bind fun _ => Agree.pure _
  | _ :: _ :: _, _ => Agree.pure _

end

theorem toParameter_agree (h : CallsAgree I weight k calls calls') (e : Expr)
    (hk : weigh weight e.callees ≤ k) : Agree I (toParameter calls e) (toParameter calls' e) :=
  (parameterTree_agree h e hk).bind fun _ => Agree.pure _

end Rewriting

end Analysis
end OpenQasm
