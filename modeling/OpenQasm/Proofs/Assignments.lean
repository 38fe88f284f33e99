import OpenQasm.Analysis.Assign
import OpenQasm.Proofs.Residuals

/-!
Storing values. What a right-hand side stands for is made of qubits that are there, so that measuring them
is an operation of the program.
-/
namespace OpenQasm

namespace Analysis

variable {I : Invariant} {W : WritingInvariant} {pre : State → Prop}

theorem unparen_callees (e : Expr) : e.unparen.callees = e.callees := by
  fun_induction Expr.unparen e with
  | case1 inner ih => exact ih
  | case2 e => rfl

section Measuring

theorem measureOnly_ensures (qubits : List Nat) :
    Ensures I (fun s => ∀ q ∈ qubits, I.measured s.registers q) (measureOnly qubits)
      (measureOnly qubits) (fun _ _ => True) := by
  induction qubits with
  | nil => exact Ensures.pure fun _ _ _ => trivial
  | cons q qs ih =>
    have hstable := stable_measured (I := I) qs
    have hop := (useQubit_ensures (I := I) (.measureOnly q) rfl (Or.inl ⟨rfl, rfl⟩)).carry hstable
    unfold measureOnly
    rw [← bind_assoc]
    refine Ensures.bind (hop.mono ?_ fun _ _ _ h => h.2) fun _ => ih
    intro s _ h
    rw [List.forall_mem_cons] at h
    exact ⟨⟨I.flat_measureOnly h.1, h.1⟩, h.2⟩

theorem measureEach_ensures (pairs : List (Nat × Nat)) :
    Ensures I
      (fun s => ∀ p ∈ pairs, I.measured s.registers p.1 ∧ I.place s.registers .classical p.2)
      (measureEach pairs) (measureEach pairs) (fun _ _ => True) := by
  induction pairs with
  | nil => exact Ensures.pure fun _ _ _ => trivial
  | cons p rest ih =>
    have hstable : Stable fun s => ∀ p ∈ rest,
        I.measured s.registers p.1 ∧ I.place s.registers .classical p.2 :=
      fun s t hframe h p hp =>
        ⟨I.measured_mono hframe.registers (h p hp).1, I.place_mono hframe.registers (h p hp).2⟩
    have hop := (useQubit_ensures (I := I) (.measure p.1 p.2) rfl (Or.inl ⟨rfl, rfl⟩)).carry hstable
    unfold measureEach
    rw [← bind_assoc]
    refine Ensures.bind (hop.mono ?_ fun _ _ _ h => h.2) fun _ => ih
    intro s _ h
    rw [List.forall_mem_cons] at h
    exact ⟨⟨I.flat_measure h.1.1 h.1.2, h.1.1⟩, h.2⟩

end Measuring

section Writing

theorem coerceTo_agree (t : ClassicalType) (v : Value) : Agree I (coerceTo t v) (coerceTo t v) :=
  orFail_agree _ _ fun _ => rfl

theorem declaredType_agree (name : String) : Agree I (declaredType name) (declaredType name) := by
  apply (resolve_agree name).bind
  intro x
  split
  · exact Agree.pure _
  · exact Agree.fail _ rfl

/-- A write to a variable that may be written to. Whether it depends on the run of the program is decided
at the start, and neither the scope of the variable nor the branches around change until the value does. -/
theorem write_ensures (name : String) (items : Option (List IndexItem)) (shown : Expr)
    (value : Option Value) :
    Ensures W.toInvariant (W.writable name) (write name items shown value)
      (write name items shown value) (fun _ s => W.written name s) := by
  apply (resolve_ensures name).bind
  intro x
  apply (branchedSince_ensures x.scope).bind
  intro branched
  have hwritable := stable_writable (I := W.toInvariant) name
  have hbranched := hwritable.and (stable_branched x.scope branched)
  let placed (scopes : Scopes) : Prop := ∃ y, scopes.resolve? name = some y ∧ y.scope = x.scope
  have hset : Ensures W.toInvariant
      (fun s => placed s.scopes ∧ W.writable name s ∧ Branched x.scope branched s)
      (modifySymbol name fun y => { y with value := if branched then none else value })
      (modifySymbol name fun y => { y with value := if branched then none else value })
      (fun _ s => W.written name s) := by
    refine (setValue_ensures name _).mono ?_ fun _ _ _ h => h
    rintro s _ ⟨⟨y, hy, hscope⟩, hw, rfl⟩
    refine ⟨hw, y, hy, fun floor hfloor hlt => if_pos ?_⟩
    rw [hfloor, Option.any_some]
    exact decide_eq_true (hscope ▸ hlt)
  refine Ensures.ite (fun _ => ?_) fun _ => ?_
  · have hname := (runtimeName_ensures (I := W.toInvariant) name (· = x.scope)).carry hbranched
    refine Ensures.bind (hname.mono ?_ fun _ _ _ h => h) fun emitName => ?_
    · rintro s _ ⟨hb, hx, hw⟩
      refine ⟨⟨fun _ _ _ _ => .inr (.inr hw), fun y hy => ?_⟩, hw, hb⟩
      cases hx.symm.trans hy
      rfl
    · have hassign := (emit_keeping (I := W.toInvariant) (.assign (placeExpr emitName items) shown)
        (fun _ => nofun) placed).carry hbranched
      refine Ensures.bind (hassign.mono ?_ fun _ _ _ h => h) fun _ => hset
      rintro s _ ⟨⟨htarget, y, hy, -, hscope⟩, hw, hb⟩
      exact ⟨⟨W.flat_assign items shown (htarget hw), y, hy, hscope⟩, hw, hb⟩
  · exact hset.mono (fun s _ h => ⟨⟨x, h.2.1, rfl⟩, h.2.2, h.1⟩) fun _ _ _ h => h

theorem checkWritable_ensures (x : Symbol) :
    Ensures I pre (checkWritable x) (checkWritable x)
      (fun _ s => pre s ∧ (x.kind = .classicalVariable ∨ x.kind = .classicalRegister) ∧
        x.mutable = true) := by
  unfold checkWritable
  split
  · next hkind =>
    exact Ensures.ite (fun hmutable => Ensures.pure fun _ _ h => ⟨h, .inl hkind, hmutable⟩) fun _ =>
      Ensures.fail _ rfl
  · next hkind =>
    exact Ensures.ite (fun hmutable => Ensures.pure fun _ _ h => ⟨h, .inr hkind, hmutable⟩) fun _ =>
      Ensures.fail _ rfl
  · exact Ensures.fail _ rfl
  · exact Ensures.fail _ rfl

theorem replaceBits_agree (t : ClassicalType) (current : Option Value) (positions : List Nat)
    (bits : Value) : Agree I (replaceBits t current positions bits)
      (replaceBits t current positions bits) := by
  unfold replaceBits
  split
  · split
    · exact (coerceTo_agree t _).bind fun _ => Agree.pure _
    · exact Agree.pure _
  · exact Agree.pure _

end Writing

section Values

variable {weight : String → Nat} {k : Nat} {calls calls' : Calls}

/-- The qubits of an operand may be measured. -/
theorem measuredQubits_ensures (h : CallsAgree I weight k calls calls') (e : Expr)
    (hk : weigh weight e.callees ≤ k) :
    Ensures I (fun _ => True) (quantumQubits calls e) (quantumQubits calls' e)
      (fun qs s => ∀ q ∈ qs, I.measured s.registers q) :=
  (quantumQubits_ensures h e hk).weaken fun _ _ _ hqs q hq => I.measured_place (hqs q hq)

theorem measureInto_ensures (h : CallsAgree W.toInvariant weight k calls calls') (qubits : List Nat)
    (target : Expr) (hk : weigh weight target.callees ≤ k) :
    Ensures W.toInvariant (fun s => ∀ q ∈ qubits, W.measured s.registers q)
      (measureInto calls qubits target) (measureInto calls' qubits target)
      (fun _ s => ∀ root, target.rootName? = some root → W.written root s) := by
  have hstable := stable_measured (I := W.toInvariant) qubits
  apply ((viewOf_ensures h target hk).carrying hstable).bind
  intro v
  split
  · exact Ensures.fail _ rfl
  · next v =>
    apply Ensures.ite (fun _ => Ensures.failing _ rfl)
    intro _
    apply ((physical_ensures .classical v).carry hstable).bind
    intro clbits
    refine Ensures.bind ((measureEach_ensures (qubits.zip clbits)).mono ?_ fun _ _ _ h => h)
      fun _ => ?_
    · rintro s _ ⟨hclbits, hqubits⟩ p hp
      exact ⟨hqubits _ (List.of_mem_zip hp).1, hclbits _ (List.of_mem_zip hp).2⟩
    · split
      · next n hroot =>
        refine (forget_ensures n).weaken fun _ s _ hwritten root h => ?_
        cases hroot.symm.trans h
        exact hwritten
      · next hroot => exact Ensures.pure fun _ _ _ _ h => by cases hroot.symm.trans h

/-- A measurement writes to its target, if it has one. -/
theorem measure_ensures (h : CallsAgree W.toInvariant weight k calls calls') (operand : Expr)
    (target : Option Expr) (hk : weigh weight (operand.callees ++ optionCallees target) ≤ k) :
    Ensures W.toInvariant (fun _ => True) (measure calls operand target)
      (measure calls' operand target)
      (fun _ s => ∀ root, target.bind Expr.rootName? = some root → W.written root s) := by
  rw [weigh_append] at hk
  have hoperand : weigh weight operand.callees ≤ k := by omega
  apply (measuredQubits_ensures h operand hoperand).bind
  intro qubits
  cases target with
  | some target =>
    rw [optionCallees] at hk
    have htarget : weigh weight target.callees ≤ k := by omega
    exact measureInto_ensures h qubits target htarget
  | none => exact (measureOnly_ensures qubits).weaken fun _ _ _ _ _ h => by cases h

theorem measure_agree (h : CallsAgree W.toInvariant weight k calls calls') (operand : Expr)
    (target : Option Expr) (hk : weigh weight (operand.callees ++ optionCallees target) ≤ k) :
    Agree W.toInvariant (measure calls operand target) (measure calls' operand target) :=
  (measure_ensures h operand target hk).agree

theorem plainValue_ensures (h : CallsAgree I weight k calls calls') (e : Expr)
    (hk : weigh weight e.callees ≤ k) :
    Ensures I (fun _ => True) (plainValue calls e) (plainValue calls' e)
      (fun v s => v.Fits I.toFacts s.registers) := by
  apply (fold_agree h e hk).andThen
  intro v
  split
  · exact Ensures.pure fun _ _ _ => trivial
  · exact (residualize_agree h e hk).andThen fun _ => Ensures.pure fun _ _ _ => trivial

/-- The subroutine that a name stands for is one that it may stand for. -/
theorem subroutine?_ensures (f : String) :
    Ensures I (fun _ => True) (subroutine? f) (subroutine? f)
      (fun d _ => ∀ d', d = some d' → I.subroutine f d') :=
  (resolve_subroutine_ensures f).bind fun _ => Ensures.pure fun _ _ h => h

/-- What a right-hand side stands for is made of qubits that are there. -/
theorem rightValue_ensures (h : CallsAgree I weight k calls calls') (e : Expr)
    (hk : weigh weight e.callees ≤ k) :
    Ensures I (fun _ => True) (rightValue calls e) (rightValue calls' e)
      (fun v s => v.Fits I.toFacts s.registers) := by
  rw [← unparen_callees] at hk
  unfold rightValue
  -- Only a measurement and a call of a subroutine may hand back qubits.
  split
  · next operand he =>
    rw [he] at hk
    apply (measuredQubits_ensures h operand hk).bind
    intro qubits
    exact Ensures.pure fun _ _ hq => hq
  · next f args he =>
    rw [he] at hk
    refine (subroutine?_ensures f).bind fun d => Ensures.assuming fun hd => ?_
    split
    · next d =>
      refine (h.subroutine f d args (hd d rfl) ?_).bind fun r => ?_
      · simpa only [Expr.callees, weigh_cons] using hk
      · split
        · exact Ensures.pure fun _ _ hr => hr _ rfl
        · exact Ensures.fail _ rfl
    · exact plainValue_ensures h _ hk
  · exact plainValue_ensures h _ hk

/-- An argument that is a name and not known stands for something that may be given a name in the flat
program. -/
theorem rightValue_name_ensures (h : CallsAgree I weight k calls calls') (e : Expr)
    (hk : weigh weight e.callees ≤ k) :
    Ensures I (fun _ => True) (rightValue calls e) (rightValue calls' e)
      (fun v s => ∀ shown n, v = .runtime shown → e.unparen = .name n → MayName I n s) := by
  by_cases hname : ∃ n, e.unparen = .name n
  · obtain ⟨n, hn⟩ := hname
    have hfold (calls : Calls) : rightValue calls e = plainValue calls (.name n) := by
      unfold rightValue
      rw [hn]
    rw [hfold, hfold]
    refine (nameValue_ensures n).bind fun v => ?_
    split
    · exact Ensures.pure fun _ _ _ _ _ h => by cases h
    · have hresidual : Ensures I (MayName I n) (residualize calls (.name n))
          (residualize calls' (.name n)) (fun _ s => MayName I n s ∨ MayName I n s) :=
        residualize_name_ensures n
      refine Ensures.bind (hresidual.mono (fun _ _ h => h.2 rfl) fun _ _ _ h => h) fun _ =>
        Ensures.pure ?_
      rintro s _ hmay shown m - hm
      cases hn.symm.trans hm
      exact hmay.elim id id
  · exact (rightValue_ensures h e hk).weaken fun _ _ _ _ _ n _ hn => absurd ⟨n, hn⟩ hname

theorem checkScalar_agree (h : CallsAgree I weight k calls calls') (t : ClassicalType) (e : Expr)
    (hk : weigh weight e.callees ≤ k) : Agree I (checkScalar calls t e) (checkScalar calls' t e) := by
  apply (infer_agree h e hk).bind
  intro u
  exact (orFail_agree _ _ fun _ => rfl).bind fun _ => orFail_agree _ _ fun _ => rfl

mutual

theorem checkInitializer_agree (h : CallsAgree I weight k calls calls') (t : ClassicalType) :
    ∀ e : Expr, weigh weight e.callees ≤ k →
      Agree I (checkInitializer calls t e) (checkInitializer calls' t e)
  | .paren e, hk => checkInitializer_agree h t e hk
  | .array items, hk => by
    simp only [checkInitializer]
    split
    · exact Agree.ite (Agree.fail _ rfl) (checkItems_agree h _ items hk)
    · exact checkScalar_agree h _ _ hk
  | .int _, hk | .float _, hk | .imaginary _, hk | .bool _, hk | .bits _, hk | .duration _ _, hk
  | .constant _, hk | .name _, hk | .unary _ _, hk | .binary _ _ _, hk | .call _ _, hk
  | .index _ _, hk | .cast _ _, hk | .measure _, hk => checkScalar_agree h t _ hk

theorem checkItems_agree (h : CallsAgree I weight k calls calls') (t : ClassicalType) :
    ∀ es : List Expr, weigh weight (exprsCallees es) ≤ k →
      Agree I (checkItems calls t es) (checkItems calls' t es)
  | [], _ => Agree.pure _
  | e :: es, hk => by
    simp only [exprsCallees, weigh_append] at hk
    have he : weigh weight e.callees ≤ k := by omega
    have hes : weigh weight (exprsCallees es) ≤ k := by omega
    simp only [checkItems]
    apply (checkInitializer_agree h t e he).bind
    intro _
    exact checkItems_agree h t es hes

end

end Values

section Assigning

variable {weight : String → Nat} {k : Nat} {calls calls' : Calls}

theorem store_ensures (h : CallsAgree W.toInvariant weight k calls calls') (name : String)
    (r : RightValue) :
    Ensures W.toInvariant (fun s => r.Fits W.toFacts s.registers ∧ W.writable name s)
      (store calls name r) (store calls' name r) (fun _ s => W.written name s) := by
  have hwritable := stable_writable (I := W.toInvariant) name
  cases r with
  | measured qubits =>
    exact (measureInto_ensures h qubits (.name name) (Nat.zero_le k)).mono (fun _ _ h => h.1)
      fun _ _ _ h => h name rfl
  | known v =>
    refine Ensures.bind (((declaredType_agree name).carrying hwritable).mono (fun _ _ h => h.2)
      fun _ _ _ h => h) fun t => ?_
    exact ((coerceTo_agree t v).carrying hwritable).bind fun v => write_ensures name none v.toExpr (some v)
  | runtime e => exact (write_ensures name none e none).mono (fun _ _ h => h.2) fun _ _ _ h => h

theorem elementPath_agree (h : CallsAgree I weight k calls calls') (name : String) :
    ∀ (t : ClassicalType) (items : List IndexItem), weigh weight (itemsCallees items) ≤ k →
      Agree I (elementPath calls name t items) (elementPath calls' name t items)
  | _, [], _ => Agree.pure _
  | t, .single e :: rest, hk => by
    simp only [itemsCallees, weigh_append] at hk
    have hitem : weigh weight (IndexItem.single e).callees ≤ k := by omega
    have hrest : weigh weight (itemsCallees rest) ≤ k := by omega
    simp only [elementPath]
    apply (itemPositions_agree h _ (.single e) hitem).bind
    intro positions
    split
    · exact Agree.fail _ rfl
    · exact (elementPath_agree h name _ rest hrest).bind fun _ => Agree.pure _
  | _, .range _ :: _, _ | _, .set _ :: _, _ => Agree.fail _ rfl

theorem assignElement_ensures (h : CallsAgree W.toInvariant weight k calls calls') (name : String)
    (t : ClassicalType) (current : Option Value) (items : List IndexItem) (rhs : Expr)
    (hitems : weigh weight (itemsCallees items) ≤ k) (hrhs : weigh weight rhs.callees ≤ k) :
    Ensures W.toInvariant (W.writable name) (assignElement calls name t current items rhs)
      (assignElement calls' name t current items rhs) (fun _ s => W.written name s) := by
  have hwritable := stable_writable (I := W.toInvariant) name
  apply ((elementPath_agree h name t items hitems).carrying hwritable).bind
  intro path
  apply ((checkInitializer_agree h path.2 rhs hrhs).carrying hwritable).bind
  intro _
  apply ((rightValue_ensures h rhs hrhs).agree.carrying hwritable).bind
  intro r
  split
  · exact ((coerceTo_agree _ _).carrying hwritable).bind fun v => write_ensures _ _ _ _
  · exact write_ensures _ _ _ _
  · exact Ensures.fail _ rfl

/-- The positions that are written out are literals. -/
theorem weigh_literalItem (single : Bool) (positions : List Nat) :
    weigh weight (itemsCallees [literalItem single positions]) = 0 := by
  have hliterals (ps : List Nat) : exprsCallees (ps.map positionExpr) = [] := by
    induction ps with
    | nil => rfl
    | cons p ps ih => exact ih
  unfold literalItem
  split
  · rfl
  · simp only [itemsCallees, IndexItem.callees, hliterals, List.append_nil, weigh_nil]

theorem assignBits_ensures (h : CallsAgree W.toInvariant weight k calls calls') (name : String)
    (t : ClassicalType) (width : Nat) (current : Option Value) (items : List IndexItem) (rhs : Expr)
    (hitems : weigh weight (itemsCallees items) ≤ k) (hrhs : weigh weight rhs.callees ≤ k) :
    Ensures W.toInvariant (W.writable name) (assignBits calls name t width current items rhs)
      (assignBits calls' name t width current items rhs) (fun _ s => W.written name s) := by
  have hwritable := stable_writable (I := W.toInvariant) name
  unfold assignBits
  split
  · next item =>
    rw [itemsCallees, weigh_append] at hitems
    have hitem : weigh weight item.callees ≤ k := by omega
    apply ((itemPositions_agree h width item hitem).carrying hwritable).bind
    intro positions
    apply ((checkInitializer_agree h _ rhs hrhs).carrying hwritable).bind
    intro _
    apply ((rightValue_ensures h rhs hrhs).carrying hwritable).bind
    intro r
    -- Measured bits are written where they are; known ones replace bits of the value.
    split
    · next qubits =>
      have hliteral : weigh weight
          (Expr.index (.name name) [literalItem (isSingle item) positions]).callees ≤ k := by
        simp only [Expr.callees, List.nil_append, weigh_literalItem, Nat.zero_le]
      exact (measureInto_ensures h qubits _ hliteral).mono (fun _ _ h => h.1) fun _ _ _ h => h name rfl
    · refine Ensures.bind (((coerceTo_agree _ _).carrying hwritable).mono (fun _ _ h => h.2)
        fun _ _ _ h => h) fun bits => ?_
      exact ((replaceBits_agree t current positions bits).carrying hwritable).bind
        fun _ => write_ensures _ _ _ _
    · exact (write_ensures _ _ _ _).mono (fun _ _ h => h.2) fun _ _ _ h => h
  · exact Ensures.fail _ rfl

theorem assignPart_ensures (h : CallsAgree W.toInvariant weight k calls calls') (name : String)
    (items : List IndexItem) (rhs : Expr) (hitems : weigh weight (itemsCallees items) ≤ k)
    (hrhs : weigh weight rhs.callees ≤ k) :
    Ensures W.toInvariant (W.writable name) (assignPart calls name items rhs)
      (assignPart calls' name items rhs) (fun _ s => W.written name s) := by
  have hwritable := stable_writable (I := W.toInvariant) name
  apply ((declaredType_agree name).carrying hwritable).bind
  intro t
  refine ((resolve?_agree name).carrying hwritable).bind fun x =>
    Ensures.ite (fun _ => ?_) fun _ => ?_
  · exact assignElement_ensures h name t _ items rhs hitems hrhs
  · split
    · refine Ensures.ite (fun _ => ?_) fun _ => Ensures.fail _ rfl
      exact assignBits_ensures h name t _ _ items rhs hitems hrhs
    · exact Ensures.fail _ rfl

theorem weigh_expanded (target : Expr) (op : AssignOp) (value : Expr) :
    weigh weight (expanded target op value).callees ≤
      weigh weight (target.callees ++ value.callees) := by
  unfold expanded
  split
  · exact Nat.le_refl _
  · rw [weigh_append]
    exact Nat.le_add_left _ _

/-- An assignment writes to the variable that its target belongs to. -/
theorem assign_ensures (h : CallsAgree W.toInvariant weight k calls calls') (target : Expr)
    (op : AssignOp) (value : Expr) (hk : weigh weight (target.callees ++ value.callees) ≤ k) :
    Ensures W.toInvariant (fun _ => True) (assign calls target op value)
      (assign calls' target op value)
      (fun _ s => ∀ root, target.rootName? = some root → W.written root s) := by
  have hrhs := Nat.le_trans (weigh_expanded target op value) hk
  unfold assign
  split
  · exact Ensures.fail _ rfl
  · next root hroot =>
    have hwritable := stable_writable (I := W.toInvariant) root
    have hwritten (s : State) (h : W.written root s) :
        ∀ name, target.rootName? = some name → W.written name s := by
      intro name hname
      cases hroot.symm.trans hname
      exact h
    refine Ensures.weaken ?_ fun _ s _ => hwritten s
    apply (resolve_ensures root).bind
    intro x
    refine Ensures.bind ((checkWritable_ensures x).weaken fun _ s hs hx =>
      W.writable_of_resolve hs hx.1.1 hx.2.1 hx.2.2) fun _ => ?_
    dsimp only
    split
    · next n htarget =>
      -- A name in parentheses would have no root.
      have hn : n = root := by
        cases target with
        | name m => cases htarget; exact Option.some.inj hroot
        | paren e => nomatch hroot
        | _ => nomatch htarget
      subst hn
      apply ((declaredType_agree n).carrying hwritable).bind
      intro t
      apply ((checkInitializer_agree h t _ hrhs).carrying hwritable).bind
      intro _
      exact ((rightValue_ensures h _ hrhs).carrying hwritable).bind fun r => store_ensures h n r
    -- An element may have calls in its index, so the weight of the target is needed as well.
    · next base items htarget =>
      rw [weigh_append, ← unparen_callees target, htarget, Expr.callees, weigh_append] at hk
      have hitems : weigh weight (itemsCallees items) ≤ k := by omega
      split
      · exact assignPart_ensures h root items _ hitems hrhs
      · exact Ensures.fail _ rfl
    · exact Ensures.fail _ rfl

end Assigning

end Analysis
end OpenQasm
