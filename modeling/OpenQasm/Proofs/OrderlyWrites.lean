import OpenQasm.Proofs.OrderlyEvaluation
import OpenQasm.Proofs.RuntimeBranches

/-!
Declarations and assignments are orderly: whatever is stored in a variable, as a whole or in part, was
converted to the declared type of the variable before. The type is looked up before the right-hand side is
evaluated, and evaluation does not change it.
-/
namespace OpenQasm

namespace Analysis

variable {calls : Calls} {config : Config} {s u : State} {name : String} {t : ClassicalType}
  {value : Option Value}

section Types

/-- A name stands for a symbol of a type. -/
def DeclaredAs (name : String) (t : ClassicalType) (scopes : Scopes) : Prop :=
  ∃ x, scopes.resolve? name = some x ∧ x.type = some t

theorem DeclaredAs.writable (h : DeclaredAs name t s.scopes) (hs : s.scopes.Sound) : t.Writable := by
  obtain ⟨x, hx, htype⟩ := h
  exact ((hs.resolve? hx).typed t htype).1

/-- Evaluation does not change the type of a symbol. -/
theorem DeclaredAs.evaluated {α : Type} {x : Analysis α} {r : Except Failure α}
    (h : DeclaredAs name t s.scopes) (hs : s.scopes.Sound)
    (hx : Agree (.evaluated s.scopes) x x) (hr : x config s = (r, u)) :
    DeclaredAs name t u.scopes := by
  obtain ⟨y, hy, htype⟩ := h
  -- The name still stands for the same symbol, of which only the value may be another one.
  have hevaluated := ((Evaluated.refl hs.numbered).step hx hr).1
  obtain ⟨z, hz, hkept⟩ := hevaluated.resolve? hs.numbered hy
  refine ⟨z, hz, ?_⟩
  rw [hkept.same]
  exact htype

theorem declaredType_eq_ok (h : declaredType name config s = (.ok t, u)) :
    DeclaredAs name t s.scopes ∧ u = s := by
  obtain ⟨x, s', hresolve, hrest⟩ := run_bind_eq_ok.1 h
  obtain ⟨hx, rfl⟩ := resolve_eq_ok hresolve
  rcases htype : x.type with - | t'
  · rw [htype] at hrest
    nomatch hrest
  · rw [htype] at hrest
    cases hrest
    exact ⟨⟨x, hx, htype⟩, rfl⟩

/-- A name in the flat program is there already, or the variable gets it now. -/
theorem runtimeName_eq_ok {emitName : String} (h : runtimeName name config s = (.ok emitName, u)) :
    ∃ x, s.scopes.resolve? name = some x ∧
      (x.emitName = some emitName ∧ u = s ∨
        u.scopes = s.scopes.modify name fun y => { y with emitName := some emitName }) := by
  obtain ⟨x, s', hresolve, hrest⟩ := run_bind_eq_ok.1 h
  obtain ⟨hx, rfl⟩ := resolve_eq_ok hresolve
  refine ⟨x, hx, ?_⟩
  rcases hname : x.emitName with - | emitted
  · rw [hname] at hrest
    by_cases hkind : x.kind = .classicalVariable
    · rw [if_pos hkind] at hrest
      obtain ⟨-, registers, declarations, -, rfl⟩ := materialize_eq_ok hrest
      exact Or.inr rfl
    · rw [if_neg hkind] at hrest
      nomatch hrest
  · rw [hname] at hrest
    cases hrest
    exact Or.inl ⟨rfl, rfl⟩

/-- What has a name in the flat program is the symbol that the name stands for. -/
theorem resolve?_of_runtimeName {emitName : String}
    (h : runtimeName name config s = (.ok emitName, u)) :
    ∃ x, u.scopes.resolve? name = some x ∧ x.emitName = some emitName := by
  obtain ⟨x, hx, ⟨hname, rfl⟩ | hscopes⟩ := runtimeName_eq_ok h
  · exact ⟨x, hx, hname⟩
  · refine ⟨{ x with emitName := some emitName }, ?_, rfl⟩
    rw [hscopes, Scopes.resolve?_modify (keepsKey_emitName (some emitName)), hx, Option.map_some]

/-- A name in the flat program leaves the type as it is. -/
theorem DeclaredAs.named {emitName : String} (h : DeclaredAs name t s.scopes)
    (hr : runtimeName name config s = (.ok emitName, u)) : DeclaredAs name t u.scopes := by
  obtain ⟨-, -, ⟨-, rfl⟩ | hscopes⟩ := runtimeName_eq_ok hr
  · exact h
  · obtain ⟨y, hy, htype⟩ := h
    refine ⟨{ y with emitName := some emitName }, ?_, htype⟩
    rw [hscopes, Scopes.resolve?_modify (keepsKey_emitName (some emitName)), hy, Option.map_some]

end Types

section Writing

theorem emitOp_orderly (i : Instruction) : Orderly (emitOp i) := emit_orderly _

theorem measureOnly_orderly (qubits : List Nat) : Orderly (measureOnly qubits) := by
  induction qubits with
  | nil => exact .pure _
  | cons q qs ih =>
    apply (emitOp_orderly _).bind
    intro _
    exact (noteUsage_orderly q .measured).bind fun _ => ih

theorem measureEach_orderly (pairs : List (Nat × Nat)) : Orderly (measureEach pairs) := by
  induction pairs with
  | nil => exact .pure _
  | cons p rest ih =>
    apply (emitOp_orderly _).bind
    intro _
    exact (noteUsage_orderly p.1 .measured).bind fun _ => ih

theorem coerceTo_orderly (t : ClassicalType) (v : Value) : Orderly (coerceTo t v) := .orFail _ _

theorem coerceTo_inhabits {v w : Value} (ht : t.Writable) (h : coerceTo t v config s = (.ok w, u)) :
    t.Inhabits w := Value.coerce_inhabits ht.positive (orFail_eq_ok h).1

theorem declaredType_orderly (name : String) : Orderly (declaredType name) := by
  apply (resolve_orderly name).bind
  intro x
  split
  · exact .pure _
  · exact .fail _

/-- What is stored under a name is a value of its type. -/
def Storable (name : String) (value : Option Value) (scopes : Scopes) : Prop :=
  ∀ v, value = some v → ∃ t, DeclaredAs name t scopes ∧ t.Inhabits v

theorem storable_none (name : String) (scopes : Scopes) : Storable name none scopes :=
  fun _ h => nomatch h

theorem setValue_proceeds (h : Storable name value s.scopes) (runtimeWrite : Bool) :
    Proceeds config s
      (modifySymbol name fun x => { x with value := if runtimeWrite then none else value }) := by
  refine .modify (.setValue fun x t v hx htype hv => ?_) fun _ => rfl
  cases runtimeWrite with
  | true => nomatch hv
  | false =>
    -- The symbol that is written is the one whose type was looked up.
    obtain ⟨t', ⟨y, hy, htype'⟩, hinhabits⟩ := h v hv
    cases hx.symm.trans hy
    cases htype.symm.trans htype'
    exact hinhabits

/-- A name in the flat program may be given to the variable before its value is replaced. -/
theorem write_proceeds (items : Option (List IndexItem)) (shown : Expr) (hs : s.scopes.Sound)
    (h : Storable name value s.scopes) : Proceeds config s (write name items shown value) := by
  apply (resolve_orderly name config s hs).bind
  intro x s' hresolve
  obtain ⟨-, rfl⟩ := resolve_eq_ok hresolve
  apply (branchedSince_orderly x.scope config s' hs).bind
  rintro runtimeWrite _ ⟨⟩
  refine .ite (fun _ => ?_) fun _ => setValue_proceeds h _
  · apply (runtimeName_orderly name config s' hs).bind
    intro emitName u hname
    have hnamed : Storable name value u.scopes := fun v hv => by
      obtain ⟨t, ht, hinhabits⟩ := h v hv
      exact ⟨t, ht.named hname, hinhabits⟩
    apply (emit_orderly _ config u ((runtimeName_orderly name).sound hs hname)).bind
    rintro _ _ ⟨⟩
    exact setValue_proceeds
      (s := { u with output := .assign (placeExpr emitName items) shown :: u.output }) hnamed _

theorem checkWritable_orderly (x : Symbol) : Orderly (checkWritable x) := by
  unfold checkWritable
  split
  · exact .ite (fun _ => .pure _) fun _ => .fail _
  · exact .ite (fun _ => .pure _) fun _ => .fail _
  · exact .fail _
  · exact .fail _

theorem replaceBits_orderly (t : ClassicalType) (current : Option Value) (positions : List Nat)
    (bits : Value) : Orderly (replaceBits t current positions bits) := by
  unfold replaceBits
  split
  · split
    · exact (coerceTo_orderly t _).bind fun _ => .pure _
    · exact .pure _
  · exact .pure _

/-- A word with bits replaced is converted to the type again. -/
theorem replaceBits_eq_ok {current : Option Value} {positions : List Nat} {bits : Value}
    (ht : t.Writable) (h : replaceBits t current positions bits config s = (.ok value, u)) :
    u = s ∧ ∀ v, value = some v → t.Inhabits v := by
  have hunknown (hnone : (pure none : Analysis (Option Value)) config s = (.ok value, u)) :
      u = s ∧ ∀ v, value = some v → t.Inhabits v := by
    cases hnone
    exact ⟨rfl, fun _ hv => nomatch hv⟩
  unfold replaceBits at h
  generalize current.bind Value.int? = old, bits.int? = new at h
  rcases old with - | old
  · exact hunknown h
  rcases new with - | new
  · exact hunknown h
  dsimp only at h
  rcases hword : Word.setBits old positions new with - | n
  · rw [hword] at h
    exact hunknown h
  rw [hword] at h
  obtain ⟨w, s', hcoerce, h⟩ := run_bind_eq_ok.1 h
  cases h
  refine ⟨(orFail_eq_ok hcoerce).2, ?_⟩
  rintro _ ⟨⟩
  exact coerceTo_inhabits ht hcoerce

end Writing

section Values

theorem measureInto_orderly (h : calls.Orderly) (qubits : List Nat) (target : Expr) :
    Orderly (measureInto calls qubits target) := by
  apply (viewOf_orderly h target).bind
  intro v
  split
  · exact .fail _
  · refine .ite (fun _ => .failing _) fun _ => ?_
    apply (physical_orderly _).bind
    intro clbits
    apply (measureEach_orderly _).bind
    intro _
    split
    · exact forget_orderly _
    · exact .pure _

theorem measure_orderly (h : calls.Orderly) (operand : Expr) (target : Option Expr) :
    Orderly (measure calls operand target) := by
  apply (quantumQubits_orderly h operand).bind
  intro qubits
  cases target with
  | some target => exact measureInto_orderly h qubits target
  | none => exact measureOnly_orderly qubits

theorem subroutine?_orderly (name : String) : Orderly (subroutine? name) :=
  (resolve?_orderly name).bind fun _ => .pure _

theorem plainValue_orderly (h : calls.Orderly) (e : Expr) : Orderly (plainValue calls e) := by
  apply (fold_orderly h e).bind
  intro v
  split
  · exact .pure _
  · exact (residualize_orderly h e).bind fun _ => .pure _

theorem rightValue_orderly (h : calls.Orderly) (e : Expr) : Orderly (rightValue calls e) := by
  unfold rightValue
  split
  · exact (quantumQubits_orderly h _).bind fun _ => .pure _
  · next f args _ =>
    apply (subroutine?_orderly f).bind
    intro d
    split
    · apply (h.subroutine _ args).bind
      intro r
      split
      · exact .pure _
      · exact .fail _
    · exact plainValue_orderly h _
  · exact plainValue_orderly h _

theorem checkScalar_orderly (h : calls.Orderly) (t : ClassicalType) (e : Expr) :
    Orderly (checkScalar calls t e) := by
  apply (infer_orderly h e).bind
  intro u
  exact (Orderly.orFail _ _).bind fun _ => .orFail _ _

mutual

theorem checkInitializer_orderly (h : calls.Orderly) (t : ClassicalType) :
    ∀ e : Expr, Orderly (checkInitializer calls t e)
  | .paren e => checkInitializer_orderly h t e
  | .array items => by
    simp only [checkInitializer]
    split
    · exact .ite (fun _ => .fail _) fun _ => checkItems_orderly h _ items
    · exact checkScalar_orderly h _ _
  | .int _ | .float _ | .imaginary _ | .bool _ | .bits _ | .duration _ _ | .constant _ | .name _
  | .unary _ _ | .binary _ _ _ | .call _ _ | .index _ _ | .cast _ _ | .measure _ =>
    checkScalar_orderly h t _

theorem checkItems_orderly (h : calls.Orderly) (t : ClassicalType) :
    ∀ es : List Expr, Orderly (checkItems calls t es)
  | [] => .pure _
  | e :: es => by
    simp only [checkItems]
    apply (checkInitializer_orderly h t e).bind
    intro _
    exact checkItems_orderly h t es

end

end Values

section Assigning

/-- The value is converted to the type that the name has when it is stored. -/
theorem store_orderly (h : calls.Orderly) (name : String) (r : RightValue) :
    Orderly (store calls name r) := by
  intro config s hs
  cases r with
  | measured qubits => exact measureInto_orderly h qubits (.name name) config s hs
  | known v =>
    apply (declaredType_orderly name config s hs).bind
    intro t s' htype
    obtain ⟨ht, rfl⟩ := declaredType_eq_ok htype
    apply (coerceTo_orderly t v config s' hs).bind
    intro w s'' hcoerce
    cases (orFail_eq_ok hcoerce).2
    -- What is stored is the converted value, whatever the right-hand side gives.
    refine write_proceeds none w.toExpr hs ?_
    rintro _ ⟨⟩
    exact ⟨t, ht, coerceTo_inhabits (ht.writable hs) hcoerce⟩
  | runtime e => exact write_proceeds none e hs (storable_none name s.scopes)

theorem elementPath_orderly (h : calls.Orderly) (name : String) :
    ∀ (t : ClassicalType) (items : List IndexItem), Orderly (elementPath calls name t items)
  | _, [] => .pure _
  | t, .single e :: rest => by
    simp only [elementPath]
    apply (itemPositions_orderly h _ (.single e)).bind
    intro positions
    split
    · exact .fail _
    · exact (elementPath_orderly h name _ rest).bind fun _ => .pure _
  | _, .range _ :: _ | _, .set _ :: _ => .fail _

/-- An element is replaced by a value of its own type, which makes a value of the type of the array. -/
theorem assignElement_proceeds (h : calls.Orderly) {current : Option Value} (items : List IndexItem)
    (rhs : Expr) (hs : s.scopes.Sound) (ht : DeclaredAs name t s.scopes)
    (hcurrent : ∀ c, current = some c → t.Inhabits c) :
    Proceeds config s (assignElement calls name t current items rhs) := by
  have hzero (callees : List String) : weigh (fun _ => 0) callees ≤ 0 := Nat.le_of_eq (weigh_zero _)
  -- The indices, the check and the right-hand side are evaluated between the lookup of the type and the
  -- store; the type is carried through each of them.
  apply (elementPath_orderly h name t items config s hs).bind
  rintro ⟨path, element⟩ s₁ hpath
  obtain ⟨helement, hreplace⟩ := elementPath_inhabits (ht.writable hs) hpath
  have ht₁ := ht.evaluated hs (elementPath_agree (h.evaluated _) name t items (hzero _)) hpath
  have hs₁ := (elementPath_orderly h name t items).sound hs hpath
  apply (checkInitializer_orderly h element rhs config s₁ hs₁).bind
  intro _ s₂ hchecked
  have ht₂ := ht₁.evaluated hs₁ (checkInitializer_agree (h.evaluated _) element rhs (hzero _)) hchecked
  have hs₂ := (checkInitializer_orderly h element rhs).sound hs₁ hchecked
  apply (rightValue_orderly h rhs config s₂ hs₂).bind
  intro r s₃ hright
  have ht₃ := ht₂.evaluated hs₂ (rightValue_ensures (h.evaluated _) rhs (hzero _)).agree hright
  have hs₃ := (rightValue_orderly h rhs).sound hs₂ hright
  split
  · next v =>
    apply (coerceTo_orderly element v config s₃ hs₃).bind
    intro w s₄ hcoerce
    cases (orFail_eq_ok hcoerce).2
    refine write_proceeds _ w.toExpr hs₃ fun new hnew => ⟨t, ht₃, ?_⟩
    obtain ⟨c, hc, hnew⟩ := Option.bind_eq_some_iff.1 hnew
    exact hreplace c w new (hcurrent c hc) (coerceTo_inhabits helement hcoerce) hnew
  · exact write_proceeds _ _ hs₃ (storable_none name s₃.scopes)
  · exact Orderly.fail _ config s₃ hs₃

theorem assignBits_proceeds (h : calls.Orderly) (width : Nat) (current : Option Value)
    (items : List IndexItem) (rhs : Expr) (hs : s.scopes.Sound) (ht : DeclaredAs name t s.scopes) :
    Proceeds config s (assignBits calls name t width current items rhs) := by
  have hzero (callees : List String) : weigh (fun _ => 0) callees ≤ 0 := Nat.le_of_eq (weigh_zero _)
  have hwritable := ht.writable hs
  -- As for elements, the type is carried through what is evaluated before the store.
  unfold assignBits
  split
  · next item =>
    apply (itemPositions_orderly h width item config s hs).bind
    intro positions s₁ hpositions
    have ht₁ := ht.evaluated hs (itemPositions_agree (h.evaluated _) width item (hzero _)) hpositions
    have hs₁ := (itemPositions_orderly h width item).sound hs hpositions
    apply (checkInitializer_orderly h _ rhs config s₁ hs₁).bind
    intro _ s₂ hchecked
    have ht₂ := ht₁.evaluated hs₁ (checkInitializer_agree (h.evaluated _) _ rhs (hzero _)) hchecked
    have hs₂ := (checkInitializer_orderly h _ rhs).sound hs₁ hchecked
    apply (rightValue_orderly h rhs config s₂ hs₂).bind
    intro r s₃ hright
    have ht₃ := ht₂.evaluated hs₂ (rightValue_ensures (h.evaluated _) rhs (hzero _)).agree hright
    have hs₃ := (rightValue_orderly h rhs).sound hs₂ hright
    split
    · exact measureInto_orderly h _ _ config s₃ hs₃
    · next v =>
      apply (coerceTo_orderly _ v config s₃ hs₃).bind
      intro bits s₄ hcoerce
      cases (orFail_eq_ok hcoerce).2
      apply (replaceBits_orderly t current positions bits config s₃ hs₃).bind
      intro value s₅ hreplaced
      obtain ⟨rfl, hinhabits⟩ := replaceBits_eq_ok hwritable hreplaced
      exact write_proceeds _ _ hs₃ fun new hnew => ⟨t, ht₃, hinhabits new hnew⟩
    · exact write_proceeds _ _ hs₃ (storable_none name s₃.scopes)
  · exact Orderly.fail _ config s hs

theorem assignPart_orderly (h : calls.Orderly) (name : String) (items : List IndexItem) (rhs : Expr) :
    Orderly (assignPart calls name items rhs) := by
  intro config s hs
  apply (declaredType_orderly name config s hs).bind
  intro t s' htype
  obtain ⟨ht, rfl⟩ := declaredType_eq_ok htype
  apply (resolve?_orderly name config s' hs).bind
  rintro _ _ ⟨⟩
  -- What is known of the variable before is a value of the type that was looked up.
  have hcurrent : ∀ c, (s'.scopes.resolve? name).bind Symbol.value = some c → t.Inhabits c := by
    intro c hc
    obtain ⟨x, hx, hxtype⟩ := ht
    rw [hx] at hc
    exact ((hs.resolve? hx).typed t hxtype).2 c hc
  split
  · exact assignElement_proceeds h items rhs hs ht hcurrent
  · split
    · split
      · exact assignBits_proceeds h _ _ items rhs hs ht
      · exact Orderly.fail _ config s' hs
    · exact Orderly.fail _ config s' hs

theorem assign_orderly (h : calls.Orderly) (target : Expr) (op : AssignOp) (value : Expr) :
    Orderly (assign calls target op value) := by
  unfold assign
  split
  · exact .fail _
  · next root _ =>
    apply (resolve_orderly root).bind
    intro x
    apply (checkWritable_orderly x).bind
    intro _
    split
    · next n _ =>
      apply (declaredType_orderly n).bind
      intro t
      apply (checkInitializer_orderly h t _).bind
      intro _
      apply (rightValue_orderly h _).bind
      intro r
      exact store_orderly h n r
    · split
      · exact assignPart_orderly h root _ _
      · exact .fail _
    · exact .fail _

end Assigning

end Analysis
end OpenQasm
