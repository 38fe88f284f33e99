import OpenQasm.Proofs.Lockstep

/-!
The evaluation of expressions is orderly, given that the calls in them are, and so is what is put out for
them: expressions of the flat program, names of variables there, and the operations of gates.
-/
namespace OpenQasm

open Analysis

/-- An expansion of definitions that is orderly and does not write to what is visible where a call stands. -/
structure Calls.Orderly (calls : Calls) : Prop where
  subroutine : ∀ d args, Analysis.Orderly (calls.subroutine d args)
  resultType : ∀ d t, Analysis.Orderly (calls.resultType d t)
  gate : ∀ d params qubits, Analysis.Orderly (calls.gate d params qubits)
  evaluated : ∀ before, CallsAgree (.evaluated before) (fun _ => 0) 0 calls calls

namespace Analysis

variable {calls : Calls}

section Lookup

theorem nameValue_orderly (name : String) : Orderly (nameValue name) := by
  apply (resolve_orderly name).bind
  intro x
  split <;> first | exact .pure _ | exact .fail _

theorem nameType_orderly (name : String) : Orderly (nameType name) := by
  apply (resolve_orderly name).bind
  intro x
  split <;> first | exact .pure _ | exact .fail _

theorem nameView_orderly (name : String) : Orderly (nameView name) := by
  apply (resolve_orderly name).bind
  intro x
  split <;> first | exact .pure _ | exact .fail _

theorem elementView_orderly (kind : RegisterKind) (v : View) (index : Int) :
    Orderly (elementView kind v index) := by
  refine .get (fun _ _ => rfl) fun s => ?_
  dsimp only
  split
  · exact .fail _
  · split
    · exact .pure _
    · exact .fail _

end Lookup

section Results

theorem callValue_orderly (name : String) (r : Option RightValue) : Orderly (callValue name r) := by
  rcases r with _ | v | e | qubits
  · exact .fail _
  · exact .pure _
  · exact .fail _
  · exact .fail _

theorem functionValue_orderly (f : String) (v : Option Value) : Orderly (functionValue f v) := by
  unfold functionValue
  split
  · exact .pure _
  · split
    · exact .fail _
    · split
      · exact .pure _
      · exact .fail _

theorem indexValue_orderly (e : Expr) (v : Option Value) : Orderly (indexValue e v) := by
  unfold indexValue
  split
  · exact .pure _
  · exact .fail _
  · exact .fail _

theorem widthValue_orderly (e : Expr) (v : Option Value) : Orderly (widthValue e v) := by
  unfold widthValue
  split
  · exact .ite (fun _ => .fail _) fun _ => .ite (fun _ => .pure _) fun _ => .fail _
  · exact .fail _
  · exact .fail _

theorem checkWidth_orderly (kind : SizedKind) (n : Nat) : Orderly (checkWidth kind n) := by
  rcases checkWidth_cases kind n with hallowed | ⟨p, hrefused⟩
  · rw [hallowed]
    exact .pure _
  · rw [hrefused]
    exact .fail _

theorem unaryType_orderly (op : UnaryOp) (t : ClassicalType) : Orderly (unaryType op t) := by
  cases op with
  | not => exact .pure _
  | neg => exact .ite (fun _ => .fail _) fun _ => .pure _
  | bitNot => exact .pure _

theorem itemsType_orderly (t : ClassicalType) (items : List IndexItem) :
    Orderly (itemsType t items) := by
  induction items generalizing t with
  | nil => exact .pure _
  | cons item rest ih =>
    unfold itemsType
    split
    · exact ih _
    · exact .fail _

end Results

section Evaluating

-- The induction is on the syntax; the only cases that are not about a smaller part are the calls, which the
-- assumption is for.
mutual

theorem fold_orderly (h : calls.Orderly) : ∀ e : Expr, Orderly (fold calls e)
  | .int _ => .ite (fun _ => .pure _) fun _ => .fail _
  | .float _ | .imaginary _ | .bool _ | .duration _ _ | .constant _ => .pure _
  | .bits digits => by
    simp only [fold]
    split
    · exact .pure _
    · exact .fail _
  | .name n => nameValue_orderly n
  | .unary op e => by
    simp only [fold]
    apply (fold_orderly h e).bind
    intro v
    split
    · exact (Orderly.orFail _ _).map
    · exact .pure _
  | .binary l op r => by
    simp only [fold]
    apply (fold_orderly h l).bind
    intro left
    split
    · exact .pure _
    · apply (fold_orderly h r).bind
      intro right
      split
      · exact (Orderly.orFail _ _).map
      · exact .pure _
  | .call f args => by
    simp only [fold]
    apply (resolve?_orderly f).bind
    intro x
    split
    · exact (h.subroutine _ args).bind fun r => callValue_orderly f r
    · refine .ite (fun _ => ?_) fun _ => .ite (fun _ => .fail _) fun _ => .fail _
      exact (foldArgument_orderly h f args).bind fun v => functionValue_orderly f v
  | .index base items => by
    simp only [fold]
    apply (infer_orderly h base).bind
    intro t
    apply (fold_orderly h base).bind
    intro v
    exact foldItems_orderly h t v items
  | .cast type e => by
    simp only [fold]
    apply (resolveType_orderly h type).bind
    intro t
    apply (fold_orderly h e).bind
    intro v
    split
    · exact (Orderly.orFail _ _).map
    · exact .pure _
  | .array items => by
    simp only [fold]
    exact (foldAll_orderly h items).bind fun vs => .pure _
  | .measure _ => .fail _
  | .paren e => fold_orderly h e

theorem foldAll_orderly (h : calls.Orderly) : ∀ es : List Expr, Orderly (foldAll calls es)
  | [] => .pure _
  | e :: es => by
    simp only [foldAll]
    apply (fold_orderly h e).bind
    intro v
    exact (foldAll_orderly h es).bind fun vs => .pure _

theorem foldArgument_orderly (h : calls.Orderly) (f : String) :
    ∀ es : List Expr, Orderly (foldArgument calls f es)
  | [] => .fail _
  | [e] => fold_orderly h e
  | _ :: _ :: _ => .fail _

theorem foldItems_orderly (h : calls.Orderly) :
    ∀ (t : ClassicalType) (v : Option Value) (items : List IndexItem),
      Orderly (foldItems calls t v items)
  | _, _, [] => .pure _
  | t, v, item :: rest => by
    simp only [foldItems]
    split
    · exact .fail _
    · apply (itemPositions_orderly h _ item).bind
      intro positions
      split
      · exact foldItems_orderly h _ _ rest
      · exact .fail _

theorem itemPositions_orderly (h : calls.Orderly) (n : Nat) :
    ∀ item : IndexItem, Orderly (itemPositions calls n item)
  | .single e => by
    simp only [itemPositions]
    apply (fold_orderly h e).bind
    intro v
    apply (indexValue_orderly e v).bind
    intro i
    exact (Orderly.orFail _ _).bind fun p => .pure _
  | .set items => setPositions_orderly h n items
  | .range r => rangePositions_orderly h n r

theorem setPositions_orderly (h : calls.Orderly) (n : Nat) :
    ∀ es : List Expr, Orderly (setPositions calls n es)
  | [] => .pure _
  | e :: es => by
    simp only [setPositions]
    apply (fold_orderly h e).bind
    intro v
    apply (indexValue_orderly e v).bind
    intro i
    apply (Orderly.orFail _ _).bind
    intro p
    exact (setPositions_orderly h n es).bind fun ps => .pure _

theorem rangePositions_orderly (h : calls.Orderly) (n : Nat) :
    ∀ r : RangeExpr, Orderly (rangePositions calls n r)
  | ⟨start, step, stop⟩ => by
    simp only [rangePositions]
    apply (rangePart_orderly h start).bind
    intro a
    apply (rangePart_orderly h step).bind
    intro b
    apply (rangePart_orderly h stop).bind
    intro c
    exact .orFail _ _

theorem rangePart_orderly (h : calls.Orderly) :
    ∀ e : Option Expr, Orderly (rangePart calls e)
  | none => .pure _
  | some e => by
    simp only [rangePart]
    apply (fold_orderly h e).bind
    intro v
    exact (indexValue_orderly e v).bind fun i => .pure _

theorem infer_orderly (h : calls.Orderly) : ∀ e : Expr, Orderly (infer calls e)
  | .int _ | .float _ | .constant _ | .imaginary _ | .bool _ | .bits _ | .duration _ _ => .pure _
  | .name n => nameType_orderly n
  | .unary op e => by
    simp only [infer]
    exact (infer_orderly h e).bind fun t => unaryType_orderly op t
  | .binary l op r => by
    simp only [infer]
    apply (infer_orderly h l).bind
    intro t
    exact (infer_orderly h r).bind fun u => .orFail _ _
  | .call f args => by
    simp only [infer]
    apply (resolve?_orderly f).bind
    intro x
    split
    · split
      · exact .fail _
      · split
        · exact h.resultType _ _
        · exact .fail _
    · refine .ite (fun _ => ?_) fun _ => .fail _
      exact (inferAll_orderly h args).bind fun _ => .pure _
  | .index base items => by
    simp only [infer]
    exact (infer_orderly h base).bind fun t => itemsType_orderly t items
  | .cast type _ => resolveType_orderly h type
  | .array items => by
    simp only [infer]
    exact (inferFirst_orderly h items).bind fun t => .pure _
  | .measure e => by
    simp only [infer]
    apply (viewOf_orderly h e).bind
    intro v
    split
    · exact .pure _
    · exact .fail _
  | .paren e => infer_orderly h e

theorem inferAll_orderly (h : calls.Orderly) : ∀ es : List Expr, Orderly (inferAll calls es)
  | [] => .pure _
  | e :: es => by
    simp only [inferAll]
    apply (infer_orderly h e).bind
    intro _
    exact inferAll_orderly h es

theorem inferFirst_orderly (h : calls.Orderly) : ∀ es : List Expr, Orderly (inferFirst calls es)
  | [] => .pure _
  | e :: _ => infer_orderly h e

theorem resolveType_orderly (h : calls.Orderly) : ∀ t : TypeExpr, Orderly (resolveType calls t)
  | .bool | .duration | .stretch | .sized _ none => .pure _
  | .sized kind (some e) => by
    simp only [resolveType]
    apply (fold_orderly h e).bind
    intro v
    apply (widthValue_orderly e v).bind
    intro n
    exact (checkWidth_orderly kind n).bind fun _ => .pure _
  | .array element dims => by
    simp only [resolveType]
    apply (resolveType_orderly h element).bind
    intro t
    refine .ite (fun _ => .fail _) fun _ => ?_
    exact (resolveWidths_orderly h dims).bind fun _ => .pure _

theorem resolveWidths_orderly (h : calls.Orderly) :
    ∀ es : List Expr, Orderly (resolveWidths calls es)
  | [] => .pure _
  | e :: es => by
    simp only [resolveWidths]
    apply (fold_orderly h e).bind
    intro v
    apply (widthValue_orderly e v).bind
    intro n
    exact (resolveWidths_orderly h es).bind fun _ => .pure _

theorem viewOf_orderly (h : calls.Orderly) : ∀ e : Expr, Orderly (viewOf calls e)
  | .name n => nameView_orderly n
  | .index base items => by
    simp only [viewOf]
    apply (viewOf_orderly h base).bind
    intro v
    exact (partView_orderly h v.1 v.2 items).bind fun _ => .pure _
  | .binary l op r => by
    by_cases hop : op = .concat
    · subst hop
      simp only [viewOf]
      apply (viewOf_orderly h l).bind
      intro v
      apply (viewOf_orderly h r).bind
      intro w
      exact .ite (fun _ => .pure _) fun _ => .fail _
    · rw [viewOf]
      · exact .fail _
      all_goals simp_all
  | .paren e => viewOf_orderly h e
  | .int _ | .float _ | .imaginary _ | .bool _ | .bits _ | .duration _ _ | .constant _ | .unary _ _
  | .call _ _ | .cast _ _ | .array _ | .measure _ => .fail _

theorem partView_orderly (h : calls.Orderly) (kind : RegisterKind) (v : View) :
    ∀ items : List IndexItem, Orderly (partView calls kind v items)
  | [] => .fail _
  | [.single e] => by
    simp only [partView]
    apply (fold_orderly h e).bind
    intro w
    apply (indexValue_orderly e w).bind
    intro i
    exact elementView_orderly kind v i
  | [.set items] => by
    simp only [partView]
    exact (itemPositions_orderly h _ (.set items)).bind fun _ => .pure _
  | [.range r] => by
    simp only [partView]
    exact (itemPositions_orderly h _ (.range r)).bind fun _ => .pure _
  | a :: _ :: _ => by
    cases a <;> exact .fail _

end

theorem resolveWidth_orderly (h : calls.Orderly) (e : Expr) : Orderly (resolveWidth calls e) :=
  (fold_orderly h e).bind fun v => widthValue_orderly e v

theorem quantumView_orderly (h : calls.Orderly) (e : Expr) : Orderly (quantumView calls e) := by
  apply (viewOf_orderly h e).bind
  intro v
  split
  · exact .pure _
  · exact .fail _

theorem quantumQubits_orderly (h : calls.Orderly) (e : Expr) : Orderly (quantumQubits calls e) :=
  (quantumView_orderly h e).bind fun v => physical_orderly v

end Evaluating

section Naming

/-- A name in the flat program is taken together with a register or a variable. -/
theorem hoist_orderly (name : String) (t : ClassicalType) : Orderly (hoist name t) := by
  unfold hoist
  split
  · exact (allocate_orderly name _ .classical).bind fun _ => .pure _
  · exact addVariable_orderly name _ none fun _ => .pure _

theorem materialize_orderly (name : String) : Orderly (materialize name) := by
  intro config s hs
  apply (resolve_orderly name config s hs).bind
  intro x s' hresolve
  obtain ⟨hx, rfl⟩ := resolve_eq_ok hresolve
  split
  · exact Orderly.fail _ config s' hs
  · next t htype =>
    apply (hoist_orderly name t config s' hs).bind
    intro emitName u hhoist
    -- The scopes are the same as before, so that the symbol that gets the name is the one with the type.
    have htyped : ∀ y, u.scopes.resolve? name = some y → y.type ≠ none := by
      obtain ⟨registers, declarations, hu⟩ := hoist_state name t config s'
      rw [hhoist] at hu
      cases hu
      intro y hy hnone
      cases hx.symm.trans hy
      exact nomatch hnone.symm.trans htype
    have hnamed (output : List FlatStatement) : Proceeds config { u with output }
        (modifySymbol name fun y => { y with emitName := some emitName }) :=
      nameSymbol_proceeds emitName htyped
    split
    · apply (emit_orderly _ config u ((hoist_orderly name t).sound hs hhoist)).bind
      rintro _ _ ⟨⟩
      exact (hnamed _).bind fun _ _ _ => .pure _
    · exact (hnamed u.output).bind fun _ _ _ => .pure _

theorem runtimeName_orderly (name : String) : Orderly (runtimeName name) := by
  apply (resolve_orderly name).bind
  intro x
  split
  · exact .pure _
  · exact .ite (fun _ => materialize_orderly name) fun _ => .fail _

end Naming

section Residuals

theorem literalItems_orderly (h : calls.Orderly) (n : Nat) (items : List IndexItem) :
    Orderly (literalItems calls n items) := by
  induction items with
  | nil => exact .pure _
  | cons item rest ih =>
    unfold literalItems
    apply (itemPositions_orderly h n item).bind
    intro positions
    exact ih.bind fun _ => .pure _

theorem foldLiteral?_orderly (h : calls.Orderly) (e : Expr) : Orderly (foldLiteral? calls e) :=
  .get (fun _ _ => rfl) fun _ => .ite (fun _ => .fail _) fun _ => (fold_orderly h e).bind fun _ => .pure _

mutual

theorem residualize_orderly (h : calls.Orderly) : ∀ e : Expr, Orderly (residualize calls e)
  | .name n => by
    simp only [residualize]
    apply (foldLiteral?_orderly h _).bind
    intro literal
    split
    · exact .pure _
    · exact (runtimeName_orderly n).bind fun _ => .pure _
  | .unary op e => by
    simp only [residualize]
    apply (foldLiteral?_orderly h _).bind
    intro literal
    split
    · exact .pure _
    · exact (residualize_orderly h e).bind fun _ => .pure _
  | .binary l op r => by
    simp only [residualize]
    apply (foldLiteral?_orderly h _).bind
    intro literal
    split
    · exact .pure _
    · apply (residualize_orderly h l).bind
      intro l
      exact (residualize_orderly h r).bind fun _ => .pure _
  | .call f args => by
    simp only [residualize]
    apply (foldLiteral?_orderly h _).bind
    intro literal
    split
    · exact .pure _
    · exact (residualizeAll_orderly h args).bind fun _ => .pure _
  | .index base items => by
    simp only [residualize]
    apply (foldLiteral?_orderly h _).bind
    intro literal
    split
    · exact .pure _
    · apply (infer_orderly h base).bind
      intro t
      apply (literalItems_orderly h _ items).bind
      intro items
      exact (residualize_orderly h base).bind fun _ => .pure _
  | .cast type e => by
    simp only [residualize]
    apply (foldLiteral?_orderly h _).bind
    intro literal
    split
    · exact .pure _
    · apply (resolveType_orderly h type).bind
      intro t
      exact (residualize_orderly h e).bind fun _ => .pure _
  | .array items => by
    simp only [residualize]
    apply (foldLiteral?_orderly h _).bind
    intro literal
    split
    · exact .pure _
    · exact (residualizeAll_orderly h items).bind fun _ => .pure _
  | .paren e => by
    simp only [residualize]
    apply (foldLiteral?_orderly h _).bind
    intro literal
    split
    · exact .pure _
    · exact (residualize_orderly h e).bind fun _ => .pure _
  | .int _ | .float _ | .imaginary _ | .bool _ | .bits _ | .duration _ _ | .constant _
  | .measure _ => (foldLiteral?_orderly h _).bind fun _ => .pure _

theorem residualizeAll_orderly (h : calls.Orderly) :
    ∀ es : List Expr, Orderly (residualizeAll calls es)
  | [] => .pure _
  | e :: es => by
    simp only [residualizeAll]
    apply (residualize_orderly h e).bind
    intro e
    exact (residualizeAll_orderly h es).bind fun _ => .pure _

end

end Residuals

section Parameters

theorem parameterLeaf_orderly (h : calls.Orderly) (e : Expr) : Orderly (parameterLeaf calls e) := by
  apply (fold_orderly h e).bind
  intro v
  split
  · split
    · exact .pure _
    · exact .fail _
  · apply (residualize_orderly h e).bind
    intro shown
    split
    · exact .pure _
    · exact .pure _

theorem boundParameter?_orderly (name : String) : Orderly (boundParameter? name) := by
  apply (resolve?_orderly name).bind
  intro x
  split
  · exact .pure _
  · exact .pure _

mutual

theorem parameterTree_orderly (h : calls.Orderly) : ∀ e : Expr, Orderly (parameterTree calls e)
  | .constant c => by
    cases c with
    | pi => exact .pure _
    | tau => exact parameterLeaf_orderly h _
    | euler => exact parameterLeaf_orderly h _
  | .name n => by
    simp only [parameterTree]
    apply (boundParameter?_orderly n).bind
    intro p
    split
    · exact .pure _
    · exact parameterLeaf_orderly h _
  | .paren e => parameterTree_orderly h e
  | .unary op e => by
    cases op with
    | neg => exact (parameterTree_orderly h e).bind fun _ => .pure _
    | not => exact parameterLeaf_orderly h _
    | bitNot => exact parameterLeaf_orderly h _
  | .binary l op r => by
    simp only [parameterTree]
    split
    · apply (parameterTree_orderly h l).bind
      intro a
      exact (parameterTree_orderly h r).bind fun _ => .pure _
    · exact parameterLeaf_orderly h _
  | .call f args => by
    simp only [parameterTree]
    refine (resolve?_orderly f).bind fun x =>
      .ite (fun _ => ?_) fun _ => parameterLeaf_orderly h _
    apply (onlyParameter_orderly h args).bind
    intro p
    split
    · exact .pure _
    · exact parameterLeaf_orderly h _
  | .int _ | .float _ | .imaginary _ | .bool _ | .bits _ | .duration _ _ | .index _ _ | .cast _ _
  | .array _ | .measure _ => parameterLeaf_orderly h _

theorem onlyParameter_orderly (h : calls.Orderly) :
    ∀ es : List Expr, Orderly (onlyParameter calls es)
  | [e] => (parameterTree_orderly h e).bind fun _ => .pure _
  | [] | _ :: _ :: _ => .pure _

end

theorem toParameter_orderly (h : calls.Orderly) (e : Expr) : Orderly (toParameter calls e) :=
  (parameterTree_orderly h e).bind fun _ => .pure _

end Parameters

section Gates

theorem inverseOf_orderly (i : Instruction) : Orderly (inverseOf i) := by
  unfold inverseOf
  split
  · exact .pure _
  · exact .fail _

theorem invert_orderly (ops : List Instruction) : Orderly (invert ops) :=
  .mapM ops.reverse fun i _ => inverseOf_orderly i

theorem checkDistinct_orderly (gate : String) (qubits : List Nat) :
    Orderly (checkDistinct gate qubits) := by
  unfold checkDistinct
  split
  · exact (qubitLabel_orderly _).bind fun _ => .fail _
  · exact .pure _

theorem gateOn_orderly (g : Except OperationError Gate) (qubits : List Nat) :
    Orderly (gateOn g qubits) := (Orderly.orFail _ _).bind fun _ => .pure _

theorem fractionalPower_orderly (i : Instruction) (exponent : Float) :
    Orderly (fractionalPower i exponent) := by
  unfold fractionalPower
  split
  · exact .fail _
  · split
    · exact .pure _
    · split
      · exact .fail _
      · refine .read (fun _ => rfl) fun config => ?_
        exact (Orderly.orFail _ _).bind fun _ => gateOn_orderly _ _

theorem power_orderly (exponent : Float) {inner : Analysis (List Instruction)}
    (hinner : Orderly inner) : Orderly (power exponent inner) := by
  refine .ite (fun _ => .pure _) fun _ => .ite (fun _ => ?_) fun _ => ?_
  · refine .read (fun _ => rfl) fun config => .ite (fun _ => .fail _) fun _ => ?_
    apply hinner.bind
    intro once
    refine .ite (fun _ => ?_) fun _ => ?_
    · exact (invert_orderly once).bind fun _ => .pure _
    · exact (Orderly.pure once).bind fun _ => .pure _
  · apply hinner.bind
    intro ops
    split
    · exact fractionalPower_orderly _ _
    · exact .fail _

theorem baseOps_orderly (h : calls.Orderly) (target : GateTarget) (params : List Parameter)
    (qubits : List Nat) : Orderly (baseOps calls target params qubits) := by
  cases target with
  | builtin g => exact gateOn_orderly _ _
  | external g => exact gateOn_orderly _ _
  | user d => exact h.gate d params qubits

theorem applyModifiers_orderly (h : calls.Orderly) (target : GateTarget) (params : List Parameter)
    (modifiers : List KnownModifier) (qubits : List Nat) :
    Orderly (applyModifiers calls target params modifiers qubits) := by
  induction modifiers generalizing qubits with
  | nil => exact baseOps_orderly h target params qubits
  | cons m rest ih =>
    cases m with
    | control state n => exact (ih (qubits.drop n)).bind fun _ => .pure _
    | inverse => exact (ih qubits).bind fun ops => invert_orderly ops
    | power exponent => exact power_orderly exponent (ih qubits)

theorem resolveGate_orderly (name : String) : Orderly (resolveGate name) := by
  apply (resolve?_orderly name).bind
  intro x
  split
  · exact .fail _
  · split <;> first | exact .pure _ | exact .fail _

theorem controlCount_orderly (h : calls.Orderly) (e : Option Expr) :
    Orderly (controlCount calls e) := by
  cases e with
  | none => exact .pure _
  | some e =>
    apply (fold_orderly h e).bind
    intro v
    split
    · exact .ite (fun _ => .fail _) fun _ => .ite (fun _ => .pure _) fun _ => .fail _
    · exact .fail _
    · exact .fail _

theorem powerExponent_orderly (h : calls.Orderly) (e : Expr) : Orderly (powerExponent calls e) := by
  apply (fold_orderly h e).bind
  intro v
  split
  · split
    · exact .pure _
    · exact .fail _
  · exact .fail _

theorem evalModifier_orderly (h : calls.Orderly) (m : Modifier) : Orderly (evalModifier calls m) := by
  cases m with
  | ctrl n => exact (controlCount_orderly h n).bind fun _ => .pure _
  | negctrl n => exact (controlCount_orderly h n).bind fun _ => .pure _
  | inv => exact .pure _
  | pow e => exact (powerExponent_orderly h e).bind fun _ => .pure _

theorem broadcastLength_orderly (gate : String) (shared : Option Nat) (operands : List (List Nat)) :
    Orderly (broadcastLength gate shared operands) := by
  induction operands generalizing shared with
  | nil => exact .pure _
  | cons qs rest ih =>
    refine .ite (fun _ => ih shared) fun _ => ?_
    split
    · exact ih _
    · exact .ite (fun _ => ih _) fun _ => .fail _

theorem applyGroups_orderly (gate : String) {apply : List Nat → Analysis (List Instruction)}
    (happly : ∀ group, Orderly (apply group)) (groups : List (List Nat)) :
    Orderly (applyGroups gate apply groups) := by
  induction groups with
  | nil => exact .pure _
  | cons group rest ih =>
    apply (checkDistinct_orderly gate group).bind
    intro _
    apply (happly group).bind
    intro ops
    exact ih.bind fun _ => .pure _

theorem expandCall_orderly (h : calls.Orderly) (call : GateCall) : Orderly (expandCall calls call) := by
  apply (resolveGate_orderly call.name).bind
  intro target
  apply (Orderly.mapM call.modifiers fun m _ => evalModifier_orderly h m).bind
  intro modifiers
  refine .ite (fun _ => .failing _) fun _ => ?_
  apply (Orderly.mapM call.params fun e _ => toParameter_orderly h e).bind
  intro params
  refine .ite (fun _ => .failing _) fun _ => .ite (fun _ => .failing _) fun _ => ?_
  apply (Orderly.mapM call.qubits fun e _ => quantumQubits_orderly h e).bind
  intro operands
  apply ((broadcastLength_orderly call.name none operands).bind fun _ => .pure _).bind
  intro groups
  exact applyGroups_orderly call.name (applyModifiers_orderly h target params _) groups

theorem bindParams_orderly (params : List (String × Parameter)) : Orderly (bindParams params) := by
  induction params with
  | nil => exact .pure _
  | cons p rest ih =>
    refine newSymbol_orderly p.1 .classicalVariable fun span => ?_
    refine (declare_orderly ?_).bind fun _ => ih
    exact Symbol.sound_of_no_value (writable_default .angle) rfl rfl (.of_noView nofun nofun)

theorem bindQubits_orderly (qubits : List (String × Nat)) : Orderly (bindQubits qubits) := by
  induction qubits with
  | nil => exact .pure _
  | cons p rest ih =>
    refine .get (fun _ _ => rfl) fun s => ?_
    split
    · exact .fail _
    · next v hv =>
      obtain ⟨held, -, rfl⟩ := Option.map_eq_some_iff.1 hv
      refine newSymbol_orderly p.1 .alias fun span => ?_
      exact (declare_orderly (Symbol.sound_of_no_type rfl (.of_qubits rfl rfl rfl rfl))).bind fun _ => ih

theorem bodyOps_orderly (h : calls.Orderly) (body : List Statement) :
    Orderly (bodyOps calls body) := by
  induction body with
  | nil => exact .pure _
  | cons st rest ih =>
    unfold bodyOps
    split
    · next call _ =>
      have hops : Orderly (expandCall calls call >>= fun ops => bodyOps calls rest >>= fun more =>
          pure (ops ++ more)) :=
        (expandCall_orderly h call).bind fun _ => ih.bind fun _ => .pure _
      intro config s hs
      refine Proceeds.bind (.modify (.place _ _ _ _ _ st.span) fun _ => rfl) ?_
      rintro _ _ ⟨⟩
      exact hops config _ hs
    · exact ih

/-- The body of a gate runs in a scope of its own, and the place of the call is restored after it. -/
theorem inlineGate_orderly {ops : List Statement → Analysis (List Instruction)} {d : GateDefinition}
    (params : List Parameter) (qubits : List Nat) (hops : Orderly (ops d.body)) :
    Orderly (inlineGate ops d params qubits) := by
  intro config s hs
  have hbody : Orderly (bindParams (d.params.zip params) >>= fun _ =>
      bindQubits (d.qubits.zip qubits) >>= fun _ => ops d.body) :=
    (bindParams_orderly _).bind fun _ => (bindQubits_orderly _).bind fun _ => hops
  rcases hcalls : s.calls.contains d.name with - | -
  · exact .within { s with calls := d.name :: s.calls, scopes := s.scopes.enter .gateBody }
      (fun t => { t with scopes := t.scopes.exit, calls := t.calls.tail, span := s.span })
      (fun config _ => inlineGate_run ops d params qubits config hcalls)
      (transitions_enter .gateBody rfl) rfl (returns_exit (fun _ => rfl) fun _ _ => rfl)
      (hbody config _ (hs.enter .gateBody))
  · apply Proceeds.get (fun _ => rfl)
    rw [hcalls]
    exact Orderly.failConstruct _ config s hs

end Gates

end Analysis
end OpenQasm
