import OpenQasm.Proofs.OrderlyWrites

/-!
Statements are orderly, and so is the expansion of definitions to any depth: everything that the analysis does
is a sequence of transitions, and where the first fatal report ends the analysis it is cut short.
-/
namespace OpenQasm

namespace Analysis

variable {calls : Calls} {config : Config} {s u : State} {t : ClassicalType}

section Definitions

theorem defineSubroutine_orderly (d : SubroutineDefinition) : Orderly (defineSubroutine d) := by
  refine .get (fun _ _ => rfl) fun s => .ite (fun _ => .failing _) fun _ => ?_
  refine newSymbol_orderly d.name .subroutineDefinition fun span => ?_
  exact declare_orderly (Symbol.sound_of_no_type rfl (.of_noView nofun nofun))

/-- A gate that is kept is declared and noted at once. -/
theorem keepGate_proceeds {d : GateDefinition} {x : Symbol} (hglobal : s.scopes.isGlobal = true)
    (hname : x.name = d.name) (hx : x.Sound) :
    Proceeds config s
      (declare x >>= fun _ => modify fun s => { s with externalGates := d :: s.externalGates }) := by
  rw [declare, bind_assoc]
  apply Proceeds.get (fun _ => rfl)
  rcases hdeclared : s.scopes.declare x with first | scopes
  · exact ⟨.refl s, fun _ _ halted => .same _ s halted⟩
  · exact ⟨(Transition.keepGate hglobal hname hdeclared hx).transitions, fun _ _ halted =>
      .same (.ok ()) { s with scopes, externalGates := d :: s.externalGates } halted⟩

theorem defineGate_orderly (d : GateDefinition) : Orderly (defineGate d) := by
  intro config s hs
  refine .get (fun _ => rfl) (.ite (fun _ => Orderly.failing _ config s hs) fun hlocal => ?_)
  have hglobal : s.scopes.isGlobal = true := by
    rwa [Bool.not_eq_true', Bool.not_eq_false] at hlocal
  -- A gate with another statement in its body or with a repeated name is refused before it is declared.
  cases d.body.find? (!isGateCall ·) with
  | some st => exact Orderly.failing _ config s hs
  | none =>
    cases firstRepeatedName [] (d.params ++ d.qubits) with
    | some n => exact Orderly.failing _ config s hs
    | none =>
      refine .read rfl (.get (fun _ => rfl) ?_)
      -- Whether the gate is kept decides both the binding and what is noted.
      cases hexternal : config.isExternal d.name with
      | true =>
        exact keepGate_proceeds hglobal rfl (Symbol.sound_of_no_type rfl (.of_noView nofun nofun))
      | false =>
        have hdeclare : Orderly (declare { name := d.name, kind := .gateDefinition, span := s.span
                                           binding := .gate d }) :=
          declare_orderly (Symbol.sound_of_no_type rfl (.of_noView nofun nofun))
        exact hdeclare.bind (fun _ => .pure ()) config s hs

end Definitions

section Variables

theorem checkDevice_orderly (size : Nat) : Orderly (checkDevice size) := by
  refine .get (fun _ _ => rfl) fun s => .read (fun _ => rfl) fun config => ?_
  split
  · exact .ite (fun _ => reportHere_orderly _) fun _ => .pure _
  · exact .pure _

theorem declareQubits_orderly (h : calls.Orderly) (name : String) (size : Option Expr) :
    Orderly (declareQubits calls name size) := by
  have hdeclare (n : Nat) : Orderly
      (ensureFree name >>= fun _ => checkDevice n >>= fun _ => allocate name n .quantum >>= fun r =>
        newSymbol name .quantumRegister >>= fun x =>
          declare { x with size := some n, binding := .qubits r.2 }) := by
    apply (ensureFree_orderly name).bind
    intro _
    apply (checkDevice_orderly n).bind
    intro _
    apply (allocate_orderly name n .quantum).bindOf
    intro r config s u hallocate
    refine newSymbol_orderly name .quantumRegister fun span => ?_
    refine declare_orderly (Symbol.sound_of_no_type rfl (.of_qubits rfl rfl rfl ?_))
    exact congrArg some (length_of_allocate hallocate).symm
  refine .get (fun _ _ => rfl) fun s => .ite (fun _ => .failing _) fun _ => ?_
  cases size with
  | some e => exact (resolveWidth_orderly h e).bind hdeclare
  | none => exact (Orderly.pure 1).bind hdeclare

theorem declareAlias_orderly (h : calls.Orderly) (name : String) (value : Expr) :
    Orderly (declareAlias calls name value) := by
  apply (viewOf_orderly h value).bind
  intro v
  split
  · exact .fail _
  · refine newSymbol_orderly name .alias fun span => ?_
    exact declare_orderly (Symbol.sound_of_no_type rfl (.of_qubits rfl rfl rfl rfl))

/-- A constant has the value of its initializer, converted to its type. -/
theorem declareConstant_orderly (h : calls.Orderly) (name : String) (ht : t.Writable)
    (init : Option Expr) : Orderly (declareConstant calls name t init) := by
  cases init with
  | none => exact .fail _
  | some e =>
    apply (checkInitializer_orderly h t e).bind
    intro _
    apply (rightValue_orderly h e).bind
    intro r
    split
    · next v =>
      apply (coerceTo_orderly t v).bindOf
      intro w config s u hcoerce
      refine newSymbol_orderly name .constant fun span => declare_orderly ?_
      exact Symbol.sound_of_value ht rfl rfl (coerceTo_inhabits ht hcoerce) (.of_noView nofun nofun)
    · exact .fail _

theorem declareExternal_orderly (name : String) (ht : t.Writable) (direction : Direction) :
    Orderly (declareExternal name t direction) := by
  apply (ensureFree_orderly name).bind
  intro _
  refine addVariable_orderly name t (some direction) fun emitName => ?_
  refine newSymbol_orderly name .classicalVariable fun span => declare_orderly ?_
  exact Symbol.sound_of_no_value ht rfl rfl (.of_noView nofun nofun)

theorem declareLocal_orderly (name : String) (ht : t.Writable) : Orderly (declareLocal name t) := by
  apply (ensureFree_orderly name).bind
  intro _
  split
  · apply (allocate_orderly name _ .classical).bindOf
    intro r config s u hallocate
    refine newSymbol_orderly name .classicalRegister fun span => declare_orderly ?_
    refine Symbol.sound_of_no_value ht rfl rfl (.of_clbits rfl ?_)
    rw [length_of_allocate hallocate]
    rfl
  · refine newSymbol_orderly name .classicalVariable fun span => declare_orderly ?_
    exact Symbol.sound_of_no_value ht rfl rfl (.of_noView nofun nofun)

theorem initialValue_orderly (h : calls.Orderly) (t : ClassicalType) (init : Option Expr) :
    Orderly (initialValue calls t init) := by
  cases init with
  | none => exact .pure _
  | some e =>
    apply (checkInitializer_orderly h t e).bind
    intro _
    exact (rightValue_orderly h e).bind fun _ => .pure _

theorem declareClassical_orderly (h : calls.Orderly) (d : ClassicalDecl) :
    Orderly (declareClassical calls d) := by
  apply (resolveType_orderly h d.type).bindOf
  intro t config s u htype
  have ht : t.Writable := resolveType_writable htype
  refine .ite (fun _ => declareConstant_orderly h d.name ht d.init) fun _ => ?_
  apply (initialValue_orderly h t d.init).bind
  intro init
  rcases d.direction with - | direction
  -- The variable is declared before its initial value is stored, which is then an assignment.
  · refine (declareLocal_orderly d.name ht).bind fun _ => ?_
    cases init with
    | none => exact .pure _
    | some r => exact store_orderly h d.name r
  · cases init with
    | none => cases direction <;> exact (declareExternal_orderly d.name ht _).bind fun _ => .pure _
    | some r =>
      cases direction with
      | input => exact .failing _
      | output => exact (declareExternal_orderly d.name ht .output).bind fun _ => store_orderly h d.name r

end Variables

section Arguments

theorem boundByName_orderly (formal : String) (t : ClassicalType) (source : String) :
    Orderly (boundByName formal t source) := by
  apply (runtimeName_orderly source).bind
  intro emitName
  apply (resolve?_orderly source).bind
  intro origin
  exact newSymbol_orderly formal _ fun span => .pure _

theorem boundByCopy_orderly (formal : String) (t : ClassicalType) (value : Expr) :
    Orderly (boundByCopy formal t value) := by
  apply (hoist_orderly formal t).bind
  intro emitName
  apply (emit_orderly _).bind
  intro _
  exact newSymbol_orderly formal _ fun span => .pure _

theorem bindClassical_orderly (h : calls.Orderly) (formal : String) (type : TypeExpr) (arg : Expr) :
    Orderly (bindClassical calls formal type arg) := by
  apply (resolveType_orderly h type).bind
  intro t
  apply (checkInitializer_orderly h t arg).bind
  intro _
  apply (rightValue_orderly h arg).bind
  intro r
  split
  · apply (coerceTo_orderly t _).bind
    intro v
    exact newSymbol_orderly formal _ fun span => .pure _
  · split
    · exact boundByName_orderly formal t _
    · exact boundByCopy_orderly formal t _
  · exact .fail _

/-- What is passed under its name in the flat program is no qubits, and it cannot be written to. -/
theorem boundByName_sound {formal source : String} {x : Symbol} (ht : t.Writable)
    (hs : s.scopes.Sound) (h : boundByName formal t source config s = (.ok x, u)) : x.Sound := by
  obtain ⟨emitName, s₁, hname, h⟩ := run_bind_eq_ok.1 h
  obtain ⟨origin, s₂, hresolve, h⟩ := run_bind_eq_ok.1 h
  have hrun : resolve? source config s₁ = (.ok (s₁.scopes.resolve? source), s₁) := rfl
  cases hrun.symm.trans hresolve
  obtain ⟨y, s₃, hsymbol, h⟩ := run_bind_eq_ok.1 h
  cases hsymbol
  cases h
  obtain ⟨z, hz, hemitted⟩ := resolve?_of_runtimeName hname
  have hstored := (((runtimeName_orderly source).sound hs hname).resolve? hz).stored
  rw [hz]
  refine Symbol.sound_of_no_value ht rfl rfl ⟨fun v hv => ?_, fun _ _ hmutable => nomatch hmutable⟩
  exact nomatch hemitted.symm.trans (hstored.qubits v hv).2.1

/-- The formal parameter has the value of the argument, converted to its type. -/
theorem bindClassical_sound (hcalls : calls.Orderly) {formal : String} {type : TypeExpr} {arg : Expr}
    {x : Symbol} (hs : s.scopes.Sound)
    (h : bindClassical calls formal type arg config s = (.ok x, u)) : x.Sound := by
  obtain ⟨t, s₁, htype, h⟩ := run_bind_eq_ok.1 h
  have ht : t.Writable := resolveType_writable htype
  have hs₁ := (resolveType_orderly hcalls type).sound hs htype
  obtain ⟨_, s₂, hchecked, h⟩ := run_bind_eq_ok.1 h
  have hs₂ := (checkInitializer_orderly hcalls t arg).sound hs₁ hchecked
  obtain ⟨r, s₃, hright, h⟩ := run_bind_eq_ok.1 h
  have hs₃ := (rightValue_orderly hcalls arg).sound hs₂ hright
  have hnoView {y : Symbol} (hy : y.binding = .none) : y.Stored :=
    .of_noView (fun _ hv => by cases hy.symm.trans hv) fun _ hv => by cases hy.symm.trans hv
  cases r with
  | known v =>
    obtain ⟨w, s₄, hcoerce, h⟩ := run_bind_eq_ok.1 h
    obtain ⟨y, s₅, hsymbol, h⟩ := run_bind_eq_ok.1 h
    cases hsymbol
    cases h
    exact Symbol.sound_of_value ht rfl rfl (coerceTo_inhabits ht hcoerce) (hnoView rfl)
  | runtime e =>
    -- A value that is not known leaves the parameter without one, under either binding.
    have hcopy (h : boundByCopy formal t e config s₃ = (.ok x, u)) : x.Sound := by
      obtain ⟨emitName, s₄, -, h⟩ := run_bind_eq_ok.1 h
      obtain ⟨-, s₅, -, h⟩ := run_bind_eq_ok.1 h
      obtain ⟨y, s₆, hsymbol, h⟩ := run_bind_eq_ok.1 h
      cases hsymbol
      cases h
      exact Symbol.sound_of_no_value ht rfl rfl (hnoView rfl)
    dsimp only at h
    generalize arg.unparen = shape at h
    cases shape with
    | name source => exact boundByName_sound ht hs₃ h
    | _ => exact hcopy h
  | measured qubits => cases h

theorem checkFresh_orderly (subroutine : String) (seen qubits : List Nat) :
    Orderly (checkFresh subroutine seen qubits) := by
  induction qubits generalizing seen with
  | nil => exact .pure _
  | cons q qs ih =>
    refine .ite (fun _ => ?_) fun _ => ih _
    exact (qubitLabel_orderly q).bind fun _ => .fail _

theorem formalSize_orderly (h : calls.Orderly) (size : Option Expr) :
    Orderly (formalSize calls size) := by
  cases size with
  | none => exact .pure _
  | some e => exact resolveWidth_orderly h e

theorem bindArguments_orderly (h : calls.Orderly) (subroutine : String) :
    ∀ (pairs : List (Formal × Expr)) (seen : List Nat),
      Orderly (bindArguments calls subroutine seen pairs)
  | [], _ => .pure _
  | (.qubit formal size, arg) :: rest, seen => by
    unfold bindArguments
    apply (quantumView_orderly h arg).bind
    intro v
    apply (formalSize_orderly h size).bind
    intro expected
    refine .ite (fun _ => .failing _) fun _ => ?_
    apply (physical_orderly v).bind
    intro qubits
    apply (checkFresh_orderly subroutine seen qubits).bind
    intro seen
    refine newSymbol_orderly formal .alias fun span => ?_
    exact (bindArguments_orderly h subroutine rest seen).bind fun _ => .pure _
  | (.classical type formal, arg) :: rest, seen => by
    unfold bindArguments
    apply (bindClassical_orderly h formal type arg).bind
    intro x
    exact (bindArguments_orderly h subroutine rest seen).bind fun _ => .pure _

theorem bindArguments_sound (hcalls : calls.Orderly) {subroutine : String} :
    ∀ {pairs : List (Formal × Expr)} {seen : List Nat} {xs : List Symbol} {s u : State},
      s.scopes.Sound → bindArguments calls subroutine seen pairs config s = (.ok xs, u) →
      ∀ x ∈ xs, x.Sound
  | [], _, _, _, _, _, h => by
    cases h
    exact fun _ hx => nomatch hx
  | (.qubit formal size, arg) :: rest, seen, _, _, _, hs, h => by
    rw [bindArguments] at h
    obtain ⟨v, s₁, hview, h⟩ := run_bind_eq_ok.1 h
    have hs₁ := (quantumView_orderly hcalls arg).sound hs hview
    obtain ⟨expected, s₂, hsize, h⟩ := run_bind_eq_ok.1 h
    have hs₂ := (formalSize_orderly hcalls size).sound hs₁ hsize
    by_cases hlength : v.length ≠ expected
    · rw [if_pos hlength] at h
      nomatch h
    · rw [if_neg hlength] at h
      have hlength : v.length = expected := not_not.1 hlength
      obtain ⟨qubits, s₃, hqubits, h⟩ := run_bind_eq_ok.1 h
      have hs₃ := (physical_orderly v).sound hs₂ hqubits
      obtain ⟨seen', s₄, hfresh, h⟩ := run_bind_eq_ok.1 h
      have hs₄ := (checkFresh_orderly subroutine seen qubits).sound hs₃ hfresh
      obtain ⟨y, s₅, hsymbol, h⟩ := run_bind_eq_ok.1 h
      cases hsymbol
      obtain ⟨ys, s₆, hrest, h⟩ := run_bind_eq_ok.1 h
      cases h
      have hstored : Symbol.Stored { name := formal, kind := .alias, span := s₄.span
                                     size := some expected, binding := .qubits v } :=
        .of_qubits rfl rfl rfl (congrArg some hlength.symm)
      exact List.forall_mem_cons.2
        ⟨Symbol.sound_of_no_type rfl hstored, bindArguments_sound hcalls hs₄ hrest⟩
  | (.classical type formal, arg) :: rest, seen, _, _, _, hs, h => by
    rw [bindArguments] at h
    obtain ⟨y, s₁, hclassical, h⟩ := run_bind_eq_ok.1 h
    have hs₁ := (bindClassical_orderly hcalls formal type arg).sound hs hclassical
    obtain ⟨ys, s₂, hrest, h⟩ := run_bind_eq_ok.1 h
    cases h
    exact List.forall_mem_cons.2
      ⟨bindClassical_sound hcalls hs hclassical, bindArguments_sound hcalls hs₁ hrest⟩

theorem checkResult_orderly (h : calls.Orderly) (d : SubroutineDefinition)
    (result : Option RightValue) : Orderly (checkResult calls d result) := by
  unfold checkResult
  split
  · split
    · exact .pure _
    · exact .fail _
  · apply (resolveType_orderly h _).bind
    intro t
    split
    · exact .fail _
    · apply (Orderly.orFail _ _).bind
      intro _
      exact (coerceTo_orderly t _).bind fun _ => .pure _
    · exact .ite (fun _ => .pure _) fun _ => .fail _
    · exact .pure _

theorem declareAll_orderly {symbols : List Symbol} (hsymbols : ∀ x ∈ symbols, x.Sound) :
    Orderly (declareAll symbols) := by
  induction symbols with
  | nil => exact .pure _
  | cons x xs ih =>
    obtain ⟨hx, hxs⟩ := List.forall_mem_cons.1 hsymbols
    exact (declare_orderly hx).bind fun _ => ih hxs

theorem callSubroutine_orderly (h : calls.Orderly) {block : List Statement → Analysis Signal}
    {d : SubroutineDefinition} (args : List Expr) (hblock : Orderly (block d.body)) :
    Orderly (callSubroutine calls block d args) := by
  refine .get (fun _ _ => rfl) fun s => .ite (fun _ => .failConstruct _) fun _ =>
    .ite (fun _ => .fail _) fun _ => ?_
  apply (bindArguments_orderly h d.name _ []).bindFrom
  intro symbols config s u hs hsymbols
  -- Only symbols that binding has given are declared, and those are sound.
  have hbody : Orderly (declareAll symbols >>= fun _ => block d.body) :=
    (declareAll_orderly (bindArguments_sound h hs hsymbols)).bind fun _ => hblock
  apply (atCallBoundary_orderly (inCall_orderly d.name hbody)).bind
  intro signal
  exact checkResult_orderly h d _

end Arguments

section Rounds

variable {x : Analysis Signal}

theorem unroll_orderly {body : Value → Analysis Signal} {values : List Value}
    (hbody : ∀ v ∈ values, Orderly (body v)) : Orderly (unroll body values) := by
  induction values with
  | nil => exact .pure _
  | cons v vs ih =>
    obtain ⟨hv, hvs⟩ := List.forall_mem_cons.1 hbody
    apply hv.bind
    intro signal
    cases signal with
    | breakLoop => exact .pure _
    | returned r => exact .pure _
    | normal => exact ih hvs
    | continueLoop => exact ih hvs

theorem iterate_orderly (limit : Nat) {condition : Analysis Bool} (hcondition : Orderly condition)
    (hx : Orderly x) (left : Nat) : Orderly (iterate limit condition x left) := by
  induction left with
  | zero =>
    apply hcondition.bind
    intro go
    exact .ite (fun _ => .failConstruct _) fun _ => .pure _
  | succ left ih =>
    apply hcondition.bind
    intro go
    refine .ite (fun _ => ?_) fun _ => .pure _
    apply hx.bind
    intro signal
    cases signal with
    | breakLoop => exact .pure _
    | returned r => exact .pure _
    | normal => exact ih
    | continueLoop => exact ih

theorem conditionTruth_orderly (v : Value) : Orderly (conditionTruth v) := by
  unfold conditionTruth
  split
  · exact .pure _
  · exact .fail _

theorem whileCondition_orderly (h : calls.Orderly) (e : Expr) : Orderly (whileCondition calls e) := by
  apply (fold_orderly h e).bind
  intro v
  split
  · exact conditionTruth_orderly _
  · exact .failConstruct _

theorem loopBound_orderly (h : calls.Orderly) (e : Expr) : Orderly (loopBound calls e) := by
  apply (fold_orderly h e).bind
  intro v
  split
  · exact .pure _
  · exact .fail _
  · exact .failConstruct _

theorem rangeValues_orderly (h : calls.Orderly) (r : RangeExpr) : Orderly (rangeValues calls r) := by
  obtain ⟨start, step, stop⟩ := r
  cases start with
  | none => exact .fail _
  | some start =>
    cases stop with
    | none => exact .fail _
    | some stop =>
      apply (loopBound_orderly h start).bind
      intro first
      apply (loopBound_orderly h stop).bind
      intro last
      have hrounds (d : Int) : Orderly
          (if d = 0 then failConstruct .zeroLoopStep
            else read >>= fun config =>
              if roundCount first d last > config.maxLoopIterations then
                failConstruct (.loopLimit (roundCount first d last) config.maxLoopIterations)
              else pure ((Index.progression first d last).map fun n => Value.int (Int64.ofInt n))) :=
        .ite (fun _ => .failConstruct _) fun _ => .read (fun _ => rfl) fun config =>
          .ite (fun _ => .failConstruct _) fun _ => .pure _
      cases step with
      | none => exact (Orderly.pure 1).bind hrounds
      | some step => exact (loopBound_orderly h step).bind hrounds

theorem setValues_orderly (h : calls.Orderly) (es : List Expr) : Orderly (setValues calls es) := by
  induction es with
  | nil => exact .pure _
  | cons e es ih =>
    unfold setValues
    apply (fold_orderly h e).bind
    intro v
    split
    · exact ih.bind fun _ => .pure _
    · exact .failConstruct _

theorem loopValues_orderly (h : calls.Orderly) (values : LoopValues) :
    Orderly (loopValues calls values) := by
  cases values with
  | range r => exact rangeValues_orderly h r
  | set items => exact setValues_orderly h items
  | array e =>
    apply (fold_orderly h e).bind
    intro v
    split
    · exact .pure _
    · exact .fail _
    · exact .failConstruct _

theorem typedValues_orderly (h : calls.Orderly) (type : Option TypeExpr) (values : LoopValues) :
    Orderly (typedValues calls type values) := by
  apply (loopValues_orderly h values).bind
  intro vs
  have htyped (t : ClassicalType) : Orderly (vs.mapM (coerceTo t) >>= fun ws => pure (t, ws)) :=
    (Orderly.mapM vs fun v _ => coerceTo_orderly t v).bind fun _ => .pure _
  cases type with
  | none => exact (Orderly.pure _).bind htyped
  | some type => exact (resolveType_orderly h type).bind htyped

theorem loopVariableType_writable (values : List Value) : (loopVariableType values).Writable := by
  unfold loopVariableType
  split
  · exact writable_default .float
  · trivial
  · exact writable_default .int

theorem mapM_coerceTo_inhabits {vs ws : List Value} (ht : t.Writable)
    (h : vs.mapM (coerceTo t) config s = (.ok ws, u)) : ∀ w ∈ ws, t.Inhabits w := by
  induction vs generalizing s ws with
  | nil =>
    cases h
    exact fun _ hw => nomatch hw
  | cons v vs ih =>
    rw [List.mapM_cons] at h
    obtain ⟨w, s₁, hcoerce, h⟩ := run_bind_eq_ok.1 h
    obtain ⟨rest, s₂, hrest, h⟩ := run_bind_eq_ok.1 h
    cases h
    exact List.forall_mem_cons.2 ⟨coerceTo_inhabits ht hcoerce, ih hrest⟩

/-- The values that a loop variable takes are values of its type. -/
theorem typedValues_inhabits {type : Option TypeExpr} {values : LoopValues}
    {typed : ClassicalType × List Value}
    (h : typedValues calls type values config s = (.ok typed, u)) :
    typed.1.Writable ∧ ∀ v ∈ typed.2, typed.1.Inhabits v := by
  obtain ⟨vs, s₁, -, h⟩ := run_bind_eq_ok.1 h
  have htyped {t : ClassicalType} {s₂ : State} (ht : t.Writable)
      (h : (vs.mapM (coerceTo t) >>= fun ws => pure (t, ws) : Analysis (ClassicalType × List Value))
        config s₂ = (.ok typed, u)) : typed.1.Writable ∧ ∀ v ∈ typed.2, typed.1.Inhabits v := by
    obtain ⟨ws, s₃, hws, h⟩ := run_bind_eq_ok.1 h
    cases h
    exact ⟨ht, mapM_coerceTo_inhabits ht hws⟩
  cases type with
  | none => exact htyped (loopVariableType_writable vs) h
  | some type =>
    obtain ⟨t, s₂, htype, h⟩ := run_bind_eq_ok.1 h
    exact htyped (resolveType_writable htype) h

end Rounds

section Performing

theorem includeFile_orderly (path : String) : Orderly (includeFile path) :=
  .ite (fun _ => .pure _) fun _ => .fail _

theorem resetEach_orderly (qubits : List Nat) : Orderly (resetEach qubits) := by
  induction qubits with
  | nil => exact .pure _
  | cons q qs ih =>
    apply (emitOp_orderly _).bind
    intro _
    exact (noteUsage_orderly q .reset).bind fun _ => ih

theorem materializeTarget_orderly (target : Expr) : Orderly (materializeTarget target) := by
  unfold materializeTarget
  split
  · exact .pure _
  · next root _ =>
    apply (resolve?_orderly root).bind
    intro x
    exact .ite (fun _ => (materialize_orderly root).bind fun _ => .pure _) fun _ => .pure _

theorem materializeAll_orderly (body : List Statement) : Orderly (materializeAll body) := by
  rw [materializeAll_eq]
  exact .forM materializeTarget_orderly (bodyTargets body)

theorem jump_orderly (signal : Signal) (keyword : String) : Orderly (jump signal keyword) := by
  refine .get (fun _ _ => rfl) fun s => ?_
  split
  · exact .fail _
  · next scope _ =>
    apply (branchedSince_orderly scope).bind
    intro branched
    exact .ite (fun _ => .fail _) fun _ => .pure _

theorem thenNext_orderly {x : Analysis Unit} (hx : Orderly x) : Orderly (thenNext x) :=
  hx.bind fun _ => .pure _

theorem barrier_orderly (h : calls.Orderly) (operands : List Expr) :
    Orderly (barrier calls operands) := by
  have hqubits : Orderly (barrierQubits calls operands) := by
    refine .ite (fun _ => .get (fun _ _ => rfl) fun _ => .pure _) fun _ => ?_
    exact (Orderly.mapM operands fun e _ => quantumQubits_orderly h e).bind fun _ => .pure _
  apply hqubits.bind
  intro qubits
  split
  · exact .pure _
  · exact emitOp_orderly _

theorem evaluate_orderly (h : calls.Orderly) (e : Expr) : Orderly (evaluate calls e) := by
  unfold evaluate
  split
  · next f args _ =>
    apply (subroutine?_orderly f).bind
    intro d
    split
    · apply (h.subroutine _ args).bind
      intro r
      split
      · exact measureOnly_orderly _
      · exact .pure _
    · exact (fold_orderly h _).bind fun _ => .pure _
  · exact measure_orderly h _ none
  · exact (fold_orderly h _).bind fun _ => .pure _

theorem handBack_orderly (h : calls.Orderly) (value : Option Expr) :
    Orderly (handBack calls value) := by
  refine .get (fun _ _ => rfl) fun s => ?_
  split
  · exact .fail _
  · next scope _ =>
    apply (branchedSince_orderly scope).bind
    intro branched
    refine .ite (fun _ => .fail _) fun _ => ?_
    cases value with
    | none => exact .pure _
    | some e => exact (rightValue_orderly h e).bind fun _ => .pure _

variable {assigned : Analysis Unit} {thenBody elseBody : Analysis Signal}

mutual

/-- The bits that a condition reads do not depend on whether the analysis has ended. -/
theorem readBits_noting (s : State) (halted : Bool) : ∀ e : Expr,
    readBits (s.noting halted) e = readBits s e
  | .name _ => rfl
  | .index base _ => readBits_noting s halted base
  | .unary _ e | .cast _ e | .paren e => readBits_noting s halted e
  | .binary l _ r => congrArg₂ (· ++ ·) (readBits_noting s halted l) (readBits_noting s halted r)
  | .call _ items | .array items => readBitsAll_noting s halted items
  | .int _ | .float _ | .imaginary _ | .bool _ | .bits _ | .duration _ _ | .constant _
  | .measure _ => rfl

theorem readBitsAll_noting (s : State) (halted : Bool) : ∀ es : List Expr,
    readBitsAll (s.noting halted) es = readBitsAll s es
  | [] => rfl
  | e :: es => congrArg₂ (· ++ ·) (readBits_noting s halted e) (readBitsAll_noting s halted es)

end

theorem branchHead_orderly (h : calls.Orderly) (condition : Expr) (hassigned : Orderly assigned) :
    Orderly (branchHead calls condition assigned) := by
  apply (residualize_orderly h condition).bind
  intro shown
  refine .get (fun s halted => ?_) fun s => hassigned.bind fun _ => .pure _
  rw [readBits_noting]

theorem branchBodies_orderly (hthen : Orderly thenBody) (helse : Orderly elseBody)
    (head : Expr × List Nat) : Orderly (branchBodies thenBody elseBody head) := by
  apply (collecting_orderly (underRuntimeCondition_orderly hthen)).bind
  intro thenPart
  apply (collecting_orderly (underRuntimeCondition_orderly helse)).bind
  intro elsePart
  exact (emit_orderly _).bind fun _ => .pure _

theorem branch_orderly (h : calls.Orderly) (condition : Expr) (hassigned : Orderly assigned)
    (hthen : Orderly thenBody) (helse : Orderly elseBody) :
    Orderly (branch calls condition assigned thenBody elseBody) := by
  apply (fold_orderly h condition).bind
  intro v
  split
  -- Without a value for the condition both bodies are run, and otherwise one of them.
  · rw [runtimeBranch_eq]
    exact (branchHead_orderly h condition hassigned).bind (branchBodies_orderly hthen helse)
  · apply (conditionTruth_orderly _).bind
    intro holds
    exact .ite (fun _ => inScope_orderly .block hthen) fun _ => inScope_orderly .block helse

theorem loopVariable_orderly (name : String) (ht : t.Writable) {v : Value} (hv : t.Inhabits v) :
    Orderly (loopVariable name t v >>= declare) := by
  rw [loopVariable, bind_assoc]
  refine newSymbol_orderly name .classicalVariable fun span => ?_
  rw [pure_bind]
  exact declare_orderly (Symbol.sound_of_value ht rfl rfl hv (.of_noView nofun nofun))

theorem forRound_orderly (name : String) (ht : t.Writable) {body : List Statement}
    (hbody : Orderly (block calls body)) {v : Value} (hv : t.Inhabits v) :
    Orderly (forRound calls name t body v) := by
  rw [forRound_eq]
  exact inScope_orderly .block ((loopVariable_orderly name ht hv).bind fun _ => hbody)

/-- What a statement does is orderly if its bodies are. -/
theorem perform_orderly (h : calls.Orderly) (kind : StatementKind)
    (hbodies : ∀ body ∈ kind.bodies, Orderly (block calls body)) : Orderly (perform calls kind) := by
  cases kind with
  | includeFile path => exact thenNext_orderly (includeFile_orderly path)
  | qubits name size => exact thenNext_orderly (declareQubits_orderly h name size)
  | classical d => exact thenNext_orderly (declareClassical_orderly h d)
  | «alias» name value => exact thenNext_orderly (declareAlias_orderly h name value)
  | gate call =>
    exact thenNext_orderly ((expandCall_orderly h call).bind fun ops => .forM emitOp_orderly ops)
  | measure operand target => exact thenNext_orderly (measure_orderly h operand target)
  | reset operand =>
    exact thenNext_orderly ((quantumQubits_orderly h operand).bind fun qs => resetEach_orderly qs)
  | barrier operands => exact thenNext_orderly (barrier_orderly h operands)
  | branch condition thenBody elseBody =>
    cases elseBody with
    | none =>
      have hthen := hbodies thenBody List.mem_cons_self
      exact branch_orderly h condition (materializeAll_orderly thenBody) hthen (.pure _)
    | some elseBody =>
      have hthen := hbodies thenBody List.mem_cons_self
      have helse := hbodies elseBody (List.mem_cons_of_mem _ List.mem_cons_self)
      exact branch_orderly h condition (materializeAll_orderly _) hthen helse
  | forLoop type name values body =>
    have hbody := hbodies body List.mem_cons_self
    apply (typedValues_orderly h type values).bindOf
    intro typed config s u htyped
    obtain ⟨ht, hvalues⟩ := typedValues_inhabits htyped
    -- A round is orderly only for values of the type, such as those that the conversion gives.
    exact inLoop_orderly (unroll_orderly fun v hv => forRound_orderly name ht hbody (hvalues v hv))
  | whileLoop condition body =>
    have hbody := hbodies body List.mem_cons_self
    refine .read (fun _ => rfl) fun config => inLoop_orderly ?_
    exact iterate_orderly _ (whileCondition_orderly h condition) (inScope_orderly .block hbody) _
  | breakLoop => exact jump_orderly _ _
  | continueLoop => exact jump_orderly _ _
  | returnValue value => exact handBack_orderly h value
  | block body => exact inScope_orderly .block (hbodies body List.mem_cons_self)
  | defineSubroutine d => exact thenNext_orderly (defineSubroutine_orderly d)
  | defineGate d => exact thenNext_orderly (defineGate_orderly d)
  | assign target op value => exact thenNext_orderly (assign_orderly h target op value)
  | evaluate e => exact thenNext_orderly (evaluate_orderly h e)
  | pragma text => exact thenNext_orderly (emit_orderly _)
  | annotated _ _ => exact .pure _

theorem statement_orderly_of_bodies (h : calls.Orderly) (st : Statement)
    (hbodies : ∀ body ∈ st.kind.bodies, Orderly (block calls body)) : Orderly (statement calls st) := by
  obtain ⟨kind, span⟩ := st
  exact settled_orderly span (perform_orderly h kind hbodies)

/-- The induction is on the statements; what bodies do is known for the smaller ones. -/
theorem block_orderly (h : calls.Orderly) (body : List Statement) : Orderly (block calls body) := by
  cases body with
  | nil => exact .pure _
  | cons st rest =>
    have hstatement := statement_orderly_of_bodies h st fun inner hinner =>
      have hsize := StatementKind.sizeOf_body hinner
      block_orderly h inner
    exact block_cons_orderly hstatement (block_orderly h rest)
termination_by sizeOf body
decreasing_by
  · simp only [List.cons.sizeOf_spec]
    have hkind : sizeOf st.kind < sizeOf st := by
      cases st
      simp only [Statement.mk.sizeOf_spec]
      omega
    omega
  · simp only [List.cons.sizeOf_spec]
    omega

theorem statement_orderly (h : calls.Orderly) (st : Statement) : Orderly (statement calls st) :=
  statement_orderly_of_bodies h st fun body _ => block_orderly h body

end Performing

/-- The expansion of definitions to any depth is orderly. -/
theorem nested_orderly (n : Nat) : (Calls.nested n).Orderly := by
  induction n with
  | zero =>
    exact ⟨fun _ _ => .failConstruct _, fun _ _ => .failConstruct _, fun _ _ _ => .failConstruct _,
      fun before => nested_evaluated before 0⟩
  | succ n ih =>
    exact ⟨fun _ args => callSubroutine_orderly ih args (block_orderly ih _),
      fun _ type => resolveType_orderly ih type,
      fun _ params qubits => inlineGate_orderly params qubits (bodyOps_orderly ih _),
      fun before => nested_evaluated before (n + 1)⟩

section Programs

theorem topLevel_halted (body : List Statement) (h : s.halted = true) :
    topLevel calls body config s = (.ok (), s) := by
  cases body with
  | nil => rfl
  | cons st rest =>
    rw [topLevel, run_get, h]
    rfl

theorem topLevel_cons_run (st : Statement) (rest : List Statement) (h : s.halted = false) :
    topLevel calls (st :: rest) config s =
      topLevel calls rest config (statement calls st config s).2 := by
  rw [topLevel, run_get, h]
  rfl

theorem topLevel_transitions (n : Nat) (body : List Statement) (hs : s.scopes.Sound) :
    Transitions config s (topLevel (.nested n) body config s).2 := by
  induction body generalizing s with
  | nil => exact .refl s
  | cons st rest ih =>
    cases hhalted : s.halted with
    | true =>
      rw [topLevel_halted _ hhalted]
      exact .refl s
    | false =>
      rw [topLevel_cons_run st rest hhalted]
      have hstatement := (statement_orderly (nested_orderly n) st config s hs).transitions
      exact hstatement.trans (ih (hstatement.sound hs))

/-- The errors of reading a program are reported before anything else. -/
theorem program_transitions (n : Nat) (p : Program) (errors : List SyntaxError)
    (hs : s.scopes.Sound) : Transitions config s (program (.nested n) p errors config s).2 := by
  induction errors generalizing s with
  | nil => exact topLevel_transitions n p.statements hs
  | cons e es ih =>
    have hreport : Transition config s _ := .report (.ofSyntaxError e)
    exact hreport.transitions.trans (ih (hreport.sound hs))

end Programs

end Analysis
end OpenQasm
