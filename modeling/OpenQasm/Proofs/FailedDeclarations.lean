import OpenQasm.Analysis.Program
import OpenQasm.Proofs.FailFast
import OpenQasm.Proofs.GateCalls

/-!
What a declaration leaves behind that fails. Its types, sizes and initializer are evaluated first; from there to
the declaration itself nothing is written to the tables of the analysis. A variable whose initial value turns
out not to fit is declared by then, and it stays declared, though without the value.
-/
namespace OpenQasm

namespace Analysis

variable {α β : Type}

/-- Nothing is declared, and no name is taken, in the second state that is not so in the first one. -/
structure SameTables (s t : State) : Prop where
  scopes : t.scopes = s.scopes
  registers : t.registers = s.registers
  declarations : t.declarations = s.declarations
  externalGates : t.externalGates = s.externalGates

theorem SameTables.refl (s : State) : SameTables s s := ⟨rfl, rfl, rfl, rfl⟩

theorem SameTables.trans {s t u : State} (h : SameTables s t) (h' : SameTables t u) : SameTables s u :=
  ⟨h'.scopes.trans h.scopes, h'.registers.trans h.registers, h'.declarations.trans h.declarations,
    h'.externalGates.trans h.externalGates⟩

/-- A step that never writes to the tables. -/
def KeepsTables (x : Analysis α) : Prop := ∀ config s, SameTables s (x config s).2

/-- A step that has not written to the tables when it fails. -/
def FailsClean (x : Analysis α) : Prop :=
  ∀ config s e t, x config s = (.error e, t) → SameTables s t

/-- A step that does not fail. -/
def Succeeds (x : Analysis α) : Prop := ∀ config s, ∃ a t, x config s = (.ok a, t)

section Rules

variable {x : Analysis α} {f : α → Analysis β}

/-- A failure of two steps in a row is one of the first, or one of the second from where the first has ended. -/
theorem run_bind_eq_error {config : Config} {s t : State} {e : Failure} :
    (x >>= f) config s = (.error e, t) ↔
      x config s = (.error e, t) ∨ ∃ a u, x config s = (.ok a, u) ∧ f a config u = (.error e, t) := by
  rw [run_bind]
  rcases x config s with ⟨e' | a, u⟩
  · constructor
    · rintro ⟨⟩
      exact Or.inl rfl
    · rintro (⟨⟨⟩⟩ | ⟨_, _, h, -⟩)
      · rfl
      · nomatch h
  · constructor
    · exact fun h => Or.inr ⟨a, u, rfl, h⟩
    · rintro (h | ⟨_, _, ⟨⟩, h⟩)
      · nomatch h
      · exact h

theorem KeepsTables.pure (a : α) : KeepsTables (Pure.pure a : Analysis α) := fun _ s => .refl s

theorem KeepsTables.fail (p : Problem) : KeepsTables (Analysis.fail p : Analysis α) := fun _ s => .refl s

theorem KeepsTables.of_leaves (h : ∀ scopes, Leaves scopes x) : KeepsTables x := by
  intro config s
  rw [h s.scopes config s (Scopes.Same.refl _)]
  exact .refl s

theorem KeepsTables.failsClean (hx : KeepsTables x) : FailsClean x := by
  intro config s e t h
  have hstill := hx config s
  rw [h] at hstill
  exact hstill

theorem FailsClean.fail (p : Problem) : FailsClean (Analysis.fail p : Analysis α) :=
  (KeepsTables.fail p).failsClean

theorem Succeeds.failsClean (hx : Succeeds x) : FailsClean x := by
  intro config s e t h
  obtain ⟨a, u, ha⟩ := hx config s
  nomatch ha.symm.trans h

theorem Succeeds.pure (a : α) : Succeeds (Pure.pure a : Analysis α) := fun _ s => ⟨a, s, rfl⟩

theorem Succeeds.modify (change : State → State) :
    Succeeds (MonadState.modifyGet fun s => ((), change s) : Analysis Unit) :=
  fun _ s => ⟨(), change s, rfl⟩

theorem Succeeds.bind (hx : Succeeds x) (hf : ∀ a, Succeeds (f a)) : Succeeds (x >>= f) := by
  intro config s
  obtain ⟨a, t, ha⟩ := hx config s
  rw [run_bind, ha]
  exact hf a config t

theorem FailsClean.ite {c : Prop} [Decidable c] {y : Analysis α} (hx : FailsClean x)
    (hy : FailsClean y) : FailsClean (if c then x else y) := by
  split
  · exact hx
  · exact hy

/-- What fails after a step that does not write to the tables. -/
theorem KeepsTables.bind (hx : KeepsTables x) (hf : ∀ a, FailsClean (f a)) : FailsClean (x >>= f) := by
  intro config s e t h
  have hstill := hx config s
  rcases run_bind_eq_error.1 h with hfails | ⟨a, u, hx, hrest⟩
  · rw [hfails] at hstill
    exact hstill
  · rw [hx] at hstill
    exact hstill.trans (hf a config u e t hrest)

/-- Nothing is done after a failure. -/
theorem FailsClean.failing (p : Problem) : FailsClean (Analysis.fail p >>= f) := by
  rintro config s e t ⟨⟩
  exact .refl s

theorem FailsClean.get {f : State → Analysis β} (hf : ∀ s, FailsClean (f s)) :
    FailsClean (MonadState.get >>= f) := fun config s => hf s config s

theorem FailsClean.read {f : Config → Analysis β} (hf : ∀ config, FailsClean (f config)) :
    FailsClean (MonadReader.read >>= f) := fun config => hf config config

/-- What is done for sure after a step that may fail. -/
theorem FailsClean.bind (hx : FailsClean x) (hf : ∀ a, Succeeds (f a)) : FailsClean (x >>= f) := by
  intro config s e t h
  rcases run_bind_eq_error.1 h with hfails | ⟨a, u, -, hrest⟩
  · exact hx config s e t hfails
  · obtain ⟨b, v, hb⟩ := hf a config u
    nomatch hb.symm.trans hrest

end Rules

section Storing

theorem allocate_failsClean (name : String) (size : Nat) (kind : RegisterKind) :
    FailsClean (allocate name size kind) := by
  intro config s e t h
  rw [allocate, run_get] at h
  rcases hr : s.registers.allocate name size kind with fault | ⟨id, v, registers⟩
  · rw [hr] at h
    cases h
    exact .refl s
  · rw [hr] at h
    cases h

theorem declare_failsClean (x : Symbol) : FailsClean (declare x) := by
  intro config s e t h
  rw [declare, run_get] at h
  rcases hr : s.scopes.declare x with first | scopes
  · rw [hr] at h
    cases h
    exact .refl s
  · rw [hr] at h
    cases h

theorem hoist_failsClean (name : String) (t : ClassicalType) : FailsClean (hoist name t) := by
  unfold hoist
  split
  · exact (allocate_failsClean name _ .classical).bind fun _ => .pure _
  · exact Succeeds.failsClean fun _ _ => ⟨_, _, rfl⟩

theorem materialize_failsClean (name : String) : FailsClean (materialize name) := by
  apply (KeepsTables.of_leaves fun _ => resolve_leaves name).bind
  intro x
  split
  · exact .fail _
  · apply (hoist_failsClean name _).bind
    intro emitName
    have hname : Succeeds (do
        modifySymbol name fun x => { x with emitName := some emitName }
        return emitName) := (Succeeds.modify _).bind fun _ => .pure _
    split
    · exact (Succeeds.modify _).bind fun _ => hname
    · exact hname

theorem runtimeName_failsClean (name : String) : FailsClean (runtimeName name) := by
  apply (KeepsTables.of_leaves fun _ => resolve_leaves name).bind
  intro x
  split
  · exact (KeepsTables.pure _).failsClean
  · split
    · exact materialize_failsClean name
    · exact .fail _

theorem write_failsClean (name : String) (items : Option (List IndexItem)) (shown : Expr)
    (value : Option Value) : FailsClean (write name items shown value) := by
  apply (KeepsTables.of_leaves fun _ => resolve_leaves name).bind
  intro x
  apply (KeepsTables.of_leaves (x := branchedSince x.scope) fun _ => .get fun _ _ => .pure _).bind
  intro runtimeWrite
  refine .ite ?_ (Succeeds.modify _).failsClean
  apply (runtimeName_failsClean name).bind
  intro emitName
  exact (Succeeds.modify _).bind fun _ => .modify _

theorem noteUsage_succeeds (q : Nat) (usage : Usage) : Succeeds (noteUsage q usage) := by
  intro config s
  rw [noteUsage, run_get]
  rcases s.registers.mark q usage with ⟨warning | _, registers⟩
  · exact ⟨_, _, rfl⟩
  · exact ⟨_, _, rfl⟩

theorem measureEach_succeeds (pairs : List (Nat × Nat)) : Succeeds (measureEach pairs) := by
  induction pairs with
  | nil => exact .pure _
  | cons p rest ih =>
    apply (Succeeds.modify _).bind
    intro _
    exact (noteUsage_succeeds p.1 .measured).bind fun _ => ih

variable {calls : Calls}

/-- The bits that outcomes are stored in are checked before anything is measured. -/
theorem measureInto_failsClean (qubits : List Nat) (name : String) :
    FailsClean (measureInto calls qubits (.name name)) := by
  have hview : KeepsTables (viewOf calls (.name name)) := .of_leaves fun _ => nameView_leaves name
  apply hview.bind
  intro v
  split
  · exact .fail _
  · next v =>
    refine .ite (.failing _) ?_
    apply (KeepsTables.of_leaves (x := physical v) fun _ => .get fun _ _ => .pure _).bind
    intro clbits
    exact Succeeds.failsClean ((measureEach_succeeds _).bind fun _ => .modify _)

/-- A value is converted before it is stored. -/
theorem store_failsClean (name : String) (r : RightValue) : FailsClean (store calls name r) := by
  cases r with
  | measured qubits => exact measureInto_failsClean qubits name
  | known v =>
    have htype : KeepsTables (declaredType name) := .of_leaves fun _ => by
      apply (resolve_leaves name).bind
      intro x
      split
      · exact .pure _
      · exact .fail _
    apply htype.bind
    intro t
    apply (KeepsTables.of_leaves fun _ => orFail_leaves Problem.conversion (Value.coerce t v)).bind
    intro w
    exact write_failsClean name none w.toExpr (some w)
  | runtime e => exact write_failsClean name none e none

end Storing

section Declaring

variable {config : Config} {s t : State} {name : String}

theorem declare_free (config : Config) {x : Symbol} (h : s.scopes.here? x.name = none) :
    declare x config s = (.ok (), { s with scopes := s.scopes.push x }) := by
  have hdeclare : s.scopes.declare x = .ok (s.scopes.push x) := by rw [Scopes.declare, h]
  rw [declare, run_get, hdeclare]
  rfl

/-- What goes on after a name was found to be free fails at once, or later. -/
theorem ensureFree_bind {α : Type} {f : Unit → Analysis α} {e : Failure}
    (h : (ensureFree name >>= f) config s = (.error e, t)) :
    t = s ∨ s.scopes.here? name = none ∧ f () config s = (.error e, t) := by
  rw [ensureFree, bind_assoc, run_get] at h
  rcases hfree : s.scopes.here? name with - | first
  · rw [hfree] at h
    exact Or.inr ⟨rfl, h⟩
  · rw [hfree] at h
    cases h
    exact Or.inl rfl

theorem declareExternal_failsClean (name : String) (type : ClassicalType) (direction : Direction) :
    FailsClean (declareExternal name type direction) := by
  intro config s e t h
  rcases ensureFree_bind h with rfl | ⟨hfree, hrest⟩
  · exact .refl t
  -- The name is still free when the symbol is declared, so that this cannot fail.
  · let x : Symbol := { name, kind := .classicalVariable, span := s.span }
    have hrun := declare_free config
      (s := { s with
        registers := (s.registers.reserve name).2
        declarations := ⟨(s.registers.reserve name).1, type, some direction⟩ :: s.declarations })
      (x := { x.withType type with
        mutable := direction = .output, emitName := some (s.registers.reserve name).1 }) hfree
    nomatch hrun.symm.trans hrest

theorem declareLocal_failsClean (name : String) (type : ClassicalType) :
    FailsClean (declareLocal name type) := by
  intro config s e t h
  rcases ensureFree_bind h with rfl | ⟨hfree, hrest⟩
  · exact .refl t
  · let x (kind : SymbolKind) : Symbol := { name, kind, span := s.span }
    split at hrest
    · next n =>
      rw [allocate, bind_assoc, run_get] at hrest
      rcases hr : s.registers.allocate name n .classical with fault | ⟨id, v, registers⟩
      · rw [hr] at hrest
        cases hrest
        exact .refl s
      · rw [hr] at hrest
        have hrun := declare_free config (s := { s with registers })
          (x := { (x .classicalRegister).withType (.sized .bit n) with
            mutable := true, binding := .clbits v, emitName := some (registers.nameOf id) }) hfree
        cases hrun.symm.trans hrest
    · have hrun := declare_free config
        (x := { (x .classicalVariable).withType type with mutable := true }) hfree
      cases hrun.symm.trans hrest

/-- A device that is too small is reported at most. -/
theorem checkDevice_run (size : Nat) (config : Config) (s : State) :
    ∃ diagnostics halted, checkDevice size config s = (.ok (), { s with diagnostics, halted }) := by
  let total := min (s.registers.qubits + size) Bound.largestSize
  rw [checkDevice, run_get, run_read]
  rcases config.deviceQubits with - | limit
  · exact ⟨s.diagnostics, s.halted, rfl⟩
  · dsimp only
    by_cases htotal : total > limit
    · rw [if_pos htotal]
      exact ⟨_, _, rfl⟩
    · rw [if_neg htotal]
      exact ⟨s.diagnostics, s.halted, rfl⟩

/-- What is done once the size of a register of qubits is known. -/
theorem allocateQubits_failsClean (name : String) (n : Nat) :
    FailsClean (do
      ensureFree name
      checkDevice n
      let (_, v) ← allocate name n .quantum
      let x ← newSymbol name .quantumRegister
      declare { x with size := some n, binding := .qubits v }) := by
  intro config s e t h
  rcases ensureFree_bind h with rfl | ⟨hfree, hrest⟩
  · exact .refl t
  · obtain ⟨diagnostics, halted, hdevice⟩ := checkDevice_run n config s
    rw [run_bind, hdevice] at hrest
    dsimp only at hrest
    rw [allocate, bind_assoc, run_get] at hrest
    dsimp only at hrest
    rcases hr : s.registers.allocate name n .quantum with fault | ⟨id, v, registers⟩
    · rw [hr] at hrest
      cases hrest
      exact ⟨rfl, rfl, rfl, rfl⟩
    · rw [hr] at hrest
      have hrun := declare_free config (s := { s with diagnostics, halted, registers })
        (x := { name, kind := .quantumRegister, span := s.span, size := some n, binding := .qubits v })
        hfree
      cases hrun.symm.trans hrest

theorem defineSubroutine_failsClean (d : SubroutineDefinition) : FailsClean (defineSubroutine d) := by
  refine .get fun s => .ite (.failing _) ?_
  have hsymbol : KeepsTables (newSymbol d.name .subroutineDefinition) := fun _ s => .refl s
  exact hsymbol.bind fun x => declare_failsClean _

theorem defineGate_failsClean (d : GateDefinition) : FailsClean (defineGate d) := by
  refine .get fun s => .ite (.failing _) ?_
  cases d.body.find? (!isGateCall ·) with
  | some st => exact .failing _
  | none =>
    cases firstRepeatedName [] (d.params ++ d.qubits) with
    | some n => exact .failing _
    | none =>
      refine .read fun config => ?_
      have hsymbol : KeepsTables (newSymbol d.name .gateDefinition) := fun _ s => .refl s
      refine hsymbol.bind fun x => (declare_failsClean _).bind fun _ => ?_
      split
      · exact .modify _
      · exact .pure _

end Declaring

end Analysis

/-- Whether a statement declares a name. -/
def StatementKind.isDeclaration : StatementKind → Bool
  | .qubits _ _ | .classical _ | .alias _ _ | .defineGate _ | .defineSubroutine _ => true
  | _ => false

namespace Analysis

/-- The parts of a declaration that are evaluated before anything is declared. -/
def declarationParts (calls : Calls) : StatementKind → Analysis Unit
  | .qubits _ (some size) => do let _ ← resolveWidth calls size
  | .classical d => do
    let t ← resolveType calls d.type
    let _ ← initialValue calls t d.init
  | .alias _ value => do let _ ← viewOf calls value
  | _ => return

/-- The variable of a declaration, without its initial value. -/
def declareVariable (d : ClassicalDecl) (t : ClassicalType) : Analysis Unit :=
  match d.direction with
  | some direction => declareExternal d.name t direction
  | none => declareLocal d.name t

/-- The variable of a declaration with an initial value stays declared without it. -/
structure LeftDeclared (config : Config) (d : ClassicalDecl) (t : ClassicalType) (done after : State) :
    Prop where
  mutable : d.isConst = false
  direction : d.direction ≠ some .input
  init : d.init.isSome = true
  declared : ∃ u, declareVariable d t config done = (.ok (), u) ∧ SameTables u after

section Failing

variable {calls : Calls} {config : Config} {s t : State} {e : Failure}

/-- A step whose result is not looked at. -/
theorem run_discard {α : Type} (x : Analysis α) (config : Config) (s : State) :
    ((do let _ ← x) config s : Except Failure Unit × State).2 = (x config s).2 := by
  rw [run_bind]
  rcases x config s with ⟨e | a, t⟩ <;> rfl

theorem declareConstant_error {name : String} {type : ClassicalType} {init : Option Expr}
    (h : declareConstant calls name type init config s = (.error e, t)) :
    SameTables (initialValue calls type init config s).2 t := by
  cases init with
  | none =>
    cases h
    exact .refl s
  | some expr =>
    rw [initialValue, run_bind]
    rcases run_bind_eq_error.1 h with hcheck | ⟨_, u, hcheck, h⟩
    · rw [hcheck]
      exact .refl t
    · rw [hcheck]
      dsimp only
      rw [run_bind]
      rcases run_bind_eq_error.1 h with hright | ⟨r, v, hright, h⟩
      · rw [hright]
        exact .refl t
      · rw [hright]
        refine (?_ : FailsClean _) config v e t h
        split
        · apply (KeepsTables.of_leaves fun _ => orFail_leaves Problem.conversion _).bind
          intro w
          have hsymbol : KeepsTables (newSymbol name .constant) := fun _ s => .refl s
          exact hsymbol.bind fun x => declare_failsClean _
        · exact .fail _

/-- A variable is declared before its initial value is stored, and after the value was evaluated. -/
theorem declareVariable_error (calls : Calls) (e : Failure) {d : ClassicalDecl} {type : ClassicalType}
    {init : Option RightValue}
    (hconst : ¬d.isConst = true) (hinit : init.isSome → d.init.isSome)
    (hdirection : init.isSome → d.direction ≠ some .input)
    (h : (do
      declareVariable d type
      match init with
      | some r => store calls d.name r
      | none => return : Analysis Unit) config s = (.error e, t)) :
    SameTables s t ∨ LeftDeclared config d type s t := by
  rcases run_bind_eq_error.1 h with hdeclare | ⟨_, u, hdeclare, h⟩
  · have hstill : FailsClean (declareVariable d type) := by
      unfold declareVariable
      split
      · exact declareExternal_failsClean _ _ _
      · exact declareLocal_failsClean _ _
    exact Or.inl (hstill config s e t hdeclare)
  · cases init with
    | none => nomatch h
    | some r =>
      have hstore := store_failsClean d.name r config u e t h
      exact Or.inr ⟨Bool.eq_false_iff.2 hconst, hdirection rfl, hinit rfl, u, hdeclare, hstore⟩

theorem declareClassical_error {d : ClassicalDecl}
    (h : declareClassical calls d config s = (.error e, t)) :
    SameTables (declarationParts calls (.classical d) config s).2 t ∨
      ∃ type, (resolveType calls d.type config s).1 = .ok type ∧
        LeftDeclared config d type (declarationParts calls (.classical d) config s).2 t := by
  rw [declarationParts, run_bind]
  rcases run_bind_eq_error.1 h with htype | ⟨type, u, htype, h⟩
  · rw [htype]
    exact Or.inl (.refl t)
  rw [htype]
  dsimp only
  rw [run_discard]
  by_cases hconst : d.isConst = true
  · rw [if_pos hconst] at h
    exact Or.inl (declareConstant_error h)
  rw [if_neg hconst] at h
  rcases run_bind_eq_error.1 h with hinit | ⟨init, v, hinit, h⟩
  · rw [hinit]
    exact Or.inl (.refl t)
  rw [hinit]
  have hsome : init.isSome → d.init.isSome := by
    intro hsome
    rcases hnone : d.init with - | expr
    · rw [hnone] at hinit
      cases hinit
      nomatch hsome
    · rfl
  suffices hleft : SameTables v t ∨ LeftDeclared config d type v t from
    hleft.imp_right fun h => ⟨type, rfl, h⟩
  rcases hdirection : d.direction with - | direction
  · rw [hdirection] at h
    refine declareVariable_error calls e hconst hsome (fun _ => hdirection ▸ nofun) ?_
    rw [declareVariable, hdirection]
    exact h
  · rw [hdirection] at h
    cases init with
    | none =>
      refine declareVariable_error calls e hconst hsome (fun hsome => nomatch hsome) ?_
      rw [declareVariable, hdirection]
      cases direction <;> exact h
    | some r =>
      cases direction with
      | input =>
        -- An input with an initial value is refused before anything is declared.
        cases h
        exact Or.inl (.refl _)
      | output =>
        refine declareVariable_error calls e hconst hsome (fun _ => hdirection ▸ nofun) ?_
        rw [declareVariable, hdirection]
        exact h

/-- A declaration that fails has not written to the tables since it was evaluated, or it leaves a variable. -/
theorem declaration_error {kind : StatementKind} (hkind : kind.isDeclaration = true)
    (h : perform calls kind config s = (.error e, t)) :
    SameTables s t ∨ SameTables (declarationParts calls kind config s).2 t ∨
      ∃ d type, kind = .classical d ∧ (resolveType calls d.type config s).1 = .ok type ∧
        LeftDeclared config d type (declarationParts calls kind config s).2 t := by
  have hthenNext {x : Analysis Unit} (h : thenNext x config s = (.error e, t)) :
      x config s = (.error e, t) := by
    rcases run_bind_eq_error.1 h with hx | ⟨_, u, -, hrest⟩
    · exact hx
    · cases hrest
  cases kind with
  | classical d =>
    rcases declareClassical_error (hthenNext h) with hsame | ⟨type, htype, hleft⟩
    · exact Or.inr (Or.inl hsame)
    · exact Or.inr (Or.inr ⟨d, type, rfl, htype, hleft⟩)
  | qubits name size =>
    have hrest := hthenNext h
    rw [declareQubits, run_get] at hrest
    by_cases hlocal : (!s.scopes.isGlobal) = true
    · rw [if_pos hlocal] at hrest
      cases hrest
      exact Or.inl (.refl s)
    · rw [if_neg hlocal] at hrest
      cases size with
      | none => exact Or.inl (allocateQubits_failsClean name 1 config s e t hrest)
      | some size =>
        rw [declarationParts, run_discard]
        rcases run_bind_eq_error.1 hrest with hsize | ⟨n, u, hsize, hrest⟩
        · rw [hsize]
          exact Or.inr (Or.inl (.refl t))
        · rw [hsize]
          exact Or.inr (Or.inl (allocateQubits_failsClean name n config u e t hrest))
  | «alias» name value =>
    rw [declarationParts, run_discard]
    rcases run_bind_eq_error.1 (hthenNext h) with hview | ⟨v, u, hview, hrest⟩
    · rw [hview]
      exact Or.inr (Or.inl (.refl t))
    · rw [hview]
      refine Or.inr (Or.inl ((?_ : FailsClean _) config u e t hrest))
      split
      · exact .fail _
      · have hsymbol : KeepsTables (newSymbol name .alias) := fun _ s => .refl s
        exact hsymbol.bind fun x => declare_failsClean _
  | defineSubroutine d => exact Or.inl (defineSubroutine_failsClean d config s e t (hthenNext h))
  | defineGate d => exact Or.inl (defineGate_failsClean d config s e t (hthenNext h))
  | _ => cases hkind

end Failing

section Silence

variable {calls : Calls} {scopes : Scopes} {config : Config} {s : State}

theorem fold_unparen (calls : Calls) (e : Expr) : fold calls e.unparen = fold calls e := by
  fun_induction Expr.unparen e with
  | case1 e ih =>
    rw [ih, fold]
  | case2 => rfl

/-- An expression without calls is only put into the flat program if it has no value. -/
theorem plainValue_silent (h : calls.TypesResults scopes) (e : Expr) (hs : scopes.Silent e.callees)
    (hsame : scopes.Same s.scopes) :
    (plainValue calls e config s).2 = s ∨
      (fold calls e config s).1 = .ok none ∧ Naming s (plainValue calls e config s).2 := by
  have hstate := fold_leaves h e hs config s hsame
  rw [plainValue, run_bind]
  rcases hfold : fold calls e config s with ⟨failure | value, t⟩
  · rw [hfold] at hstate
    exact Or.inl hstate
  · rw [hfold] at hstate
    cases hstate
    cases value with
    | some v => exact Or.inl rfl
    | none =>
      have hnames := (residualize_names h e (hs.subset e.hiddenCallees_subset)).bind
        fun shown => Names.pure (RightValue.runtime shown)
      exact Or.inr ⟨rfl, hnames config t hsame⟩

theorem rightValue_silent (h : calls.TypesResults scopes) (e : Expr) (hs : scopes.Silent e.callees)
    (hsame : scopes.Same s.scopes) :
    (rightValue calls e config s).2 = s ∨
      (fold calls e config s).1 = .ok none ∧ Naming s (rightValue calls e config s).2 := by
  rw [← fold_unparen]
  rw [← unparen_callees] at hs
  unfold rightValue
  generalize e.unparen = e' at hs ⊢
  cases e' with
  | measure operand =>
    have hleaves := (quantumQubits_leaves h operand hs).bind fun qubits => Leaves.pure (RightValue.measured qubits)
    exact Or.inl (hleaves config s hsame)
  | call f args =>
    have hnone : s.scopes.subroutine? f = none :=
      (hsame.subroutine? f).trans (Scopes.silent_cons.1 hs).1
    have hrun : subroutine? f config s = (.ok (s.scopes.subroutine? f), s) := rfl
    dsimp only
    rw [run_bind, hrun, hnone]
    exact plainValue_silent h _ hs hsame
  | _ => exact plainValue_silent h _ hs hsame

/-- Where nothing calls a subroutine, evaluating the parts of a declaration changes nothing, unless an
initializer without a value gives names to variables. -/
theorem declarationParts_silent (h : calls.TypesResults scopes) {kind : StatementKind}
    (hs : scopes.Silent kind.callees) (hsame : scopes.Same s.scopes) :
    (declarationParts calls kind config s).2 = s ∨
      ∃ d e, kind = .classical d ∧ d.init = some e ∧ (fold calls e config s).1 = .ok none ∧
        Naming s (declarationParts calls kind config s).2 := by
  unfold declarationParts
  split
  · next size =>
    rw [run_discard]
    exact Or.inl (((fold_leaves h size hs).bind fun v => widthValue_leaves size v) config s hsame)
  · next d =>
    obtain ⟨htype, hinit⟩ := Scopes.silent_append.1 hs
    have htypes := resolveType_leaves h d.type htype config s hsame
    rw [run_bind]
    rcases hresolved : resolveType calls d.type config s with ⟨failure | t, u⟩
    · rw [hresolved] at htypes
      exact Or.inl htypes
    rw [hresolved] at htypes
    cases htypes
    dsimp only
    rw [run_discard]
    rcases hd : d.init with - | e
    · exact Or.inl rfl
    rw [hd] at hinit
    have hcheck := checkInitializer_leaves h t e (hinit.subset e.hiddenCallees_subset) config u hsame
    rw [initialValue, run_bind]
    rcases hchecked : checkInitializer calls t e config u with ⟨failure | _, v⟩
    · rw [hchecked] at hcheck
      exact Or.inl hcheck
    rw [hchecked] at hcheck
    cases hcheck
    dsimp only
    have hdiscard : ((rightValue calls e >>= fun r => pure (some r)) config v).2 =
        (rightValue calls e config v).2 := by
      rw [run_bind]
      rcases rightValue calls e config v with ⟨failure | r, w⟩ <;> rfl
    rw [hdiscard]
    exact (rightValue_silent h e hinit hsame).imp_right fun hnaming => ⟨d, e, rfl, hd, hnaming⟩
  · next value =>
    rw [run_discard]
    exact Or.inl (viewOf_leaves h value hs config s hsame)
  · exact Or.inl rfl

theorem declarationParts_agree {I : Invariant} {weight : String → Nat} {k : Nat} {calls' : Calls}
    (h : CallsAgree I weight k calls calls') {kind : StatementKind} (hk : weigh weight kind.callees ≤ k) :
    Agree I (declarationParts calls kind) (declarationParts calls' kind) := by
  unfold declarationParts
  split
  · exact (resolveWidth_agree h _ hk).bind fun _ => Agree.pure _
  · next d =>
    have hcallees : weigh weight d.callees ≤ k := hk
    rw [ClassicalDecl.callees, weigh_append] at hcallees
    apply (resolveType_agree h d.type (by omega)).bind
    intro t
    refine Agree.bind ?_ fun _ => Agree.pure _
    rcases hd : d.init with - | e
    · exact Agree.pure _
    · rw [hd] at hcallees
      have he : weigh weight e.callees ≤ k := Nat.le_trans (Nat.le_add_left _ _) hcallees
      apply (checkInitializer_agree h t e he).bind
      intro _
      exact (rightValue_ensures h e he).agree.bind fun _ => Agree.pure _
  · next value => exact (viewOf_ensures h value hk).agree.bind fun _ => Agree.pure _
  · exact Agree.pure _

/-- The same for the expansion of definitions to any depth. -/
theorem nestedParts_silent {n : Nat} {kind : StatementKind} (hs : s.scopes.Silent kind.callees) :
    (declarationParts (.nested n) kind config s).2 = s ∨
      ∃ d e, kind = .classical d ∧ d.init = some e ∧ (fold (.nested n) e config s).1 = .ok none ∧
        Naming s (declarationParts (.nested n) kind config s).2 := by
  have hsame := Scopes.Same.refl s.scopes
  have huntyped := untyped_agree s.scopes n
  rw [run_untyped (declarationParts_agree huntyped (weigh_silent hs)) hsame]
  refine (declarationParts_silent (untyped_typesResults _ _) hs hsame).imp_right ?_
  rintro ⟨d, e, rfl, hd, hfold, hnaming⟩
  have he : s.scopes.Silent e.callees := by
    have hinit := (Scopes.silent_append.1 hs).2
    rw [hd] at hinit
    exact hinit
  rw [← run_untyped (fold_agree huntyped e (weigh_silent he)) hsame] at hfold
  exact ⟨d, e, rfl, hd, hfold, hnaming⟩

end Silence

/-- Let a declaration fail. What it has written to the tables by then was written when its types, sizes and its
initializer were evaluated, or it is the variable without the initial value that could not be stored. If
nothing in the declaration calls a subroutine, evaluating it writes nothing, unless an initializer without a
value gives names of the flat program to variables. -/
theorem failed_declaration_tables {n : Nat} {kind : StatementKind} {span : Span} {config : Config}
    {s t : State} {d : Diagnostic} (hkind : kind.isDeclaration = true)
    (h : perform (.nested n) kind config { s with span } = (.error (.statement d), t)) :
    let done := (declarationParts (.nested n) kind config { s with span }).2
    let after := (statement (.nested n) ⟨kind, span⟩ config s).2
    (SameTables s after ∨ SameTables done after ∨
      ∃ c type, kind = .classical c ∧
        (resolveType (.nested n) c.type config { s with span }).1 = .ok type ∧
        LeftDeclared config c type done after) ∧
      (s.scopes.Silent kind.callees → done = { s with span } ∨
        ∃ c e, kind = .classical c ∧ c.init = some e ∧
          (fold (.nested n) e config { s with span }).1 = .ok none ∧ Naming { s with span } done) := by
  intro done after
  have hafter : SameTables t after := by
    have hrun : after = (recover (.statement d) config { t with span := s.span, output := s.output }).2 := by
      have hsettled := settled_run span (perform (.nested n) kind) config s
      rw [h] at hsettled
      exact congrArg Prod.snd hsettled
    rw [hrun]
    exact ⟨rfl, rfl, rfl, rfl⟩
  refine ⟨?_, fun hs => nestedParts_silent hs⟩
  rcases declaration_error hkind h with hsame | hsame | ⟨c, type, rfl, htype, hleft⟩
  · have hstart : SameTables s { s with span } := ⟨rfl, rfl, rfl, rfl⟩
    exact Or.inl ((hstart.trans hsame).trans hafter)
  · exact Or.inr (Or.inl (hsame.trans hafter))
  · obtain ⟨u, hdeclared, hsame⟩ := hleft.declared
    exact Or.inr (Or.inr ⟨c, type, rfl, htype, { hleft with declared := ⟨u, hdeclared, hsame.trans hafter⟩ }⟩)

/-- Two bits are declared for the outcome of a measurement of one qubit. -/
def measuredPair : ClassicalDecl :=
  ⟨.sized .bit (some (.int 2)), "b", some (.measure (.name "q")), false, none⟩

/-- The state that the two bits are declared in. -/
def qubitDeclared : State := { stateAfter .default "qubit q;\n" 1 with span := ⟨2, 1⟩ }

/-- The problem that a statement is dropped because of. -/
def problemOf? {α : Type} : Except Failure α → Option Diagnostic
  | .error (.statement d) => some d
  | _ => none

theorem eq_error_of_problemOf? {α : Type} {r : Except Failure α} {d : Diagnostic} (h : problemOf? r = some d) :
    r = .error (.statement d) := by
  unfold problemOf? at h
  split at h
  · rw [Option.some.inj h]
  · cases h

theorem measuredPair_fails :
    ∃ d t, perform (.nested 0) (.classical measuredPair) .default qubitDeclared =
      (.error (.statement d), t) := by
  have hfails : (problemOf? (perform (.nested 0) (.classical measuredPair) .default qubitDeclared).1).isSome =
      true := by
    unfold qubitDeclared
    rw [stateAfter_ofList]
    decide +kernel
  obtain ⟨d, hd⟩ := Option.isSome_iff_exists.1 hfails
  exact ⟨d, _, Prod.ext (eq_error_of_problemOf? hd) rfl⟩

theorem measuredPair_declared :
    (qubitDeclared.scopes.resolve? "b").isSome = false ∧
      ((statement (.nested 0) ⟨.classical measuredPair, ⟨2, 1⟩⟩ .default qubitDeclared).2.scopes.resolve?
        "b").isSome = true ∧
      qubitDeclared.scopes.Silent (StatementKind.classical measuredPair).callees := by
  unfold qubitDeclared
  rw [stateAfter_ofList]
  decide +kernel

/-- The bits stay declared, and nothing else is written. -/
theorem failed_declaration_tables_pair :
    ∃ type, LeftDeclared .default measuredPair type qubitDeclared
      (statement (.nested 0) ⟨.classical measuredPair, ⟨2, 1⟩⟩ .default qubitDeclared).2 := by
  obtain ⟨hfree, hdeclared, hsilent⟩ := measuredPair_declared
  obtain ⟨d, t, h⟩ : ∃ d t, perform (.nested 0) (.classical measuredPair) .default
      { qubitDeclared with span := ⟨2, 1⟩ } = (.error (.statement d), t) := measuredPair_fails
  obtain ⟨htables, hevaluated⟩ := failed_declaration_tables rfl h
  have hdone : (declarationParts (.nested 0) (.classical measuredPair) .default
      { qubitDeclared with span := ⟨2, 1⟩ }).2 = qubitDeclared := by
    rcases hevaluated hsilent with hdone | ⟨c, e, ⟨⟩, ⟨⟩, hfold, -⟩
    · exact hdone
    · cases hfold
  have hwritten : ¬SameTables qubitDeclared
      (statement (.nested 0) ⟨.classical measuredPair, ⟨2, 1⟩⟩ .default qubitDeclared).2 := by
    intro hsame
    rw [hsame.scopes, hfree] at hdeclared
    cases hdeclared
  rw [hdone] at htables
  rcases htables with hsame | hsame | ⟨c, type, ⟨⟩, -, hleft⟩
  · exact absurd hsame hwritten
  · exact absurd hsame hwritten
  · exact ⟨type, hleft⟩

/-- Two bits for one outcome, and a variable that is the value of a constant. -/
def unstorable : String := "qubit q;\nbit[2] b = measure q;\nint v;\nconst int w = v;\n"

/-- The bits stay declared when the outcome does not fit. In a whole program they are declared after the second
statement, and the variable is one of the flat program after the constant was refused. -/
theorem failed_declaration_remains :
    (¬∀ kind span s d t, kind.isDeclaration = true → s.scopes.Silent kind.callees →
      perform (.nested 0) kind .default { s with span } = (.error (.statement d), t) →
      SameTables s (statement (.nested 0) ⟨kind, span⟩ .default s).2) ∧
    ((List.range 5).map fun k =>
        let s := stateAfter .default unstorable k
        (s.diagnostics.length, (s.scopes.resolve? "b").isSome, s.registers.clbits,
          s.declarations.map fun d => d.name)) =
      [(0, false, 0, []), (0, false, 0, []), (1, true, 2, []), (1, true, 2, []),
        (2, true, 2, ["v"])] := by
  have hread (k : Nat) := show stateAfter .default unstorable k = _ from stateAfter_ofList .default _ k
  simp only [hread]
  refine ⟨fun hsame => ?_, by decide +kernel⟩
  obtain ⟨hfree, hdeclared, hsilent⟩ := measuredPair_declared
  obtain ⟨d, t, h⟩ := measuredPair_fails
  have hscopes := (hsame _ ⟨2, 1⟩ qubitDeclared d t rfl hsilent h).scopes
  rw [hscopes, hfree] at hdeclared
  cases hdeclared

end Analysis
end OpenQasm
