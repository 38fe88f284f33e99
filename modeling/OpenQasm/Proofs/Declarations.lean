import OpenQasm.Analysis.Declare
import OpenQasm.Proofs.Applications
import OpenQasm.Proofs.Assignments

/-!
Declarations. Each one adds a symbol to the current scope that stands for nothing, for registers, or for a
definition of the program.
-/
namespace OpenQasm

namespace Analysis

section Definitions

variable {I : Invariant} {D : DeclaringInvariant}

/-- A definition stands where it is refused, or a symbol may stand for it. -/
def MayDefine (I : Invariant) (name : String) (kind : SymbolKind) (binding : Binding) : Prop :=
  (∀ s, I.core s → s.scopes.isGlobal = false) ∨
    ∀ r x, Fresh name kind x → I.symbol r { x with binding }

/-- What both kinds of definitions do in a scope that is not the global one. -/
theorem global_ensures {α : Type} {x y : Analysis α} {post : α → State → Prop} (p : Problem)
    (hp : p.severity = .error)
    (hrest : (∀ s, I.core s → s.scopes.isGlobal = false) ∨ Ensures I (fun _ => True) x y post) :
    Ensures I (fun _ => True)
      (get >>= fun s => if !s.scopes.isGlobal then (fail p : Analysis Unit) >>= fun _ => x else x)
      (get >>= fun s => if !s.scopes.isGlobal then (fail p : Analysis Unit) >>= fun _ => y else y) post := by
  refine Ensures.get.bind fun s => Ensures.ite (fun _ => Ensures.failing _ hp) fun hglobal => ?_
  rcases hrest with hlocal | hrest
  · rintro config _ ht ⟨rfl, -⟩
    rw [hlocal _ ht] at hglobal
    exact absurd rfl hglobal
  · exact hrest.forget

theorem defineSubroutine_agree (d : SubroutineDefinition)
    (hd : MayDefine D.toInvariant d.name .subroutineDefinition (.subroutine d)) :
    Agree D.toInvariant (defineSubroutine d) (defineSubroutine d) := by
  refine global_ensures _ rfl (hd.imp_right fun hsymbol => ?_)
  apply (newSymbol_ensures _ d.name .subroutineDefinition).bind
  intro x
  exact (declare_ensures _).mono (fun _ _ hx => ⟨hsymbol _ x hx.1, .inl hx.1.targeted⟩) fun _ _ _ _ => trivial

theorem defineGate_agree (d : GateDefinition)
    (hgate : MayDefine D.toInvariant d.name .gateDefinition (.gate d))
    (hexternal : MayDefine D.toInvariant d.name .gateDefinition
      (.external ⟨d.name, d.qubits.length, d.params.length⟩)) :
    Agree D.toInvariant (defineGate d) (defineGate d) := by
  apply global_ensures _ rfl
  rcases hgate with hlocal | hgate
  · exact Or.inl hlocal
  · rcases hexternal with hlocal | hexternal
    · exact Or.inl hlocal
    -- At the top level, the gate is declared under one of two bindings.
    · apply Or.inr
      have hdeclare (config : Config) (x : Symbol) (hx : Fresh d.name .gateDefinition x) :
          Agree D.toInvariant
            (declare { x with
              binding := if config.isExternal d.name then
                .external ⟨d.name, d.qubits.length, d.params.length⟩ else .gate d })
            (declare { x with
              binding := if config.isExternal d.name then
                .external ⟨d.name, d.qubits.length, d.params.length⟩ else .gate d }) := by
        refine (declare_ensures _).mono (fun s _ _ => ⟨?_, .inl hx.targeted⟩) fun _ _ _ _ => trivial
        split
        · exact hexternal _ x hx
        · exact hgate _ x hx
      have hrest : Agree D.toInvariant
          (read >>= fun config => newSymbol d.name .gateDefinition >>= fun x =>
            declare { x with
              binding := if config.isExternal d.name then
                .external ⟨d.name, d.qubits.length, d.params.length⟩ else .gate d } >>= fun _ =>
            if config.isExternal d.name then
              modify fun s => { s with externalGates := d :: s.externalGates } else pure ())
          (read >>= fun config => newSymbol d.name .gateDefinition >>= fun x =>
            declare { x with
              binding := if config.isExternal d.name then
                .external ⟨d.name, d.qubits.length, d.params.length⟩ else .gate d } >>= fun _ =>
            if config.isExternal d.name then
              modify fun s => { s with externalGates := d :: s.externalGates } else pure ()) := by
        apply Agree.read.bind
        intro config
        apply (newSymbol_ensures (fun _ => True) d.name .gateDefinition).bind
        intro x
        apply Ensures.given
        intro hx
        refine (hdeclare config x hx).bind fun _ => Agree.ite ?_ (Agree.pure _)
        exact Ensures.modify (fun _ _ => ⟨rfl, rfl, rfl, rfl⟩) fun s hs _ =>
          ⟨{ Frame.refl s with }, D.core_congr hs rfl rfl rfl rfl, trivial⟩
      cases d.body.find? (!isGateCall ·) with
      | some s => exact Ensures.failing _ rfl
      | none =>
        cases firstRepeatedName [] (d.params ++ d.qubits) with
        | some n => exact Ensures.failing _ rfl
        | none => exact hrest

end Definitions

section Variables

variable {I : StatementInvariant} {weight : String → Nat} {k : Nat} {calls calls' : Calls}

theorem checkDevice_agree (size : Nat) :
    Agree I.toInvariant (checkDevice size) (checkDevice size) := by
  refine Agree.get.bind fun s => Agree.read.bind fun config => ?_
  split
  · refine Agree.ite (reportHere_agree _ rfl) (Agree.pure _)
  · exact Agree.pure _

/-- A new register as a whole. -/
theorem allocate_ensures (name : String) (size : Nat) (kind : RegisterKind)
    (hsize : kind = .quantum → 0 < size) :
    Ensures I.toInvariant (fun _ => True) (allocate name size kind) (allocate name size kind)
      (fun r s => I.target s.registers r.1 ∧ I.view s.registers kind r.2 ∧
        (kind = .classical → s.registers.NamesBits r.1 r.2)) := by
  refine (allocate_keeping name size kind (fun _ => True) (q := fun r s => I.view s.registers kind r.2 ∧
    (kind = .classical → s.registers.NamesBits r.1 r.2)) hsize ?_).weaken fun _ _ _ h => ⟨h.1, h.2.1⟩
  exact fun hs hr => ⟨I.view_allocate hs hr, fun hkind => Registers.namesBits_allocate (hkind ▸ hr)⟩

theorem declareQubits_agree (h : CallsAgree I.toInvariant weight k calls calls') (name : String)
    (size : Option Expr) (hk : weigh weight (optionCallees size) ≤ k) :
    Agree I.toInvariant (declareQubits calls name size) (declareQubits calls' name size) := by
  have hdeclare (n : Nat) (hn : 0 < n) : Agree I.toInvariant
      (ensureFree name >>= fun _ => checkDevice n >>= fun _ => allocate name n .quantum >>= fun r =>
        newSymbol name .quantumRegister >>= fun x =>
          declare { x with size := some n, binding := .qubits r.2 })
      (ensureFree name >>= fun _ => checkDevice n >>= fun _ => allocate name n .quantum >>= fun r =>
        newSymbol name .quantumRegister >>= fun x =>
          declare { x with size := some n, binding := .qubits r.2 }) := by
    apply (ensureFree_agree name).bind
    intro _
    apply (checkDevice_agree n).bind
    intro _
    apply (allocate_ensures name n .quantum fun _ => hn).bind
    intro r
    refine (newSymbol_ensures _ name .quantumRegister).bind fun x => Ensures.given fun hx => ?_
    refine (declare_ensures _).mono ?_ fun _ _ _ _ => trivial
    exact fun s _ hv => ⟨I.symbol_qubits (Or.inl hx.kind) rfl hv.2.1 hx.targeted, .inl hx.targeted⟩
  refine global_ensures _ rfl (Or.inr ?_)
  cases size with
  | some e => exact (resolveWidth_ensures h e hk).bind fun n => Ensures.assuming (hdeclare n)
  | none =>
    have hone : Ensures I.toInvariant (fun _ => True) (pure 1) (pure 1) (fun (n : Nat) _ => 0 < n) :=
      Ensures.pure fun _ _ _ => Nat.one_pos
    exact hone.bind fun n => Ensures.assuming (hdeclare n)

theorem declareAlias_agree (h : CallsAgree I.toInvariant weight k calls calls') (name : String)
    (value : Expr) (hk : weigh weight value.callees ≤ k) :
    Agree I.toInvariant (declareAlias calls name value) (declareAlias calls' name value) := by
  apply (viewOf_ensures h value hk).bind
  intro v
  split
  · exact Ensures.fail _ rfl
  · next v =>
    refine (newSymbol_ensures _ name .alias).bind fun x => Ensures.given fun hx => ?_
    refine (declare_ensures _).mono ?_ fun _ _ _ _ => trivial
    exact fun s _ hv => ⟨I.symbol_qubits (Or.inr hx.kind) rfl hv hx.targeted, .inl hx.targeted⟩

theorem declareConstant_agree (h : CallsAgree I.toInvariant weight k calls calls') (name : String)
    (t : ClassicalType) (init : Option Expr) (hk : weigh weight (optionCallees init) ≤ k) :
    Agree I.toInvariant (declareConstant calls name t init) (declareConstant calls' name t init) := by
  cases init with
  | none => exact Agree.fail _ rfl
  | some e =>
    apply (checkInitializer_agree h t e hk).bind
    intro _
    apply (rightValue_ensures h e hk).agree.bind
    intro r
    split
    · apply (coerceTo_agree t _).bind
      intro v
      apply (newSymbol_ensures (fun _ => True) name .constant).bind
      intro x
      refine (declare_ensures _).mono ?_ fun _ _ _ _ => trivial
      exact fun s _ hx => ⟨I.symbol_none hx.1.binding hx.1.targeted, .inl hx.1.targeted⟩
    · exact Agree.fail _ rfl

/-- A variable that is declared by a statement may be written to, unless it is an input. -/
theorem declareVariable_ensures {name : String} {kind : SymbolKind} {x y : Symbol}
    (hkind : kind = .classicalVariable ∨ kind = .classicalRegister) (hx : Fresh name kind x)
    (hname : y.name = x.name) (hsame : y.kind = x.kind) :
    Ensures I.toInvariant (fun s => I.symbol s.registers y ∧ y.Targeted I.toFacts s.registers) (declare y)
      (declare y) (fun _ s => y.mutable = true → I.writable name s) := by
  refine (declare_ensures y).mono (fun _ _ hy => ⟨hy.1, .inl hy.2⟩) fun _ s hs hresolve hmutable => ?_
  rw [hname, hx.name] at hresolve
  refine I.writable_of_resolve hs hresolve ?_ hmutable
  rw [← hx.kind, ← hsame] at hkind
  exact hkind

theorem declareExternal_ensures (name : String) (t : ClassicalType) (direction : Direction) :
    Ensures I.toInvariant (fun _ => True) (declareExternal name t direction)
      (declareExternal name t direction) (fun _ s => direction = .output → I.writable name s) := by
  apply (ensureFree_agree name).andThen
  intro _
  refine ((reserve_keeping name fun _ => True).weaken fun _ _ _ h => h.1).bind fun emitName => ?_
  have hstable := stable_target (I := I.toInvariant) emitName
  refine ((addDeclaration_agree ⟨emitName, t, some direction⟩).carrying hstable).bind fun _ => ?_
  refine (newSymbol_ensures _ name .classicalVariable).bind fun x => Ensures.given fun hx => ?_
  refine Ensures.mono (declareVariable_ensures (.inl rfl) hx ?_ ?_) (fun s _ htarget => ?_)
    fun _ _ _ h hdirection => h (decide_eq_true hdirection)
  · rfl
  · rfl
  · have htargeted : ∀ m, some emitName = some m → I.target s.registers m := by
      rintro _ ⟨⟩
      exact htarget
    exact ⟨I.symbol_none hx.binding htargeted, htargeted⟩

theorem declareLocal_ensures (name : String) (t : ClassicalType) :
    Ensures I.toInvariant (fun _ => True) (declareLocal name t) (declareLocal name t)
      (fun _ s => I.writable name s) := by
  apply (ensureFree_agree name).andThen
  intro _
  split
  · apply (allocate_ensures name _ .classical nofun).bind
    intro r
    refine (newSymbol_ensures _ name .classicalRegister).bind fun x => Ensures.given fun hx => ?_
    refine Ensures.mono (declareVariable_ensures (.inr rfl) hx ?_ ?_) (fun s _ hr => ?_)
      fun _ _ _ h => h rfl
    · rfl
    · rfl
    · have htargeted : ∀ m, some r.1 = some m → I.target s.registers m := by
        rintro _ ⟨⟩
        exact hr.1
      exact ⟨I.symbol_clbits rfl hr.2.1 htargeted rfl (hr.2.2 rfl), htargeted⟩
  · refine (newSymbol_ensures (fun _ => True) name .classicalVariable).bind fun x =>
      Ensures.given fun hx => ?_
    refine Ensures.mono (declareVariable_ensures (.inl rfl) hx ?_ ?_)
      (fun s _ _ => ⟨I.symbol_none hx.binding hx.targeted, hx.targeted⟩) fun _ _ _ h => h rfl
    · rfl
    · rfl

theorem initialValue_ensures (h : CallsAgree I.toInvariant weight k calls calls') (t : ClassicalType)
    (init : Option Expr) (hk : weigh weight (optionCallees init) ≤ k) :
    Ensures I.toInvariant (fun _ => True) (initialValue calls t init) (initialValue calls' t init)
      (fun r s => ∀ v, r = some v → v.Fits I.toFacts s.registers) := by
  cases init with
  | none => exact Ensures.pure fun _ _ _ _ h => nomatch h
  | some e =>
    apply (checkInitializer_agree h t e hk).andThen
    intro _
    refine (rightValue_ensures h e hk).bind fun r => Ensures.pure ?_
    rintro s _ hr _ ⟨⟩
    exact hr

theorem declareClassical_agree (h : CallsAgree I.toInvariant weight k calls calls')
    (d : ClassicalDecl) (hk : weigh weight d.callees ≤ k) :
    Agree I.toInvariant (declareClassical calls d) (declareClassical calls' d) := by
  rw [ClassicalDecl.callees, weigh_append] at hk
  have htype : weigh weight d.type.callees ≤ k := by omega
  have hinit : weigh weight (optionCallees d.init) ≤ k := by omega
  refine (resolveType_agree h d.type htype).bind fun t => Agree.ite ?_ ?_
  · exact declareConstant_agree h d.name t d.init hinit
  · apply (initialValue_ensures h t d.init hinit).bind
    intro init
    rcases init with _ | r
    · rcases d.direction with _ | _ | _
      · exact (declareLocal_ensures d.name t).agree.forget.bind fun _ => Agree.pure _
      · exact (declareExternal_ensures d.name t _).agree.forget.bind fun _ => Agree.pure _
      · exact (declareExternal_ensures d.name t _).agree.forget.bind fun _ => Agree.pure _
    -- The initial value is evaluated first, so its qubits have to outlast the declaration.
    · have hstable : Stable fun s => ∀ v, some r = some v → v.Fits I.toFacts s.registers :=
        fun s t hframe h v hv => (h v hv).mono hframe.registers
      have hstore := (store_ensures h d.name r).mono (fun s _
        (hr : I.writable d.name s ∧ ∀ v, some r = some v → v.Fits I.toFacts s.registers) =>
          ⟨hr.2 r rfl, hr.1⟩) fun _ _ _ _ => trivial
      rcases d.direction with _ | _ | _
      · exact ((declareLocal_ensures d.name t).carrying hstable).bind fun _ => hstore
      · exact Ensures.failing _ rfl
      · have hdeclare := (declareExternal_ensures (I := I) d.name t .output).carrying hstable
        exact (hdeclare.weaken fun _ _ _ h => ⟨h.1 rfl, h.2⟩).bind fun _ => hstore

end Variables

end Analysis
end OpenQasm
