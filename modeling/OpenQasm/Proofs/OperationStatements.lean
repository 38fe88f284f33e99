import OpenQasm.Proofs.GateCalls
import OpenQasm.Proofs.TandemBodies

/-!
Statements that are operations on qubits: gate calls, measurements, resets and barriers. Where no subroutine is
called they report nothing but warnings, and in two runs that read corresponding variables they put out the same.
-/
namespace OpenQasm

open Analysis

/-- Gate calls, measurements, resets and barriers. -/
def StatementKind.IsOperation : StatementKind → Prop
  | .gate _ | .measure _ _ | .reset _ | .barrier _ => True
  | _ => False

/-- The register that a statement measures into. -/
def StatementKind.target? : StatementKind → Option String
  | .measure _ (some target) => target.rootName?
  | _ => none

/-- Every qubit goes with itself. -/
def Wiring.straight : Wiring where
  qubit := id
  Declared _ := True
  view := Eq
  At _ := True
  at_mono _ _ := trivial
  injective _ _ h := h
  length h := h ▸ rfl
  declared _ _ _ _ := trivial
  physical _ h := h ▸ (List.map_id _).symm
  element {r q} _ _ := by
    show Option.Rel Eq (r.elementView? .quantum q) (r.elementView? .quantum q)
    cases r.elementView? .quantum q with
    | none => exact .none
    | some v => exact .some rfl
  concat h h' := h ▸ h' ▸ rfl
  pick _ h := h ▸ rfl

section

variable {x : Symbol} {qs rs : List Nat} {ops ops' : List Instruction}

theorem Symbol.Wired.straight (x : Symbol) : x.Wired .straight x := by
  by_cases hx : ∃ v, x.binding = .qubits v
  · obtain ⟨v, hv⟩ := hx
    have hwired : x.Wired .straight { x with binding := .qubits v } := .qubits hv rfl
    rw [← hv] at hwired
    exact hwired
  · exact .same (not_exists.1 hx)

theorem Wiring.Operands.straight (h : Wiring.straight.Operands qs rs) : rs = qs := h.2.trans (List.map_id qs)

theorem Wiring.Operations.straight (h : Wiring.straight.Operations ops ops') : ops' = ops := by
  have hid : Instruction.mapQubits id = id := funext fun i => by
    rw [Instruction.mapQubits, List.map_id]
    rfl
  rw [h.2]
  show ops.map (Instruction.mapQubits id) = ops
  rw [hid, List.map_id]

end

namespace Analysis

variable {L : Link} {calls : Calls} {config : Config} {s t u : State} {kind : StatementKind}

section Output

/-- Nothing but warnings is reported between two states. -/
def Warned (s t : State) : Prop :=
  ∃ warnings, t.diagnostics = warnings ++ s.diagnostics ∧ ∀ d ∈ warnings, d.severity = .warning

theorem Warned.of_eq (h : t.diagnostics = s.diagnostics) : Warned s t := ⟨[], h, List.forall_mem_nil _⟩

theorem Warned.trans (h : Warned s t) (h' : Warned t u) : Warned s u := by
  obtain ⟨first, hfirst, hwarnings⟩ := h
  obtain ⟨second, hsecond, hwarnings'⟩ := h'
  exact ⟨second ++ first, by rw [hsecond, hfirst, List.append_assoc], List.forall_mem_append.2 ⟨hwarnings', hwarnings⟩⟩

theorem Warned.bind {α β : Type} {x : Analysis α} {f : α → Analysis β} (hx : Warned s (x config s).2)
    (hf : ∀ a t, x config s = (.ok a, t) → Warned t (f a config t).2) : Warned s ((x >>= f) config s).2 := by
  rw [run_bind]
  rcases hr : x config s with ⟨e | a, t⟩
  · rwa [hr] at hx
  · rw [hr] at hx
    exact hx.trans (hf a t hr)

/-- A step that puts out without a look at the scopes, and reports nothing but warnings. -/
structure Emits {α : Type} (x : Analysis α) : Prop where
  blind : Blind x
  warned : ∀ config s, Warned s (x config s).2

theorem Emits.pure {α : Type} (a : α) : Emits (Pure.pure a : Analysis α) := ⟨.pure a, fun _ _ => .of_eq rfl⟩

theorem Emits.bind {α β : Type} {x : Analysis α} {f : α → Analysis β} (hx : Emits x) (hf : ∀ a, Emits (f a)) :
    Emits (x >>= f) :=
  ⟨hx.blind.bind fun a => (hf a).blind, fun config s => (hx.warned config s).bind fun a t _ => (hf a).warned config t⟩

theorem emit_emits (f : FlatStatement) : Emits (emit f) := ⟨emit_blind f, fun _ _ => .of_eq rfl⟩

/-- A second measurement of a qubit is warned about. -/
theorem noteUsage_emits (q : Nat) (usage : Usage) : Emits (noteUsage q usage) := by
  refine ⟨fun config s => ?_, fun config s => ?_⟩
  · have hextends := Registers.extends_mark s.registers q usage
    have hseeing (scopes : Scopes) : (s.seeing scopes).registers = s.registers := rfl
    unfold noteUsage
    simp only [run_get, hseeing]
    generalize s.registers.mark q usage = marked at hextends
    rcases marked with ⟨w | w, registers⟩
    · exact ⟨rfl, hextends, fun _ => rfl⟩
    · exact ⟨rfl, hextends, fun _ => rfl⟩
  · unfold noteUsage
    rw [run_get]
    rcases s.registers.mark q usage with ⟨w | w, registers⟩
    · exact .of_eq rfl
    · exact ⟨[⟨.remeasured w, s.span⟩], rfl, List.forall_mem_singleton.2 rfl⟩

theorem emitOps_emits (ops : List Instruction) : Emits (ops.forM emitOp) := by
  induction ops with
  | nil => exact .pure ()
  | cons i rest ih => exact (emit_emits _).bind fun _ => ih

theorem measureOnly_emits (qs : List Nat) : Emits (measureOnly qs) := by
  induction qs with
  | nil => exact .pure ()
  | cons q rest ih => exact (emit_emits _).bind fun _ => (noteUsage_emits q .measured).bind fun _ => ih

theorem measureEach_emits (pairs : List (Nat × Nat)) : Emits (measureEach pairs) := by
  induction pairs with
  | nil => exact .pure ()
  | cons p rest ih => exact (emit_emits _).bind fun _ => (noteUsage_emits p.1 .measured).bind fun _ => ih

theorem resetEach_emits (qs : List Nat) : Emits (resetEach qs) := by
  induction qs with
  | nil => exact .pure ()
  | cons q rest ih => exact (emit_emits _).bind fun _ => (noteUsage_emits q .reset).bind fun _ => ih

end Output

section Warnings

variable {n : Nat} {e : Expr}

theorem Leaves.warned {α : Type} {x : Analysis α} (h : Leaves s.scopes x) : Warned s (x config s).2 :=
  .of_eq (congrArg State.diagnostics (h config s (Scopes.Same.refl _)))

theorem quantumQubits_silent {scopes : Scopes} (h : scopes.Silent e.callees) : Leaves scopes (quantumQubits (.nested n) e) :=
  Leaves.of_untyped (quantumQubits_ensures (untyped_agree scopes n) e (weigh_silent h))
    (quantumQubits_leaves (untyped_typesResults _ _) e h)

theorem viewOf_silent {scopes : Scopes} (h : scopes.Silent e.callees) : Leaves scopes (viewOf (.nested n) e) :=
  Leaves.of_untyped (viewOf_ensures (untyped_agree scopes n) e (weigh_silent h))
    (viewOf_leaves (untyped_typesResults _ _) e h)

theorem measureInto_warned (qs : List Nat) {target : Expr} (h : s.scopes.Silent target.callees) :
    Warned s (measureInto (.nested n) qs target config s).2 := by
  unfold measureInto
  have hview : Leaves s.scopes (viewOf (.nested n) target) := viewOf_silent h
  refine hview.warned.bind fun v t _ => ?_
  split
  · exact .of_eq rfl
  · dsimp only
    split
    · exact .of_eq rfl
    · refine Warned.bind (.of_eq rfl) fun clbits u _ => ?_
      refine ((measureEach_emits _).warned config u).bind fun _ w _ => ?_
      cases target.rootName? with
      | none => exact .of_eq rfl
      | some m => exact .of_eq rfl

/-- An operation reports nothing but warnings, if it does not fail. -/
theorem perform_warned (hkind : kind.IsOperation) (hsilent : s.scopes.Silent kind.callees)
    (hquiet : ∀ call, kind = .gate call → s.scopes.Quiet call) : Warned s (perform (.nested n) kind config s).2 := by
  have hnext {x : Analysis Unit} (h : Warned s (x config s).2) : Warned s (thenNext x config s).2 :=
    h.bind fun _ _ _ => .of_eq rfl
  cases kind with
  | gate call =>
    have hnames : Names s.scopes (expandCall (.nested n) call) := expandCall_quiet (hquiet call rfl)
    have hexpanded : Warned s (expandCall (.nested n) call config s).2 :=
      .of_eq (hnames config s (Scopes.Same.refl _)).diagnostics
    exact hnext (hexpanded.bind fun ops t _ => (emitOps_emits ops).warned config t)
  | measure operand target =>
    obtain ⟨hoperand, hinto⟩ := Scopes.silent_append.1 hsilent
    have hqubits : Leaves s.scopes (quantumQubits (.nested n) operand) := quantumQubits_silent hoperand
    refine hnext (hqubits.warned.bind fun qs t ht => ?_)
    obtain rfl := hqubits.state_eq (Scopes.Same.refl _) ht
    cases target with
    | none => exact (measureOnly_emits qs).warned config s
    | some target => exact measureInto_warned qs hinto
  | reset operand =>
    have hqubits : Leaves s.scopes (quantumQubits (.nested n) operand) := quantumQubits_silent hsilent
    exact hnext (hqubits.warned.bind fun qs t _ => (resetEach_emits qs).warned config t)
  | barrier operands =>
    have hqubits : Leaves s.scopes (operands.mapM (quantumQubits (.nested n))) := operands_leaves hsilent
    have hall : Warned s (barrierQubits (.nested n) operands config s).2 := by
      unfold barrierQubits
      split
      · exact .of_eq rfl
      · exact hqubits.warned.bind fun _ _ _ => .of_eq rfl
    refine hnext (hall.bind fun qs t _ => ?_)
    split
    · exact .of_eq rfl
    · exact .of_eq rfl
  | _ => exact hkind.elim

/-- An operation that does not fail goes on. -/
theorem perform_normal (hkind : kind.IsOperation) (h : (perform calls kind config s).1.toOption.isSome = true) :
    perform calls kind config s = (.ok .normal, (perform calls kind config s).2) := by
  have hnext (x : Analysis Unit) (hx : (thenNext x config s).1.toOption.isSome = true) :
      thenNext x config s = (.ok .normal, (thenNext x config s).2) := by
    unfold thenNext at hx ⊢
    rw [run_bind] at hx ⊢
    generalize x config s = r at hx
    obtain ⟨_ | _, t⟩ := r
    · cases hx
    · rfl
  cases kind with
  | gate | measure | reset | barrier => exact hnext _ h
  | _ => exact hkind.elim

end Warnings

section Tandem

variable {e : Expr} {es : List Expr} {qs : List Nat}

theorem sameQubits_tandem (hL : L.Sound) (hstraight : L.wiring = .straight) (e : Expr) (he : L.Allows e.callees) :
    Tandem L config Eq (quantumQubits calls e) (quantumQubits calls (e.rename L.name)) :=
  (quantumQubits_tandem hL e he).mono fun _ _ h => (hstraight ▸ h).straight.symm

theorem barrierQubits_tandem (hL : L.Sound) (hstraight : L.wiring = .straight) (es : List Expr) (he : L.Allows (exprsCallees es)) :
    Tandem L config Eq (barrierQubits calls es) (barrierQubits calls (exprsRename L.name es)) := by
  rw [exprsRename_eq_map]
  unfold barrierQubits
  rw [List.isEmpty_map]
  have hqubits : List.Forall₂ (fun e e' => Tandem L config Eq (quantumQubits calls e) (quantumQubits calls e'))
      es (es.map (Expr.rename L.name)) := by
    rw [List.forall₂_map_right_iff, List.forall₂_same]
    exact fun e hmem => sameQubits_tandem hL hstraight e fun f hf => he f (callees_subset_of_mem hmem hf)
  refine .ite (fun s t hst => ?_) ?_
  · rw [run_get, run_get, hst.registers_eq]
    exact .ok rfl hst
  · have hsame : Tandem L config Eq (es.mapM (quantumQubits calls))
        ((es.map (Expr.rename L.name)).mapM (quantumQubits calls)) :=
      (Tandem.mapM hqubits).mono fun _ _ h => by rwa [List.forall₂_eq_eq_eq] at h
    exact hsame.bindSame fun _ => .pure rfl

theorem measureInto_tandem (hL : L.Sound) (qs : List Nat) (target : Expr) (he : L.Allows target.callees)
    (htarget : ∀ m, target.rootName? = some m → L.name m = m ∧ ∀ {a b}, L.scopes a b →
      L.scopes (a.modify m fun x => { x with value := none }) (b.modify m fun x => { x with value := none })) :
    Tandem L config Eq (measureInto calls qs target) (measureInto calls qs (target.rename L.name)) := by
  unfold measureInto
  refine (viewOf_tandem hL target he).bind fun v w hvw => ?_
  cases hvw with
  | quantum => exact .fail _
  | classical v =>
    have hphysical : Blind (physical v) := fun _ _ => ⟨rfl, .refl _, fun _ => rfl⟩
    refine .ite (.stops fun _ => .same _) ?_
    refine hphysical.tandem.bindSame fun clbits => (measureEach_emits _).blind.tandem.bindSame fun _ => ?_
    rw [Expr.rootName?_rename]
    cases hroot : target.rootName? with
    | none => exact .pure rfl
    | some m =>
      obtain ⟨hname, hforget⟩ := htarget m hroot
      rw [Option.map_some, hname]
      intro s t hst
      obtain ⟨b, rfl⟩ := hst.eq_seeing
      exact .ok rfl ⟨rfl, hforget hst.scopes, hst.registers⟩

/-- An operation and the one that reads the other names do the same. -/
theorem perform_tandem (hL : L.Sound) (hstraight : L.wiring = .straight) {E : GateDefinition → Prop}
    (hgate : ∀ d params, E d → ∀ qs rs, L.wiring.Operands qs rs →
      Tandem L config L.wiring.Operations (calls.gate d params qs) (calls.gate d params rs))
    (hkind : kind.IsOperation) (hcallees : L.Allows kind.callees)
    (hE : ∀ call, kind = .gate call → ∀ {a b d}, L.scopes a b → a.gate? call.name = some d → E d)
    (htarget : ∀ m, kind.target? = some m → L.name m = m ∧ ∀ {a b}, L.scopes a b →
      L.scopes (a.modify m fun x => { x with value := none }) (b.modify m fun x => { x with value := none })) :
    Tandem L config Eq (perform calls kind) (perform calls (kind.rename L.name)) := by
  have hnext {x y : Analysis Unit} (h : Tandem L config Eq x y) : Tandem L config Eq (thenNext x) (thenNext y) :=
    h.bindSame fun _ => .pure rfl
  cases kind with
  | gate call =>
    refine hnext ((expandCall_tandem hL hgate call hcallees (hE call rfl)).bind fun ops ops' hops => ?_)
    obtain rfl : ops' = ops := (hstraight ▸ hops).straight
    exact (emitOps_emits _).blind.tandem
  | measure operand target =>
    obtain ⟨hoperand, hinto⟩ := Link.allows_append.1 hcallees
    refine hnext ((sameQubits_tandem hL hstraight operand hoperand).bindSame fun qs => ?_)
    cases target with
    | none => exact (measureOnly_emits qs).blind.tandem
    | some target => exact measureInto_tandem hL qs target hinto htarget
  | reset operand =>
    exact hnext ((sameQubits_tandem hL hstraight operand hcallees).bindSame fun qs => (resetEach_emits qs).blind.tandem)
  | barrier operands =>
    refine hnext ((barrierQubits_tandem hL hstraight operands hcallees).bindSame fun qs => ?_)
    split
    · exact .pure rfl
    · exact (emit_blind _).tandem
  | _ => exact hkind.elim

end Tandem

end Analysis

end OpenQasm
