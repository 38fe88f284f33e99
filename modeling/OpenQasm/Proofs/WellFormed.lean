import OpenQasm.Proofs.FlatStatements
import OpenQasm.Proofs.Programs
import OpenQasm.Proofs.Registers
import OpenQasm.Proofs.Subroutines

/-!
The invariant that makes all output well-formed. Where a gate is expanded, all qubits that can be named
are operands of it; this is why controls that are put before the operations of its body differ from their
operands. Everywhere else, every qubit may be used.
-/
namespace OpenQasm

open Analysis

/-- What a symbol stands for is there. Names of qubits are not seen from bodies. -/
structure Backed (r : Registers) (key : String × SymbolKind × Binding) : Prop where
  qubits : ∀ v, key.2.2 = .qubits v → r.HasView .quantum v
  hidden : ∀ v, key.2.2 = .qubits v → key.2.1 = .quantumRegister ∨ key.2.1 = .alias
  clbits : ∀ v, key.2.2 = .clbits v → r.HasView .classical v

theorem Backed.mono {r r' : Registers} {key : String × SymbolKind × Binding} (h : Backed r key)
    (hextends : r.Extends r') : Backed r' key where
  qubits v hv := (h.qubits v hv).mono hextends
  hidden := h.hidden
  clbits v hv := (h.clbits v hv).mono hextends

/-- The qubits of a symbol are allowed ones. -/
def Allows (allowed : Nat → Prop) (r : Registers) (key : String × SymbolKind × Binding) : Prop :=
  ∀ v, key.2.2 = .qubits v → ∀ q ∈ r.physical v, allowed q

theorem Allows.mono {allowed : Nat → Prop} {r r' : Registers} {key : String × SymbolKind × Binding}
    (h : Allows allowed r key) (hbacked : Backed r key) (hextends : r.Extends r') :
    Allows allowed r' key := by
  intro v hv
  rw [(hbacked.qubits v hv).physical_eq hextends]
  exact h v hv

theorem backed_of_noView (allowed : Nat → Prop) {r : Registers}
    {key : String × SymbolKind × Binding} (hqubits : ∀ v, key.2.2 ≠ .qubits v)
    (hclbits : ∀ v, key.2.2 ≠ .clbits v) : Backed r key ∧ Allows allowed r key :=
  ⟨⟨fun v hv => absurd hv (hqubits v), fun v hv => absurd hv (hqubits v),
    fun v hv => absurd hv (hclbits v)⟩, fun v hv => absurd hv (hqubits v)⟩

/-- What holds of registers and scopes where names stand for allowed qubits only. -/
structure WellNamed (allowed : Nat → Prop) (r : Registers) (s : Scopes) : Prop where
  tiled : r.Tiled
  backed : ∀ key, s.Declares key → Backed r key
  seen : ∀ name x, s.resolve? name = some x → Allows allowed r x.key

namespace WellNamed

variable {allowed allowed' : Nat → Prop} {r r' : Registers} {s t : Scopes}

theorem registers (h : WellNamed allowed r s) (htiled : r'.Tiled) (hextends : r.Extends r') :
    WellNamed allowed r' s where
  tiled := htiled
  backed key hkey := (h.backed key hkey).mono hextends
  seen name x hx :=
    (h.seen name x hx).mono (h.backed _ (Scopes.declares_of_resolve? hx)) hextends

theorem same (h : WellNamed allowed r s) (hsame : s.Same t) : WellNamed allowed r t where
  tiled := h.tiled
  backed key hkey := h.backed key (hsame.declares.1 hkey)
  seen name x hx := by
    have hkeys := hsame.resolve? name
    rw [hx] at hkeys
    obtain ⟨y, hy, hkey⟩ := Option.map_eq_some_iff.1 hkeys
    rw [← hkey]
    exact h.seen name y hy

theorem push (h : WellNamed allowed r s) {x : Symbol} (hx : Backed r x.key)
    (hallowed : Allows allowed r x.key) : WellNamed allowed r (s.push x) where
  tiled := h.tiled
  backed key hkey := by
    rcases Scopes.declares_push hkey with rfl | hkey
    · exact hx
    · exact h.backed key hkey
  seen name y hy := by
    rcases Scopes.resolve?_push s x name with hpush | hpush
    · rw [hy] at hpush
      rw [Option.some.inj hpush]
      exact hallowed
    · rw [hpush] at hy
      exact h.seen name y hy

theorem enter (h : WellNamed (fun _ => True) r s) (kind : ScopeKind) :
    WellNamed (fun _ => True) r (s.enter kind) where
  tiled := h.tiled
  backed key hkey := h.backed key (Scopes.declares_enter hkey)
  seen _ _ _ _ _ _ _ := trivial

/-- No qubit has a name at the start of a body. -/
theorem enterBody (h : WellNamed allowed r s) {kind : ScopeKind} (hkind : kind.isBody = true) :
    WellNamed allowed' r (s.enter kind) where
  tiled := h.tiled
  backed key hkey := h.backed key (Scopes.declares_enter hkey)
  seen name x hx v hv := by
    obtain ⟨hmem, hcrosses⟩ := Scopes.resolve?_enter_body hkind hx
    have hbacked := h.backed x.key (Or.inl (List.mem_map_of_mem hmem))
    -- Neither registers of qubits nor aliases are seen through the border of a body.
    have hnever : ∀ k, k = .quantumRegister ∨ k = .alias → x.kind = k → False := by
      intro k hk hx
      rw [Symbol.crossesBodies, hx] at hcrosses
      rcases hk with rfl | rfl <;> cases hcrosses
    exact (hnever x.kind (hbacked.hidden v hv) rfl).elim

/-- Where a scope is left, names stand for what they stood for before. -/
theorem exit (h : WellNamed allowed r s) {kind : ScopeKind} (hgrows : (s.enter kind).Grows t)
    (hextends : r.Extends r') (h' : WellNamed allowed' r' t) : WellNamed allowed r' t.exit :=
  (h.registers h'.tiled hextends).same hgrows.exit

end WellNamed

/-- The invariant where names stand for allowed qubits only. -/
def DeclaringInvariant.wellFormed (allowed : Nat → Prop) : DeclaringInvariant where
  place r kind q := q < r.total kind ∧ (kind = .quantum → allowed q)
  place_mono hextends h := ⟨Nat.lt_of_lt_of_le h.1 (hextends.total _), h.2⟩
  measured r q := q < r.qubits
  measured_mono hextends h := Nat.lt_of_lt_of_le h hextends.qubits
  measured_place h := h.1
  view r kind v := r.HasView kind v ∧ (kind = .quantum → ∀ q ∈ r.physical v, allowed q)
  view_mono hextends h := ⟨h.1.mono hextends, fun hkind => h.1.physical_eq hextends ▸ h.2 hkind⟩
  view_place h hq := ⟨h.1.physical_lt _ hq, fun hkind => h.2 hkind _ hq⟩
  view_pick positions h :=
    ⟨h.1.pick positions, fun hkind q hq => h.2 hkind q (Registers.mem_physical_of_mem_pick hq)⟩
  view_concat {r _ v w} hv hw := by
    refine ⟨hv.1.concat hw.1, fun hkind q hq => ?_⟩
    rw [Registers.physical_concat] at hq
    exact (List.mem_append.1 hq).elim (hv.2 hkind q) (hw.2 hkind q)
  op := Instruction.ShapedOn
  op_gate := Instruction.shapedOn_ofGate
  op_control state n hnodup h := h.addControls state n hnodup
  op_inverse := Instruction.shapedOn_inverse
  op_scaled := Instruction.shapedOn_scaledRotation
  op_replaced h := h.replaced
  tallied := True
  tallied_gate _ h := h.gate.elim fun _ => Instruction.unnoted_of_gate
  flat r f := f.WellFormed r.qubits r.clbits
  flat_mono hextends h := h.mono hextends.qubits hextends.clbits
  target _ _ := True
  target_mono _ _ := trivial
  flat_assign _ _ _ := trivial
  flat_pragma _ _ := trivial
  flat_gate hqubits h :=
    { h with
      qubit_lt := fun q hq => (hqubits q (h.within hq)).1
      clbit_lt := fun c hc => by rw [h.clbits] at hc; nomatch hc }
  flat_measure hq hc :=
    .ofNoGate nofun (List.pairwise_singleton _ _) (List.forall_mem_singleton.2 hq)
      (List.forall_mem_singleton.2 hc.1)
  flat_measureOnly hq :=
    .ofNoGate nofun (List.pairwise_singleton _ _) (List.forall_mem_singleton.2 hq) nofun
  flat_reset hq :=
    .ofNoGate nofun (List.pairwise_singleton _ _) (List.forall_mem_singleton.2 hq.1) nofun
  flat_barrier _ hqs hnodup := .ofNoGate nofun hnodup (fun q hq => (hqs q hq).1) nofun
  flat_branch condition hclbits hthen helse :=
    ⟨fun c hc => (hclbits c hc).1, FlatStatement.allWellFormed_iff.2 hthen,
      FlatStatement.allWellFormed_iff.2 helse⟩
  excuses _ := False
  core s := WellNamed allowed s.registers s.scopes
  subroutine _ _ := True
  gate _ _ := True
  symbol r x := Backed r x.key ∧ Allows allowed r x.key
  writable _ _ := True
  writable_mono _ _ := trivial
  core_congr h hscopes hregisters _ _ := by
    rw [hscopes, hregisters]
    exact h
  core_reserve name h :=
    h.registers (Registers.tiled_reserve h.tiled name) (Registers.extends_reserve _ name)
  core_allocate h _ hr :=
    h.registers (Registers.tiled_allocate h.tiled hr) (Registers.extends_allocate hr)
  core_mark q usage h :=
    h.registers (Registers.tiled_mark h.tiled q usage) (Registers.extends_mark _ q usage)
  tallied_measured _ h hq := h.tiled.holder?_isSome hq
  target_reserve _ _ := trivial
  target_allocate _ _ := trivial
  target_writable _ _ _ _ := trivial
  core_name {s name _ emitName} h _ _ _ _ _ :=
    h.same (Scopes.same_modify (f := fun y => { y with emitName := some emitName }) (fun _ => rfl)
      s.scopes name)
  symbol_mono hextends h := ⟨h.1.mono hextends, h.2.mono h.1 hextends⟩
  symbol_none h _ := backed_of_noView _ (fun _ hv => nomatch h.symm.trans hv)
    fun _ hv => nomatch h.symm.trans hv
  symbol_param h _ := backed_of_noView _ (fun _ hv => nomatch h.symm.trans hv)
    fun _ hv => nomatch h.symm.trans hv
  symbol_qubits {_ x v} hkind h hv _ := by
    have hview : ∀ w, x.key.2.2 = .qubits w → w = v := fun w hw => by
      cases h.symm.trans hw
      rfl
    refine ⟨⟨fun w hw => hview w hw ▸ hv.1, fun _ _ => hkind, fun w hw => ?_⟩,
      fun w hw => hview w hw ▸ hv.2 rfl⟩
    nomatch h.symm.trans hw
  symbol_clbits {_ x _ v} h hv _ _ _ := by
    refine ⟨⟨fun w hw => ?_, fun w hw => ?_, fun w hw => ?_⟩, fun w hw => ?_⟩
    · nomatch h.symm.trans hw
    · nomatch h.symm.trans hw
    · cases h.symm.trans hw
      exact hv.1
    · nomatch h.symm.trans hw
  symbol_copy {_ _ x y} h hx _ hkind hbinding _ _ := by
    have hbacked := h.backed _ (Scopes.declares_of_resolve? hx)
    have hseen := h.seen _ _ hx
    refine ⟨⟨fun v hv => ?_, fun v hv => ?_, fun v hv => ?_⟩, fun v hv => ?_⟩
    · exact hbacked.qubits v (hbinding.symm.trans hv)
    · have hhidden := hbacked.hidden v (hbinding.symm.trans hv)
      exact hhidden.imp hkind.trans hkind.trans
    · exact hbacked.clbits v (hbinding.symm.trans hv)
    · exact hseen v (hbinding.symm.trans hv)
  resolves_subroutine _ _ _ := trivial
  resolves_gate _ _ _ := trivial
  resolves_qubits h hx hv :=
    ⟨(h.backed _ (Scopes.declares_of_resolve? hx)).qubits _ hv, fun _ => h.seen _ _ hx _ hv⟩
  resolves_clbits h hx hv :=
    ⟨(h.backed _ (Scopes.declares_of_resolve? hx)).clbits _ hv, fun hkind => nomatch hkind⟩
  view_element h hv hq hw := by
    obtain ⟨hview, hphysical⟩ := Registers.elementView?_eq_some h.tiled hw
    refine ⟨hview, fun hkind p hp => ?_⟩
    rw [hphysical, List.mem_singleton] at hp
    exact hp ▸ hv.2 hkind _ (Registers.mem_physical_of_resolve hq)
  written _ _ := True
  writable_of_resolve _ _ _ _ := trivial
  core_value {s name _} value h _ _ _ :=
    ⟨h.same (Scopes.same_modify (f := fun y => { y with value }) (fun _ => rfl) s.scopes name), trivial⟩
  core_forget {s} name h :=
    ⟨h.same (Scopes.same_modify (f := fun y => { y with value := none }) (fun _ => rfl) s.scopes name),
      trivial⟩
  core_declare h hx _ hscopes := Scopes.eq_push_of_declare hscopes ▸ h.push hx.1 hx.2

/-- The invariant where names stand for allowed qubits only, for the evaluation of expressions. -/
def Invariant.wellFormed (allowed : Nat → Prop) : Invariant :=
  (DeclaringInvariant.wellFormed allowed).toInvariant

/-- The invariant where all qubits may be used. -/
def StatementInvariant.wellFormed : StatementInvariant where
  toDeclaringInvariant := .wellFormed fun _ => True
  core_branch h := h
  core_floor _ h := h
  view_allocate _ hr := ⟨Registers.hasView_allocate hr, fun _ _ _ => True.intro⟩
  place_declared _ hq := ⟨hq, fun _ => True.intro⟩

namespace Analysis

section Nesting

variable {allowed allowed' : Nat → Prop}

/-- What is declared in a scope is gone when it is left. -/
theorem left_wellFormed {kind : ScopeKind} (calls : List String) {calls' : List String} {s t : State}
    (hs : (Invariant.wellFormed allowed).core s)
    (hframe : Frame { s with calls, scopes := s.scopes.enter kind } t)
    (ht : (Invariant.wellFormed allowed').core t) :
    (Invariant.wellFormed allowed).core { t with scopes := t.scopes.exit, calls := calls' } :=
  hs.exit hframe.scopes hframe.registers ht

theorem nests_wellFormed : Nests StatementInvariant.wellFormed.toInvariant
    StatementInvariant.wellFormed.toInvariant where
  excuses _ := id
  tallied := id
  flat _ _ h := h
  entered _ hs := hs.enter .block
  left s _ hs hframe ht := left_wellFormed s.calls hs hframe ht
  measured _ _ h := h

/-- In the body of a definition other qubits may be allowed than around it. -/
theorem expands_wellFormed (name : String) {kind : ScopeKind} (hkind : kind.isBody = true)
    (pre : State → Prop) :
    Expands (.wellFormed allowed) (.wellFormed allowed') name kind pre where
  excuses _ := id
  tallied := id
  flat _ _ h := h
  entered _ hs _ _ := hs.enterBody hkind
  left _ _ hs hframe ht := left_wellFormed _ hs hframe ht

theorem mayDefine_wellFormed (name : String) (kind : SymbolKind) {binding : Binding}
    (hqubits : ∀ v, binding ≠ .qubits v) (hclbits : ∀ v, binding ≠ .clbits v) :
    MayDefine StatementInvariant.wellFormed.toInvariant name kind binding :=
  Or.inr fun _ _ _ => backed_of_noView _ hqubits hclbits

variable {calls : Calls}
  (h : CallsAgree StatementInvariant.wellFormed.toInvariant (fun _ => 0) 0 calls calls)

include h

theorem block_wellFormed (body : List Statement) :
    Ensures StatementInvariant.wellFormed.toInvariant (fun _ => True) (block calls body)
      (block calls body) (SignalFits StatementInvariant.wellFormed.toInvariant) :=
  block_ensures h nests_wellFormed
    (fun _ => defineSubroutine_agree _ (mayDefine_wellFormed _ _ nofun nofun))
    (fun _ => defineGate_agree _ (mayDefine_wellFormed _ _ nofun nofun)
      (mayDefine_wellFormed _ _ nofun nofun)) body
    (Nat.le_of_eq (weigh_zero _))

theorem statement_wellFormed (st : Statement) :
    Agree StatementInvariant.wellFormed.toInvariant (statement calls st) (statement calls st) :=
  (statement_ensures h nests_wellFormed st (Nat.le_of_eq (weigh_zero _))
    (fun d _ => defineSubroutine_agree d (mayDefine_wellFormed _ _ nofun nofun))
    (fun d _ => defineGate_agree d (mayDefine_wellFormed _ _ nofun nofun)
      (mayDefine_wellFormed _ _ nofun nofun))
    fun body _ => block_wellFormed h body).agree

end Nesting

/-- The expansion of definitions keeps everything well-formed, whatever qubits are allowed around it. A
subroutine runs with all qubits allowed, a gate with its operands only. -/
theorem nested_wellFormed (n : Nat) : ∀ allowed : Nat → Prop,
    CallsAgree (.wellFormed allowed) (fun _ => 0) 0 (.nested n) (.nested n) := by
  -- The allowed qubits change when a body is entered, so the assumption is for all of them.
  induction n with
  | zero => exact fun _ => nested_zero_agree _
  | succ n ih =>
    refine fun allowed =>
      ⟨fun f d args _ _ => ?_, fun f d t _ _ _ => ?_, fun f d params qubits _ _ _ => ?_⟩
    · exact callSubroutine_ensures (ih allowed) (ih allowed) (Nat.le_of_eq (weigh_zero _))
        (Nat.le_of_eq (weigh_zero _)) (expands_wellFormed _ rfl _)
        (fun _ _ hx => ⟨hx.1, fun _ _ _ _ => trivial⟩) (fun _ _ hq => hq)
        (block_wellFormed (ih _) d.body)
    · exact resolveType_agree (ih allowed) t (Nat.le_of_eq (weigh_zero _))
    · have hview : ∀ s q v, (Invariant.wellFormed (· ∈ qubits)).core s → q ∈ qubits →
          s.registers.elementView? .quantum q = some v →
          (Invariant.wellFormed (· ∈ qubits)).view s.registers .quantum v := by
        intro s q v hs hq hv
        obtain ⟨hview, hphysical⟩ := Registers.elementView?_eq_some hs.tiled hv
        refine ⟨hview, fun _ p hp => ?_⟩
        rw [hphysical, List.mem_singleton] at hp
        exact hp ▸ hq
      -- In the body, the allowed qubits are the operands.
      refine inlineGate_ensures (D := .wellFormed (· ∈ qubits)) (expands_wellFormed _ rfl _) hview ?_
        (bodyOps_agree (ih _) d.body (Nat.le_of_eq (weigh_zero _)))
      intro r group i hgroup hi
      exact { hi with within := fun q hq => (hgroup q (hi.within hq)).2 rfl }

/-- At the start there are no registers and the builtin gates. -/
theorem wellFormed_initial : (Invariant.wellFormed fun _ => True).core .initial := by
  refine ⟨Registers.tiled_empty, ?_, fun _ _ _ _ _ _ _ => trivial⟩
  -- None of the gates has qubits bound to it.
  rintro key (hkey | ⟨shape, hshape, -⟩)
  · obtain ⟨x, hx, rfl⟩ := List.mem_map.1 hkey
    obtain ⟨g, -, rfl⟩ := List.mem_map.1 (List.mem_reverse.1 hx)
    exact (backed_of_noView (fun _ => True) (fun _ h => Binding.noConfusion h)
      fun _ h => Binding.noConfusion h).1
  · nomatch hshape

/-- A whole program keeps everything well-formed, and its notes and reports in tally with its output. -/
theorem program_keeps (n : Nat) (p : Program) (errors : List SyntaxError) (config : Config) :
    Keeps (Invariant.wellFormed fun _ => True) .initial (fun _ _ => True)
      (program (.nested n) p errors config .initial) :=
  (program_agree (p := p) errors (fun s _ => statement_wellFormed (nested_wellFormed n _) s) config .initial
    wellFormed_initial trivial).2

theorem program_wellFormed (n : Nat) (p : Program) (errors : List SyntaxError) (config : Config) :
    let t := (program (.nested n) p errors config .initial).2
    (Invariant.wellFormed fun _ => True).core t ∧
      ∀ f ∈ t.output, (Invariant.wellFormed fun _ => True).flat t.registers f := by
  have hkeeps := program_keeps n p errors config
  obtain ⟨added, hadded, hflat⟩ := hkeeps.putsOut
  refine ⟨hkeeps.core, ?_⟩
  rw [hadded]
  exact List.forall_mem_append.2 ⟨hflat, fun _ hf => nomatch hf⟩

end Analysis

end OpenQasm
