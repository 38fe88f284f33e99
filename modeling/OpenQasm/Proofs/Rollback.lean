import OpenQasm.Proofs.Statements
import OpenQasm.Proofs.Subroutines

/-!
What a statement leaves behind. Nothing needs to be known of the state before it: scopes, loops, calls and
the place in the source are as before on every way out, the output is only added to, and a statement that
fails adds nothing.
-/
namespace OpenQasm

open Analysis

/-- The invariant of all states. -/
def StatementInvariant.trivial : StatementInvariant where
  toFacts := .trivial
  excuses _ := False
  core _ := True
  subroutine _ _ := True
  gate _ _ := True
  symbol _ _ := True
  writable _ _ := True
  writable_mono _ _ := ⟨⟩
  core_congr _ _ _ _ _ := ⟨⟩
  core_reserve _ _ := ⟨⟩
  core_allocate _ _ _ := ⟨⟩
  core_mark _ _ _ := ⟨⟩
  tallied_measured h := False.elim h
  target_reserve _ _ := ⟨⟩
  target_allocate _ _ := ⟨⟩
  target_writable _ _ _ _ := ⟨⟩
  core_name _ _ _ _ _ _ := ⟨⟩
  symbol_mono _ _ := ⟨⟩
  symbol_none _ _ := ⟨⟩
  symbol_param _ _ := ⟨⟩
  symbol_qubits _ _ _ _ := ⟨⟩
  symbol_clbits _ _ _ _ _ := ⟨⟩
  symbol_copy _ _ _ _ _ _ _ := ⟨⟩
  resolves_subroutine _ _ _ := ⟨⟩
  resolves_gate _ _ _ := ⟨⟩
  resolves_qubits _ _ _ := ⟨⟩
  resolves_clbits _ _ _ := ⟨⟩
  view_element _ _ _ _ := ⟨⟩
  written _ _ := True
  writable_of_resolve _ _ _ _ := ⟨⟩
  core_value _ _ _ _ _ := ⟨⟨⟩, ⟨⟩⟩
  core_forget _ _ := ⟨⟨⟩, ⟨⟩⟩
  core_declare _ _ _ _ := ⟨⟩
  core_branch _ := ⟨⟩
  core_floor _ _ := ⟨⟩
  view_allocate _ _ := ⟨⟩
  place_declared _ _ := ⟨⟩

namespace Analysis

/-- Calls that are nested one level deeper, for invariants that know nothing of qubits and symbols. -/
theorem nested_succ_agree {I : Invariant} {D : StatementInvariant} {n : Nat}
    (hargs : CallsAgree I (fun _ => 0) 0 (.nested n) (.nested n))
    (hbody : CallsAgree D.toInvariant (fun _ => 0) 0 (.nested n) (.nested n))
    (hblock : ∀ body, Ensures D.toInvariant (fun _ => True) (block (.nested n) body)
      (block (.nested n) body) (SignalFits D.toInvariant))
    (hexpands : ∀ name kind pre, kind.isBody = true → Expands I D.toInvariant name kind pre)
    (hsymbol : ∀ r x, I.symbol r x → D.symbol r x) (hmeasured : ∀ r q, I.measured r q)
    (hview : ∀ s q v, D.core s → s.registers.elementView? .quantum q = some v → D.view s.registers .quantum v)
    (hop : ∀ qubits group i, D.op group i → I.op qubits i) :
    CallsAgree I (fun _ => 0) 0 (.nested (n + 1)) (.nested (n + 1)) where
  subroutine _ d _ _ _ :=
    callSubroutine_ensures hargs hargs (Nat.le_of_eq (weigh_zero _)) (Nat.le_of_eq (weigh_zero _))
      (hexpands _ _ _ rfl) hsymbol (fun r q _ => hmeasured r q) (hblock d.body)
  resultType _ _ t _ _ _ := resolveType_agree hargs t (Nat.le_of_eq (weigh_zero _))
  gate _ d _ qubits _ _ _ :=
    inlineGate_ensures (hexpands _ _ _ rfl) (fun s q v hs _ => hview s q v hs)
      (fun _ group i _ => hop qubits group i) (bodyOps_agree hbody d.body (Nat.le_of_eq (weigh_zero _)))

end Analysis

/-- An invariant that asks for nothing of the place of a step: it holds in all scopes and in the body of every
definition, and every definition may be made. -/
structure StatementInvariant.Pervasive (I : StatementInvariant) : Prop where
  entered : ∀ {s : State} (kind : ScopeKind) (calls : List String), I.core s →
    I.core { s with calls, scopes := s.scopes.enter kind }
  left : ∀ {s t : State} {kind : ScopeKind} (calls : List String), I.core s →
    (s.scopes.enter kind).Grows t.scopes → I.core t → I.core { t with calls, scopes := t.scopes.exit }
  measured : ∀ r q, I.measured r q
  view : ∀ s q v, I.core s → s.registers.elementView? .quantum q = some v → I.view s.registers .quantum v
  op : ∀ qubits group i, I.op group i → I.op qubits i
  defined : ∀ {name kind x binding} r, Fresh name kind x → (∀ v, binding ≠ .qubits v) →
    (∀ v, binding ≠ .clbits v) → I.symbol r { x with binding }

namespace StatementInvariant.Pervasive

variable {I : StatementInvariant} {calls : Calls}

theorem nests (h : I.Pervasive) : Nests I.toInvariant I.toInvariant where
  excuses _ := id
  tallied := id
  flat _ _ h := h
  entered s hs := h.entered .block s.calls hs
  left _ t hs hframe ht := h.left t.calls hs hframe.scopes ht
  measured _ _ h := h

theorem expands (h : I.Pervasive) (name : String) (kind : ScopeKind) (pre : State → Prop) :
    Expands I.toInvariant I.toInvariant name kind pre where
  excuses _ := id
  tallied := id
  flat _ _ h := h
  entered s hs _ _ := h.entered kind (name :: s.calls) hs
  left s _ hs hframe ht := h.left s.calls hs hframe.scopes ht

theorem defines_subroutine (h : I.Pervasive) (d : SubroutineDefinition) :
    Agree I.toInvariant (defineSubroutine d) (defineSubroutine d) :=
  defineSubroutine_agree d (Or.inr fun r _ hx => h.defined r hx nofun nofun)

theorem defines_gate (h : I.Pervasive) (d : GateDefinition) :
    Agree I.toInvariant (defineGate d) (defineGate d) :=
  defineGate_agree d (Or.inr fun r _ hx => h.defined r hx nofun nofun)
    (Or.inr fun r _ hx => h.defined r hx nofun nofun)

theorem block (h : I.Pervasive) (hcalls : CallsAgree I.toInvariant (fun _ => 0) 0 calls calls)
    (body : List Statement) :
    Ensures I.toInvariant (fun _ => True) (block calls body) (block calls body) (SignalFits I.toInvariant) :=
  block_ensures hcalls h.nests h.defines_subroutine h.defines_gate body (Nat.le_of_eq (weigh_zero _))

theorem inScope (h : I.Pervasive) {x : Analysis Signal}
    (hx : Ensures I.toInvariant (fun _ => True) x x (SignalFits I.toInvariant)) :
    Ensures I.toInvariant (fun _ => True) (inScope .block x) (inScope .block x) (SignalFits I.toInvariant) :=
  block_inScope_ensures h.nests hx

/-- The expansion of definitions keeps the invariant, however deep it goes. -/
theorem nested (h : I.Pervasive) (n : Nat) :
    CallsAgree I.toInvariant (fun _ => 0) 0 (.nested n) (.nested n) := by
  induction n with
  | zero => exact nested_zero_agree _
  | succ n ih =>
    exact nested_succ_agree ih ih (h.block ih) (fun name kind pre _ => h.expands name kind pre)
      (fun _ _ hx => hx) h.measured h.view h.op

theorem perform (h : I.Pervasive) (n : Nat) (kind : StatementKind) :
    Agree I.toInvariant (perform (.nested n) kind) (perform (.nested n) kind) :=
  (perform_ensures (h.nested n) h.nests kind (Nat.le_of_eq (weigh_zero _)) (fun d _ => h.defines_subroutine d)
    (fun d _ => h.defines_gate d) fun body _ => h.block (h.nested n) body).agree

theorem statement (h : I.Pervasive) (n : Nat) (st : Statement) :
    Agree I.toInvariant (statement (.nested n) st) (statement (.nested n) st) :=
  (statement_ensures (h.nested n) h.nests st (Nat.le_of_eq (weigh_zero _)) (fun d _ => h.defines_subroutine d)
    (fun d _ => h.defines_gate d) fun body _ => h.block (h.nested n) body).agree

end StatementInvariant.Pervasive

namespace Analysis

theorem pervasive_trivial : StatementInvariant.trivial.Pervasive where
  entered _ _ _ := ⟨⟩
  left _ _ _ _ := ⟨⟩
  measured _ _ := ⟨⟩
  view _ _ _ _ _ := ⟨⟩
  op _ _ _ _ := ⟨⟩
  defined _ _ _ _ := ⟨⟩

/-- Whatever a statement does, the state changes within the frame. -/
theorem statement_frame (n : Nat) (st : Statement) (config : Config) (s : State) :
    Frame s (statement (.nested n) st config s).2 :=
  (pervasive_trivial.statement n st config s trivial trivial).2.frame

/-- The recovery from a failure adds nothing to the output. -/
theorem recover_output (failure : Failure) (config : Config) (s : State) :
    (recover failure config s).2.output = s.output := by
  cases failure with
  | statement d => rfl
  | construct d => rfl
  | leaving => rfl
  | reported =>
    have hrun : recover .reported config s =
        (if s.halted then throw .leaving else pure .normal : Analysis Signal) config s := rfl
    rw [hrun]
    split <;> rfl

end Analysis
end OpenQasm
