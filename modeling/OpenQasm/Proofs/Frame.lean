import Mathlib.Data.List.Forall2
import OpenQasm.Analysis
import OpenQasm.Proofs.Scopes

/-!
What a step of the analysis may change. Registers are added and never taken away, output and reports are
appended, and what describes the place of the step is restored when it ends.
-/
namespace OpenQasm

/-- A name that is not free any more. -/
def Registers.Taken (r : Registers) (name : String) : Prop := r.names.contains name = true

/-- The registers are kept and more may follow. -/
structure Registers.Extends (r r' : Registers) : Prop where
  list : r.list <+: r'.list
  qubits : r.qubits ≤ r'.qubits
  clbits : r.clbits ≤ r'.clbits
  taken : ∀ {name}, r.Taken name → r'.Taken name

namespace Registers

theorem Extends.refl (r : Registers) : Extends r r :=
  ⟨List.prefix_rfl, Nat.le_refl _, Nat.le_refl _, id⟩

theorem Extends.trans {r r' r'' : Registers} (h : Extends r r') (h' : Extends r' r'') :
    Extends r r'' :=
  ⟨h.list.trans h'.list, Nat.le_trans h.qubits h'.qubits, Nat.le_trans h.clbits h'.clbits,
    h'.taken ∘ h.taken⟩

theorem taken_reserve_iff {r : Registers} {name m : String} :
    (r.reserve name).2.Taken m ↔ m = freeName r.names name ∨ r.Taken m := by
  unfold Taken reserve
  rw [Std.TreeSet.contains_insert, Bool.or_eq_true, beq_iff_eq, Std.LawfulEqCmp.compare_eq_iff_eq, eq_comm]

theorem taken_reserve (r : Registers) (name : String) {m : String} (h : r.Taken m) :
    (r.reserve name).2.Taken m := taken_reserve_iff.2 (Or.inr h)

theorem extends_reserve (r : Registers) (name : String) : Extends r (r.reserve name).2 :=
  ⟨List.prefix_rfl, Nat.le_refl _, Nat.le_refl _, r.taken_reserve name⟩

theorem extends_allocate {r r' : Registers} {name : String} {size id : Nat} {kind : RegisterKind}
    {v : View} (h : r.allocate name size kind = .ok (id, v, r')) : Extends r r' := by
  unfold allocate at h
  dsimp only at h
  split at h
  · cases kind with
    | quantum =>
      cases h
      exact ⟨List.prefix_append _ _, Nat.le_add_right _ _, Nat.le_refl _, r.taken_reserve name⟩
    | classical =>
      cases h
      exact ⟨List.prefix_append _ _, Nat.le_refl _, Nat.le_add_right _ _, r.taken_reserve name⟩
  · nomatch h

theorem measured_allocate {r r' : Registers} {name : String} {size id : Nat} {kind : RegisterKind}
    {v : View} (h : r.allocate name size kind = .ok (id, v, r')) : r'.measured = r.measured := by
  unfold allocate at h
  dsimp only at h
  split at h
  · cases kind <;> cases h <;> rfl
  · nomatch h

theorem list_mark (r : Registers) (q : Nat) (usage : Usage) :
    (r.mark q usage).2.list = r.list ∧ (r.mark q usage).2.names = r.names := by
  unfold mark
  split
  · exact ⟨rfl, rfl⟩
  · split <;> exact ⟨rfl, rfl⟩

theorem extends_mark (r : Registers) (q : Nat) (usage : Usage) : Extends r (r.mark q usage).2 := by
  unfold mark
  split
  · exact Extends.refl r
  · split <;> exact ⟨List.prefix_rfl, Nat.le_refl _, Nat.le_refl _, id⟩

end Registers

/-- A symbol as it was declared, apart from what is known about it since. -/
def Symbol.declared (x : Symbol) : Symbol := { x with value := none, emitName := none }

theorem Symbol.declared_value (value : Option Value) (x : Symbol) :
    ({ x with value := value } : Symbol).declared = x.declared := rfl

theorem Symbol.declared_emitName (emitName : Option String) (x : Symbol) :
    ({ x with emitName := emitName } : Symbol).declared = x.declared := rfl

/-- What is declared in a scope is declared in another one of the kind. -/
structure Scope.Within (a b : Scope) : Prop where
  kind : a.kind = b.kind
  symbols : a.symbols.map Symbol.declared ⊆ b.symbols.map Symbol.declared

/-- What is declared in the open scopes is still declared there. -/
def Scopes.Persist (s t : Scopes) : Prop := List.Forall₂ Scope.Within s.inner t.inner

namespace Scopes

variable {s t u : Scopes} {f : Symbol → Symbol}

theorem persistIn_refl (inner : List Scope) : List.Forall₂ Scope.Within inner inner :=
  List.forall₂_same.2 fun _ _ => ⟨rfl, List.Subset.refl _⟩

theorem Persist.refl (s : Scopes) : Persist s s := persistIn_refl s.inner

theorem persistIn_trans {inner inner' inner'' : List Scope} (h : List.Forall₂ Scope.Within inner inner')
    (h' : List.Forall₂ Scope.Within inner' inner'') : List.Forall₂ Scope.Within inner inner'' := by
  induction h generalizing inner'' with
  | nil => exact h'
  | cons hab _ ih =>
    cases h' with
    | cons hbc houter =>
      exact .cons ⟨hab.kind.trans hbc.kind, List.Subset.trans hab.symbols hbc.symbols⟩ (ih houter)

theorem Persist.trans (h : Persist s t) (h' : Persist t u) : Persist s u := persistIn_trans h h'

theorem Persist.exit {kind : ScopeKind} (h : Persist (s.enter kind) t) : Persist s t.exit := by
  obtain ⟨global, inner⟩ := t
  cases h with
  | cons _ houter => exact houter

theorem persist_push (s : Scopes) (x : Symbol) : Persist s (s.push x) := by
  obtain ⟨global, inner⟩ := s
  cases inner with
  | nil => exact .nil
  | cons a outer =>
    exact .cons ⟨rfl, List.subset_cons_self _ _⟩ (persistIn_refl outer)

theorem persist_modify (hf : ∀ x, (f x).declared = x.declared) (s : Scopes) (name : String) :
    Persist s (s.modify name f) := by
  have hinner (inner : List Scope) : List.Forall₂ Scope.Within inner (modifyInner name f inner).1 := by
    induction inner with
    | nil => exact .nil
    | cons a outer ih =>
      unfold modifyInner
      split
      · refine .cons ⟨rfl, ?_⟩ (persistIn_refl outer)
        rw [Symbol.map_modifyIn hf]
        exact List.Subset.refl _
      · split
        · exact persistIn_refl _
        · exact .cons ⟨rfl, List.Subset.refl _⟩ ih
  unfold modify
  dsimp only
  split
  · exact hinner s.inner
  · split <;> exact Persist.refl s

end Scopes

namespace Analysis

/-- How a step may change the state. -/
structure Frame (s t : State) : Prop where
  scopes : s.scopes.Grows t.scopes
  symbols : s.scopes.Persist t.scopes
  registers : s.registers.Extends t.registers
  output : s.output <:+ t.output
  calls : t.calls = s.calls
  loopScope : t.loopScope = s.loopScope
  callScope : t.callScope = s.callScope
  runtimeFloor : t.runtimeFloor = s.runtimeFloor
  span : t.span = s.span
  diagnostics : s.diagnostics <:+ t.diagnostics
  halted : s.halted = true → t.halted = true

namespace Frame

variable {s t u : State}

theorem refl (s : State) : Frame s s :=
  ⟨Scopes.Grows.refl _, Scopes.Persist.refl _, Registers.Extends.refl _, List.suffix_rfl, rfl, rfl, rfl,
    rfl, rfl, List.suffix_rfl, id⟩

theorem trans (h : Frame s t) (h' : Frame t u) : Frame s u where
  scopes := h.scopes.trans h'.scopes
  symbols := h.symbols.trans h'.symbols
  registers := h.registers.trans h'.registers
  output := h.output.trans h'.output
  calls := h'.calls.trans h.calls
  loopScope := h'.loopScope.trans h.loopScope
  callScope := h'.callScope.trans h.callScope
  runtimeFloor := h'.runtimeFloor.trans h.runtimeFloor
  span := h'.span.trans h.span
  diagnostics := h.diagnostics.trans h'.diagnostics
  halted := h'.halted ∘ h.halted

theorem declared {x : Symbol} {scopes : Scopes} (h : s.scopes.declare x = .ok scopes) :
    Frame s { s with scopes } :=
  { refl s with
    scopes := Scopes.grows_declare h
    symbols := Scopes.eq_push_of_declare h ▸ Scopes.persist_push s.scopes x }

/-- What is known about a symbol may change. -/
theorem modified {f : Symbol → Symbol} (hf : ∀ x, (f x).declared = x.declared) (name : String) :
    Frame s { s with scopes := s.scopes.modify name f } :=
  have hkey : KeepsKey f := fun x =>
    (congrArg Symbol.key (hf x) : (f x).declared.key = x.declared.key)
  { refl s with
    scopes := (Scopes.same_modify hkey s.scopes name).grows
    symbols := Scopes.persist_modify hf s.scopes name }

theorem ofRegisters {registers : Registers} (h : s.registers.Extends registers) :
    Frame s { s with registers } :=
  { refl s with registers := h }

theorem emitted (s : State) (f : FlatStatement) : Frame s { s with output := f :: s.output } :=
  { refl s with output := List.suffix_cons _ _ }

/-- The output may be taken back. -/
theorem takenBack (h : Frame s t) : Frame s { t with output := s.output } :=
  { h with output := List.suffix_rfl }

/-- A step with an output of its own. -/
theorem collected {output : List FlatStatement} (h : Frame { s with output } t) :
    Frame s { t with output := s.output } :=
  { h with output := List.suffix_rfl }

/-- A step at another place of the source. -/
theorem atSpan {span : Span} (h : Frame { s with span } t) : Frame s { t with span := s.span } :=
  { h with span := rfl }

theorem keepingSpan (h : Frame s t) : Frame s { t with span := s.span } := { h with span := rfl }

/-- A step in a loop. -/
theorem inLoop {loopScope : Option Nat} (h : Frame { s with loopScope } t) :
    Frame s { t with loopScope := s.loopScope } :=
  { h with loopScope := rfl }

/-- A step in a scope of its own. -/
theorem inScope {kind : ScopeKind} (h : Frame { s with scopes := s.scopes.enter kind } t) :
    Frame s { t with scopes := t.scopes.exit } :=
  { h with scopes := h.scopes.exit.grows, symbols := h.symbols.exit }

/-- A step in the body of a definition. -/
theorem expanded {calls : List String} {kind : ScopeKind}
    (h : Frame { s with calls, scopes := s.scopes.enter kind } t) :
    Frame s { t with scopes := t.scopes.exit, calls := s.calls } :=
  { h with scopes := h.scopes.exit.grows, symbols := h.symbols.exit, calls := rfl }

end Frame

end Analysis
end OpenQasm
