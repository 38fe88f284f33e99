import OpenQasm.Proofs.Rollback
import OpenQasm.Proofs.Transformations

/-!
No register of qubits is declared without a qubit, and no barrier is put out without one. Idle qubits can be
taken away without a trace only because of this: what is left of a program has nothing in it that is empty.
-/
namespace OpenQasm

open Analysis

/-- A barrier is on some qubits, and on nothing else. -/
def Instruction.Occupied (i : Instruction) : Prop := i.isBarrier = true → i.qubits ≠ [] ∧ i.clbits = []

/-- Gates are expanded to no barriers, and other barriers are on some qubits. -/
def Facts.occupied : Facts :=
  { Facts.trivial with
    op := fun _ i => i.isBarrier = false
    op_gate := fun _ h => by rw [(Instruction.ofGate_eq_ok h).1]; rfl
    op_control := fun {_ i} state n _ h => by
      unfold Instruction.addControls
      split
      · rfl
      · exact h
    op_inverse := fun {_ i j} h hj => by
      unfold Instruction.inverse? at hj
      split at hj
      · obtain ⟨g, -, rfl⟩ := Option.map_eq_some_iff.1 hj
        rfl
      · cases hj
        exact h
    op_scaled := fun _ _ _ => rfl
    op_replaced := fun _ h => h
    tallied_gate := nofun
    flat := fun _ f => ∀ i ∈ f.ops, i.Occupied
    flat_mono := fun _ h => h
    flat_assign := fun _ _ _ => nofun
    flat_pragma := fun _ _ => nofun
    flat_gate := fun _ h => List.forall_mem_singleton.2 fun hbarrier => nomatch h.symm.trans hbarrier
    flat_measure := fun _ _ => List.forall_mem_singleton.2 nofun
    flat_measureOnly := fun _ => List.forall_mem_singleton.2 nofun
    flat_reset := fun _ => List.forall_mem_singleton.2 nofun
    flat_barrier := fun hsome _ _ => List.forall_mem_singleton.2 fun _ => ⟨hsome, rfl⟩
    flat_branch := fun _ _ hthen helse => by
      have hbody (body : List FlatStatement) (h : ∀ f ∈ body, ∀ i ∈ f.ops, i.Occupied) :
          ∀ i ∈ FlatStatement.opsOf body, i.Occupied := fun i hi => by
        obtain ⟨f, hf, hi⟩ := FlatStatement.mem_opsOf.1 hi
        exact h f hf i hi
      exact List.forall_mem_append.2 ⟨hbody _ hthen, hbody _ helse⟩ }

/-- All registers of qubits have some. -/
def Registers.Occupied (r : Registers) : Prop := ∀ x ∈ r.list, x.kind = .quantum → 0 < x.size

theorem Registers.occupied_allocate {r r' : Registers} {name : String} {size id : Nat} {kind : RegisterKind}
    {v : View} (h : r.Occupied) (hsize : kind = .quantum → 0 < size)
    (hr : r.allocate name size kind = .ok (id, v, r')) : r'.Occupied := by
  obtain ⟨-, -, ⟨free, hlist⟩, -⟩ := allocate_eq_ok hr
  intro x hx hkind
  rw [hlist] at hx
  rcases List.mem_append.1 hx with hx | hx
  · exact h x hx hkind
  · obtain rfl := List.mem_singleton.1 hx
    exact hsize hkind

/-- The invariant where all registers of qubits and all barriers have some. -/
def StatementInvariant.occupied : StatementInvariant where
  toFacts := .occupied
  excuses _ := False
  core s := s.registers.Occupied
  subroutine _ _ := True
  gate _ _ := True
  symbol _ _ := True
  writable _ _ := True
  writable_mono _ _ := ⟨⟩
  core_congr h _ hregisters _ _ := hregisters ▸ h
  core_reserve _ h := h
  core_allocate h hsize hr := Registers.occupied_allocate h hsize hr
  core_mark q usage h x hx := by
    dsimp only at hx
    rw [(Registers.list_mark _ q usage).1] at hx
    exact h x hx
  tallied_measured h := False.elim h
  target_reserve _ _ := ⟨⟩
  target_allocate _ _ := ⟨⟩
  target_writable _ _ _ _ := ⟨⟩
  core_name h _ _ _ _ _ := h
  symbol_mono _ _ := ⟨⟩
  symbol_none _ _ := ⟨⟩
  symbol_param _ _ := ⟨⟩
  symbol_qubits _ _ _ _ := ⟨⟩
  symbol_clbits _ _ _ _ _ := ⟨⟩
  symbol_copy _ _ _ _ _ _ _ := ⟨⟩
  resolves_subroutine _ _ _ := ⟨⟩
  resolves_gate _ _ _ := ⟨⟩
  resolves_qubits _ _ _ := ⟨⟩
  resolves_clbits _ _ _ := ⟨⟩
  view_element _ _ _ _ := ⟨⟩
  written _ _ := True
  writable_of_resolve _ _ _ _ := ⟨⟩
  core_value _ h _ _ _ := ⟨h, ⟨⟩⟩
  core_forget _ h := ⟨h, ⟨⟩⟩
  core_declare h _ _ _ := h
  core_branch h := h
  core_floor _ h := h
  view_allocate _ _ := ⟨⟩
  place_declared _ _ := ⟨⟩

namespace Analysis

theorem pervasive_occupied : StatementInvariant.occupied.Pervasive where
  entered _ _ h := h
  left _ _ _ ht := ht
  measured _ _ := ⟨⟩
  view _ _ _ _ _ := ⟨⟩
  op _ _ _ h := h
  defined _ _ _ _ := ⟨⟩

end Analysis

/-- All registers and all barriers of a flat program have qubits. -/
structure FlatProgram.Occupied (p : FlatProgram) : Prop where
  registers : ∀ x ∈ p.qubitRegisters, 0 < x.size
  barriers : ∀ i ∈ p.operations, i.Occupied

/-- An analysis makes no empty registers of qubits and no empty barriers. -/
theorem Analysis.ofSource_occupied (config : Config) (source : String) :
    (ofSource config source).Occupied := by
  have hkeeps : Keeps StatementInvariant.occupied.toInvariant .initial (fun _ _ => True) _ :=
    (program_agree (p := (Program.parse source).1) (Program.parse source).2
      (fun s _ => pervasive_occupied.statement (nestingBound (Program.parse source).1) s) config .initial nofun
        trivial).2
  refine ⟨fun x hx => ?_, fun i hi => ?_⟩
  · obtain ⟨hx, hkind⟩ := Registers.mem_ofKind.1 hx
    exact hkeeps.core x hx hkind
  · obtain ⟨added, hadded, hflat⟩ := hkeeps.putsOut
    rw [FlatProgram.operations_eq] at hi
    obtain ⟨f, hf, hi⟩ := FlatStatement.mem_opsOf.1 hi
    have hf : f ∈ added ++ State.initial.output := hadded ▸ List.mem_reverse.1 hf
    rw [State.initial, List.append_nil] at hf
    exact hflat f hf i hi

end OpenQasm
