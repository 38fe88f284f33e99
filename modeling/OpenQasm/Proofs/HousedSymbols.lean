import OpenQasm.Proofs.Occurrences
import OpenQasm.Proofs.WellFormed

/-!
What symbols stand for is there, in every state that occurs: the registers of a kind are laid out without a gap,
what is a name for qubits or bits names elements of them, and no name for qubits is seen from a body.
-/
namespace OpenQasm

open Analysis

/-- What is named is among the registers; nothing is said of the output. -/
def Facts.housed : Facts :=
  { Facts.trivial with
    place := StatementInvariant.wellFormed.place
    place_mono := StatementInvariant.wellFormed.place_mono
    view := StatementInvariant.wellFormed.view
    view_mono := StatementInvariant.wellFormed.view_mono
    view_place := StatementInvariant.wellFormed.view_place
    view_pick := StatementInvariant.wellFormed.view_pick
    view_concat := StatementInvariant.wellFormed.view_concat
    measured_place := fun _ => ⟨⟩
    flat_gate := fun _ _ => ⟨⟩
    flat_measure := fun _ _ => ⟨⟩
    flat_reset := fun _ => ⟨⟩
    flat_barrier := fun _ _ _ => ⟨⟩
    flat_branch := fun _ _ _ _ => ⟨⟩ }

/-- The invariant where what symbols stand for is there. -/
def StatementInvariant.housed : StatementInvariant where
  toFacts := .housed
  excuses _ := False
  core := StatementInvariant.wellFormed.core
  subroutine _ _ := True
  gate _ _ := True
  symbol := StatementInvariant.wellFormed.symbol
  writable _ _ := True
  writable_mono _ _ := ⟨⟩
  core_congr := StatementInvariant.wellFormed.core_congr
  core_reserve := StatementInvariant.wellFormed.core_reserve
  core_allocate := StatementInvariant.wellFormed.core_allocate
  core_mark := StatementInvariant.wellFormed.core_mark
  tallied_measured h := False.elim h
  target_reserve _ _ := ⟨⟩
  target_allocate _ _ := ⟨⟩
  target_writable _ _ _ _ := ⟨⟩
  core_name := StatementInvariant.wellFormed.core_name
  symbol_mono := StatementInvariant.wellFormed.symbol_mono
  symbol_none := StatementInvariant.wellFormed.symbol_none
  symbol_param := StatementInvariant.wellFormed.symbol_param
  symbol_qubits := StatementInvariant.wellFormed.symbol_qubits
  symbol_clbits := StatementInvariant.wellFormed.symbol_clbits
  symbol_copy := StatementInvariant.wellFormed.symbol_copy
  resolves_subroutine _ _ _ := ⟨⟩
  resolves_gate _ _ _ := ⟨⟩
  resolves_qubits := StatementInvariant.wellFormed.resolves_qubits
  resolves_clbits := StatementInvariant.wellFormed.resolves_clbits
  view_element := StatementInvariant.wellFormed.view_element
  written _ _ := True
  writable_of_resolve _ _ _ _ := ⟨⟩
  core_value := StatementInvariant.wellFormed.core_value
  core_forget := StatementInvariant.wellFormed.core_forget
  core_declare := StatementInvariant.wellFormed.core_declare
  core_branch h := h
  core_floor _ h := h
  view_allocate := StatementInvariant.wellFormed.view_allocate
  place_declared := StatementInvariant.wellFormed.place_declared

theorem Scopes.declares_exit {s : Scopes} {key : String × SymbolKind × Binding} (h : s.exit.Declares key) :
    s.Declares key := by
  refine h.imp_right ?_
  rintro ⟨shape, hshape, hkey⟩
  refine ⟨shape, ?_, hkey⟩
  rw [Scopes.exit, List.map_tail] at hshape
  exact List.mem_of_mem_tail hshape

namespace Analysis

theorem pervasive_housed : StatementInvariant.housed.Pervasive where
  entered kind _ h := WellNamed.enter h kind
  left _ _ _ ht :=
    ⟨ht.tiled, fun key hkey => ht.backed key (Scopes.declares_exit hkey), fun _ _ _ _ _ _ _ => trivial⟩
  measured _ _ := ⟨⟩
  view _ _ _ h hv := ⟨(Registers.elementView?_eq_some h.tiled hv).1, fun _ _ _ => trivial⟩
  op _ _ _ _ := ⟨⟩
  defined _ _ hqubits hbits := backed_of_noView _ hqubits hbits

/-- Registers and symbols are as the invariant says. -/
def Housed (s : State) : Prop := WellNamed (fun _ => True) s.registers s.scopes

theorem Occurs.housed {config : Config} {s : State} (h : Occurs config s) : Housed s :=
  h.core pervasive_housed wellFormed_initial

end Analysis
end OpenQasm
