import OpenQasm.Analysis.Gates
import OpenQasm.Flat.Program

/-!
Well-formed operations: their qubits are all different, and a gate has the operands and parameters that it
takes. Controls and inversion keep this, given that the controls are no operands already.
-/
namespace OpenQasm

namespace Gate

theorem inverseOf_qubits {b c : Builtin} {params params' : List Parameter}
    (h : inverseOf b params = some (c, params')) : c.qubits = b.qubits := by
  unfold inverseOf at h
  split at h
  · cases h
    rfl
  · next hrule =>
    cases h
    cases b <;> cases hrule <;> rfl
  · cases h
    rfl
  · cases h
    rfl
  · next hrule =>
    cases h
    cases b <;> cases hrule
    rfl
  · cases h
    rfl
  · nomatch h

/-- The inverse of a gate takes the same operands, and the parameters that it should. -/
theorem inverse?_shape {g g' : Gate} (h : g.inverse? = some g') :
    g'.kind.qubits = g.kind.qubits ∧ g'.controls = g.controls ∧
      g'.params.length = g'.kind.params := by
  unfold inverse? at h
  split at h
  · next b hb =>
    obtain ⟨⟨c, params⟩, hinverse, h⟩ := Option.bind_eq_some_iff.1 h
    dsimp only at h
    split at h
    · next hlength =>
      cases h
      rw [hb]
      exact ⟨inverseOf_qubits hinverse, rfl, hlength⟩
    · nomatch h
  · nomatch h

theorem scaledRotation?_shape {g g' : Gate} {x : Float} (h : g.scaledRotation? x = some g') :
    g'.kind = g.kind ∧ g'.controls = g.controls ∧ g'.params.length = g.params.length := by
  unfold scaledRotation? at h
  split at h
  · split at h
    · cases h
      exact ⟨rfl, rfl, List.length_map _⟩
    · nomatch h
  · nomatch h

end Gate

/-- The qubits of a barrier are different. -/
theorem nodup_eraseDups (qs : List Nat) : qs.eraseDups.Nodup := by
  match qs with
  | [] => exact List.nodup_nil
  | q :: qs =>
    have hshorter : (qs.filter fun p => !p == q).length ≤ qs.length := List.length_filter_le _ _
    have hrest := nodup_eraseDups (qs.filter fun p => !p == q)
    rw [List.eraseDups_cons, List.nodup_cons]
    refine ⟨fun hq => ?_, hrest⟩
    have hne := (List.mem_filter.1 (List.mem_eraseDups.1 hq)).2
    simp only [beq_self_eq_true, Bool.not_true, Bool.false_eq_true] at hne
termination_by qs.length

namespace Instruction

theorem firstRepeated_eq_none {seen qs : List Nat} :
    firstRepeated seen qs = none ↔ qs.Nodup ∧ ∀ q ∈ qs, q ∉ seen := by
  -- The qubits seen so far grow from step to step.
  induction qs generalizing seen with
  | nil => exact ⟨fun _ => ⟨List.nodup_nil, fun _ h => nomatch h⟩, fun _ => rfl⟩
  | cons q qs ih =>
    unfold firstRepeated
    split
    · next hq =>
      refine ⟨fun h => (nomatch h), fun h => ?_⟩
      exact absurd (List.contains_iff_mem.1 hq) (h.2 q List.mem_cons_self)
    · next hq =>
      rw [List.contains_iff_mem] at hq
      rw [ih, List.nodup_cons]
      constructor
      · rintro ⟨hnodup, hfresh⟩
        refine ⟨⟨fun hmem => hfresh q hmem List.mem_cons_self, hnodup⟩, ?_⟩
        exact List.forall_mem_cons.2 ⟨hq, fun p hp hseen => hfresh p hp (List.mem_cons_of_mem _ hseen)⟩
      · rintro ⟨⟨hq', hnodup⟩, hfresh⟩
        refine ⟨hnodup, fun p hp hseen => ?_⟩
        rcases List.mem_cons.1 hseen with rfl | hseen
        · exact hq' hp
        · exact hfresh p (List.mem_cons_of_mem _ hp) hseen

theorem checkDistinct_eq_ok {i : Instruction} : i.checkDistinct = .ok () ↔ i.qubits.Nodup := by
  unfold checkDistinct
  split
  · next q hq =>
    refine ⟨fun h => (nomatch h), fun h => ?_⟩
    rw [firstRepeated_eq_none.2 ⟨h, fun _ _ => List.not_mem_nil⟩] at hq
    nomatch hq
  · next hnone => exact ⟨fun _ => (firstRepeated_eq_none.1 hnone).1, fun _ => rfl⟩

theorem ofGate_eq_ok {g : Gate} {qubits : List Nat} {i : Instruction} (h : ofGate g qubits = .ok i) :
    i = ⟨.gate g, qubits, []⟩ ∧ qubits.length = g.qubits ∧ qubits.Nodup := by
  unfold ofGate at h
  split at h
  · nomatch h
  · next hlength =>
    dsimp only at h
    rcases hdistinct : checkDistinct ⟨.gate g, qubits, []⟩ with e | u
    · rw [hdistinct] at h
      nomatch h
    · rw [hdistinct] at h
      cases h
      exact ⟨rfl, Decidable.not_not.1 hlength, checkDistinct_eq_ok.1 hdistinct⟩

/-- What does not depend on the program around: the operands are all different, and there are as many
operands and parameters as a gate takes. -/
structure Shaped (i : Instruction) : Prop where
  distinct : i.qubits.Nodup
  operands : ∀ g, i.kind = .gate g → i.qubits.length = g.kind.qubits + g.controls.length
  params : ∀ g, i.kind = .gate g → g.params.length = g.kind.params

/-- The operation comes from a gate on qubits. -/
structure ShapedOn (qubits : List Nat) (i : Instruction) : Prop extends Shaped i where
  within : i.qubits ⊆ qubits
  clbits : i.clbits = []
  gate : ∃ g, i.kind = .gate g

section Shaped

variable {qubits : List Nat} {i j : Instruction}

theorem shapedOn_ofGate {g : Gate} (hparams : g.params.length = g.kind.params)
    (h : ofGate g qubits = .ok i) : ShapedOn qubits i := by
  obtain ⟨rfl, hlength, hnodup⟩ := ofGate_eq_ok h
  refine ⟨⟨hnodup, ?_, ?_⟩, List.Subset.refl _, rfl, _, rfl⟩
  · rintro _ ⟨⟩
    exact hlength
  · rintro _ ⟨⟩
    exact hparams

/-- The controls of an operation are no operands of it, since they stand before them in one list. -/
theorem ShapedOn.addControls (state : Control) (n : Nat) (hnodup : qubits.Nodup)
    (h : ShapedOn (qubits.drop n) i) : ShapedOn qubits (i.addControls state (qubits.take n)) := by
  have hdrop : qubits.drop n ⊆ qubits := List.drop_subset n qubits
  have htake : qubits.take n ⊆ qubits := List.take_subset n qubits
  unfold Instruction.addControls
  split
  · next g hg =>
    have hdisjoint : ∀ p ∈ qubits.take n, ∀ q ∈ i.qubits, p ≠ q := by
      have hsplit := hnodup
      rw [← List.take_append_drop n qubits, List.nodup_append] at hsplit
      exact fun p hp q hq => hsplit.2.2 p hp q (h.within hq)
    -- Distinct qubits, the operands that the gate takes, its parameters, and no other qubits.
    refine ⟨⟨?_, ?_, ?_⟩, ?_, h.clbits, _, rfl⟩
    · exact List.nodup_append.2 ⟨hnodup.sublist (List.take_sublist n qubits), h.distinct, hdisjoint⟩
    · rintro _ ⟨⟩
      have hoperands := h.operands g hg
      simp only [List.length_append, List.length_map]
      omega
    · rintro _ ⟨⟩
      exact h.params g hg
    · exact List.append_subset.2 ⟨htake, fun q hq => hdrop (h.within hq)⟩
  · exact { h with within := fun q hq => hdrop (h.within hq) }

theorem shapedOn_inverse (h : ShapedOn qubits i) (hj : i.inverse? = some j) :
    ShapedOn qubits j := by
  unfold inverse? at hj
  split at hj
  · next g hg =>
    obtain ⟨g', hinverse, rfl⟩ := Option.map_eq_some_iff.1 hj
    obtain ⟨hqubits, hcontrols, hparams⟩ := Gate.inverse?_shape hinverse
    refine ⟨⟨h.distinct, ?_, ?_⟩, h.within, h.clbits, _, rfl⟩
    · rintro _ ⟨⟩
      rw [hqubits, hcontrols]
      exact h.operands g hg
    · rintro _ ⟨⟩
      exact hparams
  · cases hj
    exact h

theorem shapedOn_scaledRotation {g g' : Gate} {x : Float} (h : ShapedOn qubits i)
    (hg : i.gate? = some g) (hg' : g.scaledRotation? x = some g') :
    ShapedOn qubits { i with kind := .gate g' } := by
  have hkind : i.kind = .gate g := by
    unfold gate? at hg
    split at hg
    · next hkind => rw [hkind, Option.some.inj hg]
    · nomatch hg
  obtain ⟨hkind', hcontrols, hparams⟩ := Gate.scaledRotation?_shape hg'
  refine ⟨⟨h.distinct, ?_, ?_⟩, h.within, h.clbits, _, rfl⟩
  · rintro _ ⟨⟩
    rw [hkind', hcontrols]
    exact h.operands g hkind
  · rintro _ ⟨⟩
    rw [hkind', hparams]
    exact h.params g hkind

theorem ShapedOn.replaced (h : ShapedOn qubits i) (hj : ShapedOn i.qubits j) : ShapedOn qubits j :=
  { hj with within := fun _ hq => h.within (hj.within hq) }

end Shaped

end Instruction

end OpenQasm
