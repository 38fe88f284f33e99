import OpenQasm.Proofs.Renumbering

/-!
The depth of transformed programs. Operations in place of others that share wires only where those do have no
longer chains. Gates on idle qubits share no wires with each other, so a chain ends in at most one of them.
-/
namespace OpenQasm

namespace Conditioned

variable {ops rest : List Conditioned} {g : Conditioned → Option Conditioned}

/-- Operations in place of others share wires only where those do, and barriers stay barriers. -/
structure Reflects (g : Conditioned → Option Conditioned) (ops : List Conditioned) : Prop where
  barrier : ∀ a ∈ ops, ∀ b, g a = some b → b.operation.isBarrier = a.operation.isBarrier
  shares : ∀ a ∈ ops, ∀ a' ∈ ops, ∀ b b', g a = some b → g a' = some b' → Shares b b' → Shares a a'

theorem exists_sublist_of_filterMap {chain : List Conditioned} (h : chain.Sublist (ops.filterMap g)) :
    ∃ l, l.Sublist ops ∧ List.Forall₂ (fun a b => g a = some b) l chain := by
  induction ops generalizing chain with
  | nil =>
    obtain rfl := List.sublist_nil.1 h
    exact ⟨[], List.Sublist.refl _, .nil⟩
  | cons a ops ih =>
    rw [List.filterMap_cons] at h
    cases hb : g a with
    | none =>
      rw [hb] at h
      obtain ⟨l, hsub, hl⟩ := ih h
      exact ⟨l, hsub.cons a, hl⟩
    | some b =>
      rw [hb] at h
      cases h with
      | cons _ hrest =>
        obtain ⟨l, hsub, hl⟩ := ih hrest
        exact ⟨l, hsub.cons a, hl⟩
      | cons_cons _ hrest =>
        obtain ⟨l, hsub, hl⟩ := ih hrest
        exact ⟨a :: l, hsub.cons_cons a, .cons hb hl⟩

/-- The operations that a chain was made of are a chain of as many layers. -/
theorem Reflects.isChain (h : Reflects g ops) {l chain : List Conditioned} (hl : ∀ a ∈ l, a ∈ ops)
    (hchain : List.Forall₂ (fun a b => g a = some b) l chain) (hshares : chain.IsChain Shares) :
    l.IsChain Shares ∧ layers l = layers chain := by
  induction hchain with
  | nil => exact ⟨List.isChain_nil, rfl⟩
  | @cons a b l chain hab htail ih =>
    obtain ⟨ha, hl⟩ := List.forall_mem_cons.1 hl
    obtain ⟨hrest, hlayers⟩ := ih hl hshares.tail
    constructor
    · cases htail with
      | nil => exact List.isChain_singleton a
      | cons hab' =>
        rw [List.isChain_cons_cons] at hshares ⊢
        exact ⟨h.shares a ha _ (hl _ List.mem_cons_self) b _ hab hab' hshares.1, hrest⟩
    · unfold layers at hlayers ⊢
      rw [List.countP_cons, List.countP_cons, hlayers, h.barrier a ha b hab]

theorem Reflects.lengths_subset (h : Reflects g ops) :
    Lengths (ops.filterMap g) (fun _ => True) ⊆ Lengths ops fun _ => True := by
  rintro n ⟨chain, hsub, hshares, -, rfl⟩
  obtain ⟨l, hl, hchain⟩ := exists_sublist_of_filterMap hsub
  obtain ⟨hisChain, hlayers⟩ := h.isChain (fun a ha => hl.subset ha) hchain hshares
  exact ⟨l, hl, hisChain, fun _ _ => trivial, hlayers⟩

theorem lengths_subset_append : Lengths ops (fun _ => True) ⊆ Lengths (ops ++ rest) fun _ => True :=
  fun _ ⟨l, hsub, hchain, hlast, hl⟩ =>
    ⟨l, hsub.trans (List.sublist_append_left _ _), hchain, hlast, hl⟩

/-- Operations that share no wires with each other make a chain longer by at most one. -/
theorem exists_lengths_of_append {n : Nat} (hrest : rest.Pairwise fun a b => ¬Shares a b)
    (h : n ∈ Lengths (ops ++ rest) fun _ => True) : ∃ m ∈ Lengths ops (fun _ => True), n ≤ m + 1 := by
  obtain ⟨l, hsub, hchain, -, rfl⟩ := h
  obtain ⟨front, tail, rfl, hfront, htail⟩ := List.sublist_append_iff.1 hsub
  obtain ⟨hfrontChain, htailChain, -⟩ := List.isChain_append.1 hchain
  have hlength : tail.length ≤ 1 := by
    have hdisjoint := hrest.sublist htail
    match tail with
    | [] | [_] => exact Nat.le_of_ble_eq_true rfl
    | a :: b :: _ =>
      have hshares := (List.isChain_cons_cons.1 htailChain).1
      exact absurd hshares ((List.pairwise_cons.1 hdisjoint).1 b List.mem_cons_self)
  refine ⟨layers front, ⟨front, hfront, hfrontChain, fun _ _ => trivial, rfl⟩, ?_⟩
  unfold layers
  rw [List.countP_append]
  exact Nat.add_le_add_left (List.countP_le_length.trans hlength) _

/-- New numbers of qubits that are one to one. -/
theorem reflects_of_renumbered {kept : Nat → Bool} {number : Nat → Nat}
    {f : Instruction → Option Instruction}
    (hf : ∀ a ∈ ops, a.operation.Renumbered kept number (f a.operation))
    (hinj : ∀ a ∈ ops, ∀ a' ∈ ops, ∀ q ∈ a.operation.qubits, ∀ q' ∈ a'.operation.qubits,
      kept q = true → kept q' = true → number q = number q' → q = q') :
    Reflects (fun a => (f a.operation).map (⟨·, a.condition⟩)) ops where
  barrier a ha b hb := by
    obtain ⟨j, hj, rfl⟩ := Option.map_eq_some_iff.1 hb
    exact (hj ▸ hf a ha).some.1
  shares a ha a' ha' b b' hb hb' := by
    obtain ⟨j, hj, rfl⟩ := Option.map_eq_some_iff.1 hb
    obtain ⟨j', hj', rfl⟩ := Option.map_eq_some_iff.1 hb'
    obtain ⟨-, hclbits, hqubits⟩ := (hj ▸ hf a ha).some
    obtain ⟨-, hclbits', hqubits'⟩ := (hj' ▸ hf a' ha').some
    rintro (⟨n, hn, hn'⟩ | ⟨c, hc, hc'⟩)
    · obtain ⟨q, hq, hkept, hnumber⟩ := hqubits n hn
      obtain ⟨q', hq', hkept', hnumber'⟩ := hqubits' n hn'
      have hsame := hinj a ha a' ha' q hq q' hq' hkept hkept' (hnumber.trans hnumber'.symm)
      exact .inl ⟨q, hq, hsame ▸ hq'⟩
    · rw [hclbits] at hc
      rw [hclbits'] at hc'
      exact .inr ⟨c, hc, hc'⟩

end Conditioned

namespace FlatProgram

open Conditioned FlatStatement

variable {p p' : FlatProgram}

theorem WellFormed.longest (h : p.WellFormed) :
    IsGreatest (Lengths (allConditioned [] p.statements) fun _ => True) p.depth :=
  (measures_addAllTo h.statements (List.forall_mem_nil _) Circuit.measures_empty).longest

theorem mem_operations_of_conditioned {a : Conditioned} (ha : a ∈ allConditioned [] p.statements) :
    a.operation ∈ p.operations := by
  rw [operations_eq, ← map_operation_allConditioned []]
  exact List.mem_map_of_mem ha

/-- The depth does not increase when operations are replaced by ones that share no more wires. -/
theorem WellFormed.depth_le_of_reflects (h : p.WellFormed) (h' : p'.WellFormed)
    (f : Instruction → Option Instruction) (hstatements : p'.statements = filterMapBody f p.statements)
    (hreflects : Reflects (fun a => (f a.operation).map (⟨·, a.condition⟩))
      (allConditioned [] p.statements)) : p'.depth ≤ p.depth := by
  have hchain := h'.longest.1
  rw [hstatements, allConditioned_filterMapBody] at hchain
  exact h.longest.2 (hreflects.lengths_subset hchain)

theorem WellFormed.depth_keepOps_le (h : p.WellFormed) (h' : p'.WellFormed) (keep : Instruction → Bool)
    (hstatements : p'.statements = FlatStatement.keepOps keep p.statements) : p'.depth ≤ p.depth := by
  refine h.depth_le_of_reflects h' _ hstatements ?_
  have hself {a b : Conditioned} (hb : (if keep a.operation then some a.operation else none).map
      (Conditioned.mk · a.condition) = some b) : b = a := by
    obtain ⟨j, hj, rfl⟩ := Option.map_eq_some_iff.1 hb
    split at hj
    · cases hj
      rfl
    · nomatch hj
  exact ⟨fun a _ b hb => hself hb ▸ rfl, fun a _ a' _ b b' hb hb' => hself hb ▸ hself hb' ▸ id⟩

theorem WellFormed.depth_removeMeasurements_le (h : p.WellFormed) : p.removeMeasurements.depth ≤ p.depth :=
  h.depth_keepOps_le h.removeMeasurements _ rfl

theorem WellFormed.depth_removeBarriers_le (h : p.WellFormed) : p.removeBarriers.depth ≤ p.depth :=
  h.depth_keepOps_le h.removeBarriers _ rfl

theorem WellFormed.depth_removeIdleQubits_le (h : p.WellFormed) (hoccupied : p.Occupied) :
    p.removeIdleQubits.depth ≤ p.depth := by
  apply h.depth_le_of_reflects h.removeIdleQubits _ rfl
  apply reflects_of_renumbered (fun a ha => h.renumbered_rank hoccupied (mem_operations_of_conditioned ha))
  intro a _ a' _ q _ q' _ hq hq' heq
  exact p.strictMonoOn_rank.injOn hq hq' heq

theorem WellFormed.depth_reverseQubitOrder_le (h : p.WellFormed) (hoccupied : p.Occupied) :
    p.reverseQubitOrder.depth ≤ p.depth := by
  have hmirrored {a : Conditioned} (ha : a ∈ allConditioned [] p.statements) :=
    (hoccupied.barriers _ (mem_operations_of_conditioned ha)).renumbered_mapQubits
      (mirrored p.qubitRegisters)
  have hback {a : Conditioned} (ha : a ∈ allConditioned [] p.statements) (q : Nat)
      (hq : q ∈ a.operation.qubits) :=
    (h.registers.mirrored ((h.operation (mem_operations_of_conditioned ha)).qubit_lt q hq)).2
  apply h.depth_le_of_reflects h.reverseQubitOrder _ rfl
  apply reflects_of_renumbered (f := fun i => some (i.mapQubits (mirrored p.qubitRegisters)))
    fun a ha => hmirrored ha
  intro a ha a' ha' q hq q' hq' _ _ heq
  rw [← hback ha q hq, heq, hback ha' q' hq']

/-- Reversing the order is undone by reversing it again, so it does not decrease the depth either. -/
theorem WellFormed.depth_reverseQubitOrder (h : p.WellFormed) (hoccupied : p.Occupied) :
    p.reverseQubitOrder.depth = p.depth := by
  apply Nat.le_antisymm (h.depth_reverseQubitOrder_le hoccupied)
  have hback := h.reverseQubitOrder.depth_reverseQubitOrder_le hoccupied.reverseQubitOrder
  rwa [h.reverseQubitOrder_reverseQubitOrder] at hback

/-- Identity gates on different qubits are appended, so no chain takes two of them. -/
theorem WellFormed.depth_populateIdleQubits (h : p.WellFormed) :
    p.depth ≤ p.populateIdleQubits.depth ∧ p.populateIdleQubits.depth ≤ p.depth + 1 := by
  let idleQubits := (p.qubitRegisters.flatMap fun r => List.range' r.base r.size).filter
    (!p.used.contains ·)
  have hnodup : idleQubits.Nodup := by
    have hqubits : p.qubitRegisters.flatMap (fun r => List.range' r.base r.size) =
        List.range' 0 p.qubitCount := h.registers.blocks
    exact (hqubits ▸ List.nodup_range').filter _
  have hlists : allConditioned [] p.populateIdleQubits.statements = allConditioned [] p.statements ++
      idleQubits.map fun q => ⟨⟨.gate ⟨.builtin .id, [], []⟩, [q], []⟩, []⟩ := by
    rw [FlatProgram.populateIdleQubits, allConditioned_append]
    congr 1
    change allConditioned [] (idleQubits.map idle) = _
    induction idleQubits with
    | nil => rfl
    | cons q qs ih => exact congrArg (_ :: ·) ih
  have hpopulated := h.populateIdleQubits.longest
  rw [hlists] at hpopulated
  refine ⟨hpopulated.2 (lengths_subset_append h.longest.1), ?_⟩
  have hdisjoint : (idleQubits.map fun q =>
      (⟨⟨.gate ⟨.builtin .id, [], []⟩, [q], []⟩, []⟩ : Conditioned)).Pairwise
        fun a b => ¬Shares a b := by
    refine List.pairwise_map.2 (hnodup.imp fun hne hshares => ?_)
    rcases hshares with ⟨q, hq, hq'⟩ | ⟨c, hc, -⟩
    · exact hne ((List.mem_singleton.1 hq).symm.trans (List.mem_singleton.1 hq'))
    · cases hc
  obtain ⟨m, hm, hle⟩ := exists_lengths_of_append hdisjoint hpopulated.1
  exact hle.trans (Nat.add_le_add_right (h.longest.2 hm) 1)

end FlatProgram

/-- Whatever transformations follow an analysis: reversing the order of the qubits leaves the depth as it is,
removing measurements, barriers or idle qubits does not increase it, and putting idle qubits to use increases
it by at most one. -/
theorem Analysis.depth_transformed (config : Config) (source : String) (ts : List Transformation) :
    let p := ts.foldl Transformation.apply (ofSource config source)
    p.reverseQubitOrder.depth = p.depth ∧ p.removeMeasurements.depth ≤ p.depth ∧
      p.removeBarriers.depth ≤ p.depth ∧ p.removeIdleQubits.depth ≤ p.depth ∧
      p.depth ≤ p.populateIdleQubits.depth ∧ p.populateIdleQubits.depth ≤ p.depth + 1 := by
  have hwell := Transformation.foldl_wellFormed (ofSource_wellFormed config source) ts
  have hoccupied := Transformation.foldl_occupied (ofSource_occupied config source) ts
  exact ⟨hwell.depth_reverseQubitOrder hoccupied, hwell.depth_removeMeasurements_le,
    hwell.depth_removeBarriers_le, hwell.depth_removeIdleQubits_le hoccupied,
    hwell.depth_populateIdleQubits⟩

end OpenQasm
