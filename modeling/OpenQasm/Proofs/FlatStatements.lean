import OpenQasm.Proofs.Dependencies

/-!
Well-formed flat statements, at any depth of branches. None of their operations is passed over when the
dependencies between operations are built, and the list of operations that is made one at a time has all
of them.
-/
namespace OpenQasm

/-- An operation of a program with so many qubits and bits. -/
structure Instruction.WellFormed (qubits clbits : Nat) (i : Instruction) : Prop
    extends Instruction.Shaped i where
  qubit_lt : ∀ q ∈ i.qubits, q < qubits
  clbit_lt : ∀ c ∈ i.clbits, c < clbits

/-- An operation that is no gate takes any number of different operands. -/
theorem Instruction.WellFormed.ofNoGate {qubits clbits : Nat} {i : Instruction}
    (hkind : ∀ g, i.kind ≠ .gate g) (hdistinct : i.qubits.Nodup) (hqubits : ∀ q ∈ i.qubits, q < qubits)
    (hclbits : ∀ c ∈ i.clbits, c < clbits) : i.WellFormed qubits clbits where
  distinct := hdistinct
  operands g hg := absurd hg (hkind g)
  params g hg := absurd hg (hkind g)
  qubit_lt := hqubits
  clbit_lt := hclbits

/-- Qubits may be renamed one to one. -/
theorem Instruction.WellFormed.mapQubits {qubits qubits' clbits : Nat} {i : Instruction}
    {f : Nat → Nat} (h : i.WellFormed qubits clbits) (hlt : ∀ q ∈ i.qubits, f q < qubits')
    (hinj : ∀ q ∈ i.qubits, ∀ q' ∈ i.qubits, f q = f q' → q = q') :
    (i.mapQubits f).WellFormed qubits' clbits where
  distinct := by
    have hdistinct := h.distinct
    unfold List.Nodup at hdistinct
    refine List.pairwise_map.2 (hdistinct.imp_of_mem ?_)
    exact fun hq hq' hne heq => hne (hinj _ hq _ hq' heq)
  operands g hg := (List.length_map f).trans (h.operands g hg)
  params := h.params
  qubit_lt q hq := by
    obtain ⟨p, hp, rfl⟩ := List.mem_map.1 hq
    exact hlt p hp
  clbit_lt := h.clbit_lt

namespace FlatStatement

mutual

/-- All operations and conditions in a statement belong to a program with so many qubits and bits. -/
def WellFormed (qubits clbits : Nat) : FlatStatement → Prop
  | op i => i.WellFormed qubits clbits
  | branch _ bits thenBody elseBody =>
    (∀ c ∈ bits, c < clbits) ∧ AllWellFormed qubits clbits thenBody ∧
      AllWellFormed qubits clbits elseBody
  | assign _ _ | pragma _ => True

def AllWellFormed (qubits clbits : Nat) : List FlatStatement → Prop
  | [] => True
  | s :: ss => s.WellFormed qubits clbits ∧ AllWellFormed qubits clbits ss

end

section WellFormed

variable {qubits clbits qubits' clbits' : Nat}

theorem allWellFormed_iff {body : List FlatStatement} :
    AllWellFormed qubits clbits body ↔ ∀ s ∈ body, s.WellFormed qubits clbits := by
  induction body with
  | nil => exact ⟨fun _ _ h => (nomatch h), fun _ => trivial⟩
  | cons s ss ih => rw [AllWellFormed, List.forall_mem_cons, ih]

mutual

theorem WellFormed.mono (hqubits : qubits ≤ qubits') (hclbits : clbits ≤ clbits') :
    ∀ {s : FlatStatement}, s.WellFormed qubits clbits → s.WellFormed qubits' clbits'
  | op _, h =>
    { h with
      qubit_lt := fun q hq => Nat.lt_of_lt_of_le (h.qubit_lt q hq) hqubits
      clbit_lt := fun c hc => Nat.lt_of_lt_of_le (h.clbit_lt c hc) hclbits }
  | branch _ _ _ _, h =>
    ⟨fun c hc => Nat.lt_of_lt_of_le (h.1 c hc) hclbits, AllWellFormed.mono hqubits hclbits h.2.1,
      AllWellFormed.mono hqubits hclbits h.2.2⟩
  | assign _ _, _ | pragma _, _ => trivial

theorem AllWellFormed.mono (hqubits : qubits ≤ qubits') (hclbits : clbits ≤ clbits') :
    ∀ {body : List FlatStatement}, AllWellFormed qubits clbits body →
      AllWellFormed qubits' clbits' body
  | [], _ => trivial
  | _ :: _, h => ⟨WellFormed.mono hqubits hclbits h.1, AllWellFormed.mono hqubits hclbits h.2⟩

end

mutual

theorem WellFormed.of_mem_ops {i : Instruction} :
    ∀ {s : FlatStatement}, s.WellFormed qubits clbits → i ∈ s.ops → i.WellFormed qubits clbits
  | op _, h, hi => List.mem_singleton.1 hi ▸ h
  | branch _ _ _ _, h, hi =>
    (List.mem_append.1 hi).elim (AllWellFormed.of_mem_opsOf h.2.1) (AllWellFormed.of_mem_opsOf h.2.2)
  | assign _ _, _, hi | pragma _, _, hi => nomatch hi

theorem AllWellFormed.of_mem_opsOf {i : Instruction} : ∀ {body : List FlatStatement},
    AllWellFormed qubits clbits body → i ∈ opsOf body → i.WellFormed qubits clbits
  | [], _, hi => nomatch hi
  | _ :: _, h, hi =>
    (List.mem_append.1 hi).elim (WellFormed.of_mem_ops h.1) (AllWellFormed.of_mem_opsOf h.2)

end

mutual

/-- Operations are replaced, or removed, by ones of another program. -/
theorem WellFormed.filterMapOps {f : Instruction → Option Instruction} :
    ∀ {s t : FlatStatement}, s.WellFormed qubits clbits →
      (∀ i ∈ s.ops, ∀ j, i.WellFormed qubits clbits → f i = some j → j.WellFormed qubits' clbits) →
      s.filterMapOps f = some t → t.WellFormed qubits' clbits
  | op i, _, h, hf, ht => by
    obtain ⟨j, hj, rfl⟩ := Option.map_eq_some_iff.1 ht
    exact hf i (List.mem_singleton.2 rfl) j h hj
  | branch _ _ _ _, _, h, hf, ht => by
    cases ht
    refine ⟨h.1, AllWellFormed.filterMapBody h.2.1 fun i hi => ?_,
      AllWellFormed.filterMapBody h.2.2 fun i hi => ?_⟩
    · exact hf i (List.mem_append_left _ hi)
    · exact hf i (List.mem_append_right _ hi)
  | assign _ _, _, _, _, ht => by
    cases ht
    trivial
  | pragma _, _, _, _, ht => by
    cases ht
    trivial

theorem AllWellFormed.filterMapBody {f : Instruction → Option Instruction} :
    ∀ {body : List FlatStatement}, AllWellFormed qubits clbits body →
      (∀ i ∈ opsOf body, ∀ j, i.WellFormed qubits clbits → f i = some j →
        j.WellFormed qubits' clbits) →
      AllWellFormed qubits' clbits (filterMapBody f body)
  | [], _, _ => trivial
  | s :: ss, h, hf => by
    have hrest := AllWellFormed.filterMapBody h.2 fun i hi => hf i (List.mem_append_right _ hi)
    unfold FlatStatement.filterMapBody
    split
    · next t ht =>
      exact ⟨WellFormed.filterMapOps h.1 (fun i hi => hf i (List.mem_append_left _ hi)) ht, hrest⟩
    · exact hrest

end

end WellFormed

section Listing

theorem mem_opsOf {body : List FlatStatement} {i : Instruction} :
    i ∈ opsOf body ↔ ∃ f ∈ body, i ∈ f.ops := by
  induction body with
  | nil => simp [opsOf]
  | cons f fs ih => rw [opsOf, List.mem_append, ih, List.exists_mem_cons_iff]

theorem opsOf_append (body rest : List FlatStatement) : opsOf (body ++ rest) = opsOf body ++ opsOf rest := by
  induction body with
  | nil => rfl
  | cons f fs ih => rw [List.cons_append, opsOf, opsOf, ih, List.append_assoc]

/-- The operations of all statements that are still to come. -/
def pending (stack : List (List FlatStatement)) : List Instruction := stack.flatMap opsOf

theorem next?_eq_none {stack : List (List FlatStatement)} (h : next? stack = none) :
    pending stack = [] := by
  fun_induction next? stack with
  | case1 => rfl
  | case2 stack ih => exact ih h
  | case3 i rest stack => cases h
  | case4 stack condition clbits thenBody elseBody rest bodies ih =>
    have hrest := ih h
    simpa only [pending, List.flatMap_cons, opsOf, ops, List.append_assoc] using hrest
  | case5 stack target value rest ih => exact ih h
  | case6 stack text rest ih => exact ih h

theorem next?_eq_some {stack rest : List (List FlatStatement)} {i : Instruction}
    (h : next? stack = some (i, rest)) : pending stack = i :: pending rest := by
  fun_induction next? stack with
  | case1 => cases h
  | case2 stack ih => exact ih h
  | case3 i rest stack =>
    cases h
    rfl
  | case4 stack condition clbits thenBody elseBody tail bodies ih =>
    have hrest := ih h
    simpa only [pending, List.flatMap_cons, opsOf, ops, List.append_assoc] using hrest
  | case5 stack target value tail ih => exact ih h
  | case6 stack text tail ih => exact ih h

theorem listFrom_eq (stack : List (List FlatStatement)) : listFrom stack = pending stack := by
  fun_induction listFrom stack with
  | case1 stack hnext => exact (next?_eq_none hnext).symm
  | case2 stack i rest hnext ih => rw [next?_eq_some hnext, ih]

/-- The operations one at a time are those found by recursion. -/
theorem listFrom_singleton (body : List FlatStatement) : listFrom [body] = opsOf body := by
  rw [listFrom_eq, pending, List.flatMap_singleton]

end Listing

section Mapping

variable {f g : Instruction → Option Instruction}

theorem filterMapBody_eq (f : Instruction → Option Instruction) (body : List FlatStatement) :
    filterMapBody f body = body.filterMap (filterMapOps f) := by
  induction body with
  | nil => rfl
  | cons s ss ih =>
    rw [filterMapBody, List.filterMap_cons, ← ih]
    cases s.filterMapOps f <;> rfl

mutual

theorem filterMapOps_congr : ∀ {s : FlatStatement}, (∀ i ∈ s.ops, f i = g i) →
    s.filterMapOps f = s.filterMapOps g
  | op i, h => congrArg (Option.map op) (h i (List.mem_singleton.2 rfl))
  | branch _ _ _ _, h => by
    obtain ⟨hthen, helse⟩ := List.forall_mem_append.1 h
    rw [filterMapOps, filterMapOps, filterMapBody_congr hthen, filterMapBody_congr helse]
  | assign _ _, _ | pragma _, _ => rfl

/-- Only what becomes of the operations in the statements matters. -/
theorem filterMapBody_congr : ∀ {body : List FlatStatement}, (∀ i ∈ opsOf body, f i = g i) →
    filterMapBody f body = filterMapBody g body
  | [], _ => rfl
  | s :: ss, h => by
    obtain ⟨hs, hss⟩ := List.forall_mem_append.1 h
    rw [filterMapBody, filterMapBody, filterMapOps_congr hs, filterMapBody_congr hss]

end

mutual

theorem filterMapOps_some : ∀ s : FlatStatement, s.filterMapOps some = some s
  | op _ => rfl
  | branch _ _ thenBody elseBody => by
    rw [filterMapOps, filterMapBody_some thenBody, filterMapBody_some elseBody]
  | assign _ _ | pragma _ => rfl

theorem filterMapBody_some : ∀ body : List FlatStatement, filterMapBody some body = body
  | [] => rfl
  | s :: ss => by
    rw [filterMapBody, filterMapOps_some s]
    exact congrArg (s :: ·) (filterMapBody_some ss)

end

/-- Operations that all become themselves leave the statements as they are. -/
theorem filterMapBody_eq_self {body : List FlatStatement} (h : ∀ i ∈ opsOf body, f i = some i) :
    filterMapBody f body = body :=
  (filterMapBody_congr h).trans (filterMapBody_some body)

mutual

theorem bind_filterMapOps (f g : Instruction → Option Instruction) : ∀ s : FlatStatement,
    (s.filterMapOps f).bind (filterMapOps g) = s.filterMapOps fun i => (f i).bind g
  | op i => by
    rw [filterMapOps, filterMapOps]
    cases f i <;> rfl
  | branch _ _ thenBody elseBody => by
    rw [filterMapOps, filterMapOps, Option.bind_some, filterMapOps,
      filterMapBody_filterMapBody f g thenBody, filterMapBody_filterMapBody f g elseBody]
  | assign _ _ | pragma _ => rfl

/-- Two passes over the statements are one. -/
theorem filterMapBody_filterMapBody (f g : Instruction → Option Instruction) :
    ∀ body : List FlatStatement,
      filterMapBody g (filterMapBody f body) = filterMapBody (fun i => (f i).bind g) body
  | [] => rfl
  | s :: ss => by
    have hs := bind_filterMapOps f g s
    have hss := filterMapBody_filterMapBody f g ss
    rw [filterMapBody_eq, filterMapBody_eq, filterMapBody_eq] at hss ⊢
    rw [List.filterMap_cons, List.filterMap_cons, ← hs]
    cases s.filterMapOps f with
    | none => exact hss
    | some t => rw [List.filterMap_cons, Option.bind_some, hss]

end

end Mapping

section Dependencies

open Circuit

mutual

/-- The operations of a statement in order, each under the bits of all conditions around it. -/
def conditioned (condition : List Nat) : FlatStatement → List Conditioned
  | op i => [⟨i, condition⟩]
  | branch _ bits thenBody elseBody =>
    let nested := condition ++ bits.filter (!condition.contains ·)
    allConditioned nested thenBody ++ allConditioned nested elseBody
  | assign _ _ | pragma _ => []

def allConditioned (condition : List Nat) : List FlatStatement → List Conditioned
  | [] => []
  | s :: ss => s.conditioned condition ++ allConditioned condition ss

end

theorem allConditioned_append (condition : List Nat) (body rest : List FlatStatement) :
    allConditioned condition (body ++ rest) =
      allConditioned condition body ++ allConditioned condition rest := by
  induction body with
  | nil => rfl
  | cons s ss ih => rw [List.cons_append, allConditioned, allConditioned, ih, List.append_assoc]

mutual

theorem map_operation_conditioned (condition : List Nat) :
    ∀ s : FlatStatement, (s.conditioned condition).map Conditioned.operation = s.ops
  | op _ => rfl
  | branch _ _ _ _ => by
    rw [conditioned, List.map_append, map_operation_allConditioned, map_operation_allConditioned]
    rfl
  | assign _ _ | pragma _ => rfl

theorem map_operation_allConditioned (condition : List Nat) :
    ∀ body : List FlatStatement, (allConditioned condition body).map Conditioned.operation = opsOf body
  | [] => rfl
  | _ :: _ => by
    rw [allConditioned, List.map_append, map_operation_conditioned, map_operation_allConditioned]
    rfl

end

mutual

theorem conditioned_filterMapOps (f : Instruction → Option Instruction) (condition : List Nat) :
    ∀ s : FlatStatement, (s.filterMapOps f).toList.flatMap (conditioned condition) =
      (s.conditioned condition).filterMap fun a => (f a.operation).map (⟨·, a.condition⟩)
  | op i => by
    rw [filterMapOps, conditioned]
    cases h : f i <;> simp [h, conditioned]
  | branch _ _ thenBody elseBody => by
    rw [filterMapOps, Option.toList_some, List.flatMap_singleton, conditioned, conditioned,
      List.filterMap_append, allConditioned_filterMapBody, allConditioned_filterMapBody]
  | assign _ _ | pragma _ => rfl

/-- Operations that are replaced or removed leave the conditions around them as they are. -/
theorem allConditioned_filterMapBody (f : Instruction → Option Instruction) (condition : List Nat) :
    ∀ body : List FlatStatement, allConditioned condition (filterMapBody f body) =
      (allConditioned condition body).filterMap fun a => (f a.operation).map (⟨·, a.condition⟩)
  | [] => rfl
  | s :: ss => by
    rw [allConditioned, List.filterMap_append, ← allConditioned_filterMapBody f condition ss,
      ← conditioned_filterMapOps f condition s, filterMapBody]
    cases s.filterMapOps f with
    | none => rfl
    | some t => rw [Option.toList_some, List.flatMap_singleton, allConditioned]

end

theorem opsOf_filterMapBody (f : Instruction → Option Instruction) (body : List FlatStatement) :
    opsOf (filterMapBody f body) = (opsOf body).filterMap f := by
  rw [← map_operation_allConditioned [], allConditioned_filterMapBody, ← map_operation_allConditioned [],
    List.map_filterMap, List.filterMap_map]
  simp only [Option.map_map, Function.comp_def, Option.map_id']

variable {qubits clbits : Nat}

/-- Every wire of a well-formed operation belongs to the program. -/
theorem declares_of_wellFormed {condition : List Nat} {i : Instruction} (hi : i.WellFormed qubits clbits)
    (hcondition : ∀ b ∈ condition, b < clbits) :
    ∀ w ∈ wiresOf i condition, declares qubits clbits w = true := by
  rintro (q | c) hw
  · exact decide_eq_true (hi.qubit_lt q (Conditioned.qubit_mem_wires (a := ⟨i, condition⟩).1 hw))
  · have hc := Conditioned.clbit_mem_wires (a := ⟨i, condition⟩).1 hw
    exact decide_eq_true ((List.mem_append.1 hc).elim (hi.clbit_lt c) (hcondition c))

/-- A well-formed operation is never passed over. -/
theorem addOp_eq {condition : List Nat} {i : Instruction} (c : Circuit)
    (hi : i.WellFormed qubits clbits) (hcondition : ∀ b ∈ condition, b < clbits) :
    ∃ ws : List Wire, addOp qubits clbits condition c i = (ws.foldl addWire c).append i condition ∧
      ∀ w ∈ wiresOf i condition, (ws.foldl addWire c).front.contains w = true := by
  have hadded : ∀ w ∈ wiresOf i condition, (((wiresOf i condition).filter (declares qubits clbits)).foldl
      addWire c).front.contains w = true := by
    intro w hw
    have hdeclared := declares_of_wellFormed hi hcondition w hw
    rw [contains_foldl_addWire, decide_eq_true (List.mem_filter.2 ⟨hw, hdeclared⟩), Bool.true_or]
  refine ⟨_, ?_, hadded⟩
  dsimp only [addOp]
  rw [run_applyConditioned, check_eq_ok.2 ⟨hi.distinct, hadded⟩]

mutual

/-- The operations of a well-formed statement are appended in order, with all their conditions. -/
theorem measures_addTo : ∀ {s : FlatStatement} {condition : List Nat} {c : Circuit}
    {before : List Conditioned}, s.WellFormed qubits clbits → (∀ b ∈ condition, b < clbits) →
      Measures c before →
        Measures (addTo qubits clbits condition c s) (before ++ s.conditioned condition)
  | op i, condition, c, _, h, hcondition, hc => by
    obtain ⟨ws, heq, hadded⟩ := addOp_eq c h hcondition
    rw [addTo, heq]
    exact (hc.foldl_addWire ws).append (a := ⟨i, condition⟩) hadded
  | branch _ bits thenBody elseBody, condition, c, _, h, hcondition, hc => by
    have hnested : ∀ b ∈ condition ++ bits.filter (!condition.contains ·), b < clbits := by
      intro b hb
      rcases List.mem_append.1 hb with hb | hb
      · exact hcondition b hb
      · exact h.1 b (List.mem_filter.1 hb).1
    rw [addTo, conditioned, ← List.append_assoc]
    exact measures_addAllTo h.2.2 hnested (measures_addAllTo h.2.1 hnested hc)
  | assign _ _, _, _, _, _, _, hc => (List.append_nil _).symm ▸ hc
  | pragma _, _, _, _, _, _, hc => (List.append_nil _).symm ▸ hc

theorem measures_addAllTo : ∀ {body : List FlatStatement} {condition : List Nat} {c : Circuit}
    {before : List Conditioned}, AllWellFormed qubits clbits body → (∀ b ∈ condition, b < clbits) →
      Measures c before →
        Measures (addAllTo qubits clbits condition c body) (before ++ allConditioned condition body)
  | [], _, _, _, _, _, hc => (List.append_nil _).symm ▸ hc
  | s :: ss, condition, c, _, h, hcondition, hc => by
    rw [addAllTo, allConditioned, ← List.append_assoc]
    exact measures_addAllTo h.2 hcondition (measures_addTo h.1 hcondition hc)

end

end Dependencies

end FlatStatement

end OpenQasm
