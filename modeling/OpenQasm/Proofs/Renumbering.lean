import Mathlib.Data.List.Sort
import OpenQasm.Proofs.Occupancy

/-!
Idle qubits and the order of qubits. The qubits that are used get the places they have among each other as
their new numbers, which is the numbering of the registers that are left. Nothing happens to a program all of
whose qubits are used; this is so after its idle qubits were taken away and after they were put to use.
-/
namespace OpenQasm

/-- Statements with qubits that have new numbers, where only some qubits are kept. All operations act on kept
qubits, but barriers, of which the kept qubits are left. A barrier that would have none is dropped. -/
inductive FlatStatement.Renumbers (kept : Nat → Bool) (number : Nat → Nat) :
    List FlatStatement → List FlatStatement → Prop
  | nil : Renumbers kept number [] []
  | op {i : Instruction} {body body' : List FlatStatement} (hbarrier : i.isBarrier = false)
      (hkept : ∀ q ∈ i.qubits, kept q = true) (hbody : Renumbers kept number body body') :
      Renumbers kept number (.op i :: body) (.op (i.mapQubits number) :: body')
  | barrier {qubits : List Nat} {body body' : List FlatStatement} (hsome : qubits.filter kept ≠ [])
      (hbody : Renumbers kept number body body') :
      Renumbers kept number (.op (.barrier qubits) :: body)
        (.op (.barrier ((qubits.filter kept).map number)) :: body')
  | dropped {qubits : List Nat} {body body' : List FlatStatement} (hnone : qubits.filter kept = [])
      (hbody : Renumbers kept number body body') :
      Renumbers kept number (.op (.barrier qubits) :: body) body'
  | branch {condition : Expr} {bits : List Nat} {thenBody thenBody' elseBody elseBody' : List FlatStatement}
      {body body' : List FlatStatement} (hthen : Renumbers kept number thenBody thenBody')
      (helse : Renumbers kept number elseBody elseBody') (hbody : Renumbers kept number body body') :
      Renumbers kept number (.branch condition bits thenBody elseBody :: body)
        (.branch condition bits thenBody' elseBody' :: body')
  | assign {target value : Expr} {body body' : List FlatStatement} (hbody : Renumbers kept number body body') :
      Renumbers kept number (.assign target value :: body) (.assign target value :: body')
  | pragma {text : String} {body body' : List FlatStatement} (hbody : Renumbers kept number body body') :
      Renumbers kept number (.pragma text :: body) (.pragma text :: body')

theorem Instruction.eq_barrier {i : Instruction} (hbarrier : i.isBarrier = true) (hclbits : i.clbits = []) :
    i = .barrier i.qubits := by
  obtain ⟨kind, qubits, clbits⟩ := i
  cases kind with
  | barrier => exact congrArg _ hclbits
  | _ => nomatch hbarrier

section Renumbered

variable {kept : Nat → Bool} {number : Nat → Nat} {number? : Nat → Option Nat} {i : Instruction}

/-- What is left of an operation with new numbers. -/
def Instruction.Renumbered (kept : Nat → Bool) (number : Nat → Nat) (i : Instruction)
    (j? : Option Instruction) : Prop :=
  (i.isBarrier = false ∧ (∀ q ∈ i.qubits, kept q = true) ∧ j? = some (i.mapQubits number)) ∨
    ∃ qubits, i = .barrier qubits ∧
      j? = if qubits.filter kept = [] then none else some (.barrier ((qubits.filter kept).map number))

theorem Instruction.Renumbered.some {j : Instruction} (h : i.Renumbered kept number (some j)) :
    j.isBarrier = i.isBarrier ∧ j.clbits = i.clbits ∧
      ∀ n ∈ j.qubits, ∃ q ∈ i.qubits, kept q = true ∧ number q = n := by
  rcases h with ⟨-, hkept, hj⟩ | ⟨qubits, rfl, hj⟩
  · cases hj
    refine ⟨rfl, rfl, fun n hn => ?_⟩
    obtain ⟨q, hq, rfl⟩ := List.mem_map.1 hn
    exact ⟨q, hq, hkept q hq, rfl⟩
  · split at hj
    · nomatch hj
    · cases hj
      refine ⟨rfl, rfl, fun n hn => ?_⟩
      obtain ⟨q, hq, rfl⟩ := List.mem_map.1 hn
      exact ⟨q, (List.mem_filter.1 hq).1, (List.mem_filter.1 hq).2, rfl⟩

theorem Instruction.Occupied.renumbered_mapQubits (h : i.Occupied) (number : Nat → Nat) :
    i.Renumbered (fun _ => true) number (Option.some (i.mapQubits number)) := by
  cases hbarrier : i.isBarrier with
  | false => exact .inl ⟨hbarrier, fun _ _ => rfl, rfl⟩
  | true =>
    obtain ⟨hsome, hclbits⟩ := h hbarrier
    have hi := Instruction.eq_barrier hbarrier hclbits
    refine .inr ⟨i.qubits, hi, ?_⟩
    rw [List.filter_eq_self.2 fun _ _ => rfl, if_neg hsome]
    exact congrArg (fun i => Option.some (i.mapQubits number)) hi

/-- The statements have new numbers when their operations do. -/
theorem FlatStatement.renumbers_filterMapBody {f : Instruction → Option Instruction} :
    ∀ {body : List FlatStatement}, (∀ i ∈ opsOf body, i.Renumbered kept number (f i)) →
      Renumbers kept number body (filterMapBody f body)
  | [], _ => .nil
  | op i :: body, h => by
    obtain ⟨hi, hbody⟩ := List.forall_mem_cons.1 h
    have hrest := renumbers_filterMapBody hbody
    rw [filterMapBody, filterMapOps]
    rcases hi with ⟨hbarrier, hkept, hi⟩ | ⟨qubits, rfl, hi⟩
    · rw [hi]
      exact .op hbarrier hkept hrest
    · rw [hi]
      by_cases hnone : qubits.filter kept = []
      · rw [if_pos hnone]
        exact .dropped hnone hrest
      · rw [if_neg hnone]
        exact .barrier hnone hrest
  | branch _ _ _ _ :: _, h => by
    obtain ⟨hbranch, hbody⟩ := List.forall_mem_append.1 h
    obtain ⟨hthen, helse⟩ := List.forall_mem_append.1 hbranch
    exact .branch (renumbers_filterMapBody hthen) (renumbers_filterMapBody helse)
      (renumbers_filterMapBody hbody)
  | assign _ _ :: _, h => .assign (renumbers_filterMapBody (List.forall_mem_append.1 h).2)
  | pragma _ :: _, h => .pragma (renumbers_filterMapBody (List.forall_mem_append.1 h).2)

variable (hnumber : ∀ q, number? q = if kept q = true then some (number q) else none)
include hnumber

theorem FlatProgram.renumbered_of_kept (hbarrier : i.isBarrier = false)
    (hkept : ∀ q ∈ i.qubits, kept q = true) :
    FlatProgram.renumbered number? i = some (i.mapQubits number) := by
  have hnumbers : i.qubits.map (fun q => (number? q).getD q) = i.qubits.map number :=
    List.map_congr_left fun q hq => by rw [hnumber, if_pos (hkept q hq), Option.getD_some]
  rw [FlatProgram.renumbered, if_neg (Bool.eq_false_iff.1 hbarrier), Instruction.mapQubits, hnumbers,
    Instruction.mapQubits]

theorem FlatProgram.renumbered_barrier (qubits : List Nat) :
    FlatProgram.renumbered number? (.barrier qubits) =
      if qubits.filter kept = [] then none
      else some (.barrier ((qubits.filter kept).map number)) := by
  have hnumbers : qubits.filterMap number? = (qubits.filter kept).map number := by
    induction qubits with
    | nil => rfl
    | cons q qs ih =>
      rw [List.filterMap_cons, hnumber, List.filter_cons]
      cases kept q with
      | true => exact congrArg (number q :: ·) ih
      | false => exact ih
  have hbarrier : (Instruction.barrier qubits).isBarrier = true := rfl
  rw [FlatProgram.renumbered, if_pos hbarrier, Instruction.barrier, hnumbers]
  cases qubits.filter kept <;> rfl

/-- An operation has its new numbers when these are given for the kept qubits. -/
theorem FlatProgram.renumbered_renumbered
    (hkept : i.isBarrier = false → ∀ q ∈ i.qubits, kept q = true) (hoccupied : i.Occupied) :
    i.Renumbered kept number (FlatProgram.renumbered number? i) := by
  cases hbarrier : i.isBarrier with
  | false => exact .inl ⟨hbarrier, hkept hbarrier, renumbered_of_kept hnumber hbarrier (hkept hbarrier)⟩
  | true =>
    obtain ⟨-, hclbits⟩ := hoccupied hbarrier
    have hi := Instruction.eq_barrier hbarrier hclbits
    exact .inr ⟨i.qubits, hi, hi ▸ renumbered_barrier hnumber i.qubits⟩

end Renumbered

section Compacting

open FlatProgram

variable {kept : List Nat} {n N q k : Nat} {xs : List Register}

theorem compacted_cons (x : Register) :
    compacted kept n (x :: xs) =
      if kept.filter (x.holds .quantum) = [] then compacted kept n xs
      else
        ({ x with size := (kept.filter (x.holds .quantum)).length, base := n },
          kept.filter (x.holds .quantum)) ::
            compacted kept (n + (kept.filter (x.holds .quantum)).length) xs := by
  rw [compacted]
  cases kept.filter (x.holds .quantum) <;> rfl

/-- The kept qubits of a register that is left are numbered one after another within it. -/
theorem exists_compacted (h : ((compacted kept n xs).flatMap (·.2))[k]? = some q) :
    ∃ part ∈ compacted kept n xs, q ∈ part.2 ∧ part.1.base ≤ n + k ∧ n + k < part.1.base + part.1.size := by
  induction xs generalizing n k with
  | nil => nomatch h
  | cons x xs ih =>
    rw [compacted_cons] at h ⊢
    split at h
    · next hnone =>
      rw [if_pos hnone]
      exact ih h
    · next hsome =>
      rw [if_neg hsome]
      rw [List.flatMap_cons] at h
      rcases Nat.lt_or_ge k (kept.filter (x.holds .quantum)).length with hk | hk
      · rw [List.getElem?_append_left hk] at h
        exact ⟨_, List.mem_cons_self, List.mem_of_getElem? h, Nat.le_add_right n k,
          Nat.add_lt_add_left hk n⟩
      · rw [List.getElem?_append_right hk] at h
        obtain ⟨part, hpart, hq, hlow, hhigh⟩ := ih h
        exact ⟨part, List.mem_cons_of_mem _ hpart, hq, by omega, by omega⟩

/-- A register that is left is one of before with the kept qubits only. -/
theorem mem_compacted {part : Register × List Nat} (h : part ∈ compacted kept n xs) :
    ∃ x ∈ xs, part.1.name = x.name ∧ part.1.kind = x.kind ∧ part.1.size = part.2.length ∧
      part.2 = kept.filter (x.holds .quantum) ∧ part.2 ≠ [] := by
  induction xs generalizing n with
  | nil => nomatch h
  | cons x xs ih =>
    rw [compacted_cons] at h
    have hlater (m : Nat) (hpart : part ∈ compacted kept m xs) :
        ∃ y ∈ x :: xs, part.1.name = y.name ∧ part.1.kind = y.kind ∧ part.1.size = part.2.length ∧
          part.2 = kept.filter (y.holds .quantum) ∧ part.2 ≠ [] := by
      obtain ⟨y, hy, hrest⟩ := ih hpart
      exact ⟨y, List.mem_cons_of_mem _ hy, hrest⟩
    split at h
    · exact hlater _ h
    · next hsome =>
      rcases List.mem_cons.1 h with rfl | h
      · exact ⟨x, List.mem_cons_self, rfl, rfl, rfl, rfl, hsome⟩
      · exact hlater _ h

/-- Where all qubits are kept, the registers are what they were, each with its own qubits. -/
theorem compacted_range (h : Tiles .quantum n xs) (hsize : ∀ x ∈ xs, 0 < x.size)
    (htotal : n + totalSize xs ≤ N) :
    compacted (List.range N) n xs = xs.map fun x => (x, List.range' x.base x.size) := by
  induction xs generalizing n with
  | nil => rfl
  | cons x xs ih =>
    obtain ⟨hkind, hbase, hrest⟩ := h
    obtain ⟨hpos, hsizes⟩ := List.forall_mem_cons.1 hsize
    rw [totalSize_cons, ← Nat.add_assoc] at htotal
    have hqubits : (List.range N).filter (x.holds .quantum) = List.range' x.base x.size := by
      refine (List.pairwise_lt_range.filter _).eq_of_mem_iff List.pairwise_lt_range' fun q => ?_
      simp only [List.mem_filter, List.mem_range, List.mem_range'_1, Register.holds, hkind,
        Bool.and_eq_true, decide_eq_true_eq, true_and]
      omega
    have hsome : List.range' x.base x.size ≠ [] := fun hnone =>
      Nat.ne_of_gt hpos (List.range'_eq_nil_iff.1 hnone)
    rw [compacted_cons, hqubits, if_neg hsome, List.length_range', ih hrest hsizes htotal, ← hbase]
    rfl

end Compacting

namespace FlatProgram

variable {p : FlatProgram} {q : Nat}

theorem WellFormed.operation (h : p.WellFormed) {i : Instruction} (hi : i ∈ p.operations) :
    i.WellFormed p.qubitCount p.clbitCount := by
  rw [operations_eq] at hi
  exact h.statements.of_mem_opsOf hi

theorem WellFormed.lt_of_mem_used (h : p.WellFormed) (hq : q ∈ p.used) : q < p.qubitCount := by
  obtain ⟨i, hi, -, hq⟩ := mem_used.1 hq
  exact (h.operation hi).qubit_lt q hq

/-- The used qubits of one register after another are all used qubits in order. -/
theorem WellFormed.flatMap_used (h : p.WellFormed) :
    (p.qubitRegisters.flatMap fun x => p.used.toList.filter (x.holds .quantum)) = p.used.toList := by
  refine (pairwise_kept h.registers p.sorted_used).eq_of_mem_iff p.sorted_used fun q => ?_
  constructor
  · intro hq
    obtain ⟨x, -, hq⟩ := List.mem_flatMap.1 hq
    exact (List.mem_filter.1 hq).1
  · intro hq
    have hlt := h.lt_of_mem_used (Std.TreeSet.mem_toList.1 hq)
    obtain ⟨x, hx, hholds⟩ := h.registers.exists_holds (Nat.zero_le q) (by rwa [Nat.zero_add])
    exact List.mem_flatMap.2 ⟨x, hx, List.mem_filter.2 ⟨hq, hholds⟩⟩

/-- The place of a qubit among the used ones. -/
def rank (p : FlatProgram) (q : Nat) : Nat := p.used.toList.idxOf q

theorem getElem?_rank (hq : q ∈ p.used) : p.used.toList[p.rank q]? = some q :=
  List.getElem?_idxOf (Std.TreeSet.mem_toList.2 hq)

theorem strictMonoOn_rank (p : FlatProgram) : StrictMonoOn p.rank {q | q ∈ p.used} := by
  intro q hq q' hq' hlt
  obtain ⟨hn, hrank⟩ := List.getElem?_eq_some_iff.1 (getElem?_rank hq)
  obtain ⟨hn', hrank'⟩ := List.getElem?_eq_some_iff.1 (getElem?_rank hq')
  by_contra hle
  rcases Nat.lt_or_eq_of_le (Nat.le_of_not_lt hle) with hlt' | heq
  · have hsorted := List.pairwise_iff_getElem.1 p.sorted_used _ _ hn' hn hlt'
    omega
  · simp only [heq] at hrank'
    omega

/-- The number of a kept qubit is its place among the used ones. -/
theorem WellFormed.get?_numbers (h : p.WellFormed) (q : Nat) :
    (Std.TreeMap.ofList ((compacted p.used.toList 0 p.qubitRegisters).flatMap (·.2)).zipIdx).get? q =
      if p.used.contains q = true then some (p.rank q) else none := by
  rw [flatMap_compacted, h.flatMap_used]
  have hnodup : p.used.toList.Nodup := p.sorted_used.imp Nat.ne_of_lt
  split
  · next hq => exact (get?_zipIdx hnodup).2 (getElem?_rank hq)
  · next hq =>
    rw [Option.eq_none_iff_forall_not_mem]
    intro n hn
    have hmem := List.mem_of_getElem? ((get?_zipIdx hnodup).1 hn)
    exact hq (Std.TreeSet.mem_toList.1 hmem)

theorem WellFormed.qubitCount_removeIdleQubits (h : p.WellFormed) :
    p.removeIdleQubits.qubitCount = p.usedCount := by
  have htotal : p.removeIdleQubits.qubitCount =
      ((compacted p.used.toList 0 p.qubitRegisters).flatMap (·.2)).length := totalSize_compacted
  rw [htotal, flatMap_compacted, h.flatMap_used, Std.TreeSet.length_toList, usedCount]

/-- Each used qubit stays in a register of the same name. -/
theorem WellFormed.exists_holds_rank (h : p.WellFormed) (hq : q ∈ p.used) {x : Register}
    (hx : x ∈ p.qubitRegisters) (hholds : x.holds .quantum q = true) :
    ∃ y ∈ p.removeIdleQubits.qubitRegisters, y.name = x.name ∧ y.holds .quantum (p.rank q) = true := by
  have hplace : ((compacted p.used.toList 0 p.qubitRegisters).flatMap (·.2))[p.rank q]? = some q := by
    rw [flatMap_compacted, h.flatMap_used, getElem?_rank hq]
  obtain ⟨part, hpart, hmem, hlow, hhigh⟩ := exists_compacted hplace
  obtain ⟨x', hx', hname, hkind, -, hpartEq, -⟩ := mem_compacted hpart
  rw [hpartEq, List.mem_filter] at hmem
  -- The registers do not overlap, so it is the same one that the part was made of.
  have hlocated (y : Register) (hy : y ∈ p.qubitRegisters) (hholds : y.holds .quantum q = true) :
      locateIn? p.qubitRegisters q = some (y, q - y.base) := by
    simp only [Register.holds, Bool.and_eq_true, decide_eq_true_eq] at hholds
    exact h.registers.locateIn?_eq hy hholds.1.2 hholds.2
  obtain rfl : x' = x :=
    congrArg Prod.fst (Option.some.inj ((hlocated x' hx' hmem.2).symm.trans (hlocated x hx hholds)))
  refine ⟨part.1, List.mem_map_of_mem hpart, hname, ?_⟩
  obtain ⟨hquantum, -, -⟩ := h.registers.mem hx
  simp only [Register.holds, Bool.and_eq_true, decide_eq_true_eq]
  exact ⟨⟨hkind.trans hquantum, by omega⟩, by omega⟩

/-- The new numbers of an operation are places among the used qubits. -/
theorem WellFormed.renumbered_rank (h : p.WellFormed) (hoccupied : p.Occupied) {i : Instruction}
    (hi : i ∈ p.operations) :
    i.Renumbered p.used.contains p.rank
      (renumbered ((Std.TreeMap.ofList ((compacted p.used.toList 0 p.qubitRegisters).flatMap
        (·.2)).zipIdx).get? ·) i) := by
  refine renumbered_renumbered h.get?_numbers (fun hbarrier q hq => ?_) (hoccupied.barriers i hi)
  exact mem_used.2 ⟨i, hi, hbarrier, hq⟩

theorem WellFormed.renumbers_removeIdleQubits (h : p.WellFormed) (hoccupied : p.Occupied) :
    FlatStatement.Renumbers p.used.contains p.rank p.statements p.removeIdleQubits.statements :=
  FlatStatement.renumbers_filterMapBody fun i hi => by
    rw [← operations_eq] at hi
    exact h.renumbered_rank hoccupied hi

/-- No qubit is idle when the idle ones are gone. -/
theorem WellFormed.mem_used_removeIdleQubits (h : p.WellFormed)
    (hq : q < p.removeIdleQubits.qubitCount) : q ∈ p.removeIdleQubits.used := by
  rw [h.qubitCount_removeIdleQubits, usedCount, ← Std.TreeSet.length_toList] at hq
  have hused : p.used.toList[q] ∈ p.used := Std.TreeSet.mem_toList.1 (List.getElem_mem hq)
  have hrank : p.rank p.used.toList[q] = q :=
    List.Nodup.idxOf_getElem (p.sorted_used.imp Nat.ne_of_lt) q hq
  obtain ⟨i, hi, hbarrier, hmem⟩ := mem_used.1 hused
  -- The operation that uses the old qubit uses the new one.
  have hkept : ∀ q ∈ i.qubits, p.used.contains q = true := fun q hq => mem_used.2 ⟨i, hi, hbarrier, hq⟩
  refine mem_used.2 ⟨i.mapQubits p.rank, ?_, hbarrier, List.mem_map.2 ⟨_, hmem, hrank⟩⟩
  rw [operations_eq] at hi ⊢
  rw [FlatProgram.removeIdleQubits, FlatStatement.opsOf_filterMapBody]
  exact List.mem_filterMap.2 ⟨i, hi, renumbered_of_kept h.get?_numbers hbarrier hkept⟩

section AllUsed

variable (h : p.WellFormed) (hall : ∀ q < p.qubitCount, q ∈ p.used)
include h hall

theorem WellFormed.used_eq_range : p.used.toList = List.range p.qubitCount := by
  refine p.sorted_used.eq_of_mem_iff List.pairwise_lt_range fun q => ?_
  rw [Std.TreeSet.mem_toList, List.mem_range]
  exact ⟨h.lt_of_mem_used, hall q⟩

theorem WellFormed.usedCount_eq : p.usedCount = p.qubitCount := by
  rw [usedCount, ← Std.TreeSet.length_toList, h.used_eq_range hall, List.length_range]

/-- Nothing happens to a program that has no idle qubits. -/
theorem WellFormed.removeIdleQubits_eq_self (hoccupied : p.Occupied) : p.removeIdleQubits = p := by
  have hregisters : ((compacted p.used.toList 0 p.qubitRegisters).map (·.1)) = p.qubitRegisters := by
    have hparts := compacted_range (N := p.qubitCount) h.registers hoccupied.registers
      (Nat.le_of_eq (Nat.zero_add _))
    rw [h.used_eq_range hall, hparts, List.map_map]
    exact List.map_id _
  have hrank : ∀ q < p.qubitCount, p.rank q = q := fun q hq => by
    have hlt : q < (List.range p.qubitCount).length := by rwa [List.length_range]
    have hplace := List.nodup_range.idxOf_getElem q hlt
    rwa [List.getElem_range, ← h.used_eq_range hall] at hplace
  have hmap {i : Instruction} (hi : i ∈ p.operations) : i.qubits.map p.rank = i.qubits := by
    have hlt := (h.operation hi).qubit_lt
    exact (List.map_congr_left fun q hq => hrank q (hlt q hq)).trans (List.map_id _)
  have hstatements : p.removeIdleQubits.statements = p.statements := by
    refine FlatStatement.filterMapBody_eq_self fun i hi => ?_
    rw [← operations_eq] at hi
    have hkept : ∀ q ∈ i.qubits, p.used.contains q = true := fun q hq =>
      hall q ((h.operation hi).qubit_lt q hq)
    cases hbarrier : i.isBarrier with
    | false =>
      rw [renumbered_of_kept h.get?_numbers hbarrier hkept, Instruction.mapQubits, hmap hi]
    | true =>
      obtain ⟨hsome, hclbits⟩ := hoccupied.barriers i hi hbarrier
      have heq := Instruction.eq_barrier hbarrier hclbits
      have hleft := renumbered_barrier h.get?_numbers i.qubits
      rw [List.filter_eq_self.2 hkept, if_neg hsome, hmap hi, ← heq] at hleft
      exact hleft
  rw [FlatProgram.removeIdleQubits] at hstatements ⊢
  dsimp only at hstatements ⊢
  rw [hstatements, hregisters]

/-- Nothing happens to a program without idle qubits when these are put to use. -/
theorem populateIdleQubits_eq_self : p.populateIdleQubits = p := by
  have hnone : (p.qubitRegisters.flatMap fun r => List.range' r.base r.size).filter
      (!p.used.contains ·) = [] := by
    refine List.filter_eq_nil_iff.2 fun q hq hidle => ?_
    obtain ⟨x, hx, hq⟩ := List.mem_flatMap.1 hq
    obtain ⟨-, -, htotal⟩ := h.registers.mem hx
    have hlt : q < p.qubitCount := by
      have hin := List.mem_range'_1.1 hq
      rw [qubitCount]
      omega
    have hused : p.used.contains q = true := hall q hlt
    rw [hused] at hidle
    cases hidle
  rw [populateIdleQubits, hnone, List.map_nil, List.append_nil]

end AllUsed

/-- All qubits are used once the idle ones were put to use. -/
theorem mem_used_populateIdleQubits (hq : q < p.populateIdleQubits.qubitCount)
    (h : p.WellFormed) : q ∈ p.populateIdleQubits.used := by
  have hoperations : p.populateIdleQubits.operations = p.operations ++ FlatStatement.opsOf
      (((p.qubitRegisters.flatMap fun r => List.range' r.base r.size).filter (!p.used.contains ·)).map
        idle) := by
    rw [operations_eq, operations_eq, ← FlatStatement.opsOf_append]
    rfl
  rw [mem_used, hoperations]
  cases hused : p.used.contains q with
  | true =>
    obtain ⟨i, hi, hrest⟩ := mem_used.1 hused
    exact ⟨i, List.mem_append_left _ hi, hrest⟩
  | false =>
    obtain ⟨x, hx, hlow, hhigh⟩ := h.registers.exists_register (Nat.zero_le q) (by rwa [Nat.zero_add])
    have hall : q ∈ p.qubitRegisters.flatMap fun r => List.range' r.base r.size :=
      List.mem_flatMap.2 ⟨x, hx, List.mem_range'_1.2 ⟨hlow, hhigh⟩⟩
    have hidle : idle q ∈ ((p.qubitRegisters.flatMap fun r => List.range' r.base r.size).filter
        (!p.used.contains ·)).map idle :=
      List.mem_map_of_mem (List.mem_filter.2 ⟨hall, by rw [hused]; rfl⟩)
    refine ⟨⟨.gate ⟨.builtin .id, [], []⟩, [q], []⟩, List.mem_append_right _ ?_, rfl, List.mem_singleton_self q⟩
    exact FlatStatement.mem_opsOf.2 ⟨idle q, hidle, List.mem_singleton_self _⟩

section Reversing

theorem WellFormed.mirrored_lt (h : p.WellFormed) (hq : q < p.qubitCount) :
    mirrored p.qubitRegisters q < p.qubitCount := (h.registers.mirrored hq).1

/-- Reversing the order of the qubits twice restores it. -/
theorem WellFormed.reverseQubitOrder_reverseQubitOrder (h : p.WellFormed) :
    p.reverseQubitOrder.reverseQubitOrder = p := by
  have hstatements : p.reverseQubitOrder.reverseQubitOrder.statements = p.statements := by
    rw [FlatProgram.reverseQubitOrder, FlatProgram.reverseQubitOrder,
      FlatStatement.filterMapBody_filterMapBody]
    refine FlatStatement.filterMapBody_eq_self fun i hi => ?_
    rw [← operations_eq] at hi
    have hback : (i.qubits.map (mirrored p.qubitRegisters)).map (mirrored p.qubitRegisters) = i.qubits := by
      rw [List.map_map]
      refine (List.map_congr_left fun q hq => ?_).trans (List.map_id _)
      exact (h.registers.mirrored ((h.operation hi).qubit_lt q hq)).2
    rw [Option.bind_some, Instruction.mapQubits, Instruction.mapQubits, hback]
  exact congrArg (fun statements => ({ p with statements } : FlatProgram)) hstatements

/-- The qubits of a register change places with each other. -/
theorem WellFormed.mirrored_add (h : p.WellFormed) {x : Register} (hx : x ∈ p.qubitRegisters) {k : Nat}
    (hk : k < x.size) : mirrored p.qubitRegisters (x.base + k) = x.base + (x.size - 1 - k) := by
  rw [mirrored, h.registers.locateIn?_eq hx (Nat.le_add_right _ _) (Nat.add_lt_add_left hk _),
    Nat.add_sub_cancel_left]

/-- Operations that are kept or not, whatever their qubits, may be removed before or after. -/
theorem reverseQubitOrder_keepOps {keep : Instruction → Bool}
    (hkeep : ∀ f i, keep (i.mapQubits f) = keep i) (body : List FlatStatement) :
    FlatStatement.filterMapBody (fun i => some (i.mapQubits (mirrored p.qubitRegisters)))
        (FlatStatement.keepOps keep body) =
      FlatStatement.keepOps keep
        (FlatStatement.filterMapBody (fun i => some (i.mapQubits (mirrored p.qubitRegisters))) body) := by
  rw [FlatStatement.keepOps, FlatStatement.keepOps, FlatStatement.filterMapBody_filterMapBody,
    FlatStatement.filterMapBody_filterMapBody]
  refine FlatStatement.filterMapBody_congr fun i _ => ?_
  rw [Option.bind_some, hkeep]
  cases keep i <;> rfl

theorem removeMeasurements_reverseQubitOrder (p : FlatProgram) :
    p.reverseQubitOrder.removeMeasurements = p.removeMeasurements.reverseQubitOrder :=
  congrArg (fun statements => ({ p with statements } : FlatProgram))
    (reverseQubitOrder_keepOps (fun _ _ => rfl) p.statements).symm

theorem removeBarriers_reverseQubitOrder (p : FlatProgram) :
    p.reverseQubitOrder.removeBarriers = p.removeBarriers.reverseQubitOrder :=
  congrArg (fun statements => ({ p with statements } : FlatProgram))
    (reverseQubitOrder_keepOps (fun _ _ => rfl) p.statements).symm

theorem Occupied.renumbers_reverseQubitOrder (h : p.Occupied) :
    FlatStatement.Renumbers (fun _ => true) (mirrored p.qubitRegisters) p.statements
      p.reverseQubitOrder.statements :=
  FlatStatement.renumbers_filterMapBody fun i hi => by
    rw [← operations_eq] at hi
    exact (h.barriers i hi).renumbered_mapQubits _

end Reversing

section Occupied

variable {f : Instruction → Option Instruction}

theorem Occupied.filterMapBody (h : p.Occupied) (hf : ∀ i j, i.Occupied → f i = some j → j.Occupied) :
    ∀ j ∈ FlatStatement.listFrom [FlatStatement.filterMapBody f p.statements], j.Occupied := by
  intro j hj
  rw [FlatStatement.listFrom_singleton, FlatStatement.opsOf_filterMapBody] at hj
  obtain ⟨i, hi, hij⟩ := List.mem_filterMap.1 hj
  rw [← operations_eq] at hi
  exact hf i j (h.barriers i hi) hij

theorem Occupied.keepOps (h : p.Occupied) (keep : Instruction → Bool) :
    ∀ j ∈ FlatStatement.listFrom [FlatStatement.keepOps keep p.statements], j.Occupied :=
  h.filterMapBody fun i j hi hj => by
    split at hj
    · cases hj
      exact hi
    · nomatch hj

theorem occupied_of_renumbered {number? : Nat → Option Nat} {i j : Instruction}
    (h : renumbered number? i = some j) : j.Occupied := by
  unfold renumbered at h
  split at h
  · split at h
    · nomatch h
    · next hsome =>
      cases h
      exact fun _ => ⟨hsome, rfl⟩
  · next hbarrier =>
    cases h
    exact fun hj => absurd hj hbarrier

theorem Occupied.removeIdleQubits (h : p.Occupied) : p.removeIdleQubits.Occupied where
  registers x hx := by
    obtain ⟨part, hpart, rfl⟩ := List.mem_map.1 hx
    obtain ⟨y, -, -, -, hsize, -, hsome⟩ := mem_compacted hpart
    rw [hsize]
    exact List.length_pos_of_ne_nil hsome
  barriers := h.filterMapBody fun _ _ _ => occupied_of_renumbered

theorem Occupied.reverseQubitOrder (h : p.Occupied) : p.reverseQubitOrder.Occupied where
  registers := h.registers
  barriers := h.filterMapBody fun i j hi hj => by
    cases hj
    intro hbarrier
    obtain ⟨hsome, hclbits⟩ := hi hbarrier
    exact ⟨fun hnone => hsome (List.map_eq_nil_iff.1 hnone), hclbits⟩

theorem Occupied.populateIdleQubits (h : p.Occupied) : p.populateIdleQubits.Occupied where
  registers := h.registers
  barriers i hi := by
    rw [operations_eq, FlatProgram.populateIdleQubits, FlatStatement.opsOf_append] at hi
    rcases List.mem_append.1 hi with hi | hi
    · exact h.barriers i (operations_eq p ▸ hi)
    · obtain ⟨s, hs, hi⟩ := FlatStatement.mem_opsOf.1 hi
      obtain ⟨q, -, rfl⟩ := List.mem_map.1 hs
      rw [List.mem_singleton.1 hi]
      nofun

end Occupied

end FlatProgram

namespace Transformation

theorem apply_occupied {p : FlatProgram} (h : p.Occupied) : ∀ t : Transformation, (t.apply p).Occupied
  | removeMeasurements => ⟨h.registers, h.keepOps _⟩
  | removeBarriers => ⟨h.registers, h.keepOps _⟩
  | reverseQubitOrder => h.reverseQubitOrder
  | removeIdleQubits => h.removeIdleQubits
  | populateIdleQubits => h.populateIdleQubits
  | removeIncludes => ⟨h.registers, h.barriers⟩

theorem foldl_occupied {p : FlatProgram} (h : p.Occupied) (ts : List Transformation) :
    (ts.foldl apply p).Occupied := by
  induction ts generalizing p with
  | nil => exact h
  | cons t ts ih => exact ih (apply_occupied h t)

end Transformation

namespace Analysis

open FlatProgram

/-- Whatever transformations follow an analysis, idle qubits are taken away by a renumbering that keeps the order
of the qubits and the names of their registers, and nothing is left to be taken away after that, nor after the
idle qubits were put to use. Reversing the order of the qubits changes the places in each register, twice is
not at all, and it does not matter whether measurements and barriers are removed before it or after it. -/
theorem idleQubits_qubitOrder (config : Config) (source : String) (ts : List Transformation) :
    let p := ts.foldl Transformation.apply (ofSource config source)
    let compact := p.removeIdleQubits
    let full := p.populateIdleQubits
    let reversed := p.reverseQubitOrder
    (compact.qubitCount = compact.usedCount ∧ compact.usedCount = p.usedCount ∧
      (∃ number : Nat → Nat, StrictMonoOn number {q | q ∈ p.used} ∧
        (∀ q ∈ p.used, ∀ x ∈ p.qubitRegisters, x.holds .quantum q = true →
          ∃ y ∈ compact.qubitRegisters, y.name = x.name ∧ y.holds .quantum (number q) = true) ∧
        FlatStatement.Renumbers p.used.contains number p.statements compact.statements) ∧
      compact.removeIdleQubits = compact) ∧
    (full.usedCount = full.qubitCount ∧ full.populateIdleQubits = full ∧ full.removeIdleQubits = full) ∧
    (reversed.reverseQubitOrder = p ∧ reversed.qubitRegisters = p.qubitRegisters ∧
      (∃ number : Nat → Nat,
        (∀ x ∈ p.qubitRegisters, ∀ k < x.size, number (x.base + k) = x.base + (x.size - 1 - k)) ∧
        FlatStatement.Renumbers (fun _ => true) number p.statements reversed.statements) ∧
      reversed.removeMeasurements = p.removeMeasurements.reverseQubitOrder ∧
      reversed.removeBarriers = p.removeBarriers.reverseQubitOrder) := by
  have hwell := Transformation.foldl_wellFormed (ofSource_wellFormed config source) ts
  have hoccupied := Transformation.foldl_occupied (ofSource_occupied config source) ts
  intro p compact full reversed
  have hcompact : ∀ q < compact.qubitCount, q ∈ compact.used := fun q => hwell.mem_used_removeIdleQubits
  have hfull : ∀ q < full.qubitCount, q ∈ full.used := fun q hq => mem_used_populateIdleQubits hq hwell
  have hcount := hwell.removeIdleQubits.usedCount_eq hcompact
  refine ⟨⟨hcount.symm, hcount.trans hwell.qubitCount_removeIdleQubits, ?_, ?_⟩, ⟨?_, ?_, ?_⟩,
    ?_, rfl, ?_, ?_, ?_⟩
  · exact ⟨p.rank, p.strictMonoOn_rank, fun q hq x hx => hwell.exists_holds_rank hq hx,
      hwell.renumbers_removeIdleQubits hoccupied⟩
  · exact hwell.removeIdleQubits.removeIdleQubits_eq_self hcompact hoccupied.removeIdleQubits
  · exact hwell.populateIdleQubits.usedCount_eq hfull
  · exact populateIdleQubits_eq_self hwell.populateIdleQubits hfull
  · exact hwell.populateIdleQubits.removeIdleQubits_eq_self hfull hoccupied.populateIdleQubits
  · exact hwell.reverseQubitOrder_reverseQubitOrder
  · exact ⟨mirrored p.qubitRegisters, fun x hx k hk => hwell.mirrored_add hx hk,
      hoccupied.renumbers_reverseQubitOrder⟩
  · exact removeMeasurements_reverseQubitOrder p
  · exact removeBarriers_reverseQubitOrder p

end Analysis

end OpenQasm
