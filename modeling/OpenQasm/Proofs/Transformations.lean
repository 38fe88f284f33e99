import OpenQasm.Proofs.WellFormed

/-!
The transformations of flat programs keep all operations well-formed: qubits are renamed one to one within
the registers, and the qubits that are taken away are those that no operation acts on.
-/
namespace OpenQasm

/-- The registers of a flat program stand one after another, and its statements belong to it. -/
structure FlatProgram.WellFormed (p : FlatProgram) : Prop where
  registers : Tiles .quantum 0 p.qubitRegisters
  statements : FlatStatement.AllWellFormed p.qubitCount p.clbitCount p.statements

section Mirroring

variable {kind : RegisterKind} {base q : Nat} {xs : List Register}

/-- A physical index lies in one register only. -/
theorem Tiles.locateIn?_eq (h : Tiles kind base xs) {x : Register} (hx : x ∈ xs) (hlow : x.base ≤ q)
    (hhigh : q < x.base + x.size) : locateIn? xs q = some (x, q - x.base) := by
  induction xs generalizing base with
  | nil => nomatch hx
  | cons y ys ih =>
    obtain ⟨hkind, hbase, hrest⟩ := h
    unfold locateIn? at ih ⊢
    rw [List.find?_cons]
    rcases List.mem_cons.1 hx with rfl | hx
    · rw [decide_eq_true hlow, decide_eq_true hhigh]
      rfl
    · obtain ⟨-, hafter, -⟩ := hrest.mem hx
      have houtside : ¬q < y.base + y.size := by omega
      rw [decide_eq_false houtside, Bool.and_false]
      exact ih hrest hx

/-- Every physical index lies in a register. -/
theorem Tiles.exists_register (h : Tiles kind base xs) (hlow : base ≤ q)
    (hhigh : q < base + totalSize xs) : ∃ x ∈ xs, x.base ≤ q ∧ q < x.base + x.size := by
  induction xs generalizing base with
  | nil => exact absurd hhigh (Nat.not_lt.2 hlow)
  | cons y ys ih =>
    obtain ⟨hkind, hbase, hrest⟩ := h
    rw [totalSize_cons] at hhigh
    by_cases hq : q < y.base + y.size
    · exact ⟨y, List.mem_cons_self, by omega, hq⟩
    · have hlow' : base + y.size ≤ q := by omega
      have hhigh' : q < base + y.size + totalSize ys := by omega
      obtain ⟨x, hx, hin⟩ := ih hrest hlow' hhigh'
      exact ⟨x, List.mem_cons_of_mem _ hx, hin⟩

/-- The mirrored place is in the same register, and its mirrored place is the first one again. -/
theorem Tiles.mirrored (h : Tiles kind 0 xs) (hq : q < totalSize xs) :
    FlatProgram.mirrored xs q < totalSize xs ∧
      FlatProgram.mirrored xs (FlatProgram.mirrored xs q) = q := by
  obtain ⟨x, hx, hlow, hhigh⟩ := h.exists_register (Nat.zero_le q) (by omega)
  obtain ⟨-, -, htotal⟩ := h.mem hx
  have hmirrored : FlatProgram.mirrored xs q = x.base + (x.size - 1 - (q - x.base)) := by
    rw [FlatProgram.mirrored, h.locateIn?_eq hx hlow hhigh]
  have hback := h.locateIn?_eq (q := x.base + (x.size - 1 - (q - x.base))) hx (by omega) (by omega)
  refine ⟨by omega, ?_⟩
  rw [hmirrored, FlatProgram.mirrored, hback]
  dsimp only
  omega

end Mirroring

section Compacting

open FlatProgram

variable {kept : List Nat} {n : Nat} {xs : List Register}

theorem tiles_compacted (hxs : ∀ x ∈ xs, x.kind = .quantum) :
    Tiles .quantum n ((compacted kept n xs).map (·.1)) := by
  induction xs generalizing n with
  | nil => trivial
  | cons x xs ih =>
    have hrest : ∀ y ∈ xs, y.kind = .quantum := fun y hy => hxs y (List.mem_cons_of_mem _ hy)
    unfold compacted
    split
    · exact ih hrest
    · exact ⟨hxs x List.mem_cons_self, rfl, ih hrest⟩

theorem totalSize_compacted :
    totalSize ((compacted kept n xs).map (·.1)) =
      ((compacted kept n xs).flatMap (·.2)).length := by
  induction xs generalizing n with
  | nil => rfl
  | cons x xs ih =>
    unfold compacted
    split
    · exact ih
    · rw [List.map_cons, totalSize_cons, List.flatMap_cons, List.length_append, ih]

theorem flatMap_compacted :
    (compacted kept n xs).flatMap (·.2) = xs.flatMap fun x => kept.filter (x.holds .quantum) := by
  induction xs generalizing n with
  | nil => rfl
  | cons x xs ih =>
    unfold compacted
    rw [List.flatMap_cons]
    split
    · next hnone => rw [ih, hnone, List.nil_append]
    · next qs _ => rw [List.flatMap_cons, ih]

/-- The kept qubits of one register after another are in order. -/
theorem pairwise_kept {kind : RegisterKind} {base : Nat} (h : Tiles kind base xs)
    (hkept : kept.Pairwise (· < ·)) :
    (xs.flatMap fun x => kept.filter (x.holds .quantum)).Pairwise (· < ·) := by
  induction xs generalizing base with
  | nil => exact List.Pairwise.nil
  | cons x xs ih =>
    obtain ⟨-, hbase, hrest⟩ := h
    rw [List.flatMap_cons, List.pairwise_append]
    refine ⟨hkept.filter _, ih hrest, fun q hq q' hq' => ?_⟩
    obtain ⟨y, hy, hq'⟩ := List.mem_flatMap.1 hq'
    obtain ⟨-, hafter, -⟩ := hrest.mem hy
    have hfirst := (List.mem_filter.1 hq).2
    have hsecond := (List.mem_filter.1 hq').2
    simp only [Register.holds, Bool.and_eq_true, decide_eq_true_eq] at hfirst hsecond
    omega

/-- The number of an element is its place in the list. -/
theorem get?_zipIdx {qs : List Nat} (hqs : qs.Nodup) {q n : Nat} :
    (Std.TreeMap.ofList qs.zipIdx).get? q = some n ↔ qs[n]? = some q := by
  have hdistinct : qs.zipIdx.Pairwise fun a b => ¬compare a.1 b.1 = .eq := by
    have hfst : (qs.zipIdx.map Prod.fst).Nodup := by rw [List.zipIdx_map_fst]; exact hqs
    exact (List.pairwise_map.1 hfst).imp fun hne heq => hne (Nat.compare_eq_eq.1 heq)
  have hplace : ∀ m, qs[m]? = some q → (Std.TreeMap.ofList qs.zipIdx).get? q = some m := fun m hm =>
    Std.TreeMap.getElem?_ofList_of_mem (Nat.compare_eq_eq.2 rfl) hdistinct
      (List.mk_mem_zipIdx_iff_getElem?.2 hm)
  -- A number that is found belongs to an element, which has just one place.
  refine ⟨fun h => ?_, hplace n⟩
  have hmem : q ∈ qs := by
    rcases hcontains : (qs.zipIdx.map Prod.fst).contains q with _ | _
    · have hnone : (Std.TreeMap.ofList qs.zipIdx)[q]? = none :=
        Std.TreeMap.getElem?_ofList_of_contains_eq_false hcontains
      rw [Std.TreeMap.get?_eq_getElem?, hnone] at h
      nomatch h
    · rw [List.zipIdx_map_fst] at hcontains
      exact List.contains_iff_mem.1 hcontains
  obtain ⟨m, hm⟩ := List.getElem?_of_mem hmem
  rw [hplace m hm] at h
  rw [← Option.some.inj h, hm]

/-- Operations are renumbered one to one, given that all their qubits but those of barriers are
numbered. -/
theorem renumbered_wellFormed {number? : Nat → Option Nat} {qubits qubits' clbits : Nat}
    {i j : Instruction} (hlt : ∀ q n, number? q = some n → n < qubits')
    (hinj : ∀ q q' n, number? q = some n → number? q' = some n → q = q')
    (hall : i.isBarrier = false → ∀ q ∈ i.qubits, ∃ n, number? q = some n)
    (hi : i.WellFormed qubits clbits) (h : renumbered number? i = some j) :
    j.WellFormed qubits' clbits := by
  unfold renumbered at h
  -- A barrier loses the qubits that have no number; another operation has none of these.
  split at h
  · split at h
    · nomatch h
    · cases h
      refine .ofNoGate nofun ?_ ?_ nofun
      · have hdistinct := hi.distinct
        unfold List.Nodup at hdistinct
        apply hdistinct.filterMap _
        intro q q' hne n hn n' hn' heq
        subst heq
        exact hne (hinj q q' n hn hn')
      · intro n hn
        obtain ⟨q, -, hq⟩ := List.mem_filterMap.1 hn
        exact hlt q n hq
  · next hbarrier =>
    cases h
    have hnumber := hall (Bool.not_eq_true _ ▸ hbarrier)
    refine hi.mapQubits (fun q hq => ?_) fun q hq q' hq' heq => ?_
    · obtain ⟨n, hn⟩ := hnumber q hq
      rw [hn]
      exact hlt q n hn
    · obtain ⟨n, hn⟩ := hnumber q hq
      obtain ⟨n', hn'⟩ := hnumber q' hq'
      rw [hn, hn'] at heq
      have hsame : n = n' := heq
      exact hinj q q' n hn (hsame ▸ hn')

theorem mem_foldl_insert {qs : List Nat} {found : Std.TreeSet Nat} {q : Nat} :
    q ∈ qs.foldl Std.TreeSet.insert found ↔ q ∈ found ∨ q ∈ qs := by
  induction qs generalizing found with
  | nil => exact ⟨Or.inl, fun h => h.resolve_right List.not_mem_nil⟩
  | cons p ps ih =>
    rw [List.foldl_cons, ih, Std.TreeSet.mem_insert, Nat.compare_eq_eq, List.mem_cons, eq_comm,
      or_comm (a := q = p), or_assoc]

/-- The used qubits are those of operations that are no barriers. -/
theorem FlatProgram.mem_used {p : FlatProgram} {q : Nat} :
    q ∈ p.used ↔ ∃ i ∈ p.operations, i.isBarrier = false ∧ q ∈ i.qubits := by
  have hfold (ops : List Instruction) (found : Std.TreeSet Nat) :
      q ∈ ops.foldl (fun found i =>
          if i.isBarrier then found else i.qubits.foldl Std.TreeSet.insert found) found ↔
        q ∈ found ∨ ∃ i ∈ ops, i.isBarrier = false ∧ q ∈ i.qubits := by
    induction ops generalizing found with
    | nil => simp
    | cons i ops ih =>
      rw [List.foldl_cons, ih]
      cases hbarrier : i.isBarrier with
      | true => simp [hbarrier]
      | false => simp [hbarrier, mem_foldl_insert, or_assoc]
  rw [used, hfold]
  exact or_iff_right Std.TreeSet.not_mem_emptyc

end Compacting

namespace FlatProgram

variable {p : FlatProgram}

/-- The operations that a transformation looks at are the ones in the statements. -/
theorem operations_eq (p : FlatProgram) : p.operations = FlatStatement.opsOf p.statements :=
  FlatStatement.listFrom_singleton p.statements

theorem WellFormed.keepOps (h : p.WellFormed) (keep : Instruction → Bool) :
    FlatStatement.AllWellFormed p.qubitCount p.clbitCount
      (FlatStatement.keepOps keep p.statements) := by
  apply h.statements.filterMapBody
  intro i _ j hi hj
  split at hj
  · cases hj
    exact hi
  · nomatch hj

theorem WellFormed.removeMeasurements (h : p.WellFormed) : p.removeMeasurements.WellFormed :=
  ⟨h.registers, h.keepOps _⟩

theorem WellFormed.removeBarriers (h : p.WellFormed) : p.removeBarriers.WellFormed :=
  ⟨h.registers, h.keepOps _⟩

theorem WellFormed.reverseQubitOrder (h : p.WellFormed) : p.reverseQubitOrder.WellFormed := by
  refine ⟨h.registers, h.statements.filterMapBody fun i _ j hi hj => ?_⟩
  cases hj
  have hmirrored (q : Nat) (hq : q ∈ i.qubits) := h.registers.mirrored (hi.qubit_lt q hq)
  apply hi.mapQubits (fun q hq => (hmirrored q hq).1)
  intro q hq q' hq' heq
  rw [← (hmirrored q hq).2, heq, (hmirrored q' hq').2]

/-- A qubit that an operation other than a barrier acts on gets a number. -/
theorem WellFormed.exists_number (h : p.WellFormed) {i : Instruction} (hi : i ∈ p.operations)
    (hwell : i.WellFormed p.qubitCount p.clbitCount) (hbarrier : i.isBarrier = false) {q : Nat}
    (hq : q ∈ i.qubits) :
    ∃ n : Nat,
      (p.qubitRegisters.flatMap fun x => p.used.toList.filter (x.holds .quantum))[n]? = some q := by
  have hlt : q < 0 + totalSize p.qubitRegisters := (Nat.zero_add _).symm ▸ hwell.qubit_lt q hq
  obtain ⟨x, hx, hlow, hhigh⟩ := h.registers.exists_register (Nat.zero_le q) hlt
  obtain ⟨hkind, -, -⟩ := h.registers.mem hx
  -- The qubit lies in one of the registers, and it is used there.
  have hused : q ∈ p.used.toList := Std.TreeSet.mem_toList.2 (mem_used.2 ⟨i, hi, hbarrier, hq⟩)
  have hholds : x.holds .quantum q = true := by
    simp only [Register.holds, hkind, hlow, hhigh, decide_true, Bool.and_self]
  have hmem : q ∈ p.qubitRegisters.flatMap fun x => p.used.toList.filter (x.holds .quantum) :=
    List.mem_flatMap.2 ⟨x, hx, List.mem_filter.2 ⟨hused, hholds⟩⟩
  exact List.getElem?_of_mem hmem

theorem sorted_used (p : FlatProgram) : p.used.toList.Pairwise (· < ·) :=
  Std.TreeSet.ordered_toList.imp Nat.compare_eq_lt.1

theorem WellFormed.removeIdleQubits (h : p.WellFormed) : p.removeIdleQubits.WellFormed := by
  have hkinds : ∀ x ∈ p.qubitRegisters, x.kind = .quantum := fun x hx => (h.registers.mem hx).1
  have hnodup := (pairwise_kept h.registers p.sorted_used).imp Nat.ne_of_lt
  have hcount : p.removeIdleQubits.qubitCount =
      (p.qubitRegisters.flatMap fun x => p.used.toList.filter (x.holds .quantum)).length := by
    rw [← flatMap_compacted (n := 0)]
    exact totalSize_compacted
  refine ⟨tiles_compacted hkinds, ?_⟩
  rw [hcount]
  apply h.statements.filterMapBody
  intro i hi j hwell hj
  simp only [flatMap_compacted] at hj
  rw [← operations_eq] at hi
  -- New numbers are places in a list without repetitions, so they are below its length and one to one.
  refine renumbered_wellFormed ?_ ?_ ?_ hwell hj
  · intro q n hn
    rw [get?_zipIdx hnodup] at hn
    exact (List.getElem?_eq_some_iff.1 hn).1
  · intro q q' n hn hn'
    rw [get?_zipIdx hnodup] at hn hn'
    exact Option.some.inj (hn.symm.trans hn')
  · intro hbarrier q hq
    obtain ⟨n, hn⟩ := h.exists_number hi hwell hbarrier hq
    exact ⟨n, (get?_zipIdx hnodup).2 hn⟩

theorem WellFormed.populateIdleQubits (h : p.WellFormed) : p.populateIdleQubits.WellFormed := by
  refine ⟨h.registers, FlatStatement.allWellFormed_iff.2 fun s hs => ?_⟩
  -- The new operations are the identity, each on one qubit of a register.
  rcases List.mem_append.1 hs with hs | hs
  · exact FlatStatement.allWellFormed_iff.1 h.statements s hs
  · obtain ⟨q, hq, rfl⟩ := List.mem_map.1 hs
    obtain ⟨x, hx, hq⟩ := List.mem_flatMap.1 (List.mem_filter.1 hq).1
    obtain ⟨-, -, htotal⟩ := h.registers.mem hx
    have hlt : q < p.qubitCount := by
      have hin := List.mem_range'_1.1 hq
      rw [qubitCount]
      omega
    have hshape : (⟨.gate ⟨.builtin .id, [], []⟩, [q], []⟩ : Instruction).Shaped := by
      refine ⟨List.pairwise_singleton _ _, ?_, ?_⟩ <;> rintro _ ⟨⟩ <;> rfl
    exact { hshape with qubit_lt := List.forall_mem_singleton.2 hlt, clbit_lt := nofun }

end FlatProgram

/-- What makes a new flat program of one. -/
inductive Transformation
  | removeMeasurements | removeBarriers | reverseQubitOrder | removeIdleQubits | populateIdleQubits
  | removeIncludes
deriving DecidableEq, Repr

namespace Transformation

def apply (p : FlatProgram) : Transformation → FlatProgram
  | removeMeasurements => p.removeMeasurements
  | removeBarriers => p.removeBarriers
  | reverseQubitOrder => p.reverseQubitOrder
  | removeIdleQubits => p.removeIdleQubits
  | populateIdleQubits => p.populateIdleQubits
  | removeIncludes => p.removeIncludes

theorem apply_wellFormed {p : FlatProgram} (h : p.WellFormed) :
    ∀ t : Transformation, (t.apply p).WellFormed
  | removeMeasurements => h.removeMeasurements
  | removeBarriers => h.removeBarriers
  | reverseQubitOrder => h.reverseQubitOrder
  | removeIdleQubits => h.removeIdleQubits
  | populateIdleQubits => h.populateIdleQubits
  | removeIncludes => ⟨h.registers, h.statements⟩

theorem foldl_wellFormed {p : FlatProgram} (h : p.WellFormed) (ts : List Transformation) :
    (ts.foldl apply p).WellFormed := by
  induction ts generalizing p with
  | nil => exact h
  | cons t ts ih => exact ih (apply_wellFormed h t)

end Transformation

namespace Analysis

theorem flatProgram_wellFormed {s : State} (hs : (Invariant.wellFormed fun _ => True).core s)
    (houtput : ∀ f ∈ s.output, (Invariant.wellFormed fun _ => True).flat s.registers f)
    (version : Option String) (config : Config) : (s.flatProgram version config).WellFormed := by
  refine ⟨hs.tiled.tiles .quantum, FlatStatement.allWellFormed_iff.2 fun f hf => ?_⟩
  have hwell : f.WellFormed (s.registers.total .quantum) (s.registers.total .classical) :=
    houtput f (List.mem_reverse.1 hf)
  rw [hs.tiled.total, hs.tiled.total] at hwell
  exact hwell

/-- An analysis makes a well-formed program, whether it reports errors or not. -/
theorem ofSource_wellFormed (config : Config) (source : String) :
    (ofSource config source).WellFormed := by
  obtain ⟨hcore, houtput⟩ := program_wellFormed
    (nestingBound (Program.parse source).1) (Program.parse source).1 (Program.parse source).2 config
  exact flatProgram_wellFormed hcore houtput _ config

/-- Whatever transformations follow an analysis, each operation has different qubits of the program, bits of
the program, and as many operands and parameters as its gate takes, and each condition reads bits of the
program. So no operation is left out of the dependencies that the depth is computed from. -/
theorem operations_wellFormed (config : Config) (source : String) (ts : List Transformation) :
    let p := ts.foldl Transformation.apply (ofSource config source)
    FlatStatement.AllWellFormed p.qubitCount p.clbitCount p.statements ∧
      (FlatStatement.addAllTo p.qubitCount p.clbitCount [] .empty p.statements).ops =
        p.operations := by
  have hwell := Transformation.foldl_wellFormed (ofSource_wellFormed config source) ts
  have hmeasures := FlatStatement.measures_addAllTo hwell.statements (List.forall_mem_nil _)
    Circuit.measures_empty
  refine ⟨hwell.statements, ?_⟩
  rw [hmeasures.ops_eq, List.nil_append, FlatStatement.map_operation_allConditioned,
    FlatProgram.operations_eq]

/-- The depth of an analyzed program, whatever transformations follow, is the greatest number of layers of a
chain of its operations. -/
theorem depth_isGreatest (config : Config) (source : String) (ts : List Transformation) :
    let p := ts.foldl Transformation.apply (ofSource config source)
    IsGreatest (Conditioned.Lengths (FlatStatement.allConditioned [] p.statements) fun _ => True)
      p.depth := by
  have hwell := Transformation.foldl_wellFormed (ofSource_wellFormed config source) ts
  exact (FlatStatement.measures_addAllTo hwell.statements (List.forall_mem_nil _)
    Circuit.measures_empty).longest

end Analysis

end OpenQasm
