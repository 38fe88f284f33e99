import OpenQasm.Proofs.FlatStatements
import OpenQasm.Proofs.Frame

/-!
The warnings about qubits that are measured twice, counted along the operations of the flat program. Whether a
qubit was measured is noted beside the operations; a step keeps both in tally when what it notes and what it
reports is what a reader of its operations would find, whatever operations came before. A step that reports
an error, or fails with one, is excused, since a program with an error has no warnings to count.
-/
namespace OpenQasm

namespace Instruction

variable {i : Instruction} {before ops more : List Instruction} {q : Nat}

/-- What an operation is noted for with a qubit: that it measures or resets it. -/
def usageOf (q : Nat) (i : Instruction) : Option Usage :=
  if q ∈ i.qubits then
    match i.kind with
    | .measure => some .measured
    | .reset => some .reset
    | .gate _ | .barrier => none
  else none

/-- The last measurement or reset of a qubit. -/
def lastUsage (q : Nat) (ops : List Instruction) : Option Usage := ops.reverse.findSome? (usageOf q)

/-- Whether an operation measures a qubit that was last measured by the operations before it. -/
def remeasures (before : List Instruction) (i : Instruction) : Bool :=
  i.isMeasure && i.qubits.any fun q => lastUsage q before = some .measured

/-- How many operations measure a qubit that was last measured, where others come before them. -/
def countRemeasured (before : List Instruction) : List Instruction → Nat
  | [] => 0
  | i :: is => (if remeasures before i then 1 else 0) + countRemeasured (before ++ [i]) is

/-- An operation that neither measures nor resets. -/
def Unnoted (i : Instruction) : Prop := i.isMeasure = false ∧ i.isReset = false

theorem unnoted_of_gate {g : Gate} (h : i.kind = .gate g) : i.Unnoted := by
  constructor
  · rw [isMeasure, h]
  · rw [isReset, h]

theorem Unnoted.usageOf (h : i.Unnoted) (q : Nat) : i.usageOf q = none := by
  obtain ⟨hmeasure, hreset⟩ := h
  unfold Instruction.usageOf
  split
  · rcases i with ⟨kind, qubits, clbits⟩
    cases kind with
    | measure => nomatch hmeasure
    | reset => nomatch hreset
    | gate _ => rfl
    | barrier => rfl
  · rfl

theorem lastUsage_snoc (q : Nat) (ops : List Instruction) (i : Instruction) :
    lastUsage q (ops ++ [i]) = (i.usageOf q).or (lastUsage q ops) := by
  rw [lastUsage, List.reverse_append, List.reverse_singleton, List.singleton_append, List.findSome?_cons]
  cases i.usageOf q <;> rfl

theorem lastUsage_append (h : ∀ i ∈ ops, Unnoted i) : lastUsage q (before ++ ops) = lastUsage q before := by
  induction ops generalizing before with
  | nil => rw [List.append_nil]
  | cons i is ih =>
    rw [List.append_cons, ih fun j hj => h j (List.mem_cons_of_mem _ hj), lastUsage_snoc,
      (h i List.mem_cons_self).usageOf]
    rfl

theorem countRemeasured_append (before ops more : List Instruction) :
    countRemeasured before (ops ++ more) = countRemeasured before ops + countRemeasured (before ++ ops) more := by
  induction ops generalizing before with
  | nil =>
    rw [List.append_nil]
    exact (Nat.zero_add _).symm
  | cons i is ih =>
    rw [List.cons_append, countRemeasured, countRemeasured, ih, List.append_cons before i is, Nat.add_assoc]

theorem countRemeasured_unnoted (h : ∀ i ∈ ops, Unnoted i) : countRemeasured before ops = 0 := by
  induction ops generalizing before with
  | nil => rfl
  | cons i is ih =>
    rw [countRemeasured, ih fun j hj => h j (List.mem_cons_of_mem _ hj), remeasures,
      (h i List.mem_cons_self).1]
    rfl

/-- The count goes over the positions of the operations. -/
theorem countRemeasured_eq (before ops : List Instruction) :
    countRemeasured before ops = ((List.range ops.length).filter fun k =>
      (ops[k]?).any (remeasures (before ++ ops.take k))).length := by
  induction ops generalizing before with
  | nil => rfl
  | cons i is ih =>
    have htail : ((List.range is.length).map Nat.succ).filter (fun k =>
          ((i :: is)[k]?).any (remeasures (before ++ (i :: is).take k))) =
        ((List.range is.length).filter fun k =>
          (is[k]?).any (remeasures (before ++ [i] ++ is.take k))).map Nat.succ := by
      rw [List.filter_map]
      congr 1
      refine List.filter_congr fun k _ => ?_
      rw [Function.comp_apply, List.getElem?_cons_succ, List.take_succ_cons, List.append_assoc]
      rfl
    have hhead : ((i :: is)[0]?).any (remeasures (before ++ (i :: is).take 0)) = remeasures before i := by
      rw [List.getElem?_cons_zero, List.take_zero, List.append_nil, Option.any_some]
    rw [countRemeasured, ih, List.length_cons, List.range_succ_eq_map, List.filter_cons, htail, hhead]
    cases remeasures before i
    · rw [if_neg Bool.false_ne_true, if_neg Bool.false_ne_true, List.length_map, Nat.zero_add]
    · rw [if_pos rfl, if_pos rfl, List.length_cons, List.length_map, Nat.add_comm]

end Instruction

/-- Whether a report is about a qubit that is measured twice. -/
def Diagnostic.isRemeasurement (d : Diagnostic) : Bool :=
  match d.problem with
  | .remeasured _ => true
  | _ => false

namespace Registers

variable {r r' : Registers} {before ops : List Instruction} {q : Nat} {usage : Usage}

/-- The qubits that are noted as measured are those that operations have measured last. -/
def Notes (r : Registers) (ops : List Instruction) : Prop :=
  ∀ q, r.measured.contains q = true ↔ Instruction.lastUsage q ops = some .measured

theorem Notes.unnoted (h : r.Notes before) (hmeasured : r'.measured = r.measured)
    (hops : ∀ i ∈ ops, i.Unnoted) : r'.Notes (before ++ ops) := by
  intro p
  rw [hmeasured, Instruction.lastUsage_append hops]
  exact h p

/-- An operation on one qubit that measures or resets it. -/
theorem lastUsage_used {i : Instruction} (hqubits : i.qubits = [q])
    (hkind : i.kind = .measure ∧ usage = .measured ∨ i.kind = .reset ∧ usage = .reset) (p : Nat) :
    Instruction.lastUsage p (before ++ [i]) =
      if p = q then some usage else Instruction.lastUsage p before := by
  rw [Instruction.lastUsage_snoc, Instruction.usageOf, hqubits]
  by_cases hp : p = q
  · rw [if_pos (List.mem_singleton.2 hp), if_pos hp]
    rcases hkind with ⟨hkind, rfl⟩ | ⟨hkind, rfl⟩ <;> rw [hkind] <;> rfl
  · rw [if_neg (hp ∘ List.mem_singleton.1), if_neg hp]
    rfl

/-- What is done to a qubit that is there is noted, and reported if it is a second measurement. -/
theorem mark_of_holder (h : (holder? .quantum q 0 r.list).isSome = true) (usage : Usage) :
    ((r.mark q usage).1.isSome = decide (usage = .measured ∧ r.measured.contains q = true)) ∧
      ∀ p, (r.mark q usage).2.measured.contains p =
        if p = q then decide (usage = .measured) else r.measured.contains p := by
  obtain ⟨⟨id, x⟩, hholder⟩ := Option.isSome_iff_exists.1 h
  have heq (p : Nat) : compare q p = .eq ↔ p = q := Std.LawfulEqCmp.compare_eq_iff_eq.trans eq_comm
  unfold mark
  rw [hholder]
  by_cases hmeasured : usage = .measured
  · subst hmeasured
    refine ⟨?_, fun p => ?_⟩
    · dsimp only
      rw [if_pos rfl]
      cases r.measured.contains q <;> rfl
    · dsimp only
      rw [if_pos rfl, Std.TreeSet.contains_insert]
      by_cases hp : p = q
      · rw [if_pos hp, (heq p).2 hp]
        rfl
      · rw [if_neg hp, beq_eq_false_iff_ne.2 (hp ∘ (heq p).1), Bool.false_or]
  · refine ⟨?_, fun p => ?_⟩
    · dsimp only
      rw [if_neg hmeasured, decide_eq_false fun h => hmeasured h.1]
      rfl
    · dsimp only
      rw [if_neg hmeasured, Std.TreeSet.contains_erase]
      by_cases hp : p = q
      · rw [if_pos hp, (heq p).2 hp, decide_eq_false hmeasured]
        rfl
      · rw [if_neg hp, bne_iff_ne.2 (hp ∘ (heq p).1), Bool.true_and]

end Registers

namespace Analysis

variable {α : Type} {s t u : State} {ops more : List Instruction}

/-- An error was reported, or the analysis has ended. -/
def State.Spoiled (s : State) : Prop := s.halted = true ∨ ∃ d ∈ s.diagnostics, d.severity = .error

theorem State.Spoiled.mono (h : s.Spoiled) (hframe : Frame s t) : t.Spoiled :=
  h.imp hframe.halted fun ⟨d, hd, herror⟩ => ⟨d, hframe.diagnostics.subset hd, herror⟩

/-- A failure is because of an error, which may be reported already. -/
def Accounted (s : State) : Failure → Prop
  | .statement d | .construct d => d.severity = .error
  | .leaving | .reported => s.Spoiled

/-- How many warnings about second measurements there are. -/
def State.warnings (s : State) : Nat := s.diagnostics.countP Diagnostic.isRemeasurement

/-- What is noted and reported between two states is what some operations are noted and reported for. -/
def Tally (s t : State) (ops : List Instruction) : Prop :=
  ∀ before, s.registers.Notes before → t.registers.Notes (before ++ ops) ∧
    t.warnings = s.warnings + Instruction.countRemeasured before ops

/-- What is noted and reported between two states is in tally with what is put out. -/
def Tallied (s t : State) : Prop :=
  ∃ added, t.output = added ++ s.output ∧ Tally s t (FlatStatement.opsOf added.reverse)

/-- Nothing is noted, reported or put out. -/
structure Quiet (s t : State) : Prop where
  output : t.output = s.output
  measured : t.registers.measured = s.registers.measured
  diagnostics : t.diagnostics = s.diagnostics
  halted : t.halted = s.halted

theorem State.Spoiled.quiet (h : s.Spoiled) (hquiet : Quiet s t) : t.Spoiled := by
  unfold State.Spoiled
  rw [hquiet.halted, hquiet.diagnostics]
  exact h

theorem Accounted.quiet {e : Failure} (h : Accounted s e) (hquiet : Quiet s t) : Accounted t e := by
  cases e with
  | statement d => exact h
  | construct d => exact h
  | leaving => exact State.Spoiled.quiet h hquiet
  | reported => exact State.Spoiled.quiet h hquiet

theorem Tally.trans (h : Tally s t ops) (h' : Tally t u more) : Tally s u (ops ++ more) := by
  intro before hbefore
  obtain ⟨hnotes, hwarnings⟩ := h before hbefore
  obtain ⟨hnotes', hwarnings'⟩ := h' _ hnotes
  rw [List.append_assoc] at hnotes'
  refine ⟨hnotes', ?_⟩
  rw [hwarnings', hwarnings, Instruction.countRemeasured_append, Nat.add_assoc]

theorem tally_unnoted (hmeasured : t.registers.measured = s.registers.measured)
    (hdiagnostics : t.diagnostics = s.diagnostics) (hops : ∀ i ∈ ops, i.Unnoted) : Tally s t ops := by
  intro before hbefore
  refine ⟨hbefore.unnoted hmeasured hops, ?_⟩
  rw [State.warnings, State.warnings, hdiagnostics, Instruction.countRemeasured_unnoted hops]
  rfl

namespace Tallied

theorem trans (h : Tallied s t) (h' : Tallied t u) : Tallied s u := by
  obtain ⟨first, hfirst, htally⟩ := h
  obtain ⟨second, hsecond, htally'⟩ := h'
  refine ⟨second ++ first, by rw [hsecond, hfirst, List.append_assoc], ?_⟩
  rw [List.reverse_append, FlatStatement.opsOf_append]
  exact htally.trans htally'

theorem quiet (h : Quiet s t) : Tallied s t :=
  ⟨[], h.output, tally_unnoted h.measured h.diagnostics (List.forall_mem_nil _)⟩

/-- A flat statement without measurements and resets is put out. -/
theorem emitted (s : State) {f : FlatStatement} (hf : ∀ i ∈ f.ops, i.Unnoted) :
    Tallied s { s with output := f :: s.output } := by
  refine ⟨[f], rfl, tally_unnoted rfl rfl ?_⟩
  rw [List.reverse_singleton, FlatStatement.opsOf, FlatStatement.opsOf, List.append_nil]
  exact hf

/-- A qubit that is there is measured or reset, and this is noted. -/
theorem used {i : Instruction} {q : Nat} {usage : Usage} {span : Span} (hqubits : i.qubits = [q])
    (hkind : i.kind = .measure ∧ usage = .measured ∨ i.kind = .reset ∧ usage = .reset)
    (hholder : (Registers.holder? .quantum q 0 s.registers.list).isSome = true)
    (houtput : t.output = .op i :: s.output) (hregisters : t.registers = (s.registers.mark q usage).2)
    (hdiagnostics : t.diagnostics =
      ((s.registers.mark q usage).1.map fun w => ⟨.remeasured w, span⟩).toList ++ s.diagnostics) :
    Tallied s t := by
  refine ⟨[.op i], houtput, fun before hbefore => ?_⟩
  obtain ⟨hwarns, hmeasured⟩ := Registers.mark_of_holder hholder usage
  have hops : FlatStatement.opsOf [FlatStatement.op i].reverse = [i] := rfl
  rw [hops]
  constructor
  · intro p
    rw [hregisters, hmeasured, Registers.lastUsage_used hqubits hkind]
    by_cases hp : p = q
    · rw [if_pos hp, if_pos hp, decide_eq_true_eq, Option.some_inj]
    · rw [if_neg hp, if_neg hp]
      exact hbefore p
  · have hone : Instruction.countRemeasured before [i] =
        if (s.registers.mark q usage).1.isSome then 1 else 0 := by
      have hremeasures : Instruction.remeasures before i = (s.registers.mark q usage).1.isSome := by
        rw [hwarns, Instruction.remeasures, hqubits, List.any_cons, List.any_nil, Bool.or_false,
          Instruction.isMeasure]
        rcases hkind with ⟨hkind, rfl⟩ | ⟨hkind, rfl⟩
        · rw [hkind, Bool.true_and]
          exact decide_eq_decide.2 ((hbefore q).symm.trans (and_iff_right rfl).symm)
        · rw [hkind]
          rfl
      rw [Instruction.countRemeasured, Instruction.countRemeasured, hremeasures, Nat.add_zero]
    rw [hone, State.warnings, State.warnings, hdiagnostics, List.countP_append, Nat.add_comm]
    cases (s.registers.mark q usage).1 <;> rfl

end Tallied

/-- An outcome from a state whose notes and reports are in tally with its output, unless there was an error. -/
structure Tallies (s : State) (result : Except Failure α × State) : Prop where
  ok : ∀ a, result.1 = .ok a → result.2.Spoiled ∨ Tallied s result.2
  error : ∀ e, result.1 = .error e → Accounted result.2 e

namespace Tallies

variable {β : Type} {a : α} {e : Failure}

theorem of_ok (h : Tallied s t) : Tallies s (.ok a, t) := ⟨fun _ _ => Or.inr h, fun _ h => nomatch h⟩

theorem of_spoiled (h : t.Spoiled) : Tallies s (.ok a, t) := ⟨fun _ _ => Or.inl h, fun _ h => nomatch h⟩

theorem quiet (h : Quiet s t) : Tallies s (.ok a, t) := of_ok (.quiet h)

theorem throw (h : Accounted t e) : Tallies s ((.error e, t) : Except Failure α × State) := by
  refine ⟨(fun _ h => nomatch h), ?_⟩
  rintro _ ⟨⟩
  exact h

/-- A failure is handed on. -/
theorem failed (h : Tallies s ((.error e, t) : Except Failure α × State)) :
    Tallies s ((.error e, t) : Except Failure β × State) := throw (h.error e rfl)

/-- Another result is handed on. -/
theorem onResult {b : β} (h : Tallies s (.ok a, t)) : Tallies s (.ok b, t) := ⟨fun _ _ => h.ok a rfl, fun _ h => nomatch h⟩

/-- One step goes on where another one has ended. -/
theorem trans {result : Except Failure β × State} (h : Tallies s (.ok a, t)) (hframe : Frame t result.2)
    (h' : Tallies t result) : Tallies s result := by
  refine ⟨fun b hb => ?_, h'.error⟩
  rcases h.ok a rfl with hspoiled | htallied
  · exact Or.inl (hspoiled.mono hframe)
  · exact (h'.ok b hb).imp_right htallied.trans

/-- A step that is run from a changed state, after which the change is undone. -/
theorem bracket {s' : State} {result : Except Failure α × State} (h : Tallies s' result) (hquiet : Quiet s s')
    (hback : Quiet result.2 u) : Tallies s (result.1, u) := by
  refine ⟨fun a ha => ?_, fun e he => (h.error e he).quiet hback⟩
  rcases h.ok a ha with hspoiled | htallied
  · exact Or.inl (hspoiled.quiet hback)
  · exact Or.inr (((Tallied.quiet hquiet).trans htallied).trans (.quiet hback))

end Tallies

end Analysis

end OpenQasm
