import OpenQasm.Proofs.GateCalls
import OpenQasm.Proofs.TandemParameters

/-!
Gates in tandem. The operations of the second run are those of the first one on the corresponding qubits: for
elementary gates, under modifiers, in calls on whole registers, and for the bodies of gates, in which the
operands are bound to corresponding qubits.
-/
namespace OpenQasm

namespace Wiring

/-- Corresponding lists of qubits. -/
def Operands (W : Wiring) (qs rs : List Nat) : Prop := (∀ q ∈ qs, W.Declared q) ∧ rs = qs.map W.qubit

/-- The same operations on corresponding qubits. -/
def Operations (W : Wiring) (ops ops' : List Instruction) : Prop :=
  (∀ i ∈ ops, ∀ q ∈ i.qubits, W.Declared q) ∧ ops' = ops.map (Instruction.mapQubits W.qubit)

variable {W : Wiring} {qs rs : List Nat} {ops ops' more more' : List Instruction}

theorem operations_nil (W : Wiring) : W.Operations [] [] := ⟨nofun, rfl⟩

theorem Operations.append (h : W.Operations ops ops') (h' : W.Operations more more') :
    W.Operations (ops ++ more) (ops' ++ more') :=
  ⟨List.forall_mem_append.2 ⟨h.1, h'.1⟩, by rw [h.2, h'.2, List.map_append]⟩

theorem Operations.replicate (h : W.Operations ops ops') (n : Nat) :
    W.Operations (List.replicate n ops).flatten (List.replicate n ops').flatten := by
  induction n with
  | zero => exact W.operations_nil
  | succ n ih =>
    simp only [List.replicate_succ, List.flatten_cons]
    exact h.append ih

theorem firstRepeated_map {seen : List Nat} (hseen : ∀ q ∈ seen, W.Declared q) (hqs : ∀ q ∈ qs, W.Declared q) :
    Instruction.firstRepeated (seen.map W.qubit) (qs.map W.qubit) =
      (Instruction.firstRepeated seen qs).map W.qubit := by
  induction qs generalizing seen with
  | nil => rfl
  | cons q qs ih =>
    obtain ⟨hq, hrest⟩ := List.forall_mem_cons.1 hqs
    -- Different qubits of the first run correspond to different qubits.
    have hmem : W.qubit q ∈ seen.map W.qubit ↔ q ∈ seen := by
      refine ⟨fun h => ?_, List.mem_map_of_mem⟩
      obtain ⟨p, hp, hpq⟩ := List.mem_map.1 h
      exact W.injective (hseen p hp) hq hpq ▸ hp
    rw [List.map_cons, Instruction.firstRepeated, Instruction.firstRepeated]
    simp only [List.contains_iff_mem, hmem]
    split
    · rfl
    · rw [← List.map_cons]
      exact ih (List.forall_mem_cons.2 ⟨hq, hseen⟩) hrest

theorem firstRepeated_map_nil (W : Wiring) (hqs : ∀ q ∈ qs, W.Declared q) :
    Instruction.firstRepeated [] (qs.map W.qubit) = (Instruction.firstRepeated [] qs).map W.qubit :=
  firstRepeated_map (List.forall_mem_nil _) hqs

end Wiring

theorem Instruction.firstRepeated_mem {seen qs : List Nat} {q : Nat} (h : firstRepeated seen qs = some q) : q ∈ qs := by
  induction qs generalizing seen with
  | nil => nomatch h
  | cons p qs ih =>
    unfold firstRepeated at h
    split at h
    · cases h
      exact List.mem_cons_self
    · exact List.mem_cons_of_mem _ (ih h)

theorem Instruction.inverse?_mapQubits (f : Nat → Nat) (i : Instruction) :
    (i.mapQubits f).inverse? = i.inverse?.map (Instruction.mapQubits f) := by
  obtain ⟨kind, qubits, clbits⟩ := i
  cases kind with
  | gate g =>
    simp only [mapQubits, inverse?, Option.map_map]
    rfl
  | measure | reset | barrier => rfl

theorem Instruction.addControls_mapQubits (f : Nat → Nat) (i : Instruction) (state : Control) (controls : List Nat) :
    (i.mapQubits f).addControls state (controls.map f) = (i.addControls state controls).mapQubits f := by
  obtain ⟨kind, qubits, clbits⟩ := i
  cases kind with
  | gate g => simp only [mapQubits, addControls, List.map_append, List.map_map, Function.comp_def]
  | measure | reset | barrier => rfl

theorem Instruction.mem_addControls {i : Instruction} {state : Control} {controls : List Nat} {q : Nat}
    (h : q ∈ (i.addControls state controls).qubits) : q ∈ controls ∨ q ∈ i.qubits := by
  unfold addControls at h
  split at h
  · exact List.mem_append.1 h
  · exact .inr h

theorem Instruction.qubits_of_inverse? {i j : Instruction} (h : i.inverse? = some j) : j.qubits = i.qubits := by
  unfold inverse? at h
  split at h
  · obtain ⟨g, -, rfl⟩ := Option.map_eq_some_iff.1 h
    rfl
  · cases h
    rfl

namespace Analysis

open KnownModifier

variable {α β : Type} {L : Link} {config : Config} {calls : Calls} {s t : State}

/-- Nothing is done after a failure. -/
theorem Tandem.stops {γ δ : Type} {Q : γ → δ → Prop} {p p' : Problem} {f : α → Analysis γ} {g : β → Analysis δ}
    (hp : L.Strict → p.Alike L.wiring p') :
    Tandem L config Q (Analysis.fail p >>= f) (Analysis.fail p' >>= g) :=
  Tandem.bind (Q := fun _ _ => False) (.failing hp) fun _ _ h => h.elim

theorem Tandem.read {f g : Config → Analysis α} {Q : α → α → Prop} (h : Tandem L config Q (f config) (g config)) :
    Tandem L config Q (MonadReader.read >>= f) (MonadReader.read >>= g) := h

section Operations

variable {qs rs : List Nat} {ops ops' : List Instruction}

theorem gateOn_tandem (g : Except OperationError Gate) (h : L.wiring.Operands qs rs) :
    Tandem L config L.wiring.Operations (gateOn g qs) (gateOn g rs) := by
  obtain ⟨hqs, rfl⟩ := h
  unfold gateOn
  cases g with
  | error e => exact .stops fun _ => .same _
  | ok g =>
    have hrepeated := L.wiring.firstRepeated_map_nil hqs
    simp only [Except.bind, Instruction.ofGate, Instruction.checkDistinct, List.length_map, hrepeated]
    split
    · exact .stops fun _ => .same _
    · cases hfirst : Instruction.firstRepeated [] qs with
      | some q => exact .stops fun _ => .duplicate _ (hqs q (Instruction.firstRepeated_mem hfirst))
      | none => exact .pure ⟨List.forall_mem_singleton.2 hqs, rfl⟩

theorem checkDistinct_tandem (gate : String) (h : L.wiring.Operands qs rs) :
    Tandem L config Eq (checkDistinct gate qs) (checkDistinct gate rs) := by
  obtain ⟨hqs, rfl⟩ := h
  have hrepeated := L.wiring.firstRepeated_map_nil hqs
  unfold checkDistinct
  rw [hrepeated]
  cases hfirst : Instruction.firstRepeated [] qs with
  | none => exact .pure rfl
  | some q =>
    have hq := hqs q (Instruction.firstRepeated_mem hfirst)
    intro s t hst
    show Outcome L Eq (fail (.usedTwice (s.registers.qubitLabel q) gate) config s)
      (fail (.usedTwice (t.registers.qubitLabel (L.wiring.qubit q)) gate) config t)
    rw [hst.registers_eq]
    exact .fail hst fun _ => .usedTwice gate hst.registers hq

theorem inverseOf_tandem {i : Instruction} (hi : ∀ q ∈ i.qubits, L.wiring.Declared q) :
    Tandem L config (fun j k => (∀ q ∈ j.qubits, L.wiring.Declared q) ∧ k = j.mapQubits L.wiring.qubit)
      (inverseOf i) (inverseOf (i.mapQubits L.wiring.qubit)) := by
  unfold inverseOf
  rw [i.inverse?_mapQubits]
  cases hj : i.inverse? with
  | none => exact .fail _
  | some j => exact .pure ⟨Instruction.qubits_of_inverse? hj ▸ hi, rfl⟩

theorem invert_tandem (h : L.wiring.Operations ops ops') :
    Tandem L config L.wiring.Operations (invert ops) (invert ops') := by
  obtain ⟨hops, rfl⟩ := h
  have heach : List.Forall₂ (fun i j => Tandem L config
      (fun j k => (∀ q ∈ j.qubits, L.wiring.Declared q) ∧ k = j.mapQubits L.wiring.qubit) (inverseOf i) (inverseOf j))
      ops.reverse (ops.map (Instruction.mapQubits L.wiring.qubit)).reverse := by
    rw [← List.map_reverse, List.forall₂_map_right_iff, List.forall₂_same]
    exact fun i hi => inverseOf_tandem (hops i (List.mem_reverse.1 hi))
  refine (Tandem.mapM heach).mono fun made made' hmade => ?_
  clear heach
  induction hmade with
  | nil => exact L.wiring.operations_nil
  | cons hfirst _ ih => exact ⟨List.forall_mem_cons.2 ⟨hfirst.1, ih.1⟩, by rw [hfirst.2, ih.2, List.map_cons]⟩

theorem fractionalPower_tandem {i : Instruction} (hi : ∀ q ∈ i.qubits, L.wiring.Declared q) (exponent : Float) :
    Tandem L config L.wiring.Operations (fractionalPower i exponent)
      (fractionalPower (i.mapQubits L.wiring.qubit) exponent) := by
  have hgate : (i.mapQubits L.wiring.qubit).gate? = i.gate? := rfl
  unfold fractionalPower
  rw [hgate]
  split
  · exact .fail _
  · split
    · exact .pure ⟨List.forall_mem_singleton.2 hi, rfl⟩
    · split
      · exact .fail _
      · refine .read ?_
        exact (Tandem.orFail _ _).bindSame fun _ => gateOn_tandem _ ⟨hi, rfl⟩

theorem power_tandem (exponent : Float) {inner inner' : Analysis (List Instruction)}
    (h : Tandem L config L.wiring.Operations inner inner') :
    Tandem L config L.wiring.Operations (power exponent inner) (power exponent inner') := by
  refine .ite (.pure L.wiring.operations_nil) (.ite ?_ ?_)
  · refine .read (.ite (.fail _) (h.bind fun made made' hmade => .ite ?_ ?_))
    · exact (invert_tandem hmade).bind fun _ _ hinverted => .pure (hinverted.replicate _)
    · exact .pure (hmade.replicate _)
  · refine h.bind fun made made' hmade => ?_
    obtain ⟨hqubits, rfl⟩ := hmade
    match made with
    | [] | _ :: _ :: _ => exact .fail _
    | [i] => exact fractionalPower_tandem (hqubits i (List.mem_singleton.2 rfl)) exponent

/-- A gate under modifiers is expanded to the same operations on the corresponding operands. -/
theorem applyModifiers_tandem {target : GateTarget} {params : List Parameter}
    (hgate : ∀ d, target = .user d → ∀ qs rs, L.wiring.Operands qs rs →
      Tandem L config L.wiring.Operations (calls.gate d params qs) (calls.gate d params rs))
    (modifiers : List KnownModifier) (h : L.wiring.Operands qs rs) :
    Tandem L config L.wiring.Operations (applyModifiers calls target params modifiers qs)
      (applyModifiers calls target params modifiers rs) := by
  induction modifiers generalizing qs rs with
  | nil =>
    cases target with
    | builtin g => exact gateOn_tandem _ h
    | external g => exact gateOn_tandem _ h
    | user d => exact hgate d rfl qs rs h
  | cons m rest ih =>
    obtain ⟨hqs, rfl⟩ := h
    cases m with
    | control state n =>
      have hdrop : L.wiring.Operands (qs.drop n) ((qs.map L.wiring.qubit).drop n) :=
        ⟨fun q hq => hqs q (List.mem_of_mem_drop hq), List.map_drop.symm⟩
      refine (ih hdrop).bind fun made made' hmade => .pure ⟨fun i hi q hq => ?_, ?_⟩
      · obtain ⟨j, hj, rfl⟩ := List.mem_map.1 hi
        rcases Instruction.mem_addControls hq with hq | hq
        · exact hqs q (List.mem_of_mem_take hq)
        · exact hmade.1 j hj q hq
      · rw [hmade.2, List.map_map, List.map_map, ← List.map_take]
        exact List.map_congr_left fun i _ => i.addControls_mapQubits _ state _
    | inverse => exact (ih ⟨hqs, rfl⟩).bind fun _ _ hmade => invert_tandem hmade
    | power exponent => exact power_tandem exponent (ih ⟨hqs, rfl⟩)

end Operations

section Broadcasts

/-- Registers are run through in step if all have one length, single qubits apart; else two of their lengths are
in the report. -/
theorem broadcastLength_cases (gate : String) (shared : Option Nat) (operands : List (List Nat)) :
    (∃ n, broadcastLength gate shared operands = pure n ∧ (∀ m, shared = some m → n = m) ∧
      (∀ qs ∈ operands, qs.length = 1 ∨ qs.length = n) ∧
        (shared = none → (∀ qs ∈ operands, qs.length = 1) → n = 1)) ∨
      ∃ m k, broadcastLength gate shared operands = fail (.broadcast gate m k) ∧ m ≠ k ∧ k ≠ 1 ∧
        k ∈ operands.map List.length ∧ (shared = some m ∨ shared = none ∧ m ≠ 1 ∧ m ∈ operands.map List.length) := by
  -- The length that the operands so far have in common is handed on.
  induction operands generalizing shared with
  | nil =>
    refine .inl ⟨shared.getD 1, rfl, ?_, List.forall_mem_nil _, ?_⟩
    · rintro m rfl
      rfl
    · rintro rfl _
      rfl
  | cons qs rest ih =>
    simp only [List.forall_mem_cons, List.map_cons]
    unfold broadcastLength
    by_cases hone : qs.length = 1
    · rw [if_pos hone]
      rcases ih shared with ⟨n, hrun, hshared, heach, hsingle⟩ | ⟨m, k, hrun, hne, hk, hmem, hm⟩
      · exact .inl ⟨n, hrun, hshared, ⟨.inl hone, heach⟩, fun hnone h => hsingle hnone h.2⟩
      · exact .inr ⟨m, k, hrun, hne, hk, .tail _ hmem, hm.imp_right fun h => ⟨h.1, h.2.1, .tail _ h.2.2⟩⟩
    · rw [if_neg hone]
      cases shared with
      | none =>
        rcases ih (some qs.length) with ⟨n, hrun, hshared, heach, -⟩ | ⟨m, k, hrun, hne, hk, hmem, hm⟩
        · have hn := hshared _ rfl
          exact .inl ⟨n, hrun, fun m hm => absurd hm.symm (Option.some_ne_none m), ⟨.inr hn.symm, heach⟩,
            fun _ h => absurd h.1 hone⟩
        · rcases hm with hm | ⟨hm, -⟩
          · obtain rfl := Option.some.inj hm
            exact .inr ⟨_, k, hrun, hne, hk, .tail _ hmem, .inr ⟨rfl, hone, List.mem_cons_self⟩⟩
          · exact absurd hm (Option.some_ne_none qs.length)
      | some l =>
        dsimp only
        by_cases hl : l = qs.length
        · rw [if_pos hl]
          rcases ih (some l) with ⟨n, hrun, hshared, heach, -⟩ | ⟨m, k, hrun, hne, hk, hmem, hm⟩
          · have hn := hshared _ rfl
            exact .inl ⟨n, hrun, hshared, ⟨.inr (hl ▸ hn.symm), heach⟩, fun hl => absurd hl (Option.some_ne_none l)⟩
          · refine .inr ⟨m, k, hrun, hne, hk, .tail _ hmem, ?_⟩
            exact hm.imp_right fun h => ⟨h.1, h.2.1, .tail _ h.2.2⟩
        · rw [if_neg hl]
          exact .inr ⟨l, qs.length, rfl, hl, hone, List.mem_cons_self, .inl rfl⟩

/-- The length of the rows when operands are run through in step. -/
structure InStep (operands : List (List Nat)) (n : Nat) : Prop where
  each : ∀ qs ∈ operands, qs.length = 1 ∨ qs.length = n
  single : (∀ qs ∈ operands, qs.length = 1) → n = 1

/-- The operands of the applications: those at one position of each register, single qubits being repeated. -/
def rows (operands : List (List Nat)) (n : Nat) : List (List Nat) :=
  (List.range n).map fun k => operands.map fun qs => operandAt qs k

theorem broadcast_cases (gate : String) (operands : List (List Nat)) :
    (∃ n, InStep operands n ∧ broadcast gate operands = pure (rows operands n)) ∨
      ∃ m k, m ∈ operands.map List.length ∧ k ∈ operands.map List.length ∧ m ≠ 1 ∧ k ≠ 1 ∧ m ≠ k ∧
        broadcast gate operands = fail (.broadcast gate m k) := by
  unfold broadcast
  rcases broadcastLength_cases gate none operands with ⟨n, hrun, -, heach, hsingle⟩ | ⟨m, k, hrun, hne, hk, hmem, hm⟩
  · rw [hrun, pure_bind]
    exact .inl ⟨n, ⟨heach, hsingle rfl⟩, rfl⟩
  · rw [hrun]
    rcases hm with hm | ⟨-, hm, hmem'⟩
    · nomatch hm
    · exact .inr ⟨m, k, hmem', hmem, hm, hk, hne, rfl⟩

theorem broadcastLength_map (gate : String) (f : Nat → Nat) (shared : Option Nat) (operands : List (List Nat)) :
    broadcastLength gate shared (operands.map (List.map f)) = broadcastLength gate shared operands := by
  induction operands generalizing shared with
  | nil => rfl
  | cons qs rest ih =>
    simp only [List.map_cons, broadcastLength, List.length_map, ih]

theorem operandAt_map (f : Nat → Nat) {qs : List Nat} {n k : Nat} (h : qs.length = 1 ∨ qs.length = n) (hk : k < n) :
    operandAt (qs.map f) k = f (operandAt qs k) := by
  match qs with
  | [_] => rfl
  | [] =>
    obtain h | rfl := h
    · nomatch h
    · exact absurd hk (Nat.not_lt_zero k)
  | p :: q :: rest =>
    have hlength : k < (p :: q :: rest).length := by
      rcases h with h | rfl
      · cases h
      · exact hk
    simp only [List.map_cons, operandAt]
    rw [← List.map_cons, ← List.map_cons, List.getElem?_map, List.getElem?_eq_getElem hlength]
    rfl

theorem broadcast_tandem (gate : String) {operands operands' : List (List Nat)}
    (h : List.Forall₂ L.wiring.Operands operands operands') :
    Tandem L config (List.Forall₂ L.wiring.Operands) (broadcast gate operands) (broadcast gate operands') := by
  have hdeclared : ∀ qs ∈ operands, ∀ q ∈ qs, L.wiring.Declared q := by
    induction h with
    | nil => nofun
    | cons hfirst _ ih => exact List.forall_mem_cons.2 ⟨hfirst.1, ih⟩
  obtain rfl : operands' = operands.map (List.map L.wiring.qubit) := by
    induction h with
    | nil => rfl
    | cons hfirst _ ih => rw [List.map_cons, hfirst.2, ih (List.forall_mem_cons.1 hdeclared).2]
  have hlength := broadcastLength_map gate L.wiring.qubit none operands
  unfold broadcast
  rw [hlength]
  rcases broadcastLength_cases gate none operands with ⟨n, hrun, -, heach, -⟩ | ⟨m, k, hrun, -⟩
  · rw [hrun, pure_bind, pure_bind]
    refine .pure ?_
    rw [List.forall₂_map_left_iff, List.forall₂_map_right_iff, List.forall₂_same]
    intro k hk
    have hk := List.mem_range.1 hk
    refine ⟨fun q hq => ?_, ?_⟩
    · obtain ⟨qs, hqs, rfl⟩ := List.mem_map.1 hq
      exact hdeclared qs hqs _ (operandAt_mem (heach qs hqs) hk)
    · rw [List.map_map, List.map_map]
      exact List.map_congr_left fun qs hqs => operandAt_map _ (heach qs hqs) hk
  · rw [hrun]
    exact .stops fun _ => .same _

/-- Applications to corresponding rows of operands give the same operations on corresponding qubits. -/
theorem applyGroups_tandem (gate : String) {apply apply' : List Nat → Analysis (List Instruction)}
    (happly : ∀ qs rs, L.wiring.Operands qs rs → Tandem L config L.wiring.Operations (apply qs) (apply' rs))
    {groups groups' : List (List Nat)} (h : List.Forall₂ L.wiring.Operands groups groups') :
    Tandem L config L.wiring.Operations (applyGroups gate apply groups) (applyGroups gate apply' groups') := by
  induction h with
  | nil => exact .pure L.wiring.operations_nil
  | cons hfirst _ ih =>
    refine (checkDistinct_tandem gate hfirst).bindSame fun _ => ?_
    refine (happly _ _ hfirst).bind fun ops ops' hops => ?_
    exact ih.bind fun more more' hmore => .pure (hops.append hmore)

end Broadcasts

section Calls

theorem resolveGate_tandem (hL : L.Sound) {name : String} (hname : L.name name = name) {E : GateDefinition → Prop}
    (hE : ∀ {a b d}, L.scopes a b → a.gate? name = some d → E d) :
    Tandem L config (fun g h => h = g ∧ ∀ d, g = .user d → E d) (resolveGate name) (resolveGate name) := by
  intro s t hst
  unfold resolveGate
  rw [lookup_bind, lookup_bind]
  rcases hx : s.scopes.resolve? name with - | x
  · rcases hy : t.scopes.resolve? name with - | y
    · exact .fail hst fun _ => .same _
    · exact .lost _ (hL.missing hst.scopes hx (hname.symm ▸ hy)).1
  · obtain ⟨y, hy, hxy⟩ := hL.found hst.scopes hx
    rw [hname] at hy
    rw [hy]
    dsimp only
    have hgate {d : GateDefinition} (hd : x.binding = .gate d) : E d := by
      refine hE hst.scopes ?_
      rw [Scopes.gate?, hx, Option.bind_some, Symbol.gate?, hd]
    obtain ⟨-, hwired⟩ | hequals := hxy
    · cases hwired with
      | same _ =>
        cases hbinding : x.binding with
        | builtin g | external g => exact .ok ⟨rfl, fun d hd => GateTarget.noConfusion hd⟩ hst
        | gate d => exact .ok ⟨rfl, fun e he => GateTarget.user.inj he ▸ hgate hbinding⟩ hst
        | none | qubits _ | clbits _ | param _ | subroutine _ => exact .fail hst fun _ => .same _
      | qubits hx _ =>
        rw [hx]
        exact .fail hst fun _ => .same _
    · rw [hequals.bindings.1, hequals.bindings.2]
      exact .fail hst fun _ => .same _

theorem controlCount_tandem (hL : L.Sound) (e : Option Expr) (he : L.Allows (optionCallees e)) :
    Tandem L config Eq (controlCount calls e) (controlCount calls (optionRename L.name e)) := by
  cases e with
  | none => exact .pure rfl
  | some e =>
    refine (fold_tandem hL e he).bindSame fun v => ?_
    split
    · exact .ite (.fail _) (.ite (.pure rfl) (.fail _))
    · exact .fail _
    · exact .fail _

theorem powerExponent_tandem (hL : L.Sound) (e : Expr) (he : L.Allows e.callees) :
    Tandem L config Eq (powerExponent calls e) (powerExponent calls (e.rename L.name)) := by
  refine (fold_tandem hL e he).bindSame fun v => ?_
  split
  · split
    · exact .pure rfl
    · exact .fail _
  · exact .fail _

theorem evalModifier_tandem (hL : L.Sound) (m : Modifier) (hm : L.Allows m.callees) :
    Tandem L config Eq (evalModifier calls m) (evalModifier calls (m.rename L.name)) := by
  cases m with
  | ctrl n => exact (controlCount_tandem hL n hm).bindSame fun _ => .pure rfl
  | negctrl n => exact (controlCount_tandem hL n hm).bindSame fun _ => .pure rfl
  | inv => exact .pure rfl
  | pow e => exact (powerExponent_tandem hL e hm).bindSame fun _ => .pure rfl

theorem quantumQubits_tandem (hL : L.Sound) (e : Expr) (he : L.Allows e.callees) :
    Tandem L config L.wiring.Operands (quantumQubits calls e) (quantumQubits calls (e.rename L.name)) := by
  refine Tandem.bind (Q := L.wiring.view) ?_ fun v w hvw => physical_tandem hvw
  refine (viewOf_tandem hL e he).bind fun a b hab => ?_
  cases hab with
  | quantum hvw => exact .pure hvw
  | classical => exact .fail _

/-- A call and the one that reads the other names are expanded to the same operations on corresponding qubits, if
the gates that may be called are. -/
theorem expandCall_tandem (hL : L.Sound) {E : GateDefinition → Prop}
    (hgate : ∀ d params, E d → ∀ qs rs, L.wiring.Operands qs rs →
      Tandem L config L.wiring.Operations (calls.gate d params qs) (calls.gate d params rs))
    (call : GateCall) (hcallees : L.Allows call.callees)
    (hE : ∀ {a b d}, L.scopes a b → a.gate? call.name = some d → E d) :
    Tandem L config L.wiring.Operations (expandCall calls call) (expandCall calls (call.rename L.name)) := by
  obtain ⟨hname, hrest⟩ := Link.allows_cons.1 hcallees
  obtain ⟨hrest, hqubits⟩ := Link.allows_append.1 hrest
  obtain ⟨hmodifiers, hparams⟩ := Link.allows_append.1 hrest
  have hmodifiers' : List.Forall₂ (fun m m' => Tandem L config Eq (evalModifier calls m) (evalModifier calls m'))
      call.modifiers (call.modifiers.map (Modifier.rename L.name)) := by
    rw [List.forall₂_map_right_iff, List.forall₂_same]
    exact fun m hm => evalModifier_tandem hL m fun f hf => hmodifiers f (List.mem_flatMap.2 ⟨m, hm, hf⟩)
  have hparams' : List.Forall₂ (fun e e' => Tandem L config Eq (toParameter calls e) (toParameter calls e'))
      call.params (call.params.map (Expr.rename L.name)) := by
    rw [List.forall₂_map_right_iff, List.forall₂_same]
    exact fun e he => toParameter_tandem hL e fun f hf => hparams f (callees_subset_of_mem he hf)
  have hqubits' : List.Forall₂ (fun e e' => Tandem L config L.wiring.Operands (quantumQubits calls e)
      (quantumQubits calls e')) call.qubits (call.qubits.map (Expr.rename L.name)) := by
    rw [List.forall₂_map_right_iff, List.forall₂_same]
    exact fun e he => quantumQubits_tandem hL e fun f hf => hqubits f (callees_subset_of_mem he hf)
  unfold expandCall
  simp only [GateCall.rename, exprsRename_eq_map, List.length_map]
  refine (resolveGate_tandem hL (hL.callable hname) hE).bind fun target target' htarget => ?_
  obtain ⟨rfl, huser⟩ := htarget
  refine ((Tandem.mapM hmodifiers').mono fun _ _ => List.forall₂_eq_eq_eq ▸ id).bindSame fun written => ?_
  refine .ite (.stops fun _ => .same _) ?_
  refine ((Tandem.mapM hparams').mono fun _ _ => List.forall₂_eq_eq_eq ▸ id).bindSame fun values => ?_
  refine .ite (.stops fun _ => .same _) (.ite (.stops fun _ => .same _) ?_)
  refine (Tandem.mapM hqubits').bind fun operands operands' hoperands => ?_
  refine (broadcast_tandem call.name hoperands).bind fun groups groups' hgroups => ?_
  refine applyGroups_tandem call.name (fun qs rs hqs => applyModifiers_tandem ?_ _ hqs) hgroups
  exact fun d hd => hgate d values (huser d hd)

end Calls

end Analysis
end OpenQasm
