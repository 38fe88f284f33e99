import OpenQasm.Proofs.Agreement
import OpenQasm.Proofs.Instructions
import OpenQasm.Proofs.WholeNumbers

/-!
What modifiers make of a list of operations, where they succeed: inversion reverses it, a power repeats it
or its inverse, and controls are put in front of each operation.
-/
namespace OpenQasm

namespace Gate

/-- Controls do not matter to the inverse. -/
theorem inverse?_controls {g h : Gate} (hinverse : g.inverse? = some h) (states : List Control) :
    inverse? { g with controls := states ++ g.controls } =
      some { h with controls := states ++ h.controls } := by
  obtain ⟨kind, params, controls⟩ := g
  cases kind with
  | external g => nomatch hinverse
  | builtin b =>
    obtain ⟨⟨c, params'⟩, hinner, hinverse⟩ := Option.bind_eq_some_iff.1 hinverse
    dsimp only at hinverse
    split at hinverse
    · next hlength =>
      cases hinverse
      simp only [inverse?, Option.bind_eq_bind, hinner, Option.bind_some, if_pos hlength]
    · nomatch hinverse

end Gate

namespace Instruction

/-- Several controls are put in front one by one, the last one first. -/
theorem addControls_cons (i : Instruction) (state : Control) (q : Nat) (qs : List Nat) :
    i.addControls state (q :: qs) = (i.addControls state qs).addControls state [q] := by
  unfold addControls
  split <;> simp_all

theorem addControls_nil (i : Instruction) (state : Control) : i.addControls state [] = i := by
  unfold addControls
  obtain ⟨kind, qubits, clbits⟩ := i
  cases kind with
  | gate g => rfl
  | measure => rfl
  | reset => rfl
  | barrier => rfl

theorem isGate_addControls {i : Instruction} (h : i.isGate) (state : Control) (controls : List Nat) :
    (i.addControls state controls).isGate := by
  unfold addControls
  split
  · rfl
  · exact h

theorem isGate_inverse? {i j : Instruction} (hi : i.isGate) (h : i.inverse? = some j) : j.isGate := by
  unfold inverse? at h
  split at h
  · obtain ⟨g, -, rfl⟩ := Option.map_eq_some_iff.1 h
    rfl
  · cases h
    exact hi

/-- The inverse of a controlled operation is the controlled inverse. -/
theorem inverse?_addControls {i j : Instruction} (h : i.inverse? = some j) (state : Control)
    (controls : List Nat) :
    (i.addControls state controls).inverse? = some (j.addControls state controls) := by
  obtain ⟨kind, qubits, clbits⟩ := i
  cases kind with
  | gate g =>
    obtain ⟨h, hinverse, rfl⟩ := Option.map_eq_some_iff.1 h
    have hcontrolled := Gate.inverse?_controls hinverse (controls.map fun _ => state)
    simp only [addControls, inverse?, hcontrolled, Option.map_some]
  | measure =>
    cases h
    rfl
  | reset =>
    cases h
    rfl
  | barrier =>
    cases h
    rfl

/-- All operations are gates. -/
def AllGates (ops : List Instruction) : Prop := ∀ i ∈ ops, i.isGate

namespace AllGates

variable {ops more : List Instruction}

theorem append (h : AllGates ops) (hmore : AllGates more) : AllGates (ops ++ more) :=
  fun i hi => (List.mem_append.1 hi).elim (h i) (hmore i)

theorem controlled (h : AllGates ops) (state : Control) (controls : List Nat) :
    AllGates (ops.map fun i => i.addControls state controls) := by
  intro j hj
  obtain ⟨i, hi, rfl⟩ := List.mem_map.1 hj
  exact isGate_addControls (h i hi) state controls

theorem repeated (h : AllGates ops) (k : Nat) : AllGates (List.replicate k ops).flatten := by
  intro i hi
  obtain ⟨once, honce, hi⟩ := List.mem_flatten.1 hi
  exact h i ((List.mem_replicate.1 honce).2 ▸ hi)

end AllGates

/-- The inverse of a list of operations: their inverses in reverse order, if all of them have one. -/
def inverses? (ops : List Instruction) : Option (List Instruction) := ops.reverse.mapM inverse?

theorem inverses?_append {ops more : List Instruction} :
    inverses? (ops ++ more) =
      (inverses? more).bind fun js => (inverses? ops).map fun is => js ++ is := by
  unfold inverses?
  rw [List.reverse_append, List.mapM_append]
  rcases more.reverse.mapM inverse? with - | js
  · rfl
  · rcases ops.reverse.mapM inverse? with - | is
    · rfl
    · rfl

theorem inverses?_append_eq_some {ops more inverted : List Instruction} :
    inverses? (ops ++ more) = some inverted ↔
      ∃ js is, inverses? more = some js ∧ inverses? ops = some is ∧ js ++ is = inverted := by
  simp [inverses?_append, Option.bind_eq_some_iff, Option.map_eq_some_iff]

theorem inverses?_singleton (i : Instruction) : inverses? [i] = i.inverse?.map ([·]) := by
  unfold inverses?
  rw [List.reverse_singleton, List.mapM_cons]
  rcases i.inverse? with - | j
  · rfl
  · rfl

/-- The inverse of controlled operations is the controlled inverse. -/
theorem inverses?_controlled {ops inverted : List Instruction} (h : inverses? ops = some inverted)
    (state : Control) (controls : List Nat) :
    inverses? (ops.map fun i => i.addControls state controls) =
      some (inverted.map fun i => i.addControls state controls) := by
  induction ops generalizing inverted with
  | nil =>
    obtain rfl : inverted = [] := (Option.some.inj h).symm
    rfl
  | cons i ops ih =>
    rw [← List.singleton_append] at h
    obtain ⟨js, is, hjs, his, rfl⟩ := inverses?_append_eq_some.1 h
    rw [inverses?_singleton] at his
    obtain ⟨j, hj, rfl⟩ := Option.map_eq_some_iff.1 his
    have hfirst : inverses? [i.addControls state controls] = some [j.addControls state controls] := by
      rw [inverses?_singleton, inverse?_addControls hj]
      rfl
    rw [List.map_cons, ← List.singleton_append, List.map_append]
    exact inverses?_append_eq_some.2 ⟨_, _, ih hjs, hfirst, rfl⟩

/-- The inverse of repeated operations is the repeated inverse. -/
theorem inverses?_repeated {ops inverted : List Instruction} (h : inverses? ops = some inverted)
    (k : Nat) :
    inverses? (List.replicate k ops).flatten = some (List.replicate k inverted).flatten := by
  induction k with
  | zero => rfl
  | succ k ih =>
    -- The first copy is inverted last, which makes no difference to copies of one list.
    have hlast : (List.replicate (k + 1) inverted).flatten =
        (List.replicate k inverted).flatten ++ inverted := by
      rw [List.replicate_succ', List.flatten_append, List.flatten_singleton]
    rw [List.replicate_succ, List.flatten_cons, hlast]
    exact inverses?_append_eq_some.2 ⟨_, _, ih, h, rfl⟩

/-- What inversion keeps of each operation holds of an inverted list. -/
theorem forall_inverses? {P : Instruction → Prop} (hP : ∀ i j, P i → i.inverse? = some j → P j)
    {ops inverted : List Instruction} (h : ∀ i ∈ ops, P i) (hinverted : inverses? ops = some inverted) :
    ∀ j ∈ inverted, P j := by
  induction ops generalizing inverted with
  | nil =>
    obtain rfl : inverted = [] := (Option.some.inj hinverted).symm
    nofun
  | cons i ops ih =>
    obtain ⟨hi, hops⟩ := List.forall_mem_cons.1 h
    rw [← List.singleton_append] at hinverted
    obtain ⟨js, is, hjs, his, rfl⟩ := inverses?_append_eq_some.1 hinverted
    rw [inverses?_singleton] at his
    obtain ⟨j, hj, rfl⟩ := Option.map_eq_some_iff.1 his
    exact List.forall_mem_append.2 ⟨ih hops hjs, List.forall_mem_singleton.2 (hP i j hi hj)⟩

theorem allGates_inverses? {ops inverted : List Instruction} (h : AllGates ops)
    (hinverted : inverses? ops = some inverted) : AllGates inverted :=
  forall_inverses? (fun _ _ => isGate_inverse?) h hinverted

/-- A gate with some controls in front of its operands, among others that it may have. -/
def Under (states : List Control) (controls : List Nat) (i : Instruction) : Prop :=
  ∃ g, i.gate? = some g ∧ states <+: g.controls ∧ controls <+: i.qubits

namespace Under

variable {states : List Control} {controls : List Nat} {i j : Instruction}

theorem controlled (h : Under states controls i) (state : Control) (more : List Nat) :
    Under (List.replicate more.length state ++ states) (more ++ controls) (i.addControls state more) := by
  obtain ⟨kind, qubits, clbits⟩ := i
  obtain ⟨g, hg, hstates, hcontrols⟩ := h
  cases kind with
  | gate g' =>
    obtain rfl : g' = g := Option.some.inj hg
    refine ⟨_, rfl, ?_, (List.prefix_append_right_inj more).2 hcontrols⟩
    show _ <+: more.map (fun _ => state) ++ g'.controls
    rw [List.map_const']
    exact (List.prefix_append_right_inj _).2 hstates
  | measure => nomatch hg
  | reset => nomatch hg
  | barrier => nomatch hg

theorem inverse (h : Under states controls i) (hj : i.inverse? = some j) : Under states controls j := by
  obtain ⟨kind, qubits, clbits⟩ := i
  obtain ⟨g, hg, hstates, hcontrols⟩ := h
  cases kind with
  | gate g' =>
    obtain rfl : g' = g := Option.some.inj hg
    obtain ⟨g'', hinverse, rfl⟩ := Option.map_eq_some_iff.1 hj
    have hsame : g''.controls = g'.controls := (Gate.inverse?_shape hinverse).2.1
    exact ⟨g'', rfl, hsame ▸ hstates, hcontrols⟩
  | measure => nomatch hg
  | reset => nomatch hg
  | barrier => nomatch hg

end Under

end Instruction

namespace KnownModifier

/-- A modifier that is put after others cancels with the last one, becomes one with it or stays. -/
theorem push_cases (stack : List KnownModifier) (m : KnownModifier) :
    (∃ rest, stack = inverse :: rest ∧ m = inverse ∧ push stack m = rest) ∨
      (∃ a b rest, stack = power a :: rest ∧ m = power b ∧ push stack m = power (a * b) :: rest) ∨
      push stack m = m :: stack := by
  unfold push
  split
  · exact Or.inl ⟨_, rfl, rfl, rfl⟩
  · exact Or.inr (Or.inl ⟨_, _, _, rfl, rfl, rfl⟩)
  · exact Or.inr (Or.inr rfl)

/-- The states of the controls that a modifier adds. -/
def states : KnownModifier → List Control
  | control state n => List.replicate n state
  | inverse | power _ => []

/-- The states of the controls that modifiers add, the outermost first. -/
def controlStates (ms : List KnownModifier) : List Control := ms.flatMap states

theorem length_controlStates (ms : List KnownModifier) :
    (controlStates ms).length = controlsOf ms := by
  induction ms with
  | nil => rfl
  | cons m ms ih =>
    have hm : m.states.length = m.controls := by
      cases m with
      | control state n => exact List.length_replicate
      | inverse => rfl
      | power x => rfl
    rw [controlStates, List.flatMap_cons, List.length_append, hm, controlsOf]
    exact congrArg _ ih

theorem controlStates_foldl (stack ms : List KnownModifier) :
    controlStates (ms.foldl push stack).reverse = controlStates stack.reverse ++ controlStates ms := by
  -- What cancels or becomes one has no controls.
  induction ms generalizing stack with
  | nil => exact (List.append_nil _).symm
  | cons m ms ih =>
    have hpush : controlStates (push stack m).reverse = controlStates stack.reverse ++ m.states := by
      unfold controlStates
      obtain ⟨rest, rfl, rfl, h⟩ | ⟨a, b, rest, rfl, rfl, h⟩ | h := push_cases stack m
      · rw [h, List.reverse_cons, List.flatMap_append]
        exact ((List.append_nil _).trans (List.append_nil _)).symm
      · rw [h, List.reverse_cons, List.reverse_cons, List.flatMap_append, List.flatMap_append]
        exact (List.append_nil _).symm
      · rw [h, List.reverse_cons, List.flatMap_append, List.flatMap_singleton]
    rw [List.foldl_cons, ih, hpush, List.append_assoc]
    rfl

/-- Reduced modifiers add the controls that they add as written. -/
theorem controlStates_reduce (ms : List KnownModifier) :
    controlStates (reduce ms) = controlStates ms :=
  (controlStates_foldl [] ms).trans (List.nil_append _)

theorem controlsOf_reduce (ms : List KnownModifier) : controlsOf (reduce ms) = controlsOf ms := by
  rw [← length_controlStates, ← length_controlStates, controlStates_reduce]

/-- Controls and whole powers, which a list of operations and its inverse go through alike. -/
def Uniform : KnownModifier → Prop
  | control _ _ => True
  | inverse => False
  | power x => ∃ n, Double.whole? x = some n ∧ n.natAbs < 2 ^ 64

end KnownModifier

namespace Analysis

open Instruction

variable {config : Config} {s t : State} {ops : List Instruction}

theorem inverseOf_eq_ok {i j : Instruction} :
    inverseOf i config s = (.ok j, t) ↔ i.inverse? = some j ∧ t = s := by
  unfold inverseOf
  rcases i.inverse? with - | k
  · constructor
    · nofun
    · nofun
  · constructor
    · rintro ⟨⟩
      exact ⟨rfl, rfl⟩
    · rintro ⟨⟨⟩, rfl⟩
      rfl

theorem mapM_inverseOf_eq_ok {is js : List Instruction} :
    is.mapM inverseOf config s = (.ok js, t) ↔ is.mapM inverse? = some js ∧ t = s := by
  induction is generalizing js with
  | nil =>
    constructor
    · rintro ⟨⟩
      exact ⟨rfl, rfl⟩
    · rintro ⟨⟨⟩, rfl⟩
      rfl
  | cons i is ih =>
    rw [List.mapM_cons, List.mapM_cons]
    constructor
    · intro h
      obtain ⟨j, u, hj, h⟩ := run_bind_eq_ok.1 h
      obtain ⟨js, v, hjs, h⟩ := run_bind_eq_ok.1 h
      cases h
      obtain ⟨hsome, rfl⟩ := inverseOf_eq_ok.1 hj
      obtain ⟨hall, rfl⟩ := ih.1 hjs
      rw [hsome, hall]
      exact ⟨rfl, rfl⟩
    · rintro ⟨h, rfl⟩
      obtain ⟨j, hj, h⟩ := Option.bind_eq_some_iff.1 h
      obtain ⟨js, hjs, h⟩ := Option.bind_eq_some_iff.1 h
      cases h
      refine run_bind_eq_ok.2 ⟨j, t, inverseOf_eq_ok.2 ⟨hj, rfl⟩, ?_⟩
      exact run_bind_eq_ok.2 ⟨js, t, ih.2 ⟨hjs, rfl⟩, rfl⟩

theorem invert_eq_ok {inverted : List Instruction} :
    invert ops config s = (.ok inverted, t) ↔ inverses? ops = some inverted ∧ t = s :=
  mapM_inverseOf_eq_ok

/-- A power with a whole exponent repeats the operations, or their inverse if it is negative. -/
theorem power_whole {x : Float} {n : Int} (hx : Double.whole? x = some n) (hn : n.natAbs < 2 ^ 64)
    (inner : Analysis (List Instruction)) :
    power x inner =
      if n = 0 then pure []
      else do
        let limit := (← read).maxLoopIterations
        if x.abs > limit.toUInt64.toFloat then fail (.powerLimit x limit)
        else do
          let once ← inner
          let each ← if n < 0 then invert once else pure once
          return (List.replicate n.natAbs each).flatten := by
  have hzero : (x == 0.0) = decide (n = 0) := by
    rw [Bool.eq_iff_iff, Double.beq_zero_of_whole hx, decide_eq_true_iff]
  have hnegative : x < 0.0 ↔ n < 0 := Double.lt_zero_of_whole hx
  have hwhole : isWhole x = true := by rw [isWhole, hx]; rfl
  unfold power
  rw [hzero, hwhole, Double.abs_toNat_of_whole hx hn]
  simp only [decide_eq_true_iff, if_true, hnegative]

/-- What a power with a whole exponent makes of the operations that are made once. -/
theorem power_eq_ok {x : Float} {n : Int} {inner : Analysis (List Instruction)}
    (hx : Double.whole? x = some n) (hn : n.natAbs < 2 ^ 64)
    (h : power x inner config s = (.ok ops, t)) :
    (n = 0 ∧ ops = [] ∧ t = s) ∨
      ∃ once each, inner config s = (.ok once, t) ∧ ops = (List.replicate n.natAbs each).flatten ∧
        ((0 < n ∧ each = once) ∨ (n < 0 ∧ inverses? once = some each)) := by
  rw [power_whole hx hn] at h
  split at h
  · next hzero =>
    cases h
    exact Or.inl ⟨hzero, rfl, rfl⟩
  · next hzero =>
    obtain ⟨_, _, ⟨⟩, h⟩ := run_bind_eq_ok.1 h
    dsimp only at h
    split at h
    · nomatch h
    · obtain ⟨once, u, honce, h⟩ := run_bind_eq_ok.1 h
      split at h
      · next hnegative =>
        obtain ⟨each, v, heach, h⟩ := run_bind_eq_ok.1 h
        cases h
        obtain ⟨hinverted, rfl⟩ := invert_eq_ok.1 heach
        exact Or.inr ⟨once, each, honce, rfl, Or.inr ⟨hnegative, hinverted⟩⟩
      · next hnegative =>
        cases h
        exact Or.inr ⟨once, once, honce, rfl, Or.inl ⟨by omega, rfl⟩⟩

variable {calls : Calls} {target : GateTarget} {params : List Parameter}

open KnownModifier

theorem power_inverse {x : Float} {n : Int} (hx : Double.whole? x = some n) (hn : n.natAbs < 2 ^ 64)
    {inner inner' : Analysis (List Instruction)}
    (hinner : ∀ once u, inner config s = (.ok once, u) →
      ∃ plain, inner' config s = (.ok plain, u) ∧ inverses? plain = some once)
    (h : power x inner config s = (.ok ops, t)) :
    ∃ plain, power x inner' config s = (.ok plain, t) ∧ inverses? plain = some ops := by
  rw [power_whole hx hn] at h ⊢
  split at h
  · next hzero =>
    cases h
    rw [if_pos hzero]
    exact ⟨[], rfl, rfl⟩
  · next hzero =>
    rw [if_neg hzero]
    obtain ⟨_, _, ⟨⟩, h⟩ := run_bind_eq_ok.1 h
    dsimp only at h
    split at h
    · nomatch h
    · next hlimit =>
      obtain ⟨once, u, honce, h⟩ := run_bind_eq_ok.1 h
      obtain ⟨plain, hplain, hinverse⟩ := hinner once u honce
      split at h
      -- Without the `inv` a negative power makes what the positive one makes with it.
      · next hnegative =>
        obtain ⟨each, v, heach, h⟩ := run_bind_eq_ok.1 h
        cases h
        obtain ⟨hinverted, rfl⟩ := invert_eq_ok.1 heach
        refine ⟨(List.replicate n.natAbs once).flatten, ?_, inverses?_repeated hinverted _⟩
        refine run_bind_eq_ok.2 ⟨config, s, rfl, ?_⟩
        dsimp only
        rw [if_neg hlimit]
        refine run_bind_eq_ok.2 ⟨plain, _, hplain, ?_⟩
        rw [if_pos hnegative]
        exact run_bind_eq_ok.2 ⟨once, _, invert_eq_ok.2 ⟨hinverse, rfl⟩, rfl⟩
      · next hnegative =>
        cases h
        refine ⟨(List.replicate n.natAbs plain).flatten, ?_, inverses?_repeated hinverse _⟩
        refine run_bind_eq_ok.2 ⟨config, s, rfl, ?_⟩
        dsimp only
        rw [if_neg hlimit]
        refine run_bind_eq_ok.2 ⟨plain, _, hplain, ?_⟩
        rw [if_neg hnegative]
        rfl

/-- An `inv` behind controls and whole powers inverts all that is made without it. -/
theorem applyModifiers_inverse {front back : List KnownModifier} {qubits : List Nat}
    (hfront : ∀ m ∈ front, m.Uniform)
    (h : applyModifiers calls target params (front ++ .inverse :: back) qubits config s = (.ok ops, t)) :
    ∃ plain, applyModifiers calls target params (front ++ back) qubits config s = (.ok plain, t) ∧
      inverses? plain = some ops := by
  induction front generalizing qubits ops t with
  | nil =>
    obtain ⟨plain, u, hplain, hops⟩ := run_bind_eq_ok.1 h
    obtain ⟨hinverted, rfl⟩ := invert_eq_ok.1 hops
    exact ⟨plain, hplain, hinverted⟩
  | cons m front ih =>
    obtain ⟨hm, hrest⟩ := List.forall_mem_cons.1 hfront
    cases m with
    | control state n =>
      obtain ⟨inner, u, hinner, hops⟩ := run_bind_eq_ok.1 h
      cases hops
      obtain ⟨plain, hplain, hinverse⟩ := ih hrest hinner
      refine ⟨plain.map fun i => i.addControls state (qubits.take n), ?_, ?_⟩
      · exact run_bind_eq_ok.2 ⟨plain, t, hplain, rfl⟩
      · exact inverses?_controlled hinverse state _
    | inverse => exact hm.elim
    | power x =>
      obtain ⟨n, hx, hn⟩ := hm
      exact power_inverse hx hn (fun _ _ honce => ih hrest honce) h

end Analysis
end OpenQasm
