import Mathlib.Algebra.BigOperators.Group.List.Basic
import Mathlib.Algebra.Group.Int.TypeTags
import OpenQasm.Analysis.Statements
import OpenQasm.Proofs.Modifiers

/-!
The algebra of modifiers. Gates are read in any group in which inverse gates are inverse elements and a
control acts as an endomorphism. A list of operations stands for its product, and what modifiers make of
it stands for what they do to that product when they are taken as written, the innermost first.
-/
namespace OpenQasm

open Instruction KnownModifier

/-- A reading of gates in a group. -/
structure GateReading (G : Type*) [Group G] where
  denote : Instruction → G
  /-- What a control in a state on a qubit does. -/
  control : Control → Nat → G →* G
  denote_inverse : ∀ {i j : Instruction}, i.isGate → i.inverse? = some j → denote j = (denote i)⁻¹
  denote_control : ∀ {i : Instruction} (state : Control) (q : Nat), i.isGate →
    denote (i.addControls state [q]) = control state q (denote i)

namespace KnownModifier

/-- The exponents of all powers are whole numbers. -/
def WholePowers (ms : List KnownModifier) : Prop := ∀ x, power x ∈ ms → (Double.whole? x).isSome

/-- The product of two exponents is that of the numbers they are. -/
def ExactProduct (a b : Float) : Prop :=
  Double.whole? (a * b) = (Double.whole? a).bind fun j => (Double.whole? b).map fun k => j * k

/-- Wherever two powers become one while modifiers are put after others, their product is exact. -/
def ExactProducts (stack : List KnownModifier) : List KnownModifier → Prop
  | [] => True
  | m :: ms =>
    (∀ a b rest, stack = power a :: rest → m = power b → ExactProduct a b) ∧
      ExactProducts (push stack m) ms

/-- Powers that lose nothing in doubles. -/
structure ExactPowers (ms : List KnownModifier) : Prop where
  whole : WholePowers ms
  products : ExactProducts [] ms
  /-- A count of repetitions is a word, as the limit of iterations is. -/
  within : ∀ x n, power x ∈ reduce ms → Double.whole? x = some n → n.natAbs < 2 ^ 64

variable {stack : List KnownModifier} {m : KnownModifier}

theorem WholePowers.push (hstack : WholePowers stack) (hm : WholePowers [m])
    (hexact : ∀ a b rest, stack = power a :: rest → m = power b → ExactProduct a b) :
    WholePowers (push stack m) := by
  obtain ⟨rest, rfl, rfl, h⟩ | ⟨a, b, rest, rfl, rfl, h⟩ | h := push_cases stack m
  · rw [h]
    exact fun x hx => hstack x (List.mem_cons_of_mem _ hx)
  · rw [h]
    intro x hx
    rcases List.mem_cons.1 hx with heq | hx
    · obtain rfl := power.inj heq
      have ha := hstack a List.mem_cons_self
      have hb := hm b List.mem_cons_self
      obtain ⟨j, hj⟩ := Option.isSome_iff_exists.1 ha
      obtain ⟨k, hk⟩ := Option.isSome_iff_exists.1 hb
      have hproduct := hexact a b rest rfl rfl
      rw [ExactProduct, hj, hk] at hproduct
      exact Option.isSome_iff_exists.2 ⟨_, hproduct⟩
    · exact hstack x (List.mem_cons_of_mem _ hx)
  · rw [h]
    intro x hx
    rcases List.mem_cons.1 hx with rfl | hx
    · exact hm x List.mem_cons_self
    · exact hstack x hx

/-- Powers stay whole when modifiers are reduced. -/
theorem WholePowers.foldl {ms : List KnownModifier} (hstack : WholePowers stack)
    (hms : WholePowers ms) (hexact : ExactProducts stack ms) :
    WholePowers (ms.foldl KnownModifier.push stack) := by
  induction ms generalizing stack with
  | nil => exact hstack
  | cons m ms ih =>
    obtain ⟨hmerge, hrest⟩ := hexact
    have hm : WholePowers [m] := fun x hx => hms x (List.mem_singleton.1 hx ▸ List.mem_cons_self)
    exact ih (hstack.push hm hmerge) (fun x hx => hms x (List.mem_cons_of_mem _ hx)) hrest

end KnownModifier

namespace GateReading

variable {G : Type*} [Group G] (r : GateReading G)

/-- The ordered product of a list of operations. -/
def product (ops : List Instruction) : G := (ops.map r.denote).prod

/-- Controls in front of an element, the first one outermost. -/
def controlled (state : Control) (controls : List Nat) (g : G) : G :=
  controls.foldr (fun q h => r.control state q h) g

/-- What modifiers do to an element. The first one is the outermost; controls take operands from the
front, and the others go on to the modifiers behind. -/
def applied : List KnownModifier → List Nat → G → G
  | [], _, g => g
  | .control state n :: ms, qubits, g =>
    r.controlled state (qubits.take n) (applied ms (qubits.drop n) g)
  | .inverse :: ms, qubits, g => (applied ms qubits g)⁻¹
  | .power x :: ms, qubits, g => applied ms qubits g ^ (Double.whole? x).getD 0

section Lists

theorem product_nil : r.product [] = 1 := rfl

theorem product_append (ops more : List Instruction) :
    r.product (ops ++ more) = r.product ops * r.product more := by
  rw [product, List.map_append, List.prod_append, product, product]

theorem product_singleton (i : Instruction) : r.product [i] = r.denote i := by
  rw [product, List.map_singleton, List.prod_singleton]

/-- The inverses in reverse order multiply to the inverse. -/
theorem product_inverses {ops inverted : List Instruction} (hgates : AllGates ops)
    (h : inverses? ops = some inverted) : r.product inverted = (r.product ops)⁻¹ := by
  -- The first operation is inverted last.
  induction ops generalizing inverted with
  | nil =>
    obtain rfl : inverted = [] := (Option.some.inj h).symm
    rw [product_nil, inv_one]
  | cons i ops ih =>
    rw [← List.singleton_append] at h ⊢
    obtain ⟨js, is, hjs, his, rfl⟩ := inverses?_append_eq_some.1 h
    rw [inverses?_singleton] at his
    obtain ⟨j, hj, rfl⟩ := Option.map_eq_some_iff.1 his
    have hrest := ih (fun i hi => hgates i (List.mem_cons_of_mem _ hi)) hjs
    have hfirst := r.denote_inverse (hgates i List.mem_cons_self) hj
    rw [product_append, product_append, hrest, product_singleton, hfirst, product_singleton,
      mul_inv_rev]

theorem product_replicate (n : Nat) (ops : List Instruction) :
    r.product (List.replicate n ops).flatten = r.product ops ^ n := by
  rw [product, List.map_flatten, List.map_replicate, List.prod_flatten, List.map_replicate,
    List.prod_replicate, product]

theorem denote_controls {i : Instruction} (hi : i.isGate) (state : Control) (controls : List Nat) :
    r.denote (i.addControls state controls) = r.controlled state controls (r.denote i) := by
  induction controls with
  | nil => rw [addControls_nil, controlled, List.foldr_nil]
  | cons q qs ih =>
    have hstep := r.denote_control state q (isGate_addControls hi state qs)
    rw [addControls_cons, hstep, ih, controlled, controlled, List.foldr_cons]

theorem controlled_one (state : Control) (controls : List Nat) :
    r.controlled state controls 1 = 1 := by
  induction controls with
  | nil => rfl
  | cons q qs ih =>
    show r.control state q (r.controlled state qs 1) = 1
    rw [ih, map_one]

theorem controlled_mul (state : Control) (controls : List Nat) (g h : G) :
    r.controlled state controls (g * h) =
      r.controlled state controls g * r.controlled state controls h := by
  induction controls with
  | nil => rfl
  | cons q qs ih =>
    show r.control state q (r.controlled state qs (g * h)) = _
    rw [ih, map_mul]
    rfl

/-- Controls distribute over the operations of a list. -/
theorem product_controlled {ops : List Instruction} (hgates : AllGates ops) (state : Control)
    (controls : List Nat) :
    r.product (ops.map fun i => i.addControls state controls) =
      r.controlled state controls (r.product ops) := by
  induction ops with
  | nil => exact (r.controlled_one state controls).symm
  | cons i ops ih =>
    have hfirst := r.denote_controls (hgates i List.mem_cons_self) state controls
    have hrest := ih fun i hi => hgates i (List.mem_cons_of_mem _ hi)
    calc r.product ((i :: ops).map fun i => i.addControls state controls)
        = r.denote (i.addControls state controls) *
            r.product (ops.map fun i => i.addControls state controls) := List.prod_cons
      _ = r.controlled state controls (r.denote i) *
            r.controlled state controls (r.product ops) := by rw [hfirst, hrest]
      _ = r.controlled state controls (r.product (i :: ops)) :=
            (r.controlled_mul state controls _ _).symm

end Lists

section Reduction

variable (qubits : List Nat) (g : G)

theorem applied_append (ms more : List KnownModifier) :
    r.applied (ms ++ more) qubits g =
      r.applied ms qubits (r.applied more (qubits.drop (KnownModifier.controlsOf ms)) g) := by
  induction ms generalizing qubits with
  | nil => rfl
  | cons m ms ih =>
    cases m with
    | control state n =>
      have hdrop : (qubits.drop n).drop (KnownModifier.controlsOf ms) =
          qubits.drop (n + KnownModifier.controlsOf ms) := List.drop_drop
      simp only [List.cons_append, applied, ih, hdrop, KnownModifier.controlsOf,
        KnownModifier.controls]
    | inverse =>
      simp only [List.cons_append, applied, ih, KnownModifier.controlsOf, KnownModifier.controls,
        Nat.zero_add]
    | power x =>
      simp only [List.cons_append, applied, ih, KnownModifier.controlsOf, KnownModifier.controls,
        Nat.zero_add]

/-- Two inversions in a row do nothing, and two powers in a row are the power of the product. -/
theorem applied_push {stack : List KnownModifier} {m : KnownModifier}
    (hstack : WholePowers stack) (hm : WholePowers [m])
    (hexact : ∀ a b rest, stack = .power a :: rest → m = .power b → ExactProduct a b)
    (more : List KnownModifier) :
    r.applied ((push stack m).reverse ++ more) qubits g =
      r.applied (stack.reverse ++ m :: more) qubits g := by
  obtain ⟨rest, rfl, rfl, h⟩ | ⟨a, b, rest, rfl, rfl, h⟩ | h := push_cases stack m
  · rw [h, List.reverse_cons, List.append_assoc, applied_append, applied_append]
    exact congrArg _ (inv_inv _).symm
  · have ha := hstack a List.mem_cons_self
    have hb := hm b List.mem_cons_self
    obtain ⟨j, hj⟩ := Option.isSome_iff_exists.1 ha
    obtain ⟨k, hk⟩ := Option.isSome_iff_exists.1 hb
    have hproduct := hexact a b rest rfl rfl
    rw [ExactProduct, hj, hk] at hproduct
    rw [h, List.reverse_cons, List.reverse_cons, List.append_assoc, List.append_assoc,
      r.applied_append _ _ rest.reverse, r.applied_append _ _ rest.reverse]
    apply congrArg
    -- The outer exponent is the left factor.
    show r.applied more _ g ^ (Double.whole? (a * b)).getD 0 =
      (r.applied more _ g ^ (Double.whole? b).getD 0) ^ (Double.whole? a).getD 0
    rw [hproduct, hj, hk]
    show _ ^ (j * k) = (_ ^ k) ^ j
    rw [mul_comm, zpow_mul]
  · rw [h, List.reverse_cons, List.append_assoc, List.singleton_append]

theorem applied_foldl {stack ms : List KnownModifier} (hstack : WholePowers stack)
    (hms : WholePowers ms) (hexact : ExactProducts stack ms) :
    r.applied (ms.foldl push stack).reverse qubits g = r.applied (stack.reverse ++ ms) qubits g := by
  -- What is left of the modifiers so far is on the stack.
  induction ms generalizing stack with
  | nil => rw [List.foldl_nil, List.append_nil]
  | cons m ms ih =>
    obtain ⟨hmerge, hrest⟩ := hexact
    have hm : WholePowers [m] := fun x hx => hms x (List.mem_singleton.1 hx ▸ List.mem_cons_self)
    have htail : WholePowers ms := fun x hx => hms x (List.mem_cons_of_mem _ hx)
    calc r.applied ((m :: ms).foldl push stack).reverse qubits g
        = r.applied ((push stack m).reverse ++ ms) qubits g :=
            ih (hstack.push hm hmerge) htail hrest
      _ = r.applied (stack.reverse ++ m :: ms) qubits g := r.applied_push qubits g hstack hm hmerge ms

/-- Reduced modifiers do what they do as written. -/
theorem applied_reduce {ms : List KnownModifier} (h : ExactPowers ms) :
    r.applied (reduce ms) qubits g = r.applied ms qubits g :=
  r.applied_foldl qubits g (fun _ h => nomatch h) h.whole h.products

end Reduction

end GateReading

section Turns

/-- The phase that a gate turns by, in eighths. -/
def Builtin.eighths : Builtin → Int
  | s => 2
  | sdg => -2
  | t => 1
  | tdg => -1
  | _ => 0

theorem Builtin.eighths_inverse {b c : Builtin} {params params' : List Parameter}
    (h : Gate.inverseOf b params = some (c, params')) : c.eighths = -b.eighths := by
  unfold Gate.inverseOf at h
  split at h
  all_goals cases h
  all_goals next hrule => cases b <;> cases hrule <;> rfl

/-- How often a controlled phase is counted. -/
def Control.factor : Control → Int
  | .positive => 2
  | .negative => 3

/-- The phase of a gate, to which each control gives a factor. -/
def Gate.phase (g : Gate) : Int :=
  match g.kind with
  | .builtin b => (g.controls.map Control.factor).prod * b.eighths
  | .external _ => 0

theorem Gate.phase_inverse {g h : Gate} (hinverse : g.inverse? = some h) : h.phase = -g.phase := by
  unfold inverse? at hinverse
  split at hinverse
  · next b hb =>
    obtain ⟨⟨c, params⟩, hc, hinverse⟩ := Option.bind_eq_some_iff.1 hinverse
    dsimp only at hinverse
    split at hinverse
    · cases hinverse
      simp only [phase, hb, Builtin.eighths_inverse hc, mul_neg]
    · nomatch hinverse
  · nomatch hinverse

theorem Gate.phase_controlled (g : Gate) (state : Control) :
    phase { g with controls := state :: g.controls } = g.phase * state.factor := by
  obtain ⟨kind, params, controls⟩ := g
  cases kind with
  | builtin b =>
    show (state.factor :: controls.map Control.factor).prod * b.eighths =
      (controls.map Control.factor).prod * b.eighths * state.factor
    rw [List.prod_cons, mul_assoc, mul_comm]
  | external g => exact (zero_mul _).symm

/-- Phases as whole numbers. -/
def phaseReading : GateReading (Multiplicative Int) where
  denote i := .ofAdd ((i.gate?.map Gate.phase).getD 0)
  control state _ := zpowGroupHom state.factor
  denote_inverse := by
    rintro ⟨kind, qubits, clbits⟩ j hi h
    cases kind with
    | gate g =>
      obtain ⟨g', hg', rfl⟩ := Option.map_eq_some_iff.1 h
      exact congrArg Multiplicative.ofAdd (Gate.phase_inverse hg')
    | measure => nomatch hi
    | reset => nomatch hi
    | barrier => nomatch hi
  denote_control := by
    rintro ⟨kind, qubits, clbits⟩ state q hi
    cases kind with
    | gate g =>
      show Multiplicative.ofAdd (Gate.phase { g with controls := state :: g.controls }) =
        Multiplicative.ofAdd g.phase ^ state.factor
      rw [Gate.phase_controlled, Int.ofAdd_mul]
    | measure => nomatch hi
    | reset => nomatch hi
    | barrier => nomatch hi

end Turns

namespace Analysis

variable {G : Type*} [Group G] (r : GateReading G) {calls : Calls} {target : GateTarget}
  {params : List Parameter} {config : Config} {s t : State} {ops : List Instruction}

/-- Modifiers make of the operations of a gate what they do to the product of these. -/
theorem applyModifiers_product {ms : List KnownModifier} {qubits : List Nat} {g : G}
    (hpowers : ∀ x, .power x ∈ ms → ∃ n, Double.whole? x = some n ∧ n.natAbs < 2 ^ 64)
    (hbase : ∀ made u,
      baseOps calls target params (qubits.drop (controlsOf ms)) config s = (.ok made, u) →
        AllGates made ∧ r.product made = g)
    (h : applyModifiers calls target params ms qubits config s = (.ok ops, t)) :
    AllGates ops ∧ r.product ops = r.applied ms qubits g := by
  -- Each modifier acts on what the ones behind it have made, which are run from the same state.
  induction ms generalizing qubits ops t with
  | nil => exact hbase ops t h
  | cons m ms ih =>
    have hrest : ∀ x, .power x ∈ ms → ∃ n, Double.whole? x = some n ∧ n.natAbs < 2 ^ 64 :=
      fun x hx => hpowers x (List.mem_cons_of_mem _ hx)
    cases m with
    | control state n =>
      obtain ⟨inner, u, hinner, hops⟩ := run_bind_eq_ok.1 h
      cases hops
      obtain ⟨hgates, hproduct⟩ := ih hrest (List.drop_drop ▸ hbase) hinner
      refine ⟨hgates.controlled state _, ?_⟩
      rw [r.product_controlled hgates, hproduct]
      rfl
    | inverse =>
      obtain ⟨inner, u, hinner, hops⟩ := run_bind_eq_ok.1 h
      obtain ⟨hinverted, rfl⟩ := invert_eq_ok.1 hops
      rw [controlsOf, controls, Nat.zero_add] at hbase
      obtain ⟨hgates, hproduct⟩ := ih hrest hbase hinner
      refine ⟨allGates_inverses? hgates hinverted, ?_⟩
      rw [r.product_inverses hgates hinverted, hproduct]
      rfl
    | power x =>
      obtain ⟨n, hx, hn⟩ := hpowers x List.mem_cons_self
      have happlied : r.applied (.power x :: ms) qubits g = r.applied ms qubits g ^ n := by
        rw [GateReading.applied, hx]
        rfl
      rw [controlsOf, controls, Nat.zero_add] at hbase
      rw [happlied]
      obtain ⟨rfl, rfl, -⟩ | ⟨once, each, honce, rfl, hsign⟩ := power_eq_ok hx hn h
      · exact ⟨(fun _ hi => by cases hi), (zpow_zero _).symm⟩
      obtain ⟨hgates, hproduct⟩ := ih hrest hbase honce
      obtain ⟨hpositive, rfl⟩ | ⟨hnegative, heach⟩ := hsign
      · refine ⟨hgates.repeated _, ?_⟩
        rw [r.product_replicate, hproduct, ← zpow_natCast, Int.natAbs_of_nonneg hpositive.le]
      · refine ⟨(allGates_inverses? hgates heach).repeated _, ?_⟩
        rw [r.product_replicate, r.product_inverses hgates heach, hproduct, inv_pow,
          ← zpow_natCast, ← zpow_neg]
        congr 1
        omega

/-- Cancelling, merging, repeating, reversing and distributing do not change what modifiers mean: the
operations that a gate under modifiers becomes stand for what the modifiers as written do to the product
of the operations of the gate. -/
theorem applyModifiers_denotes {ms : List KnownModifier} {base : List Instruction} {qubits : List Nat}
    (hpowers : ExactPowers ms) (hgates : AllGates base)
    (hbase : ∀ made u,
      baseOps calls target params (qubits.drop (controlsOf ms)) config s = (.ok made, u) → made = base)
    (h : applyModifiers calls target params (reduce ms) qubits config s = (.ok ops, t)) :
    r.product ops = r.applied ms qubits (r.product base) := by
  have hwhole : WholePowers (ms.foldl push []) :=
    WholePowers.foldl (fun _ h => nomatch h) hpowers.whole hpowers.products
  have hreduced : ∀ x, .power x ∈ reduce ms → ∃ n, Double.whole? x = some n ∧ n.natAbs < 2 ^ 64 := by
    intro x hx
    obtain ⟨n, hn⟩ := Option.isSome_iff_exists.1 (hwhole x (List.mem_reverse.1 hx))
    exact ⟨n, hn, hpowers.within x n hx hn⟩
  have hmade : ∀ made u, baseOps calls target params (qubits.drop (controlsOf (reduce ms))) config s =
      (.ok made, u) → AllGates made ∧ r.product made = r.product base := by
    intro made u hrun
    rw [controlsOf_reduce] at hrun
    obtain rfl := hbase made u hrun
    exact ⟨hgates, rfl⟩
  have hproduct := (applyModifiers_product r hreduced hmade h).2
  rw [hproduct, r.applied_reduce qubits _ hpowers]

/-- Two inversions that cancel, and two powers that become one, before a control and a power. -/
def mixedModifiers : List KnownModifier :=
  [.inverse, .inverse, .power 2.0, .power (-1.0), .control .positive 1, .power 3.0]

theorem mixedModifiers_exact : ExactPowers mixedModifiers where
  whole := by
    intro x hx
    simp only [mixedModifiers, List.mem_cons, reduceCtorEq, power.injEq, List.not_mem_nil,
      false_or, or_false] at hx
    obtain rfl | rfl | rfl := hx
    all_goals decide
  products := by
    have hproduct : ExactProduct 2.0 (-1.0) := by
      unfold ExactProduct
      decide
    refine ⟨nofun, nofun, nofun, ?_, nofun, nofun, trivial⟩
    rintro _ _ _ ⟨⟩ ⟨⟩
    exact hproduct
  within := by
    have hreduced : reduce mixedModifiers =
        [.power (2.0 * -1.0), .control .positive 1, .power 3.0] := rfl
    have hfirst : Double.whole? (2.0 * -1.0) = some (-2) := by decide
    have hlast : Double.whole? 3.0 = some 3 := by decide
    intro x n hx hn
    simp only [hreduced, List.mem_cons, reduceCtorEq, power.injEq, List.not_mem_nil, false_or,
      or_false] at hx
    obtain rfl | rfl := hx
    · obtain rfl := Option.some.inj (hfirst.symm.trans hn)
      decide
    · obtain rfl := Option.some.inj (hlast.symm.trans hn)
      decide

theorem applyModifiers_denotes_phase : ∃ base ops,
    baseOps (Calls.nested 0) (.builtin .s) [] [1] Config.default State.initial =
      (.ok base, State.initial) ∧
    applyModifiers (Calls.nested 0) (.builtin .s) [] (reduce mixedModifiers) [0, 1] Config.default
      State.initial = (.ok ops, State.initial) ∧
    ops.length = 6 ∧
    phaseReading.product ops = phaseReading.applied mixedModifiers [0, 1] (phaseReading.product base) := by
  let phaseGate : Instruction := ⟨.gate ⟨.builtin .s, [], []⟩, [1], []⟩
  let inverseGate : Instruction := ⟨.gate ⟨.builtin .sdg, [], [.positive]⟩, [0, 1], []⟩
  have hops : applyModifiers (Calls.nested 0) (.builtin .s) [] (reduce mixedModifiers) [0, 1]
      Config.default State.initial = (.ok (List.replicate 6 inverseGate), State.initial) := rfl
  refine ⟨[phaseGate], List.replicate 6 inverseGate, rfl, hops, rfl, ?_⟩
  refine applyModifiers_denotes phaseReading mixedModifiers_exact ?_ ?_ hops
  · intro i hi
    obtain rfl := List.mem_singleton.1 hi
    rfl
  · rintro made u ⟨⟩
    rfl

end Analysis
end OpenQasm
