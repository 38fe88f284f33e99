import OpenQasm.Proofs.Inlining
import OpenQasm.Proofs.Modifiers

/-!
Gate calls in which no subroutine is called, neither in the call itself nor in the calls that it is
expanded through. Their expansion gives names to variables and does nothing else: all operations are in
its result.
-/
namespace OpenQasm

def Symbol.gate? (s : Symbol) : Option GateDefinition :=
  match s.binding with
  | .gate d => some d
  | _ => none

namespace Scopes

/-- The gate with a body that a name stands for. -/
def gate? (s : Scopes) (name : String) : Option GateDefinition := (s.resolve? name).bind Symbol.gate?

/-- The gate calls in the body of a gate, and in the bodies of the gates that are called there. -/
inductive Contains (s : Scopes) : GateDefinition → GateCall → Prop
  | here {d : GateDefinition} {call : GateCall} {span : Span} :
    ⟨.gate call, span⟩ ∈ d.body → Contains s d call
  | inside {d e : GateDefinition} {outer call : GateCall} {span : Span} :
    ⟨.gate outer, span⟩ ∈ d.body → (s.enter .gateBody).gate? outer.name = some e →
      Contains s e call → Contains s d call

/-- A gate call in which no subroutine is called, however far it is expanded. -/
structure Quiet (s : Scopes) (call : GateCall) : Prop where
  outside : s.Silent call.callees
  inside : ∀ d inner, s.gate? call.name = some d → s.Contains d inner →
    (s.enter .gateBody).Silent inner.callees

section Lookup

variable {s t u : Scopes} {name : String}

theorem gate?_eq_of_key (h : (s.resolve? name).map Symbol.key = (t.resolve? name).map Symbol.key) :
    s.gate? name = t.gate? name := by
  refine Symbol.bind_eq_of_key (fun x y hbinding => ?_) h
  unfold Symbol.gate?
  rw [hbinding]

theorem Same.gate? (h : Same s t) (name : String) : t.gate? name = s.gate? name :=
  gate?_eq_of_key (h.resolve? name).symm

/-- The body of a gate sees the same wherever it is entered. -/
theorem resolve?_gateBody (h : s.global.map Symbol.key = t.global.map Symbol.key) (name : String) :
    ((s.enter .gateBody).resolve? name).map Symbol.key =
      ((t.enter .gateBody).resolve? name).map Symbol.key :=
  Same.globalSymbol? h true name

/-- Only names that stand for no gate with a body and no subroutine are declared in the current scope. -/
structure Shadows (s t : Scopes) : Prop where
  grows : Grows s t
  gate : ∀ name d, t.gate? name = some d → s.gate? name = some d
  subroutine : ∀ name d, t.subroutine? name = some d → s.subroutine? name = some d

namespace Shadows

theorem refl (s : Scopes) : Shadows s s := ⟨Grows.refl s, fun _ _ h => h, fun _ _ h => h⟩

theorem trans (h : Shadows s t) (h' : Shadows t u) : Shadows s u :=
  ⟨h.grows.trans h'.grows, fun name d hd => h.gate name d (h'.gate name d hd),
    fun name d hd => h.subroutine name d (h'.subroutine name d hd)⟩

theorem push {x : Symbol} (hgate : x.gate? = none) (hsubroutine : x.subroutine? = none) :
    Shadows s (s.push x) := by
  refine ⟨grows_push s x, fun name d hd => ?_, fun name d hd => ?_⟩
  · obtain ⟨y, hy, hd'⟩ := Option.bind_eq_some_iff.1 hd
    rcases resolve?_push s x name with hkey | hsame
    · rw [hy] at hkey
      have hbinding : y.binding = x.binding := congrArg (·.2.2) (Option.some.inj hkey)
      rw [Symbol.gate?, hbinding] at hd'
      nomatch hgate.symm.trans hd'
    · rw [gate?, hsame] at hd
      exact hd
  · obtain ⟨y, hy, hd'⟩ := Option.bind_eq_some_iff.1 hd
    rcases resolve?_push s x name with hkey | hsame
    · rw [hy] at hkey
      have hbinding : y.binding = x.binding := congrArg (·.2.2) (Option.some.inj hkey)
      rw [Symbol.subroutine?, hbinding] at hd'
      nomatch hsubroutine.symm.trans hd'
    · rw [subroutine?, hsame] at hd
      exact hd

theorem of_same (h : Same s t) : Shadows s t :=
  ⟨h.grows, fun name _ hd => (h.gate? name).symm.trans hd,
    fun name _ hd => (h.subroutine? name).symm.trans hd⟩

theorem silent (h : Shadows s t) {callees : List String} (hs : s.Silent callees) :
    t.Silent callees := by
  intro f hf
  rcases hd : t.subroutine? f with - | d
  · rfl
  · nomatch (hs f hf).symm.trans (h.subroutine f d hd)

end Shadows

theorem Contains.congr (h : s.global.map Symbol.key = t.global.map Symbol.key) {d : GateDefinition}
    {call : GateCall} (hcall : t.Contains d call) : s.Contains d call := by
  induction hcall with
  | here hmem => exact Contains.here hmem
  | inside hmem hgate _ ih =>
    exact Contains.inside hmem ((gate?_eq_of_key (resolve?_gateBody h _)).trans hgate) ih

theorem silent_gateBody (h : s.global.map Symbol.key = t.global.map Symbol.key)
    {callees : List String} (hs : (s.enter .gateBody).Silent callees) :
    (t.enter .gateBody).Silent callees := fun f hf =>
  (subroutine?_eq_of_key (resolve?_gateBody h f)).symm.trans (hs f hf)

/-- In the body of a gate, the calls that it consists of are quiet if the call of the gate is. -/
theorem Quiet.body {call inner : GateCall} {d : GateDefinition} {span : Span} (h : s.Quiet call)
    (hd : s.gate? call.name = some d) (hinner : ⟨.gate inner, span⟩ ∈ d.body)
    (ht : Shadows (s.enter .gateBody) t) : t.Quiet inner := by
  have hglobal : s.global.map Symbol.key = t.global.map Symbol.key := by
    obtain ⟨global, scopes⟩ := t
    cases scopes with
    | nil => exact ht.grows.elim
    | cons a outer => exact ht.grows.1
  refine ⟨ht.silent (h.inside d inner hd (Contains.here hinner)), fun e c he hc => ?_⟩
  have hcontains : s.Contains d c :=
    Contains.inside hinner (ht.gate _ _ he) (Contains.congr hglobal hc)
  exact silent_gateBody hglobal (h.inside d c hd hcontains)

end Lookup

end Scopes

namespace Analysis

open Instruction

variable {α β : Type}

section Silence

/-- The definitions expanded as before, where no type of a result is looked up. -/
def untyped (calls : Calls) : Calls :=
  { calls with resultType := fun d _ => failConstruct (.recursiveCall d.name) }

theorem untyped_typesResults (calls : Calls) (scopes : Scopes) :
    (untyped calls).TypesResults scopes := fun _ _ _ _ _ => Leaves.failConstruct _

/-- What is declared stays as it is, and a name stands for a subroutine only if it does so there. -/
def fixedScopes (scopes : Scopes) : Invariant :=
  { (StatementInvariant.trivial.toWritingInvariant.staying scopes).toInvariant with
    subroutine := fun f d => scopes.subroutine? f = some d
    resolves_subroutine := by
      intro s name x d hs hx hd
      have hsubroutine : s.scopes.subroutine? name = some d := by
        rw [Scopes.subroutine?, hx, Option.bind_some, Symbol.subroutine?, hd]
      rw [← hs.2.subroutine?]
      exact hsubroutine }

/-- A name weighs nothing unless it stands for a subroutine. -/
def subroutineWeight (scopes : Scopes) (name : String) : Nat :=
  if (scopes.subroutine? name).isSome then 1 else 0

theorem weigh_silent {scopes : Scopes} {callees : List String} (h : scopes.Silent callees) :
    weigh (subroutineWeight scopes) callees ≤ 0 := by
  induction callees with
  | nil => exact Nat.le_refl 0
  | cons f callees ih =>
    obtain ⟨hf, hrest⟩ := Scopes.silent_cons.1 h
    have hzero : subroutineWeight scopes f = 0 := by rw [subroutineWeight, hf]; rfl
    rw [weigh_cons, hzero, Nat.zero_add]
    exact ih hrest

/-- Where no subroutine is called, no type of a result is looked up. -/
theorem untyped_agree (scopes : Scopes) (n : Nat) :
    CallsAgree (fixedScopes scopes) (subroutineWeight scopes) 0 (.nested n) (untyped (.nested n)) := by
  have hweight : ∀ {f d}, scopes.subroutine? f = some d → subroutineWeight scopes f = 1 := by
    intro f d hd
    rw [subroutineWeight, hd]
    rfl
  refine ⟨fun f d args hd hk => ?_, fun f d t hd _ hk => ?_, fun f d params qubits _ _ hnodup => ?_⟩
  · rw [hweight hd] at hk
    omega
  · rw [hweight hd] at hk
    omega
  · intro config s hs hplaces
    have hgate := (nested_staying_trivial scopes n).gate f d params qubits trivial (Nat.le_refl 0) hnodup
    obtain ⟨halike, hkeeps⟩ := hgate config s hs hplaces
    exact ⟨halike, hkeeps.frame, hkeeps.core, hkeeps.putsOut, hkeeps.tallies, hkeeps.post⟩

theorem run_untyped {scopes : Scopes} {x y : Analysis α} {post : α → State → Prop}
    (h : Ensures (fixedScopes scopes) (fun _ => True) x y post) {config : Config} {s : State}
    (hs : scopes.Same s.scopes) : x config s = y config s := by
  obtain ⟨halike, -⟩ := h config s ⟨trivial, hs⟩ trivial
  rcases halike with heq | ⟨d, hd, -⟩ | ⟨d, -, hd⟩
  · exact heq
  · exact hd.elim
  · exact hd.elim

theorem Leaves.of_untyped {scopes : Scopes} {x y : Analysis α} {post : α → State → Prop}
    (h : Ensures (fixedScopes scopes) (fun _ => True) x y post) (hy : Leaves scopes y) :
    Leaves scopes x := by
  intro config s hs
  rw [run_untyped h hs]
  exact hy config s hs

theorem Names.of_untyped {scopes : Scopes} {x y : Analysis α} {post : α → State → Prop}
    (h : Ensures (fixedScopes scopes) (fun _ => True) x y post) (hy : Names scopes y) :
    Names scopes x := by
  intro config s hs
  rw [run_untyped h hs]
  exact hy config s hs

end Silence

section Parts

variable {calls : Calls} {scopes : Scopes}

theorem Leaves.mapM {f : α → Analysis β} (xs : List α) (hf : ∀ x ∈ xs, Leaves scopes (f x)) :
    Leaves scopes (xs.mapM f) := by
  induction xs with
  | nil => exact Leaves.pure _
  | cons x xs ih =>
    obtain ⟨hx, hxs⟩ := List.forall_mem_cons.1 hf
    rw [List.mapM_cons]
    exact hx.bind fun _ => (ih hxs).bind fun _ => Leaves.pure _

theorem Names.mapM {f : α → Analysis β} (xs : List α) (hf : ∀ x ∈ xs, Names scopes (f x)) :
    Names scopes (xs.mapM f) := by
  induction xs with
  | nil => exact Names.pure _
  | cons x xs ih =>
    obtain ⟨hx, hxs⟩ := List.forall_mem_cons.1 hf
    rw [List.mapM_cons]
    exact hx.bind fun _ => (ih hxs).bind fun _ => Names.pure _

theorem evalModifier_leaves (h : calls.TypesResults scopes) (m : Modifier)
    (hs : scopes.Silent m.callees) : Leaves scopes (evalModifier calls m) := by
  have hcount : ∀ e : Option Expr, scopes.Silent (optionCallees e) →
      Leaves scopes (controlCount calls e) := by
    intro e he
    cases e with
    | none => exact Leaves.pure _
    | some e =>
      apply (fold_leaves h e he).bind
      intro v
      split
      · exact Leaves.ite (Leaves.fail _) (Leaves.ite (Leaves.pure _) (Leaves.fail _))
      · exact Leaves.fail _
      · exact Leaves.fail _
  cases m with
  | ctrl n => exact (hcount n hs).bind fun _ => Leaves.pure _
  | negctrl n => exact (hcount n hs).bind fun _ => Leaves.pure _
  | inv => exact Leaves.pure _
  | pow e =>
    refine Leaves.bind ?_ fun _ => Leaves.pure _
    apply (fold_leaves h e hs).bind
    intro v
    split
    · split
      · exact Leaves.pure _
      · exact Leaves.fail _
    · exact Leaves.fail _

theorem parameterLeaf_names (h : calls.TypesResults scopes) (e : Expr)
    (hs : scopes.Silent e.callees) : Names scopes (parameterLeaf calls e) := by
  apply (fold_leaves h e hs).names.bind
  intro v
  split
  · split
    · exact Names.pure _
    · exact Names.fail _
  · apply (residualize_names h e (hs.subset e.hiddenCallees_subset)).bind
    intro r
    split
    · exact Names.pure _
    · exact Names.pure _

mutual

theorem parameterTree_names (h : calls.TypesResults scopes) : ∀ e : Expr,
    scopes.Silent e.callees → Names scopes (parameterTree calls e)
  | .constant c, hs => by
    cases c with
    | pi => exact Names.pure _
    | tau => exact parameterLeaf_names h _ hs
    | euler => exact parameterLeaf_names h _ hs
  | .name n, hs => by
    simp only [parameterTree]
    apply (boundParameter?_leaves n).names.bind
    intro p
    split
    · exact Names.pure _
    · exact parameterLeaf_names h _ hs
  | .paren e, hs => parameterTree_names h e hs
  | .unary op e, hs => by
    cases op with
    | neg => exact (parameterTree_names h e hs).bind fun _ => Names.pure _
    | not => exact parameterLeaf_names h _ hs
    | bitNot => exact parameterLeaf_names h _ hs
  | .binary l op r, hs => by
    obtain ⟨hl, hr⟩ := Scopes.silent_append.1 hs
    simp only [parameterTree]
    split
    · apply (parameterTree_names h l hl).bind
      intro a
      exact (parameterTree_names h r hr).bind fun _ => Names.pure _
    · exact parameterLeaf_names h _ hs
  | .call f args, hs => by
    have hleaf := parameterLeaf_names h (.call f args) hs
    simp only [parameterTree]
    apply (Leaves.resolve? fun x _ => Leaves.pure _ : Leaves scopes (resolve? f)).names.bind
    intro x
    split
    · apply (onlyParameter_names h args (Scopes.silent_cons.1 hs).2).bind
      intro p
      split
      · exact Names.pure _
      · exact hleaf
    · exact hleaf
  | .int _, hs | .float _, hs | .imaginary _, hs | .bool _, hs | .bits _, hs | .duration _ _, hs
  | .index _ _, hs | .cast _ _, hs | .array _, hs | .measure _, hs => parameterLeaf_names h _ hs

theorem onlyParameter_names (h : calls.TypesResults scopes) : ∀ es : List Expr,
    scopes.Silent (exprsCallees es) → Names scopes (onlyParameter calls es)
  | [], _ => Names.pure _
  | [e], hs => (parameterTree_names h e (Scopes.silent_append.1 hs).1).bind fun _ => Names.pure _
  | _ :: _ :: _, _ => Names.pure _

end

theorem toParameter_names (h : calls.TypesResults scopes) (e : Expr) (hs : scopes.Silent e.callees) :
    Names scopes (toParameter calls e) :=
  (parameterTree_names h e hs).bind fun _ => Names.pure _

end Parts

section Applying

variable {calls : Calls} {scopes : Scopes} {x : Analysis α}

theorem Names.ite {c : Prop} [Decidable c] {y : Analysis α} (hx : Names scopes x)
    (hy : Names scopes y) : Names scopes (if c then x else y) := by
  split
  · exact hx
  · exact hy

/-- Nothing is done after a failure. -/
theorem Names.failing (p : Problem) {f : β → Analysis α} :
    Names scopes ((Analysis.fail p : Analysis β) >>= f) := fun _ s _ => Naming.refl s

theorem Leaves.read : Leaves scopes (MonadReader.read : Analysis Config) := fun _ _ _ => rfl

theorem Leaves.state : Leaves scopes (MonadState.get : Analysis State) := fun _ _ _ => rfl

theorem inverseOf_leaves (i : Instruction) : Leaves scopes (inverseOf i) := by
  unfold inverseOf
  split
  · exact Leaves.pure _
  · exact Leaves.fail _

theorem invert_leaves (ops : List Instruction) : Leaves scopes (invert ops) :=
  Leaves.mapM _ fun i _ => inverseOf_leaves i

theorem gateOn_leaves (g : Except OperationError Gate) (qubits : List Nat) :
    Leaves scopes (gateOn g qubits) :=
  (orFail_leaves _ _).bind fun _ => Leaves.pure _

theorem fractionalPower_leaves (i : Instruction) (exponent : Float) :
    Leaves scopes (fractionalPower i exponent) := by
  unfold fractionalPower
  split
  · exact Leaves.fail _
  · split
    · exact Leaves.pure _
    · split
      · exact Leaves.fail _
      · apply Leaves.read.bind
        intro config
        exact (orFail_leaves _ _).bind fun powered => gateOn_leaves _ _

theorem checkDistinct_leaves (gate : String) (qubits : List Nat) :
    Leaves scopes (checkDistinct gate qubits) := by
  unfold checkDistinct
  split
  · exact (Leaves.state.bind fun _ => Leaves.pure _).bind fun _ => Leaves.fail _
  · exact Leaves.pure _

theorem broadcast_leaves (gate : String) (operands : List (List Nat)) :
    Leaves scopes (broadcast gate operands) := by
  have hlength : ∀ shared operands, Leaves scopes (broadcastLength gate shared operands) := by
    intro shared operands
    induction operands generalizing shared with
    | nil => exact Leaves.pure _
    | cons qs rest ih =>
      unfold broadcastLength
      apply Leaves.ite (ih shared)
      split
      · exact ih _
      · exact Leaves.ite (ih _) (Leaves.fail _)
  exact (hlength none operands).bind fun _ => Leaves.pure _

theorem power_names {inner : Analysis (List Instruction)} (hx : Names scopes inner) (exponent : Float) :
    Names scopes (power exponent inner) := by
  unfold power
  apply Names.ite (Names.pure _)
  apply Names.ite
  · apply Leaves.read.names.bind
    intro config
    apply Names.ite (Names.fail _)
    apply hx.bind
    intro once
    exact Names.ite ((invert_leaves once).names.bind fun _ => Names.pure _) (Names.pure _)
  · apply hx.bind
    intro once
    split
    · exact (fractionalPower_leaves _ _).names
    · exact Names.fail _

/-- Modifiers do nothing beside what the gate does. -/
theorem applyModifiers_names {target : GateTarget} {params : List Parameter}
    (hbase : ∀ qubits, Names scopes (baseOps calls target params qubits)) (ms : List KnownModifier)
    (qubits : List Nat) : Names scopes (applyModifiers calls target params ms qubits) := by
  induction ms generalizing qubits with
  | nil => exact hbase qubits
  | cons m ms ih =>
    cases m with
    | control state n => exact (ih _).bind fun _ => Names.pure _
    | inverse => exact (ih _).bind fun ops => (invert_leaves ops).names
    | power exponent => exact power_names (ih _) exponent

theorem applyGroups_names (gate : String) {apply : List Nat → Analysis (List Instruction)}
    (happly : ∀ group, Names scopes (apply group)) (groups : List (List Nat)) :
    Names scopes (applyGroups gate apply groups) := by
  induction groups with
  | nil => exact Names.pure _
  | cons group rest ih =>
    exact (checkDistinct_leaves gate group).names.bind fun _ => (happly group).bind fun _ =>
      ih.bind fun _ => Names.pure _

theorem resolveGate_leaves (name : String) : Leaves scopes (resolveGate name) := by
  apply Leaves.resolve?
  intro x _
  split
  · exact Leaves.fail _
  · split
    · exact Leaves.pure _
    · exact Leaves.pure _
    · exact Leaves.pure _
    · exact Leaves.fail _

theorem resolveGate_user {name : String} {d : GateDefinition} {config : Config} {s t : State}
    (h : resolveGate name config s = (.ok (.user d), t)) : s.scopes.gate? name = some d := by
  obtain ⟨found, u, hfound, h⟩ := run_bind_eq_ok.1 h
  obtain ⟨rfl, rfl⟩ : found = s.scopes.resolve? name ∧ u = s := by
    cases hfound
    exact ⟨rfl, rfl⟩
  rw [Scopes.gate?]
  rcases hx : u.scopes.resolve? name with - | x
  · rw [hx] at h
    nomatch h
  · rw [hx] at h
    dsimp only at h
    rw [Option.bind_some, Symbol.gate?]
    cases hbinding : x.binding with
    | gate e =>
      rw [hbinding] at h
      cases h
      rfl
    | none | qubits _ | clbits _ | param _ | builtin _ | external _ | subroutine _ =>
      rw [hbinding] at h
      nomatch h

end Applying

section Expanding

variable {n : Nat} {scopes : Scopes}

theorem evalModifiers_leaves {ms : List Modifier} (hs : scopes.Silent (ms.flatMap Modifier.callees)) :
    Leaves scopes (ms.mapM (evalModifier (.nested n))) := by
  apply Leaves.mapM
  intro m hm
  have hsilent : scopes.Silent m.callees :=
    hs.subset fun f hf => List.mem_flatMap.2 ⟨m, hm, hf⟩
  exact Leaves.of_untyped (evalModifier_agree (untyped_agree scopes n) m (weigh_silent hsilent))
    (evalModifier_leaves (untyped_typesResults _ _) m hsilent)

theorem callees_subset_of_mem {es : List Expr} {e : Expr} (he : e ∈ es) :
    e.callees ⊆ exprsCallees es := by
  induction es with
  | nil => nomatch he
  | cons e' es ih =>
    rcases List.mem_cons.1 he with rfl | he
    · exact List.subset_append_left _ _
    · exact List.subset_append_of_subset_right _ (ih he)

theorem toParameters_names {es : List Expr} (hs : scopes.Silent (exprsCallees es)) :
    Names scopes (es.mapM (toParameter (.nested n))) := by
  apply Names.mapM
  intro e he
  have hsilent : scopes.Silent e.callees := hs.subset (callees_subset_of_mem he)
  exact Names.of_untyped (toParameter_agree (untyped_agree scopes n) e (weigh_silent hsilent))
    (toParameter_names (untyped_typesResults _ _) e hsilent)

theorem operands_leaves {es : List Expr} (hs : scopes.Silent (exprsCallees es)) :
    Leaves scopes (es.mapM (quantumQubits (.nested n))) := by
  apply Leaves.mapM
  intro e he
  have hsilent : scopes.Silent e.callees := hs.subset (callees_subset_of_mem he)
  exact Leaves.of_untyped (quantumQubits_ensures (untyped_agree scopes n) e (weigh_silent hsilent))
    (quantumQubits_leaves (untyped_typesResults _ _) e hsilent)

open KnownModifier

/-- How a gate call is read before it is applied: what its name stands for, the modifiers as they are
written, the values of the parameters, and the operands of each application. -/
structure Prepares (calls : Calls) (config : Config) (s : State) (call : GateCall)
    (gate : GateTarget) (written : List KnownModifier) (values : List Parameter)
    (applications : List (List Nat)) (t : State) : Prop where
  target : resolveGate call.name config s = (.ok gate, s)
  modifiers : call.modifiers.mapM (evalModifier calls) config s = (.ok written, s)
  arity : call.params.length = gate.params
  params : call.params.mapM (toParameter calls) config s = (.ok values, t)
  bound : gate.qubits + controlsOf (reduce written) < Bound.size
  operands : call.qubits.length = gate.qubits + controlsOf (reduce written)
  groups : ∃ qubits, call.qubits.mapM (quantumQubits calls) config t = (.ok qubits, t) ∧
    broadcast call.name qubits config t = (.ok applications, t)

theorem Prepares.run {calls : Calls} {config : Config} {s t : State} {call : GateCall}
    {gate : GateTarget} {written : List KnownModifier} {values : List Parameter}
    {applications : List (List Nat)}
    (h : Prepares calls config s call gate written values applications t) :
    expandCall calls call config s =
      applyGroups call.name (applyModifiers calls gate values (reduce written)) applications config t := by
  obtain ⟨qubits, hqubits, happlications⟩ := h.groups
  unfold expandCall
  rw [run_bind, h.target]
  dsimp only
  rw [run_bind, h.modifiers]
  dsimp only
  rw [if_neg (not_not.2 h.arity), run_bind, h.params]
  dsimp only
  rw [if_neg (Nat.not_le.2 h.bound), if_neg (not_not.2 h.operands), run_bind, hqubits]
  dsimp only
  rw [run_bind, happlications]

theorem Leaves.state_eq {x : Analysis α} (hx : Leaves scopes x) {config : Config} {s t : State} {a : α}
    (hs : scopes.Same s.scopes) (h : x config s = (.ok a, t)) : s = t :=
  (hx config s hs).symm.trans (congrArg Prod.snd h)

theorem resolveGate_before {name : String} {f : GateTarget → Analysis α}
    (hf : ∀ gate, (∀ d, gate = .user d → scopes.gate? name = some d) → Names scopes (f gate)) :
    Names scopes (resolveGate name >>= f) := by
  intro config s hs
  have hstate := resolveGate_leaves name config s hs
  rw [run_bind]
  rcases hr : resolveGate name config s with ⟨e | gate, t⟩
  · rw [hr] at hstate
    subst hstate
    exact Naming.refl _
  · rw [hr] at hstate
    subst hstate
    refine hf gate (fun d hd => ?_) config _ hs
    rw [hd] at hr
    rw [← hs.gate?]
    exact resolveGate_user hr

/-- Expanding a call in which no subroutine is called at most gives names to variables, if expanding its
gate does so. -/
theorem expandCall_names {call : GateCall} (hs : scopes.Silent call.callees)
    (hgate : ∀ d values qubits, scopes.gate? call.name = some d →
      Names scopes ((Calls.nested n).gate d values qubits)) :
    Names scopes (expandCall (.nested n) call) := by
  obtain ⟨-, hs⟩ := Scopes.silent_cons.1 hs
  obtain ⟨hs, hqubits⟩ := Scopes.silent_append.1 hs
  obtain ⟨hmodifiers, hparams⟩ := Scopes.silent_append.1 hs
  unfold expandCall
  apply resolveGate_before
  intro gate hd
  apply (evalModifiers_leaves hmodifiers).names.bind
  intro written
  apply Names.ite (Names.failing _)
  apply (toParameters_names hparams).bind
  intro values
  apply Names.ite (Names.failing _)
  apply Names.ite (Names.failing _)
  apply (operands_leaves hqubits).names.bind
  intro qubits
  apply (broadcast_leaves _ _).names.bind
  intro applications
  refine applyGroups_names _ (fun group => applyModifiers_names (fun qubits => ?_) _ group) _
  cases gate with
  | builtin g => exact (gateOn_leaves _ _).names
  | external g => exact (gateOn_leaves _ _).names
  | user d => exact hgate d values qubits (hd d rfl)

end Expanding

section Bodies

variable {n : Nat}

/-- A step that declares formal parameters and operands of a gate. -/
def Binds (x : Analysis α) : Prop :=
  ∀ config s, ∃ scopes, Scopes.Shadows s.scopes scopes ∧ (x config s).2 = { s with scopes }

namespace Binds

variable {x : Analysis α} {f : α → Analysis β}

theorem of_leaves (h : ∀ scopes, Leaves scopes x) : Binds x := fun config s =>
  ⟨s.scopes, Scopes.Shadows.refl _, h s.scopes config s (Scopes.Same.refl _)⟩

theorem bind (hx : Binds x) (hf : ∀ a, Binds (f a)) : Binds (x >>= f) := by
  intro config s
  obtain ⟨scopes, hscopes, hstate⟩ := hx config s
  rw [run_bind]
  rcases hr : x config s with ⟨e | a, t⟩
  · rw [hr] at hstate
    exact ⟨scopes, hscopes, hstate⟩
  · rw [hr] at hstate
    obtain ⟨scopes', hscopes', hstate'⟩ := hf a config t
    subst hstate
    exact ⟨scopes', hscopes.trans hscopes', hstate'⟩

theorem declare {y : Symbol} (hgate : y.gate? = none) (hsubroutine : y.subroutine? = none) :
    Binds (declare y) := by
  intro config s
  rw [Analysis.declare, run_get]
  rcases hscopes : s.scopes.declare y with first | scopes
  · exact ⟨s.scopes, Scopes.Shadows.refl _, rfl⟩
  · refine ⟨scopes, ?_, rfl⟩
    rw [Scopes.eq_push_of_declare hscopes]
    exact Scopes.Shadows.push hgate hsubroutine

end Binds

theorem newSymbol_binds (name : String) (kind : SymbolKind) : Binds (newSymbol name kind) :=
  Binds.of_leaves fun _ => Leaves.state.bind fun _ => Leaves.pure _

theorem bindParams_binds (params : List (String × Parameter)) : Binds (bindParams params) := by
  induction params with
  | nil => exact Binds.of_leaves fun _ => Leaves.pure _
  | cons p rest ih =>
    exact (newSymbol_binds _ _).bind fun _ => (Binds.declare rfl rfl).bind fun _ => ih

theorem bindQubits_binds (qubits : List (String × Nat)) : Binds (bindQubits qubits) := by
  induction qubits with
  | nil => exact Binds.of_leaves fun _ => Leaves.pure _
  | cons p rest ih =>
    unfold bindQubits
    apply (Binds.of_leaves fun _ => Leaves.state).bind
    intro s
    split
    · exact Binds.of_leaves fun _ => Leaves.fail _
    · exact (newSymbol_binds _ _).bind fun _ => (Binds.declare rfl rfl).bind fun _ => ih

theorem bodyOps_names {scopes : Scopes} {calls : Calls} : ∀ body : List Statement,
    (∀ call span, ⟨.gate call, span⟩ ∈ body → Names scopes (expandCall calls call)) →
      Names scopes (bodyOps calls body)
  | [], _ => Names.pure _
  | ⟨kind, span⟩ :: rest, h => by
    have hrest := bodyOps_names rest fun call span hcall => h call span (List.mem_cons_of_mem _ hcall)
    cases kind with
    | gate call =>
      have hspan : Names scopes (modify fun state : State => { state with span } : Analysis Unit) :=
        fun _ s _ => ⟨Scopes.Same.refl s.scopes, ⟨[], rfl, nofun⟩, rfl⟩
      exact hspan.bind fun _ => (h call span List.mem_cons_self).bind fun _ =>
        hrest.bind fun _ => Names.pure _
    | _ => exact hrest

/-- Expanding a gate at most gives names to variables, if expanding the calls in its body does so. -/
theorem inlineGate_names {scopes : Scopes} {calls : Calls} {d : GateDefinition}
    (hbody : ∀ t, Scopes.Shadows (scopes.enter .gateBody) t →
      ∀ call span, ⟨.gate call, span⟩ ∈ d.body → Names t (expandCall calls call))
    (values : List Parameter) (qubits : List Nat) :
    Names scopes (inlineGate (bodyOps calls) d values qubits) := by
  intro config s hs
  rcases hcalls : s.calls.contains d.name with _ | _
  · let binding : Analysis Unit :=
      bindParams (d.params.zip values) >>= fun _ => bindQubits (d.qubits.zip qubits)
    have hbinds : Binds binding :=
      (bindParams_binds _).bind fun _ => bindQubits_binds _
    let entered : State := { s with calls := d.name :: s.calls, scopes := s.scopes.enter .gateBody }
    have hrun : inlineGate (bodyOps calls) d values qubits config s =
        followedBy (binding >>= fun _ => bodyOps calls d.body)
          (fun t => { t with scopes := t.scopes.exit, calls := t.calls.tail, span := s.span }) config
          entered := by
      rw [inlineGate_run _ _ _ _ config hcalls, bind_assoc]
    obtain ⟨bound, hbound, hstate⟩ := hbinds config entered
    have hsame : Scopes.Same (scopes.enter .gateBody) (s.scopes.enter .gateBody) :=
      ⟨hs.global, congrArg (List.cons _) hs.inner⟩
    -- The formal names are gone when the scope of the body is left.
    have hexit : ∀ t, Scopes.Grows (s.scopes.enter .gateBody) t → s.scopes.Same t.exit :=
      fun t ht => ht.exit
    rw [hrun, followedBy, run_bind]
    rcases hr : binding config entered with ⟨e | _, t⟩
    · rw [hr] at hstate
      subst hstate
      exact ⟨hexit _ hbound.grows, ⟨[], rfl, nofun⟩, rfl⟩
    · rw [hr] at hstate
      subst hstate
      have hshadows := (Scopes.Shadows.of_same hsame).trans hbound
      have hnames := bodyOps_names d.body (hbody bound hshadows)
      have hnaming := hnames config { entered with scopes := bound } (Scopes.Same.refl bound)
      dsimp only
      rcases hops : bodyOps calls d.body config { entered with scopes := bound } with ⟨r, u⟩
      rw [hops] at hnaming
      exact ⟨hexit _ (hbound.grows.trans hnaming.scopes.grows), hnaming.output, hnaming.diagnostics⟩
  · unfold inlineGate
    rw [run_get, hcalls]
    exact Naming.refl s

/-- A quiet call is expanded with no effect but the names of variables. -/
theorem expandCall_quiet {scopes : Scopes} {call : GateCall} (h : scopes.Quiet call) :
    Names scopes (expandCall (.nested n) call) := by
  -- The depth to which definitions may be nested goes down from a call to the calls in its body.
  induction n generalizing scopes call with
  | zero => exact expandCall_names h.outside fun _ _ _ _ => (Leaves.failConstruct _).names
  | succ n ih =>
    apply expandCall_names h.outside
    intro d values qubits hd
    exact inlineGate_names (fun t ht inner span hinner => ih (h.body hd hinner ht)) values qubits

end Bodies

section Gates

variable {calls : Calls} {config : Config} {s t : State} {ops : List Instruction}

/-- Applications one after another, each with the operations that it gives. -/
inductive Applied (apply : List Nat → Analysis (List Instruction)) (config : Config) :
    List (List Nat) → List (List Instruction) → State → State → Prop
  | nil {s : State} : Applied apply config [] [] s s
  | cons {group : List Nat} {groups : List (List Nat)} {each : List Instruction}
    {opss : List (List Instruction)} {s t u : State} :
    firstRepeated [] group = none → apply group config s = (.ok each, t) →
      Applied apply config groups opss t u → Applied apply config (group :: groups) (each :: opss) s u

theorem applyGroups_eq_ok {gate : String} {apply : List Nat → Analysis (List Instruction)}
    {groups : List (List Nat)} :
    applyGroups gate apply groups config s = (.ok ops, t) ↔
      ∃ opss, ops = opss.flatten ∧ Applied apply config groups opss s t := by
  constructor
  · intro h
    induction groups generalizing ops s with
    | nil =>
      cases h
      exact ⟨[], rfl, Applied.nil⟩
    | cons group rest ih =>
      obtain ⟨_, u, hdistinct, h⟩ := run_bind_eq_ok.1 h
      obtain ⟨each, v, heach, h⟩ := run_bind_eq_ok.1 h
      obtain ⟨more, w, hmore, h⟩ := run_bind_eq_ok.1 h
      cases h
      obtain ⟨opss, rfl, hrest⟩ := ih hmore
      rw [checkDistinct] at hdistinct
      rcases hrepeated : firstRepeated [] group with - | q
      · rw [hrepeated] at hdistinct
        cases hdistinct
        exact ⟨each :: opss, rfl, Applied.cons hrepeated heach hrest⟩
      · rw [hrepeated] at hdistinct
        nomatch hdistinct
  · rintro ⟨opss, rfl, h⟩
    induction h with
    | nil => rfl
    | @cons group _ _ _ s _ _ hnone heach _ ih =>
      have hdistinct : checkDistinct gate group config s = (.ok (), s) := by
        rw [checkDistinct, hnone]
        rfl
      exact run_bind_eq_ok.2 ⟨(), s, hdistinct,
        run_bind_eq_ok.2 ⟨_, _, heach, run_bind_eq_ok.2 ⟨_, _, ih, rfl⟩⟩⟩

end Gates

end Analysis
end OpenQasm
