import OpenQasm.Proofs.HousedSymbols
import OpenQasm.Proofs.ModifiedCalls
import OpenQasm.Proofs.SourceCharacters
import OpenQasm.Proofs.StoredSymbols
import OpenQasm.Proofs.TandemBodies

/-!
Gates on renamed qubits. The operations of a gate on other operands are those on the first ones, renamed: operands
become names for single qubits in the body of the gate and are resolved there again, and at every level the names
of the second expansion stand for the renamed qubits. So the applications of one call to the rows of its operands
differ in these only, as long as none of them gives a name to a variable that the next one gives another.
-/
namespace OpenQasm

open Analysis

namespace Registers

/-- Declared qubits, and what they are renamed to: declared qubits again, different ones for different ones. -/
structure Renames (r : Registers) (qs : List Nat) (f : Nat → Nat) : Prop where
  declared : ∀ q ∈ qs, q < r.qubits
  renamed : ∀ q ∈ qs, f q < r.qubits
  injective : ∀ p ∈ qs, ∀ q ∈ qs, f p = f q → p = q

/-- A register element that is a qubit. -/
def Holds (r : Registers) (q : Nat) (e : Nat × Nat) : Prop := r.HasElement .quantum e ∧ r.physicalOf e = q

/-- Elements that stand for a qubit and for what it is renamed to. -/
def Corresponds (r : Registers) (qs : List Nat) (f : Nat → Nat) (e e' : Nat × Nat) : Prop :=
  ∃ q ∈ qs, r.Holds q e ∧ r.Holds (f q) e'

section

variable {r r' : Registers} {qs : List Nat} {f : Nat → Nat} {q : Nat} {e : Nat × Nat} {v w : View}

theorem Holds.mono (h : r.Holds q e) (hextends : r.Extends r') : r'.physicalOf e = q :=
  (h.1.physicalOf_eq hextends).trans h.2

/-- A declared qubit is found in the registers that it was declared in, also when there are more of them. -/
theorem Tiled.exists_element (h : r.Tiled) (hq : q < r.qubits) (hextends : r.Extends r') :
    ∃ w e, r'.elementView? .quantum q = some w ∧ w.elements = [e] ∧ r.Holds q e := by
  have hholder : (holder? .quantum q 0 r.list).isSome = true := h.holder?_isSome hq
  obtain ⟨found, hfound⟩ := Option.isSome_iff_exists.1 hholder
  obtain ⟨more, hmore⟩ := hextends.list
  have hview : r.elementView? .quantum q = some ⟨[Slice.single found.1 (q - found.2.base)]⟩ :=
    Option.map_eq_some_iff.2 ⟨found, hfound, rfl⟩
  have hview' : r'.elementView? .quantum q = some ⟨[Slice.single found.1 (q - found.2.base)]⟩ :=
    Option.map_eq_some_iff.2 ⟨found, hmore ▸ holder?_append hfound, rfl⟩
  obtain ⟨hhas, hphysical⟩ := elementView?_eq_some h hview
  obtain ⟨id, x, -, -, -, -, helements⟩ := elements_elementView? hview
  refine ⟨_, _, hview', helements, hhas _ (helements ▸ List.mem_singleton_self _), ?_⟩
  rw [physical_eq, helements] at hphysical
  exact (List.singleton_injective hphysical)

theorem forall₂_getElem? {α β : Type} {R : α → β → Prop} {xs : List α} {ys : List β} (h : List.Forall₂ R xs ys)
    (k : Nat) : Option.Rel R xs[k]? ys[k]? := by
  induction h generalizing k with
  | nil => exact .none
  | cons hfirst _ ih =>
    cases k with
    | zero => exact .some hfirst
    | succ k => exact ih k

theorem forall₂_pick {R : Nat × Nat → Nat × Nat → Prop} (h : List.Forall₂ R v.elements w.elements)
    (positions : List Nat) : List.Forall₂ R (v.pick positions).elements (w.pick positions).elements := by
  rw [View.elements_pick, View.elements_pick]
  induction positions with
  | nil => exact .nil
  | cons k rest ih =>
    have hk := forall₂_getElem? h k
    rw [← View.locate?_eq, ← View.locate?_eq] at hk
    rw [List.filterMap_cons, List.filterMap_cons]
    revert hk
    generalize v.locate? k = a
    generalize w.locate? k = b
    rintro (hab | _)
    · exact .cons hab ih
    · exact ih

/-- Qubits go with what they are renamed to, and views with those of the renamed qubits. -/
def Renames.wiring (hr : r.Tiled) (h : r.Renames qs f) : Wiring where
  qubit := f
  Declared q := q ∈ qs
  view v w := List.Forall₂ (r.Corresponds qs f) v.elements w.elements
  At := r.Extends
  at_mono hr hextends := hr.trans hextends
  injective hp hq := h.injective _ hp _ hq
  length hvw := by rw [← View.length_elements, ← View.length_elements, hvw.length_eq]
  declared {r' v w} hextends hvw := by
    rw [physical_eq]
    generalize v.elements = es at hvw
    generalize w.elements = es' at hvw
    induction hvw with
    | nil => nofun
    | cons hfirst _ ih =>
      obtain ⟨q, hq, he, -⟩ := hfirst
      exact List.forall_mem_cons.2 ⟨(he.mono hextends).symm ▸ hq, ih⟩
  physical {r' v w} hextends hvw := by
    rw [physical_eq, physical_eq]
    generalize v.elements = es at hvw
    generalize w.elements = es' at hvw
    induction hvw with
    | nil => rfl
    | cons hfirst _ ih =>
      obtain ⟨q, -, he, he'⟩ := hfirst
      rw [List.map_cons, List.map_cons, List.map_cons, ih, he.mono hextends, he'.mono hextends]
  element {r' q} hextends hq := by
    obtain ⟨v, e, hv, helements, he⟩ := hr.exists_element (h.declared q hq) hextends
    obtain ⟨w, e', hw, helements', he'⟩ := hr.exists_element (h.renamed q hq) hextends
    rw [hv, hw]
    refine .some ?_
    rw [helements, helements']
    exact .cons ⟨q, hq, he, he'⟩ .nil
  concat hvw hvw' := by
    rw [View.elements_concat, View.elements_concat]
    exact List.rel_append hvw hvw'
  pick positions hvw := forall₂_pick hvw positions

end

end Registers

/-- Two expansions that end in the same state, the second one with the renamed operations of the first one, which
are on its operands, or both for the same reason. -/
inductive Wiring.EndsAlike (W : Wiring) :
    Except Failure (List Instruction) × State → Except Failure (List Instruction) × State → Prop
  | ok {ops : List Instruction} {t : State} : (∀ i ∈ ops, ∀ q ∈ i.qubits, W.Declared q) →
    EndsAlike W (.ok ops, t) (.ok (ops.map (Instruction.mapQubits W.qubit)), t)
  | error {e e' : Failure} {t : State} : e.Alike W e' → EndsAlike W (.error e, t) (.error e', t)

/-- A gate through whose expansion no subroutine is called. -/
def Scopes.Plain (s : Scopes) (d : GateDefinition) : Prop :=
  ∀ inner, s.Contains d inner → (s.enter .gateBody).Silent inner.callees

section

variable {s t : Scopes} {d : GateDefinition}

theorem Scopes.Quiet.plain {call : GateCall} (h : s.Quiet call) (hd : s.gate? call.name = some d) : s.Plain d :=
  fun inner hinner => h.inside d inner hd hinner

theorem Scopes.plain_of_no_subroutine (h : ∀ x ∈ s.global, x.subroutine? = none) (d : GateDefinition) : s.Plain d := by
  refine fun inner _ f _ => Option.bind_eq_none_iff.2 fun x hx => h x ?_
  have hglobal : globalSymbol? s.global true f = some x := hx
  exact (globalSymbol?_eq_some hglobal).1

theorem Scopes.Plain.same (h : s.Plain d) (hsame : Same s t) : t.Plain d := fun inner hinner =>
  silent_gateBody hsame.global (h inner (Contains.congr hsame.global hinner))

end

/-- Two runs in the same scopes, in which the same is declared as in others. -/
def Link.placed (W : Wiring) (s : Scopes) : Link where
  wiring := W
  name := id
  Strict := True
  scopes a b := b = a ∧ s.global.map Symbol.key = a.global.map Symbol.key
  Callable _ := False

namespace Analysis

variable {config : Config} {s t u : State} {n : Nat} {qs : List Nat} {f : Nat → Nat}

/-- No name for qubits is seen from a body. -/
theorem Housed.crossing (hs : Housed s) {global : List Symbol}
    (hglobal : s.scopes.global.map Symbol.key = global.map Symbol.key) {name : String} {x : Symbol}
    (hx : Scopes.globalSymbol? global true name = some x) (v : View) : x.binding ≠ .qubits v := by
  intro hv
  obtain ⟨hmem, -, hcrosses⟩ := Scopes.globalSymbol?_eq_some hx
  have hdeclares : s.scopes.Declares x.key := .inl (hglobal ▸ List.mem_map_of_mem hmem)
  have hcrosses : x.crossesBodies = true := by simpa using hcrosses
  rcases (hs.backed x.key hdeclares).hidden v hv with hkind | hkind
  · rw [Symbol.crossesBodies, show x.kind = .quantumRegister from hkind] at hcrosses
    nomatch hcrosses
  · rw [Symbol.crossesBodies, show x.kind = .alias from hkind] at hcrosses
    nomatch hcrosses

theorem Housed.grounded (hs : Housed s) (W : Wiring) : (Link.placed W s.scopes).Grounded s.scopes.Plain where
  depth := by
    rintro _ a ⟨rfl, -⟩
    rfl
  crossing := by
    rintro _ a name ⟨rfl, hglobal⟩
    cases hx : Scopes.globalSymbol? a.global true name with
    | none => exact .none
    | some x => exact .some (Symbol.Wired.same fun v => hs.crossing hglobal hx v)
  silent := by
    rintro _ a d call span ⟨rfl, hglobal⟩ hd hcall
    exact Scopes.silent_gateBody hglobal (hd call (.here hcall))
  closed := by
    rintro _ a d call span e ⟨rfl, hglobal⟩ hd hcall he inner hinner
    have hgate : (s.scopes.enter .gateBody).gate? call.name = some e :=
      (Scopes.gate?_eq_of_key (Scopes.resolve?_gateBody hglobal _)).trans he
    exact hd inner (.inside hcall hgate hinner)

/-- The operations of a gate on renamed operands are the renamed ones, from any state in which the same is
declared. -/
theorem applyModifiers_placed (config : Config) (n : Nat) (hs : Housed s) (h : s.registers.Renames qs f) {target : GateTarget}
    (hplain : ∀ d, target = .user d → s.scopes.Plain d) (params : List Parameter) (modifiers : List KnownModifier) :
    Tandem (.placed (h.wiring hs.tiled) s.scopes) config (h.wiring hs.tiled).Operations
      (applyModifiers (.nested n) target params modifiers qs)
      (applyModifiers (.nested n) target params modifiers (qs.map f)) := by
  refine applyModifiers_tandem (L := .placed (h.wiring hs.tiled) s.scopes) (fun d hd qs rs hqs => ?_) modifiers
    ⟨fun _ hq => hq, rfl⟩
  exact nestedGate_tandem (hs.grounded _) n d params (hplain d hd) hqs

section Reading

/-- A gate call as it is read before it is applied. -/
structure ReadCall where
  target : GateTarget
  modifiers : List KnownModifier
  params : List Parameter
  operands : List (List Nat)

/-- Reads a gate call: what its name stands for, its modifiers, its parameters and its operands. -/
def readCall (calls : Calls) (call : GateCall) : Analysis ReadCall := do
  let target ← resolveGate call.name
  let modifiers := KnownModifier.reduce (← call.modifiers.mapM (evalModifier calls))
  if call.params.length ≠ target.params then
    fail (.gateParameters call.name target.params call.params.length)
  let params ← call.params.mapM (toParameter calls)
  let expected := target.qubits + KnownModifier.controlsOf modifiers
  if expected ≥ Bound.size then fail (.controlOverflow call.name)
  if call.qubits.length ≠ expected then
    fail (.gateOperands call.name expected call.qubits.length)
  return ⟨target, modifiers, params, ← call.qubits.mapM (quantumQubits calls)⟩

/-- A call that has been read is applied to the rows of its operands. -/
def ReadCall.apply (r : ReadCall) (calls : Calls) : List Nat → Analysis (List Instruction) :=
  applyModifiers calls r.target r.params r.modifiers

theorem expandCall_eq (calls : Calls) (call : GateCall) :
    expandCall calls call = readCall calls call >>= fun r =>
      broadcast call.name r.operands >>= applyGroups call.name (r.apply calls) := by
  have hite {α β : Type} (c : Prop) [Decidable c] (x y : Analysis α) (f : α → Analysis β) :
      (if c then x else y) >>= f = if c then x >>= f else y >>= f := by
    split <;> rfl
  unfold expandCall readCall ReadCall.apply
  simp only [bind_assoc, hite, pure_bind]

variable {call : GateCall} {r : ReadCall}

/-- The operands of a call are declared qubits. -/
theorem readCall_operands (hs : Housed s) (h : readCall (.nested n) call config s = (.ok r, t)) :
    Housed t ∧ ∀ qs ∈ r.operands, ∀ q ∈ qs, q < t.registers.qubits := by
  have hcalls := pervasive_housed.nested n
  have hweight (callees : List String) : weigh (fun _ => 0) callees ≤ 0 := Nat.le_of_eq (weigh_zero _)
  have hread : Ensures StatementInvariant.housed.toInvariant (fun _ => True) (readCall (.nested n) call)
      (readCall (.nested n) call)
      (fun r s => ∀ qs ∈ r.operands, ∀ q ∈ qs, StatementInvariant.housed.place s.registers .quantum q) := by
    unfold readCall
    refine (resolveGate_ensures call.name).bind fun target => Ensures.assuming fun _ => ?_
    refine (Agree.mapM _ fun m _ => evalModifier_agree hcalls m (hweight _)).andThen fun written => ?_
    refine Ensures.ite (fun _ => Ensures.failing _ rfl) fun _ => ?_
    refine (Agree.mapM _ fun e _ => toParameter_agree hcalls e (hweight _)).andThen fun values => ?_
    refine Ensures.ite (fun _ => Ensures.failing _ rfl) fun _ => Ensures.ite (fun _ => Ensures.failing _ rfl) fun _ => ?_
    refine (Ensures.mapM (fun qs => stable_places .quantum qs) call.qubits fun e _ =>
      quantumQubits_ensures hcalls e (hweight _)).bind fun operands => Ensures.pure fun _ _ hoperands => hoperands.2
  have hkeeps := hread.keeps hs trivial h
  exact ⟨hkeeps.core, fun qs hqs q hq => (hkeeps.post r rfl qs hqs q hq).1⟩

/-- Reading a call in which no subroutine is called gives names to variables at most. -/
theorem readCall_names {scopes : Scopes} (n : Nat) (hs : scopes.Silent call.callees) : Names scopes (readCall (.nested n) call) := by
  obtain ⟨-, hs⟩ := Scopes.silent_cons.1 hs
  obtain ⟨hs, hqubits⟩ := Scopes.silent_append.1 hs
  obtain ⟨hmodifiers, hparams⟩ := Scopes.silent_append.1 hs
  unfold readCall
  refine (resolveGate_leaves call.name).names.bind fun target => ?_
  refine (evalModifiers_leaves hmodifiers).names.bind fun written => Names.ite (Names.failing _) ?_
  refine (toParameters_names hparams).bind fun values => Names.ite (Names.failing _) (Names.ite (Names.failing _) ?_)
  exact (operands_leaves hqubits).names.bind fun operands => Names.pure _

theorem readCall_target (h : readCall (.nested n) call config s = (.ok r, t)) {d : GateDefinition}
    (hd : r.target = .user d) : s.scopes.gate? call.name = some d := by
  obtain ⟨target, u, htarget, h⟩ := run_bind_eq_ok.1 h
  obtain ⟨written, v, -, h⟩ := run_bind_eq_ok.1 h
  dsimp only at h
  split at h
  · obtain ⟨_, _, hfail, -⟩ := run_bind_eq_ok.1 h
    nomatch hfail
  obtain ⟨values, w, -, h⟩ := run_bind_eq_ok.1 h
  split at h
  · obtain ⟨_, _, hfail, -⟩ := run_bind_eq_ok.1 h
    nomatch hfail
  split at h
  · obtain ⟨_, _, hfail, -⟩ := run_bind_eq_ok.1 h
    nomatch hfail
  obtain ⟨operands, x, -, h⟩ := run_bind_eq_ok.1 h
  cases h
  cases hd
  exact resolveGate_user htarget

end Reading

section Rows

/-- The renaming of the operands of one application to those of another one. -/
def onto (first group : List Nat) (q : Nat) : Nat := group.getD (first.idxOf q) 0

variable {first group : List Nat} {groups : List (List Nat)} {ops : List Instruction}
  {opss : List (List Instruction)} {apply : List Nat → Analysis (List Instruction)}

theorem onto_getElem (hfirst : first.Nodup) {k : Nat} (hk : k < first.length) (hk' : k < group.length) :
    onto first group first[k] = group[k] := by
  rw [onto, hfirst.idxOf_getElem k hk, List.getD_eq_getElem _ _ hk']

theorem map_onto (hfirst : first.Nodup) (hlength : group.length = first.length) :
    first.map (onto first group) = group := by
  refine List.ext_getElem (by rw [List.length_map, hlength]) fun k hk hk' => ?_
  rw [List.getElem_map, onto_getElem hfirst (hlength ▸ hk') hk']

theorem renames_onto {r : Registers} (hfirst : first.Nodup) (hgroup : group.Nodup)
    (hlength : group.length = first.length) (hdeclared : ∀ q ∈ first, q < r.qubits)
    (hrenamed : ∀ q ∈ group, q < r.qubits) : r.Renames first (onto first group) where
  declared := hdeclared
  renamed q hq := by
    have hmem : onto first group q ∈ first.map (onto first group) := List.mem_map_of_mem hq
    rw [map_onto hfirst hlength] at hmem
    exact hrenamed _ hmem
  injective p hp q hq hpq := by
    obtain ⟨i, hi, rfl⟩ := List.getElem_of_mem hp
    obtain ⟨j, hj, rfl⟩ := List.getElem_of_mem hq
    rw [onto_getElem hfirst hi (hlength ▸ hi), onto_getElem hfirst hj (hlength ▸ hj)] at hpq
    obtain rfl := hgroup.getElem_inj_iff.1 hpq
    rfl

/-- Applications one after another, each of which does what the application to the first operands would do
there, on operands of its own. -/
inductive Repeats (apply : List Nat → Analysis (List Instruction)) (config : Config) (first : List Nat) :
    List (List Nat) → List (List Instruction) → State → State → Prop
  | nil {s : State} : Repeats apply config first [] [] s s
  | cons {group : List Nat} {groups : List (List Nat)} {once : List Instruction} {opss : List (List Instruction)}
    {s t u : State} : group.Nodup → apply first config s = (.ok once, t) →
      apply group config s = (.ok (once.map (Instruction.mapQubits (onto first group))), t) →
        Repeats apply config first groups opss t u →
          Repeats apply config first (group :: groups) (once.map (Instruction.mapQubits (onto first group)) :: opss) s u

/-- If the application to the first operands changes nothing, all of them give its operations on their own
operands. -/
theorem Repeats.unchanged (h : Repeats apply config first groups opss s u) {once : List Instruction}
    (honce : apply first config s = (.ok once, s)) :
    u = s ∧ opss = groups.map fun group => once.map (Instruction.mapQubits (onto first group)) := by
  induction h with
  | nil => exact ⟨rfl, rfl⟩
  | cons _ hfirst _ _ ih =>
    cases hfirst.symm.trans honce
    obtain ⟨rfl, rfl⟩ := ih honce
    exact ⟨rfl, rfl⟩

/-- Rows of declared qubits are run through alike from any state in which the same is declared. -/
theorem Applied.repeats (hs : Housed s) {target : GateTarget} {params : List Parameter}
    {modifiers : List KnownModifier} (hplain : ∀ d, target = .user d → s.scopes.Plain d) (hfirst : first.Nodup)
    (hdeclared : ∀ q ∈ first, q < s.registers.qubits) {v : State}
    (h : Applied (applyModifiers (.nested n) target params modifiers) config groups opss v u)
    (hv : s.registers.Extends v.registers ∧ s.scopes.global.map Symbol.key = v.scopes.global.map Symbol.key)
    (hgroups : ∀ group ∈ groups, group.length = first.length ∧ ∀ q ∈ group, q < s.registers.qubits) :
    Repeats (applyModifiers (.nested n) target params modifiers) config first groups opss v u := by
  induction h with
  | nil => exact .nil
  | @cons group groups each opss v w u hdistinct heach _ ih =>
    obtain ⟨⟨hlength, hgroup⟩, hrest⟩ := List.forall_mem_cons.1 hgroups
    have hnodup := (Instruction.firstRepeated_eq_none.1 hdistinct).1
    have hrenames := renames_onto hfirst hnodup hlength hdeclared hgroup
    have hplaced := applyModifiers_placed config n hs hrenames hplain params modifiers v v
      ⟨rfl, ⟨rfl, hv.2⟩, hv.1⟩
    rw [map_onto hfirst hlength, heach] at hplaced
    rcases honce : applyModifiers (.nested n) target params modifiers first config v with ⟨r, w'⟩
    rw [honce] at hplaced
    cases hplaced with
    | ok hops hlinked =>
      obtain ⟨-, rfl⟩ := hops
      obtain ⟨hsame, hglobal⟩ := hlinked.scopes
      have hstate : w = w' := by
        rw [hlinked.rest, hsame]
        rfl
      subst hstate
      exact .cons hnodup honce heach (ih ⟨hlinked.registers, hglobal⟩ hrest)
    | lost _ hloose => exact absurd trivial hloose

end Rows

section Expansions

theorem applyModifiers_endsAlike (hs : Housed s) (h : s.registers.Renames qs f) {target : GateTarget}
    (hplain : ∀ d, target = .user d → s.scopes.Plain d) (params : List Parameter) (modifiers : List KnownModifier) :
    (h.wiring hs.tiled).EndsAlike (applyModifiers (.nested n) target params modifiers qs config s)
      (applyModifiers (.nested n) target params modifiers (qs.map f) config s) := by
  have hplaced := applyModifiers_placed config n hs h hplain params modifiers s s
    ⟨rfl, ⟨rfl, rfl⟩, .refl _⟩
  generalize applyModifiers (.nested n) target params modifiers qs config s = r at hplaced
  generalize applyModifiers (.nested n) target params modifiers (qs.map f) config s = r' at hplaced
  -- The two runs end in the same scopes, and nothing else tells their states apart.
  have hstate {t t' : State} (hlinked : Linked (.placed (h.wiring hs.tiled) s.scopes) t t') : t' = t := by
    rw [hlinked.rest, hlinked.scopes.1]
    rfl
  cases hplaced with
  | ok hops hlinked =>
    obtain ⟨hdeclared, rfl⟩ := hops
    exact hstate hlinked ▸ .ok hdeclared
  | error halike hlinked => exact hstate hlinked ▸ .error halike
  | lost _ hloose => exact absurd trivial hloose

/-- The expansion of a gate commutes with renaming declared qubits, whatever modifiers it is under and however deep
its bodies are nested. A call on registers is applied to the rows of its operands, unless two of these have
different lengths other than one. Each application gives the operations that the first one would give there, on its
own row; they are those of the first one wherever that changes nothing. -/
theorem expansion_renamed (hs : Occurs config s) (n : Nat) :
    (∀ target params modifiers qs f (h : s.registers.Renames qs f), (∀ d, target = .user d → s.scopes.Plain d) →
      (h.wiring hs.housed.tiled).EndsAlike (applyModifiers (.nested n) target params modifiers qs config s)
        (applyModifiers (.nested n) target params modifiers (qs.map f) config s)) ∧
    ∀ call r t, readCall (.nested n) call config s = (.ok r, t) →
      (∃ m k, m ∈ r.operands.map List.length ∧ k ∈ r.operands.map List.length ∧ m ≠ 1 ∧ k ≠ 1 ∧ m ≠ k ∧
        expandCall (.nested n) call config s = (.error (.statement ⟨.broadcast call.name m k, t.span⟩), t)) ∨
      ∃ l, InStep r.operands l ∧
        expandCall (.nested n) call config s =
          applyGroups call.name (r.apply (.nested n)) (rows r.operands l) config t ∧
        (s.scopes.Quiet call → ∀ ops u, expandCall (.nested n) call config s = (.ok ops, u) →
          ∃ opss, ops = opss.flatten ∧ ∀ first ∈ (rows r.operands l).head?,
            Repeats (r.apply (.nested n)) config first (rows r.operands l) opss t u ∧
            ∀ once, r.apply (.nested n) first config t = (.ok once, t) → u = t ∧
              opss = (rows r.operands l).map fun group => once.map (Instruction.mapQubits (onto first group))) := by
  refine ⟨fun target params modifiers qs f h hplain => applyModifiers_endsAlike hs.housed h hplain params modifiers,
    fun call r t hread => ?_⟩
  obtain ⟨ht, hoperands⟩ := readCall_operands hs.housed hread
  have hexpand : expandCall (.nested n) call config s =
      (broadcast call.name r.operands >>= applyGroups call.name (r.apply (.nested n))) config t := by
    rw [expandCall_eq, run_bind, hread]
  obtain ⟨l, hstep, hrows⟩ | ⟨m, k, hm, hk, hm1, hk1, hne, hfail⟩ := broadcast_cases call.name r.operands
  · rw [hrows, pure_bind] at hexpand
    refine .inr ⟨l, hstep, hexpand, fun hquiet ops u hops => ?_⟩
    obtain ⟨opss, rfl, happlied⟩ := applyGroups_eq_ok.1 (hexpand.symm.trans hops)
    refine ⟨opss, rfl, fun first hfirst => ?_⟩
    have hnaming := readCall_names n hquiet.outside config s (Scopes.Same.refl _)
    rw [hread] at hnaming
    have hplain (d : GateDefinition) (hd : r.target = .user d) : t.scopes.Plain d :=
      (hquiet.plain (readCall_target hread hd)).same hnaming.scopes
    -- Every row has as many qubits as there are operands, all of them declared.
    have hrow : ∀ group ∈ rows r.operands l, group.length = r.operands.length ∧ ∀ q ∈ group, q < t.registers.qubits := by
      intro group hgroup
      obtain ⟨k, hk, rfl⟩ := List.mem_map.1 hgroup
      refine ⟨List.length_map _, fun q hq => ?_⟩
      obtain ⟨qs, hqs, rfl⟩ := List.mem_map.1 hq
      exact hoperands qs hqs _ (operandAt_mem (hstep.each qs hqs) (List.mem_range.1 hk))
    have hmem : first ∈ rows r.operands l := List.mem_of_mem_head? hfirst
    have hnodup : first.Nodup := by
      generalize rows r.operands l = groups at hfirst happlied
      cases happlied with
      | nil => nomatch hfirst
      | cons hdistinct _ _ =>
        cases hfirst
        exact (Instruction.firstRepeated_eq_none.1 hdistinct).1
    have hrepeats := happlied.repeats ht hplain hnodup (hrow first hmem).2 ⟨.refl _, rfl⟩ fun group hgroup =>
      ⟨(hrow group hgroup).1.trans (hrow first hmem).1.symm, (hrow group hgroup).2⟩
    exact ⟨hrepeats, fun once honce => hrepeats.unchanged honce⟩
  · rw [hfail] at hexpand
    exact .inl ⟨m, k, hm, hk, hm1, hk1, hne, hexpand⟩

/-- A gate with a body under a control, on three qubits and on three others, and on the rows of two registers. -/
theorem expansion_renamed_nested :
    let start := stateAfter .default "gate g a, b { h a; cx a, b; }\nqubit[4] q;\nqubit[2] r;\n" 3
    let call : GateCall := ⟨"g", [], [.name "r", .index (.name "q") [.single (.int 3)]], []⟩
    let body : List Statement :=
      [⟨.gate ⟨"h", [], [.name "a"], []⟩, .none⟩, ⟨.gate ⟨"cx", [], [.name "a", .name "b"], []⟩, .none⟩]
    let applied := applyModifiers (.nested 1) (.user ⟨"g", [], ["a", "b"], body⟩) [] [.control .positive 1]
    (∃ (h : start.registers.Renames [0, 1, 2] (· + 1)) (hr : start.registers.Tiled),
      (h.wiring hr).EndsAlike (applied [0, 1, 2] .default start) (applied [1, 2, 3] .default start)) ∧
    ∃ r t ops opss u, readCall (.nested 1) call .default start = (.ok r, t) ∧
      expandCall (.nested 1) call .default start = (.ok ops, u) ∧ ops = opss.flatten ∧
        Repeats (r.apply (.nested 1)) .default [4, 3] [[4, 3], [5, 3]] opss t u := by
  rw [stateAfter_ofList]
  intro start call body applied
  have hs : Occurs .default start := stateAfterRead_occurs .default _ 3
  have hnone (x : Symbol) (hx : x ∈ start.scopes.global) : x.subroutine? = none :=
    Option.isNone_iff_eq_none.1 (List.all_eq_true.1
      (by decide +kernel : start.scopes.global.all (fun x => x.subroutine?.isNone) = true) x hx)
  obtain ⟨hrenamed, hcalls⟩ := expansion_renamed hs 1
  have hrenames : start.registers.Renames [0, 1, 2] (· + 1) := by
    constructor <;> decide +kernel
  refine ⟨⟨hrenames, hs.housed.tiled, hrenamed _ _ _ _ _ hrenames fun d _ => Scopes.plain_of_no_subroutine hnone d⟩, ?_⟩
  let noCall : ReadCall := ⟨.builtin .x, [], [], []⟩
  have hoperands : ((readCall (.nested 1) call .default start).1.toOption.getD noCall).operands = [[4, 5], [3]] := by
    decide +kernel
  have hread : readCall (.nested 1) call .default start = (.ok _, _) :=
    Prod.ext (eq_ok_of_isSome noCall (by decide +kernel)) rfl
  have hexpand : expandCall (.nested 1) call .default start = (.ok _, _) :=
    Prod.ext (eq_ok_of_isSome [] (by decide +kernel)) rfl
  obtain ⟨m, k, hm, hk, hm1, hk1, hne, -⟩ | ⟨l, hstep, -, hrows⟩ := hcalls call _ _ hread
  · rw [hoperands] at hm hk
    simp at hm hk
    omega
  · rw [hoperands] at hstep hrows
    obtain rfl : l = 2 := by
      have hlength := hstep.each [4, 5] List.mem_cons_self
      rw [List.length_cons, List.length_singleton] at hlength
      omega
    obtain ⟨opss, hopss, hrepeats⟩ := hrows (quiet_of_no_subroutine (List.isEmpty_iff.1 (by decide +kernel)) hnone) _ _ hexpand
    exact ⟨_, _, _, opss, _, hread, hexpand, hopss, (hrepeats [4, 3] rfl).1⟩

/-- The parameter of the first application is given a name, and that of the second one another name: the two differ
in more than their operands. -/
theorem expansion_named_apart :
    let start := stateAfter .default "input float theta;\ngate g(t) a { rx(t % 2) a; }\nqubit[2] q;\n" 3
    let call : GateCall := ⟨"g", [.name "theta"], [.name "q"], []⟩
    let ops := (expandCall (.nested 2) call .default start).1.toOption.getD []
    start.scopes.Quiet call ∧ ops.map Instruction.qubits = [[0], [1]] ∧
      ¬∃ once f, ops = [once, Instruction.mapQubits f once] := by
  rw [stateAfter_ofList]
  intro start call ops
  let texts (i : Instruction) : List String := (i.gate?.map Gate.params).getD [] |>.map Parameter.text
  have htexts : ops.map texts = [["(t % 2)"], ["(t_1 % 2)"]] := by decide +kernel
  refine ⟨quiet_of_no_subroutine (List.isEmpty_iff.1 (by decide +kernel)) fun x hx => ?_, by decide +kernel, ?_⟩
  · exact Option.isNone_iff_eq_none.1 (List.all_eq_true.1
      (by decide +kernel : start.scopes.global.all (fun x => x.subroutine?.isNone) = true) x hx)
  · rintro ⟨once, f, hops⟩
    rw [hops] at htexts
    have hsame : texts once = texts (Instruction.mapQubits f once) := rfl
    rw [List.map_cons, List.map_singleton, ← hsame] at htexts
    obtain ⟨hfirst, hsecond⟩ := List.cons_eq_cons.1 htexts
    have hclash := hfirst.symm.trans (List.cons_eq_cons.1 hsecond).1
    revert hclash
    decide

end Expansions

end Analysis

end OpenQasm
