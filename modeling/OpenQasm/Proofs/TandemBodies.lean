import OpenQasm.Proofs.TandemGates

/-!
The bodies of gates in tandem. In a body the formal qubits stand for corresponding operands, the formal parameters
for the same ones, and all that is seen from outside are constants and definitions. So whatever link two runs are
in, they are in one of the same kind inside the bodies that they enter, and gates that are expanded through any
number of bodies give the same operations on corresponding qubits.
-/
namespace OpenQasm

namespace Link

/-- What two runs have in common as far as the bodies of gates are concerned: there are gates whose expansion calls
no subroutine, and what is seen from bodies corresponds. -/
structure Grounded (L : Link) (E : GateDefinition → Prop) : Prop where
  depth : ∀ {a b}, L.scopes a b → b.depth = a.depth
  crossing : ∀ {a b} name, L.scopes a b → Option.Rel (Symbol.Wired L.wiring)
    (Scopes.globalSymbol? a.global true name) (Scopes.globalSymbol? b.global true name)
  silent : ∀ {a b d call span}, L.scopes a b → E d → ⟨.gate call, span⟩ ∈ d.body →
    (a.enter .gateBody).Silent call.callees
  closed : ∀ {a b d call span e}, L.scopes a b → E d → ⟨.gate call, span⟩ ∈ d.body →
    (a.enter .gateBody).gate? call.name = some e → E e

/-- Scopes in the bodies of gates: corresponding formals are declared there. -/
inductive Inside (L : Link) : Scopes → Scopes → Prop
  | mk {global global' : List Symbol} {outer outer' : List Scope} {xs ys : List Symbol} :
    L.scopes ⟨global, outer⟩ ⟨global', outer'⟩ → List.Forall₂ (Symbol.Wired L.wiring) xs ys →
      (∀ x ∈ xs, x.gate? = none ∧ x.subroutine? = none) →
        Inside L ⟨global, ⟨.gateBody, xs⟩ :: outer⟩ ⟨global', ⟨.gateBody, ys⟩ :: outer'⟩

/-- The link of two runs inside the bodies of gates. -/
def inside (L : Link) : Link where
  wiring := L.wiring
  name := id
  Strict := L.Strict
  scopes := L.Inside
  Callable f := ∀ a b, L.scopes a b → (a.enter .gateBody).subroutine? f = none

end Link

section Formals

variable {W : Wiring} {xs ys : List Symbol} {x y : Symbol}

theorem Symbol.Wired.name (h : x.Wired W y) : y.name = x.name := by cases h <;> rfl

theorem Symbol.Wired.gate? (h : x.Wired W y) : y.gate? = x.gate? := by
  cases h with
  | same => rfl
  | qubits hx _ => rw [Symbol.gate?, Symbol.gate?, hx]

theorem Symbol.Wired.subroutine? (h : x.Wired W y) : y.subroutine? = x.subroutine? := by
  cases h with
  | same => rfl
  | qubits hx _ => rw [Symbol.subroutine?, Symbol.subroutine?, hx]

theorem Symbol.Wired.withEmitName (h : x.Wired W y) (emitName : String) :
    Symbol.Wired W { x with emitName := some emitName } { y with emitName := some emitName } := by
  cases h with
  | same hx => exact .same hx
  | qubits hx hvw => exact .qubits (x := { x with emitName := some emitName }) hx hvw

theorem Symbol.Wired.withScope (h : x.Wired W y) (scope : Nat) :
    Symbol.Wired W { x with scope } { y with scope } := by
  cases h with
  | same hx => exact .same hx
  | qubits hx hvw => exact .qubits (x := { x with scope }) hx hvw

theorem takenBy_wired (h : x.Wired W y) : Analysis.takenBy y = Analysis.takenBy x := by
  cases h with
  | same => rfl
  | qubits hx _ =>
    unfold Analysis.takenBy Symbol.isBuiltin
    rw [hx]

theorem find?_wired (h : List.Forall₂ (Symbol.Wired W) xs ys) (name : String) :
    Option.Rel (Symbol.Wired W) (Symbol.find? name xs) (Symbol.find? name ys) := by
  induction h with
  | nil => exact .none
  | cons hfirst _ ih =>
    simp only [Symbol.find?, List.find?_cons, hfirst.name] at ih ⊢
    split
    · exact .some hfirst
    · exact ih

theorem modifyIn_wired (h : List.Forall₂ (Symbol.Wired W) xs ys) (name emitName : String) :
    List.Forall₂ (Symbol.Wired W) (Symbol.modifyIn name (fun z => { z with emitName := some emitName }) xs)
      (Symbol.modifyIn name (fun z => { z with emitName := some emitName }) ys) := by
  induction h with
  | nil => exact .nil
  | cons hfirst hrest ih =>
    have hname := hfirst.name
    unfold Symbol.modifyIn
    split
    · next hx => rw [if_pos (hname ▸ hx)]; exact .cons (hfirst.withEmitName _) hrest
    · next hx => rw [if_neg (hname ▸ hx)]; exact .cons hfirst ih

theorem mem_modifyIn {name : String} {f : Symbol → Symbol} (h : x ∈ Symbol.modifyIn name f xs) : x ∈ xs ∨ ∃ z ∈ xs, x = f z := by
  induction xs with
  | nil => exact absurd h List.not_mem_nil
  | cons z zs ih =>
    rw [Symbol.modifyIn] at h
    split at h
    · rcases List.mem_cons.1 h with rfl | h
      · exact .inr ⟨z, List.mem_cons_self, rfl⟩
      · exact .inl (List.mem_cons_of_mem _ h)
    · rcases List.mem_cons.1 h with rfl | h
      · exact .inl List.mem_cons_self
      · obtain h | ⟨w, hw, rfl⟩ := ih h
        · exact .inl (List.mem_cons_of_mem _ h)
        · exact .inr ⟨w, List.mem_cons_of_mem _ hw, rfl⟩

theorem crossing_kind {global : List Symbol} {name : String} (h : Scopes.globalSymbol? global true name = some x) :
    x.kind ≠ .classicalVariable := by
  intro hkind
  have hcrosses := (Option.filter_eq_some_iff.1 h).2
  rw [Symbol.crossesBodies, hkind] at hcrosses
  nomatch hcrosses

end Formals

namespace Link

variable {L : Link} {E : GateDefinition → Prop} {a b : Scopes} {name : String} {x y : Symbol}

namespace Inside

/-- In the bodies a name stands for corresponding things, which are formals or seen from outside. -/
theorem resolve? (hG : L.Grounded E) (h : L.Inside a b) (name : String) :
    Option.Rel (Symbol.Wired L.wiring) (a.resolve? name) (b.resolve? name) := by
  obtain ⟨houter, hformals, -⟩ := h
  have hfind := find?_wired hformals name
  simp only [Scopes.resolve?, Scopes.resolveIn]
  revert hfind
  generalize Symbol.find? name _ = u
  generalize Symbol.find? name _ = v
  rintro (hxy | _)
  · exact .some hxy
  · exact hG.crossing name houter

theorem subroutine? (h : L.Inside a b) (hname : L.inside.Callable name) : a.subroutine? name = none := by
  obtain ⟨houter, -, hplain⟩ := h
  refine Option.bind_eq_none_iff.2 fun x hx => ?_
  simp only [Scopes.resolve?, Scopes.resolveIn] at hx
  split at hx
  · next hfind =>
    cases hx
    exact (hplain _ (List.mem_of_find?_eq_some hfind)).2
  · exact Option.bind_eq_none_iff.1 (hname _ _ houter) x hx

theorem gate? (h : L.Inside a b) {d : GateDefinition} (hd : a.gate? name = some d) :
    ∃ a' b', L.scopes a' b' ∧ (a'.enter .gateBody).gate? name = some d := by
  obtain ⟨houter, -, hplain⟩ := h
  refine ⟨_, _, houter, ?_⟩
  obtain ⟨x, hx, hxd⟩ := Option.bind_eq_some_iff.1 hd
  simp only [Scopes.resolve?, Scopes.resolveIn] at hx
  split at hx
  · next hfind =>
    cases hx
    exact absurd ((hplain _ (List.mem_of_find?_eq_some hfind)).1.symm.trans hxd) (Option.some_ne_none d).symm
  · exact Option.bind_eq_some_iff.2 ⟨x, hx, hxd⟩

theorem modify (h : L.Inside a b) (hx : a.resolve? name = some x) (hkind : x.kind = .classicalVariable)
    (emitName : String) : L.Inside (a.modify name fun z => { z with emitName := some emitName })
      (b.modify name fun z => { z with emitName := some emitName }) := by
  obtain ⟨houter, hformals, hplain⟩ := h
  rename_i xs ys
  have hfind := find?_wired hformals name
  have hsome : (Symbol.find? name xs).isSome := by
    simp only [Scopes.resolve?, Scopes.resolveIn] at hx
    split at hx
    · next hfind => rw [hfind]; rfl
    · exact absurd hkind (crossing_kind hx)
  have hsome' : (Symbol.find? name ys).isSome := by
    revert hsome hfind
    generalize Symbol.find? name xs = u
    generalize Symbol.find? name ys = v
    rintro (_ | _)
    · exact fun _ => rfl
    · exact id
  simp only [Scopes.modify, Scopes.modifyInner, hsome, hsome', if_true]
  refine .mk houter (modifyIn_wired hformals name emitName) fun z hz => ?_
  obtain hz | ⟨w, hw, rfl⟩ := mem_modifyIn hz
  · exact hplain z hz
  · exact hplain w hw

/-- Corresponding formals are declared in both bodies, or in neither of them. -/
theorem declare (hG : L.Grounded E) (h : L.Inside a b) (hxy : x.Wired L.wiring y) (hgate : x.gate? = none)
    (hsubroutine : x.subroutine? = none) :
    (∃ first first', first.Wired L.wiring first' ∧ a.declare x = .error first ∧ b.declare y = .error first') ∨
      ∃ a' b', L.Inside a' b' ∧ a.declare x = .ok a' ∧ b.declare y = .ok b' := by
  obtain ⟨houter, hformals, hplain⟩ := h
  rename_i global global' outer outer' xs ys
  have hdepth : outer'.length = outer.length := hG.depth houter
  have hfind := find?_wired hformals x.name
  simp only [Scopes.declare, Scopes.here?, Scopes.current, hxy.name]
  revert hfind
  generalize Symbol.find? x.name xs = u
  generalize Symbol.find? x.name ys = v
  rintro (hfirst | _)
  · exact .inl ⟨_, _, hfirst, rfl, rfl⟩
  · refine .inr ⟨_, _, .mk houter (.cons (hxy.withScope _) hformals) ?_, rfl, ?_⟩
    · exact List.forall_mem_cons.2 ⟨⟨hgate, hsubroutine⟩, hplain⟩
    · simp only [Scopes.push, Scopes.depth, List.length_cons, hdepth]

theorem exit (h : L.Inside a b) : L.scopes a.exit b.exit := by
  cases h with
  | mk houter => exact houter

end Inside

theorem Grounded.inside_sound (hG : L.Grounded E) : L.inside.Sound where
  name_id _ _ := rfl
  found {a b name x} h hx := by
    have hrel := Inside.resolve? hG h name
    rw [hx] at hrel
    generalize hy : b.resolve? name = u at hrel
    cases hrel with
    | some hxy => exact ⟨_, hy, .inl ⟨rfl, hxy⟩⟩
  missing {a b name y} h hx hy := by
    have hrel := Inside.resolve? hG h name
    rw [hx, show b.resolve? name = some y from hy] at hrel
    nomatch hrel
  callable _ := rfl
  calls {a b f} h hf := by
    have hnone := Inside.subroutine? h hf
    have hrel := Inside.resolve? hG h f
    refine ⟨hnone, ?_, ?_⟩
    · unfold Scopes.subroutine? at hnone ⊢
      revert hrel hnone
      generalize a.resolve? f = u
      generalize b.resolve? f = v
      rintro hnone (hxy | _)
      · exact hxy.subroutine?.trans hnone
      · rfl
    · revert hrel
      generalize a.resolve? f = u
      generalize b.resolve? f = v
      rintro (_ | _) <;> rfl
  names emitName h hx _ _ hkind := Inside.modify h hx hkind emitName

theorem Grounded.inside (hG : L.Grounded E) : L.inside.Grounded E where
  depth := by
    rintro _ _ ⟨houter, -, -⟩
    exact congrArg (· + 1) (hG.depth houter)
  crossing := by
    rintro _ _ name h
    cases h with
    | mk houter =>
      have hrel := hG.crossing name houter
      exact hrel
  silent := by
    rintro _ _ d call span h hd hcall
    cases h with
    | mk houter => exact fun f hf => hG.silent houter hd hcall f hf
  closed := by
    rintro _ _ d call span e h hd hcall he
    cases h with
    | mk houter => exact hG.closed houter hd hcall he

end Link

namespace Analysis

variable {L : Link} {E : GateDefinition → Prop} {config : Config} {calls : Calls} {qs rs : List Nat}

theorem newSymbol_blind (name : String) (kind : SymbolKind) : Blind (newSymbol name kind) :=
  fun _ _ => ⟨rfl, .refl _, fun _ => rfl⟩

theorem atSpan_blind (span : Span) : Blind (modify fun s : State => { s with span }) :=
  fun _ _ => ⟨rfl, .refl _, fun _ => rfl⟩

theorem Linked.eq_seeing {s t : State} (h : Linked L s t) : ∃ scopes, t = s.seeing scopes := ⟨_, h.rest⟩

theorem Outcome.failConstruct {α β : Type} {Q : α → β → Prop} {s t : State} (h : Linked L s t) (p : Problem) :
    Outcome L Q (Analysis.failConstruct p config s) (Analysis.failConstruct p config t) := by
  have hspan := h.span
  show Outcome L Q (.error (.construct ⟨p, s.span⟩), s) (.error (.construct ⟨p, t.span⟩), t)
  rw [hspan]
  exact .error (.same _) h

/-- When the bodies are left, two runs are linked as they were outside. -/
theorem Outcome.leave {α β : Type} {Q : α → β → Prop} {x : Analysis α} {y : Analysis β} {s t : State}
    (h : Outcome L.inside Q (x config s) (y config t)) {f g : State → State}
    (hleave : ∀ s t, Linked L.inside s t → Linked L (f s) (g t)) :
    Outcome L Q (followedBy x f config s) (followedBy y g config t) := by
  unfold followedBy
  rcases hx : x config s with ⟨r, s'⟩
  rcases hy : y config t with ⟨r', t'⟩
  rw [hx, hy] at h
  cases h with
  | ok hq hst => exact .ok hq (hleave _ _ hst)
  | error halike hst => exact .error halike (hleave _ _ hst)
  | lost _ hloose => exact .lost _ hloose

/-- Corresponding formals are declared. -/
theorem declare_tandem (hG : L.Grounded E) {x y : Symbol} (hxy : x.Wired L.wiring y) (hgate : x.gate? = none)
    (hsubroutine : x.subroutine? = none) : Tandem L.inside config Eq (declare x) (declare y) := by
  intro s t hst
  obtain ⟨b, rfl⟩ := hst.eq_seeing
  have hscopes : L.Inside s.scopes b := hst.scopes
  rw [declare, declare, run_get, run_get, State.seeing]
  obtain ⟨first, first', hfirst, hs, ht⟩ | ⟨a', b', hscopes', hs, ht⟩ := hscopes.declare hG hxy hgate hsubroutine
  · rw [hs, ht]
    dsimp only
    rw [takenBy_wired hfirst]
    exact .fail hst fun _ => .same _
  · rw [hs, ht]
    exact .ok rfl ⟨rfl, hscopes', hst.registers⟩

theorem bindParams_tandem (hG : L.Grounded E) (params : List (String × Parameter)) :
    Tandem L.inside config Eq (bindParams params) (bindParams params) := by
  induction params with
  | nil => exact .pure rfl
  | cons p rest ih =>
    refine (newSymbol_blind _ _).tandem.bindSame fun x => ?_
    exact (declare_tandem hG (.same fun _ => Binding.noConfusion) rfl rfl).bindSame fun _ => ih

theorem bindQubits_tandem (hG : L.Grounded E) (formals : List String) (h : L.wiring.Operands qs rs) :
    Tandem L.inside config Eq (bindQubits (formals.zip qs)) (bindQubits (formals.zip rs)) := by
  obtain ⟨hqs, rfl⟩ := h
  induction formals generalizing qs with
  | nil => exact .pure rfl
  | cons name formals ih =>
    cases qs with
    | nil => exact .pure rfl
    | cons q qs =>
      obtain ⟨hq, hrest⟩ := List.forall_mem_cons.1 hqs
      rw [List.map_cons, List.zip_cons_cons, List.zip_cons_cons]
      unfold bindQubits
      intro s t hst
      rw [run_get, run_get, hst.registers_eq]
      have helement := L.wiring.element hst.registers hq
      generalize s.registers.elementView? .quantum q = u at helement ⊢
      generalize s.registers.elementView? .quantum (L.wiring.qubit q) = v at helement ⊢
      cases helement with
      | none => exact .fail hst fun _ => .undeclared hq
      | @some v w hvw =>
        refine Tandem.bindSame (newSymbol_blind _ _).tandem (fun x => ?_) s t hst
        refine (declare_tandem hG ?_ rfl rfl).bindSame fun _ => ih hrest
        exact .qubits (x := { x with size := some 1, binding := .qubits v }) rfl hvw

/-- The calls in a body are expanded one after another. -/
theorem bodyOps_tandem : ∀ body : List Statement,
    (∀ call span, ⟨.gate call, span⟩ ∈ body →
      Tandem L config L.wiring.Operations (expandCall calls call) (expandCall calls call)) →
      Tandem L config L.wiring.Operations (bodyOps calls body) (bodyOps calls body)
  | [], _ => .pure L.wiring.operations_nil
  | ⟨kind, span⟩ :: rest, h => by
    have hrest := bodyOps_tandem rest fun call span hcall => h call span (List.mem_cons_of_mem _ hcall)
    cases kind with
    | gate call =>
      refine (atSpan_blind span).tandem.bindSame fun _ => ?_
      refine (h call span List.mem_cons_self).bind fun ops ops' hops => ?_
      exact hrest.bind fun more more' hmore => .pure (hops.append hmore)
    | _ => exact hrest

/-- A gate that is replaced by its body gives the same operations on corresponding operands, if the body does
with corresponding formals. -/
theorem inlineGate_tandem (hG : L.Grounded E) {ops : List Statement → Analysis (List Instruction)}
    {d : GateDefinition} (hops : Tandem L.inside config L.wiring.Operations (ops d.body) (ops d.body))
    (params : List Parameter) (h : L.wiring.Operands qs rs) :
    Tandem L config L.wiring.Operations (inlineGate ops d params qs) (inlineGate ops d params rs) := by
  have hbody : Tandem L.inside config L.wiring.Operations
      (bindParams (d.params.zip params) >>= fun _ => bindQubits (d.qubits.zip qs) >>= fun _ => ops d.body)
      (bindParams (d.params.zip params) >>= fun _ => bindQubits (d.qubits.zip rs) >>= fun _ => ops d.body) :=
    (bindParams_tandem hG _).bindSame fun _ => (bindQubits_tandem hG _ h).bindSame fun _ => hops
  intro s t hst
  obtain ⟨b, rfl⟩ := hst.eq_seeing
  rcases hopen : s.calls.contains d.name with - | -
  · have hopen' : (s.seeing b).calls.contains d.name = false := hopen
    rw [inlineGate_run ops d params qs config hopen, inlineGate_run ops d params rs config hopen']
    have hentered : Linked L.inside { s with calls := d.name :: s.calls, scopes := s.scopes.enter .gateBody }
        { s.seeing b with calls := d.name :: s.calls, scopes := b.enter .gateBody } :=
      ⟨rfl, .mk hst.scopes .nil (List.forall_mem_nil _), hst.registers⟩
    refine (hbody _ _ hentered).leave fun s' t' hst' => ?_
    obtain ⟨b', rfl⟩ := hst'.eq_seeing
    exact ⟨rfl, hst'.scopes.exit, hst'.registers⟩
  · have hopen' : (s.seeing b).calls.contains d.name = true := hopen
    unfold inlineGate
    rw [run_get, run_get, hopen, hopen']
    exact .failConstruct hst _

/-- Gates through whose expansion no subroutine is called give the same operations on corresponding qubits,
however deep their bodies are nested. -/
theorem nestedGate_tandem (hG : L.Grounded E) (n : Nat) (d : GateDefinition) (params : List Parameter) (hd : E d)
    (h : L.wiring.Operands qs rs) :
    Tandem L config L.wiring.Operations ((Calls.nested n).gate d params qs) ((Calls.nested n).gate d params rs) := by
  -- The depth to which definitions may be nested goes down from a gate to the calls in its body.
  induction n generalizing L d params qs rs with
  | zero => exact fun _ _ hst => .failConstruct hst _
  | succ n ih =>
    refine inlineGate_tandem hG (bodyOps_tandem d.body fun call span hcall => ?_) params h
    have hsame : Tandem L.inside config L.wiring.Operations (expandCall (.nested n) call)
        (expandCall (.nested n) (call.rename L.inside.name)) := expandCall_tandem hG.inside_sound
      (fun e values he qs rs hqs => ih hG.inside e values he hqs) call
      (fun f hf a b hab => hG.silent hab hd hcall f hf)
      fun hab he => by
        obtain ⟨a', b', hab', he'⟩ := Link.Inside.gate? hab he
        exact hG.closed hab' hd hcall he'
    have hid : call.rename L.inside.name = call := GateCall.rename_id (fun _ => rfl) call
    rwa [hid] at hsame

end Analysis
end OpenQasm
