import OpenQasm.Proofs.Materialization
import OpenQasm.Proofs.Registers
import OpenQasm.Proofs.Transitions

/-!
What a step does under a configuration that collects all errors, compared with what it does where the first
fatal report ends the analysis. Both do the same until the end of the analysis is noticed; from then on the
second one only leaves what it is in, so that what it has put out is the beginning of what the first one puts
out. The same pass over the steps shows that each of them is a sequence of transitions.
-/
namespace OpenQasm

/-- The configuration under which the first fatal report ends the analysis. -/
def Config.failingFast (config : Config) : Config := { config with errorMode := .failFast }

/-- The configuration under which all errors are collected. -/
def Config.collectingAll (config : Config) : Config := { config with errorMode := .collectAll }

namespace Analysis

variable {α β ε : Type} {config : Config} {s t : State} {x y : Analysis α} {f : α → Analysis β}

/-- The state with another note of whether the analysis has ended. -/
def State.noting (s : State) (halted : Bool) : State := { s with halted }

theorem Before.noting (h : Before s t) (halted : Bool) : Before (s.noting halted) t :=
  ⟨h.registers, h.declarations, h.externalGates, h.diagnostics⟩

/-- What becomes of a run where the first fatal report ends the analysis: the same, but for the note that it
has ended, or all that is around has been left before. -/
inductive CutShort : Except Failure α × State → Except Failure α × State → Prop
  | same (r : Except Failure α) (t : State) (halted : Bool) : CutShort (r, t) (r, t.noting halted)
  | left {full : Except Failure α × State} {t : State} : t.halted = true → Before t full.2 →
      CutShort full (.error .leaving, t)

theorem CutShort.refl (a : Except Failure α × State) : CutShort a a := .same a.1 a.2 a.2.halted

/-- From a state, a step is a sequence of transitions, and where the first fatal report ends the analysis it
is cut short. -/
structure Proceeds (config : Config) (s : State) (x : Analysis α) : Prop where
  transitions : Transitions config s (x config s).2
  cutShort : config.errorMode = .collectAll → s.halted = false →
    ∀ halted, CutShort (x config s) (x config.failingFast (s.noting halted))

/-- A step that proceeds from all states with sound symbols. -/
def Orderly (x : Analysis α) : Prop := ∀ config s, s.scopes.Sound → Proceeds config s x

section Rules

theorem Proceeds.pure (a : α) : Proceeds config s (Pure.pure a) :=
  ⟨.refl s, fun _ _ halted => .same (.ok a) s halted⟩

theorem Proceeds.throw (e : Failure) : Proceeds config s (MonadExcept.throw e : Analysis α) :=
  ⟨.refl s, fun _ _ halted => .same (.error e) s halted⟩

theorem Proceeds.bind (hx : Proceeds config s x)
    (hf : ∀ a t, x config s = (.ok a, t) → Proceeds config t (f a)) :
    Proceeds config s (x >>= f) := by
  have htransitions := hx.transitions
  refine ⟨?_, fun hmode hhalted halted => ?_⟩
  · rw [run_bind]
    rcases hr : x config s with ⟨e | a, t⟩
    · rw [hr] at htransitions
      exact htransitions
    · rw [hr] at htransitions
      exact htransitions.trans (hf a t hr).transitions
  · have hcut := hx.cutShort hmode hhalted halted
    rw [run_bind, run_bind]
    rcases hr : x config s with ⟨r, t⟩
    rw [hr] at hcut htransitions
    generalize x config.failingFast (s.noting halted) = cut at hcut
    cases hcut with
    | same _ _ halted' =>
      -- Both runs are in the same state, and the second step is compared from there.
      cases r with
      | error e => exact .same (.error e) t halted'
      | ok a => exact (hf a t hr).cutShort hmode ((htransitions.halted hmode).trans hhalted) halted'
    -- What follows in the full run only adds to what was put out before.
    | left hend hbefore =>
      cases r with
      | error e => exact .left hend hbefore
      | ok a => exact .left hend (hbefore.trans (hf a t hr).transitions.before)

theorem Proceeds.ite {c : Prop} [Decidable c] (hx : c → Proceeds config s x)
    (hy : ¬c → Proceeds config s y) : Proceeds config s (if c then x else y) := by
  split
  · exact hx ‹_›
  · exact hy ‹_›

theorem Proceeds.get {f : State → Analysis β} (hf : ∀ halted, f (s.noting halted) = f s)
    (h : Proceeds config s (f s)) : Proceeds config s (MonadState.get >>= f) := by
  refine ⟨h.transitions, fun hmode hhalted halted => ?_⟩
  have hcut := h.cutShort hmode hhalted halted
  rw [run_get, run_get, hf halted]
  exact hcut

theorem Proceeds.read {f : Config → Analysis β} (hf : f config.failingFast = f config)
    (h : Proceeds config s (f config)) : Proceeds config s (MonadReader.read >>= f) := by
  have hrun (c : Config) (t : State) : (MonadReader.read >>= f) c t = f c c t := rfl
  refine ⟨h.transitions, fun hmode hhalted halted => ?_⟩
  rw [hrun, hrun, hf]
  exact h.cutShort hmode hhalted halted

theorem Proceeds.modify {change : State → State} (hstep : Transition config s (change s))
    (hhalted : ∀ halted, change (s.noting halted) = (change s).noting halted) :
    Proceeds config s (MonadState.modifyGet fun s => ((), change s)) := by
  refine ⟨hstep.transitions, fun _ _ halted => ?_⟩
  have hrun (c : Config) (t : State) : (MonadState.modifyGet fun s => ((), change s) : Analysis Unit)
      c t = (.ok (), change t) := rfl
  rw [hrun, hrun, hhalted halted]
  exact .same _ _ halted

namespace Orderly

theorem pure (a : α) : Orderly (Pure.pure a) := fun _ _ _ => .pure a

theorem throw (e : Failure) : Orderly (MonadExcept.throw e : Analysis α) := fun _ _ _ => .throw e

theorem transitions {r : Except Failure α} (hx : Orderly x) (hs : s.scopes.Sound)
    (hr : x config s = (r, t)) : Transitions config s t := by
  have htransitions := (hx config s hs).transitions
  rw [hr] at htransitions
  exact htransitions

theorem sound {r : Except Failure α} (hx : Orderly x) (hs : s.scopes.Sound)
    (hr : x config s = (r, t)) : t.scopes.Sound := (hx.transitions hs hr).sound hs

/-- The second step may go on with what the first one can result in. -/
theorem bindFrom (hx : Orderly x)
    (hf : ∀ a config s t, s.scopes.Sound → x config s = (.ok a, t) → Orderly (f a)) :
    Orderly (x >>= f) := by
  intro config s hs
  exact (hx config s hs).bind fun a t hr => hf a config s t hs hr config t (hx.sound hs hr)

theorem bindOf (hx : Orderly x)
    (hf : ∀ a config s t, x config s = (.ok a, t) → Orderly (f a)) : Orderly (x >>= f) :=
  hx.bindFrom fun a config s t _ hr => hf a config s t hr

theorem bind (hx : Orderly x) (hf : ∀ a, Orderly (f a)) : Orderly (x >>= f) :=
  hx.bindOf fun a _ _ _ _ => hf a

theorem map {φ : α → β} (hx : Orderly x) : Orderly (φ <$> x) := hx.bind fun _ => pure _

theorem ite {c : Prop} [Decidable c] (hx : c → Orderly x) (hy : ¬c → Orderly y) :
    Orderly (if c then x else y) := fun config s hs =>
  .ite (fun hc => hx hc config s hs) fun hc => hy hc config s hs

theorem get {f : State → Analysis β} (hf : ∀ s halted, f (s.noting halted) = f s)
    (h : ∀ s, Orderly (f s)) : Orderly (MonadState.get >>= f) :=
  fun config s hs => .get (hf s) (h s config s hs)

theorem read {f : Config → Analysis β} (hf : ∀ config, f config.failingFast = f config)
    (h : ∀ config, Orderly (f config)) : Orderly (MonadReader.read >>= f) :=
  fun config s hs => .read (hf config) (h config config s hs)

theorem fail (p : Problem) : Orderly (Analysis.fail p : Analysis α) :=
  get (fun _ _ => rfl) fun _ => throw _

theorem failConstruct (p : Problem) : Orderly (Analysis.failConstruct p : Analysis α) :=
  get (fun _ _ => rfl) fun _ => throw _

/-- Nothing is done after a failure. -/
theorem failing (p : Problem) : Orderly (Analysis.fail p >>= f) :=
  (fail p).bindOf fun _ _ _ _ h => nomatch h

theorem orFail (problem : ε → Problem) (r : Except ε α) : Orderly (Analysis.orFail problem r) := by
  cases r with
  | ok a => exact pure a
  | error e => exact fail _

theorem mapM {γ : Type} {f : γ → Analysis α} (xs : List γ) (hf : ∀ x ∈ xs, Orderly (f x)) :
    Orderly (xs.mapM f) := by
  induction xs with
  | nil => exact pure _
  | cons x xs ih =>
    rw [List.mapM_cons]
    apply (hf x List.mem_cons_self).bind
    intro a
    exact (ih fun x hx => hf x (List.mem_cons_of_mem _ hx)).bind fun _ => pure _

theorem forM {γ : Type} {f : γ → Analysis Unit} (hf : ∀ x, Orderly (f x)) (xs : List γ) :
    Orderly (xs.forM f) := by
  induction xs with
  | nil => exact pure _
  | cons x xs ih =>
    have hcons : (x :: xs).forM f = f x >>= fun _ => xs.forM f := rfl
    rw [hcons]
    exact (hf x).bind fun _ => ih

end Orderly

end Rules

section Primitives

theorem resolve?_orderly (name : String) : Orderly (resolve? name) :=
  .get (fun _ _ => rfl) fun _ => .pure _

theorem resolve_orderly (name : String) : Orderly (resolve name) := by
  refine (resolve?_orderly name).bind fun x => ?_
  cases x with
  | none => exact .fail _
  | some x => exact .pure _

theorem ensureFree_orderly (name : String) : Orderly (ensureFree name) := by
  refine .get (fun _ _ => rfl) fun s => ?_
  split
  · exact .fail _
  · exact .pure _

/-- A new symbol has got nothing but a name, a kind and a place. -/
theorem newSymbol_orderly (name : String) (kind : SymbolKind) {f : Symbol → Analysis α}
    (hf : ∀ span, Orderly (f { name, kind, span })) : Orderly (newSymbol name kind >>= f) :=
  fun config s hs =>
    ⟨(hf s.span config s hs).transitions, (hf s.span config s hs).cutShort⟩

theorem physical_orderly (v : View) : Orderly (physical v) := .get (fun _ _ => rfl) fun _ => .pure _

theorem qubitLabel_orderly (q : Nat) : Orderly (qubitLabel q) :=
  .get (fun _ _ => rfl) fun _ => .pure _

theorem branchedSince_orderly (scope : Nat) : Orderly (branchedSince scope) :=
  .get (fun _ _ => rfl) fun _ => .pure _

theorem emit_orderly (f : FlatStatement) : Orderly (emit f) := fun _ s _ =>
  .modify (.place (f :: s.output) s.calls s.loopScope s.callScope s.runtimeFloor s.span)
    fun _ => rfl

/-- The same is reported; only where it ends the analysis this is noted. -/
theorem report_orderly (d : Diagnostic) : Orderly (report d) := fun config s _ =>
  ⟨(Transition.report d).transitions, fun _ _ halted =>
    .same (.ok ()) { s with diagnostics := d :: s.diagnostics, halted := s.halted || ends config d }
      (halted || ends config.failingFast d)⟩

theorem reportHere_orderly (p : Problem) : Orderly (reportHere p) :=
  .get (fun _ _ => rfl) fun _ => report_orderly _

theorem declare_orderly {x : Symbol} (hx : x.Sound) : Orderly (declare x) := by
  intro config s _
  apply Proceeds.get (fun _ => rfl)
  rcases hdeclared : s.scopes.declare x with first | scopes
  · exact ⟨.refl s, fun _ _ halted => .same _ s halted⟩
  · exact .modify (.declare hdeclared hx) fun _ => rfl

theorem noteUsage_orderly (q : Nat) (usage : Usage) : Orderly (noteUsage q usage) := by
  intro config s hs
  apply Proceeds.get (fun _ => rfl)
  have hstep : Transition config s _ := .mark q usage
  generalize s.registers.mark q usage = marked at hstep ⊢
  obtain ⟨warning, registers⟩ := marked
  refine Proceeds.bind (.modify hstep fun _ => rfl) ?_
  rintro _ _ ⟨⟩
  cases warning with
  | some w => exact reportHere_orderly _ config _ hs
  | none => exact .pure _

theorem allocate_orderly (name : String) (size : Nat) (kind : RegisterKind) :
    Orderly (allocate name size kind) := by
  intro config s hs
  apply Proceeds.get (fun _ => rfl)
  rcases hr : s.registers.allocate name size kind with e | ⟨id, v, registers⟩
  · exact Orderly.fail _ config s hs
  · exact Proceeds.bind (.modify (.allocate hr) fun _ => rfl) fun _ _ _ => .pure _

theorem length_of_allocate {name : String} {size : Nat} {kind : RegisterKind} {r : String × View}
    (h : allocate name size kind config s = (.ok r, t)) : r.2.length = size := by
  rw [allocate, run_get] at h
  rcases hr : s.registers.allocate name size kind with e | ⟨id, v, registers⟩
  · rw [hr] at h
    cases h
  · rw [hr] at h
    cases h
    obtain ⟨-, rfl, -⟩ := Registers.allocate_eq_ok hr
    exact Nat.add_zero size

/-- A variable is declared in the flat program under a free name. -/
theorem addVariable_orderly (name : String) (t : ClassicalType) (direction : Option Direction)
    {f : String → Analysis α} (hf : ∀ emitName, Orderly (f emitName)) :
    Orderly (do
      let emitName ← reserve name
      addDeclaration ⟨emitName, t, direction⟩
      f emitName) := by
  intro config s hs
  have hrun (c : Config) (u : State) :
      -- The name is taken and the variable is declared at once: no transition does only the first.
      (reserve name >>= fun emitName => addDeclaration ⟨emitName, t, direction⟩ >>= fun _ =>
        f emitName) c u =
      f (u.registers.reserve name).1 c
        { u with
          registers := (u.registers.reserve name).2
          declarations := ⟨(u.registers.reserve name).1, t, direction⟩ :: u.declarations } := rfl
  have hstep : Transition config s _ := .addVariable name t direction
  have hrest := hf (s.registers.reserve name).1 config _ (hstep.sound hs)
  exact ⟨hstep.transitions.trans hrest.transitions, hrest.cutShort⟩

/-- A symbol with a type gets a name in the flat program. -/
theorem nameSymbol_proceeds {name : String} (emitName : String)
    (h : ∀ x, s.scopes.resolve? name = some x → x.type ≠ none) :
    Proceeds config s (modifySymbol name fun x => { x with emitName := some emitName }) :=
  .modify (.nameSymbol (some emitName) h) fun _ => rfl

theorem forget_orderly (name : String) :
    Orderly (modifySymbol name fun x => { x with value := none }) := fun _ _ _ =>
  .modify (.setValue fun _ _ _ _ _ h => nomatch h) fun _ => rfl

end Primitives

section Brackets

/-- A change at the end of a bracket, which keeps what was put out for good. -/
structure Returns (back : State → State) : Prop where
  transitions : ∀ config t, Transitions config t (back t)
  halted : ∀ t halted, back (t.noting halted) = (back t).noting halted
  before : ∀ t u, Before t u → Before (back t) (back u)

/-- What describes the place of a step is changed. -/
theorem returns_place {back : State → State}
    (hplace : ∀ t, back t = { t with
      output := (back t).output, calls := (back t).calls, loopScope := (back t).loopScope
      callScope := (back t).callScope, runtimeFloor := (back t).runtimeFloor, span := (back t).span })
    (hhalted : ∀ t halted, back (t.noting halted) = (back t).noting halted) : Returns back where
  transitions config t := by
    rw [hplace t]
    exact (Transition.place _ _ _ _ _ _).transitions
  halted := hhalted
  before t u h := by
    rw [hplace t, hplace u]
    exact ⟨h.registers, h.declarations, h.externalGates, h.diagnostics⟩

/-- A scope is left, and what describes the place of the step is changed. -/
theorem returns_exit {back : State → State}
    (hplace : ∀ t, back t = { t with
      scopes := t.scopes.exit
      output := (back t).output, calls := (back t).calls, loopScope := (back t).loopScope
      callScope := (back t).callScope, runtimeFloor := (back t).runtimeFloor, span := (back t).span })
    (hhalted : ∀ t halted, back (t.noting halted) = (back t).noting halted) : Returns back where
  transitions config t := by
    rw [hplace t]
    exact Transitions.trans (Transition.exit (s := t)).transitions
      (Transition.place _ _ _ _ _ _).transitions
  halted := hhalted
  before t u h := by
    rw [hplace t, hplace u]
    exact ⟨h.registers, h.declarations, h.externalGates, h.diagnostics⟩

/-- A step between a change before it and one after it that is made even if it fails. -/
theorem Proceeds.within (entered : State) (back : State → State)
    (hrun : ∀ config halted,
      y config (s.noting halted) = followedBy x back config (entered.noting halted))
    (henter : Transitions config s entered) (hhalted : entered.halted = s.halted)
    (hback : Returns back) (hx : Proceeds config entered x) : Proceeds config s y := by
  have hfull : y config s = ((x config entered).1, back (x config entered).2) := by
    have hsame : s.noting entered.halted = s := by rw [hhalted]; rfl
    have hrun' := hrun config entered.halted
    rw [hsame] at hrun'
    exact hrun'
  refine ⟨?_, fun hmode hs halted => ?_⟩
  · rw [hfull]
    exact (henter.trans hx.transitions).trans (hback.transitions config _)
  · have hcut := hx.cutShort hmode (hhalted.trans hs) halted
    rw [hfull, hrun]
    unfold followedBy
    rcases hr : x config entered with ⟨r, t⟩
    rw [hr] at hcut
    generalize x config.failingFast (entered.noting halted) = cut at hcut
    cases hcut with
    | same _ _ halted' =>
      dsimp only
      rw [hback.halted t halted']
      exact .same r _ halted'
    | @left _ t' hend hbefore =>
      -- The change back is made in the run that is being left, too.
      refine .left ?_ (hback.before _ _ hbefore)
      have hkept : back t' = (back t').noting t'.halted := hback.halted t' t'.halted
      rw [hkept]
      exact hend

/-- What describes the place of a step is changed when it is entered. -/
theorem transitions_place {entered : State}
    (hplace : entered = { s with
      output := entered.output, calls := entered.calls, loopScope := entered.loopScope
      callScope := entered.callScope, runtimeFloor := entered.runtimeFloor, span := entered.span }) :
    Transitions config s entered := by
  rw [hplace]
  exact (Transition.place _ _ _ _ _ _).transitions

/-- A scope is entered, and what describes the place of the step is changed. -/
theorem transitions_enter {entered : State} (kind : ScopeKind)
    (hplace : entered = { s with
      scopes := s.scopes.enter kind
      output := entered.output, calls := entered.calls, loopScope := entered.loopScope
      callScope := entered.callScope, runtimeFloor := entered.runtimeFloor, span := entered.span }) :
    Transitions config s entered := by
  rw [hplace]
  exact (Transition.enter kind).transitions.trans (Transition.place _ _ _ _ _ _).transitions

theorem inScope_orderly (kind : ScopeKind) (hx : Orderly x) : Orderly (inScope kind x) :=
  fun config s hs =>
    .within { s with scopes := s.scopes.enter kind } (fun t => { t with scopes := t.scopes.exit })
      (fun _ _ => rfl) (transitions_enter kind rfl) rfl (returns_exit (fun _ => rfl) fun _ _ => rfl)
      (hx config _ (hs.enter kind))

theorem inLoop_orderly (hx : Orderly x) : Orderly (inLoop x) := fun config s hs =>
  .within { s with loopScope := some s.scopes.depth } (fun t => { t with loopScope := s.loopScope })
    (fun _ _ => rfl) (transitions_place rfl) rfl (returns_place (fun _ => rfl) fun _ _ => rfl)
    (hx config _ hs)

theorem underRuntimeCondition_orderly (hx : Orderly x) : Orderly (underRuntimeCondition x) :=
  fun config s hs =>
    .within
      { s with
        scopes := s.scopes.enter .block, runtimeFloor := some (s.scopes.enter .block).depth }
      (fun t => { t with scopes := t.scopes.exit, runtimeFloor := s.runtimeFloor })
      (fun _ _ => rfl) (transitions_enter .block rfl) rfl
      (returns_exit (fun _ => rfl) fun _ _ => rfl) (hx config _ (hs.enter .block))

theorem collecting_orderly (hx : Orderly x) : Orderly (collecting x) := by
  intro config s hs
  have hcollected : Orderly (x >>= fun a => MonadState.get >>= fun t => pure (a, t.output.reverse)) :=
    hx.bind fun _ => .get (fun _ _ => rfl) fun _ => .pure _
  exact .within { s with output := [] } (fun t => { t with output := s.output })
    (fun _ _ => rfl) (transitions_place rfl) rfl (returns_place (fun _ => rfl) fun _ _ => rfl)
    (hcollected config _ hs)

theorem inCall_orderly (name : String) (hx : Orderly x) : Orderly (inCall name x) :=
  fun config s hs =>
    .within
      { s with
        calls := name :: s.calls, scopes := s.scopes.enter .subroutineBody
        loopScope := none, callScope := some (s.scopes.enter .subroutineBody).depth }
      (fun t => { t with
        scopes := t.scopes.exit, calls := t.calls.tail
        loopScope := s.loopScope, callScope := s.callScope })
      (fun _ _ => rfl) (transitions_enter .subroutineBody rfl) rfl
      (returns_exit (fun _ => rfl) fun _ _ => rfl) (hx config _ (hs.enter .subroutineBody))

end Brackets

section Recovery

/-- A construct that is being left is left further where the analysis has ended, and is otherwise taken for
a dropped statement. -/
theorem recover_orderly (failure : Failure) : Orderly (recover failure) := by
  cases failure with
  | statement d => exact (report_orderly d).bind fun _ => .pure _
  | construct d => exact (report_orderly d).bind fun _ => .throw _
  | leaving => exact .throw _
  | reported =>
    -- Here the end of the analysis is noticed: the full run only drops the statement.
    intro config s _
    have hrun (c : Config) (t : State) : recover .reported c t =
        (if t.halted then .error .leaving else .ok .normal, t) := by
      rw [recover, run_get]
      cases t.halted <;> rfl
    refine ⟨?_, fun _ hhalted halted => ?_⟩
    · rw [hrun]
      exact .refl s
    · rw [hrun, hrun, hhalted]
      cases halted with
      | false => exact .same _ s false
      | true => exact .left rfl ((Before.refl s).noting true)

/-- A statement at its place in the source. After a failure its output is taken back. -/
theorem settled_orderly (span : Span) {x : Analysis Signal} (hx : Orderly x) :
    Orderly (settled span x) := by
  intro config s hs
  have hinner := hx config { s with span } hs
  have hspan : Returns fun t => { t with span := s.span } :=
    returns_place (fun _ => rfl) fun _ _ => rfl
  have hback : Returns fun t => { t with span := s.span, output := s.output } :=
    returns_place (fun _ => rfl) fun _ _ => rfl
  have htransitions : Transitions config s (x config { s with span }).2 :=
    Transitions.trans (transitions_place rfl) hinner.transitions
  have hreturned := htransitions.trans (hback.transitions config _)
  refine ⟨?_, fun hmode hhalted halted => ?_⟩
  · rw [settled_run]
    rcases hr : x config { s with span } with ⟨failure | signal, t⟩
    · rw [hr] at hreturned
      exact hreturned.trans (recover_orderly failure config _ (hreturned.sound hs)).transitions
    · rw [hr] at htransitions
      exact htransitions.trans (hspan.transitions config t)
  · have hcut := hinner.cutShort hmode hhalted halted
    have hnoted : ({ s.noting halted with span } : State) = ({ s with span } : State).noting halted := rfl
    rw [settled_run, settled_run, hnoted]
    rcases hr : x config { s with span } with ⟨r, t⟩
    rw [hr] at hcut hreturned
    generalize x config.failingFast (({ s with span } : State).noting halted) = cut at hcut
    cases hcut with
    | same _ _ halted' =>
      cases r with
      -- After a failure both runs set their output back before they deal with it.
      | error failure =>
        exact (recover_orderly failure config _ (hreturned.sound hs)).cutShort hmode
          ((hreturned.halted hmode).trans hhalted) halted'
      | ok signal => exact .same (.ok signal) _ halted'
    | left hend hbefore =>
      cases r with
      | error failure =>
        have hrecover := recover_orderly failure config _ (hreturned.sound hs)
        exact .left hend ((hback.before _ _ hbefore).trans hrecover.transitions.before)
      | ok signal =>
        exact .left hend ⟨hbefore.registers, hbefore.declarations, hbefore.externalGates,
          hbefore.diagnostics⟩

theorem atCallBoundary_orderly (hx : Orderly x) : Orderly (atCallBoundary x) := by
  intro config s hs
  have hinner := hx config s hs
  refine ⟨?_, fun hmode hhalted halted => ?_⟩
  · rw [atCallBoundary_run]
    exact hinner.transitions
  · have hcut := hinner.cutShort hmode hhalted halted
    have hrunning := (hinner.transitions.halted hmode).trans hhalted
    rw [atCallBoundary_run, atCallBoundary_run]
    rcases hr : x config s with ⟨r, t⟩
    rw [hr] at hcut hrunning
    generalize x config.failingFast (s.noting halted) = cut at hcut
    dsimp only at hrunning ⊢
    rw [hrunning]
    cases hcut with
    | left hend hbefore =>
      rw [hend]
      exact .left hend hbefore
    | same _ _ halted' =>
      rcases r with failure | a
      · cases failure with
        | leaving =>
          cases halted' with
          | false => exact .same _ t false
          -- The full run goes on after the call, while this one leaves what is around the call, too.
          | true => exact .left rfl ((Before.refl t).noting true)
        | statement d => exact .same _ t halted'
        | construct d => exact .same _ t halted'
        | reported => exact .same _ t halted'
      · exact .same _ t halted'

/-- A block is left before the next statement where the analysis has ended. -/
theorem block_cons_orderly {calls : Calls} {first : Statement} {rest : List Statement}
    (hfirst : Orderly (statement calls first)) (hrest : Orderly (block calls rest)) :
    Orderly (block calls (first :: rest)) := by
  intro config s hs
  have hafter (signal : Signal) : Orderly (blockRest calls rest signal) := by
    cases signal with
    | normal => exact hrest
    | breakLoop => exact .pure _
    | continueLoop => exact .pure _
    | returned r => exact .pure _
  have hrun := (hfirst.bind hafter) config s hs
  have hleft (c : Config) (t : State) (ht : t.halted = true) :
      block calls (first :: rest) c t = (.error .leaving, t) := by
    rw [block, run_get, ht]
    rfl
  rcases hhalted : s.halted with - | -
  · have hfull : block calls (first :: rest) config s = _ := block_cons_run first rest hhalted
    refine ⟨?_, fun hmode _ halted => ?_⟩
    · rw [hfull]
      exact hrun.transitions
    · rw [hfull]
      cases halted with
      | false =>
        rw [block_cons_run first rest rfl]
        exact hrun.cutShort hmode hhalted false
      | true =>
        -- The full run goes on with the statements that this one leaves out.
        rw [hleft _ _ rfl]
        exact .left rfl (hrun.transitions.before.noting true)
  · refine ⟨?_, fun _ hrunning => by cases hhalted.symm.trans hrunning⟩
    rw [hleft config s hhalted]
    exact .refl s

end Recovery

end Analysis
end OpenQasm
