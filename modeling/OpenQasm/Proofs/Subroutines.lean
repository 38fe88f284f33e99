import OpenQasm.Analysis.Arguments
import OpenQasm.Proofs.Applications
import OpenQasm.Proofs.Assignments

/-!
Calls of subroutines. The types and sizes that a subroutine declares are found where the call stands, as
its arguments are; the body is entered after that, and only if it is not being expanded already.
-/
namespace OpenQasm

namespace Analysis

variable {I J : Invariant} {D : DeclaringInvariant} {pre : State → Prop}

section Binding

/-- A formal parameter may stand for the same as a variable of the caller. -/
theorem boundByName_ensures (formal : String) (t : ClassicalType) (source : String) :
    Ensures I (MayName I source) (boundByName formal t source) (boundByName formal t source)
      (fun x s => I.symbol s.registers x) := by
  apply (runtimeName_named source).bind
  intro emitName
  refine (resolve?_ensures source).bind fun origin => ?_
  refine (newSymbol_ensures _ formal _).bind fun x => Ensures.pure ?_
  rintro s hs ⟨hx, rfl, y, hy, hnamed, -⟩
  refine I.symbol_copy hs hy (Or.inr (Option.isSome_iff_exists.2 ⟨_, hnamed⟩)) ?_ ?_ hnamed.symm hx.mutable
  · change x.kind = y.kind
    rw [hx.kind, hy, Option.map_some, Option.getD_some]
  · change ((s.scopes.resolve? source).map Symbol.binding).getD .none = y.binding
    rw [hy, Option.map_some, Option.getD_some]

theorem boundByCopy_ensures (formal : String) (t : ClassicalType) (value : Expr) :
    Ensures I (fun _ => True) (boundByCopy formal t value) (boundByCopy formal t value)
      (fun x s => I.symbol s.registers x) := by
  refine ((hoist_keeping formal t fun _ => True).weaken fun _ _ _ h => h.1).bind fun emitName => ?_
  have hassign := (emit_ensures (I := I) (.assign (.name emitName) value) fun _ => nofun).carry
    (stable_target (I := I) emitName)
  refine Ensures.bind (hassign.mono (fun s _ htarget => ⟨I.flat_assign none _ htarget, htarget⟩)
    fun _ _ _ h => h.2) fun _ => ?_
  refine (newSymbol_ensures _ formal .classicalVariable).bind fun x => Ensures.pure fun s _ hx => ?_
  refine I.symbol_none hx.1.binding ?_
  rintro _ ⟨⟩
  exact hx.2

theorem checkFresh_agree (subroutine : String) (seen qubits : List Nat) :
    Agree I (checkFresh subroutine seen qubits) (checkFresh subroutine seen qubits) := by
  induction qubits generalizing seen with
  | nil => exact Agree.pure _
  | cons q qs ih =>
    exact Agree.ite ((qubitLabel_agree q).bind fun _ => Agree.fail _ rfl) (ih (q :: seen))

/-- The formal parameters are declared at the beginning of the body. -/
theorem declareAll_ensures (symbols : List Symbol) :
    Ensures D.toInvariant (fun s => (∀ x ∈ symbols, D.symbol s.registers x) ∧ s.scopes.InBody)
      (declareAll symbols) (declareAll symbols) (fun _ _ => True) := by
  induction symbols with
  | nil => exact Ensures.pure fun _ _ _ => trivial
  | cons x xs ih =>
    have hstable : Stable fun s => ∀ x ∈ xs, D.symbol s.registers x :=
      fun s t hframe h x hx => stable_symbol x s t hframe (h x hx)
    unfold declareAll
    refine Ensures.bind (((declare_ensures x).carry (hstable.and stable_inBody)).mono ?_ fun _ _ _ h => h.2)
      fun _ => ih
    rintro _ _ ⟨hsymbols, hbody⟩
    obtain ⟨hx, hxs⟩ := List.forall_mem_cons.1 hsymbols
    exact ⟨⟨hx, .inr hbody⟩, hxs, hbody⟩

variable {weight weight' : String → Nat} {k k' : Nat} {calls calls' : Calls}

theorem bindClassical_ensures (hargs : CallsAgree I weight k calls calls')
    (hsignature : CallsAgree I weight' k' calls calls') (formal : String) (type : TypeExpr) (arg : Expr)
    (htype : weigh weight' type.callees ≤ k') (harg : weigh weight arg.callees ≤ k) :
    Ensures I (fun _ => True) (bindClassical calls formal type arg)
      (bindClassical calls' formal type arg) (fun x s => I.symbol s.registers x) := by
  apply (resolveType_agree hsignature type htype).andThen
  intro t
  apply (checkInitializer_agree hargs t arg harg).andThen
  intro _
  apply (rightValue_name_ensures hargs arg harg).bind
  intro r
  split
  · apply (coerceTo_agree t _).forget.bind
    intro v
    apply (newSymbol_ensures (fun _ => True) formal .classicalVariable).bind
    intro x
    exact Ensures.pure fun _ _ hx => I.symbol_none hx.1.binding hx.1.targeted
  · split
    · next source hsource =>
      exact (boundByName_ensures formal t source).mono (fun _ _ h => h _ source rfl hsource)
        fun _ _ _ h => h
    · exact (boundByCopy_ensures formal t _).forget
  · exact Ensures.fail _ rfl

theorem formalSize_agree (h : CallsAgree I weight k calls calls') (size : Option Expr)
    (hk : weigh weight (optionCallees size) ≤ k) :
    Agree I (formalSize calls size) (formalSize calls' size) := by
  cases size with
  | none => exact Agree.pure _
  | some e => exact resolveWidth_agree h e hk

/-- The formal parameters are symbols that may be declared. -/
theorem bindArguments_ensures (hargs : CallsAgree I weight k calls calls')
    (hsignature : CallsAgree I weight' k' calls calls') (subroutine : String) :
    ∀ (pairs : List (Formal × Expr)) (seen : List Nat),
      (∀ p ∈ pairs, weigh weight' p.1.callees ≤ k' ∧ weigh weight p.2.callees ≤ k) →
      Ensures I (fun _ => True) (bindArguments calls subroutine seen pairs)
        (bindArguments calls' subroutine seen pairs) (fun xs s => ∀ x ∈ xs, I.symbol s.registers x)
  | [], _, _ => Ensures.pure fun _ _ _ _ h => nomatch h
  | (.qubit formal size, arg) :: rest, seen, hk => by
    obtain ⟨⟨hsize, harg⟩, hrest⟩ := List.forall_mem_cons.1 hk
    unfold bindArguments
    apply (quantumView_ensures hargs arg harg).bind
    intro v
    have hstable := stable_view (I := I) .quantum v
    apply ((formalSize_agree hsignature size hsize).carrying hstable).bind
    intro expected
    apply Ensures.ite (fun _ => Ensures.failing _ rfl)
    intro _
    have hphysical := (physical_ensures (I := I) .quantum v).carry hstable
    refine Ensures.bind (hphysical.mono (fun _ _ h => ⟨h, h⟩) fun _ _ _ h => h.2) fun qubits => ?_
    apply ((checkFresh_agree subroutine seen qubits).carrying hstable).bind
    intro seen
    refine (newSymbol_ensures _ formal .alias).bind fun x => Ensures.given fun hx => ?_
    have hsymbols := bindArguments_ensures hargs hsignature subroutine rest seen hrest
    -- The view of the argument has to outlast the binding of the rest.
    refine (hsymbols.carrying hstable).bind fun xs => Ensures.pure fun s _ h => ?_
    exact List.forall_mem_cons.2 ⟨I.symbol_qubits (Or.inr hx.kind) rfl h.2 hx.targeted, h.1⟩
  | (.classical type formal, arg) :: rest, seen, hk => by
    obtain ⟨⟨htype, harg⟩, hrest⟩ := List.forall_mem_cons.1 hk
    unfold bindArguments
    apply (bindClassical_ensures hargs hsignature formal type arg htype harg).bind
    intro x
    have hsymbols := bindArguments_ensures hargs hsignature subroutine rest seen hrest
    refine (hsymbols.carrying (stable_symbol x)).bind fun xs => Ensures.pure fun s _ h => ?_
    exact List.forall_mem_cons.2 ⟨h.2, h.1⟩

/-- What a subroutine hands back is what its body handed back, converted or not. -/
theorem checkResult_ensures (h : CallsAgree I weight k calls calls') (d : SubroutineDefinition)
    (hk : weigh weight (typeCallees d.result) ≤ k) (result : Option RightValue) :
    Ensures I (fun s => ∀ v, result = some v → v.Fits I.toFacts s.registers)
      (checkResult calls d result) (checkResult calls' d result)
      (fun r s => ∀ v, r = some v → v.Fits I.toFacts s.registers) := by
  have hstable : Stable fun s => ∀ v, result = some v → v.Fits I.toFacts s.registers :=
    fun s t hframe h v hv => (h v hv).mono hframe.registers
  unfold checkResult
  split
  · split
    · exact Ensures.pure fun _ _ _ _ h => nomatch h
    · exact Ensures.fail _ rfl
  · next type htype =>
    rw [htype] at hk
    apply ((resolveType_agree h type hk).carrying hstable).bind
    intro t
    -- A value that is known is converted; measured qubits are handed back as they are.
    split
    · exact Ensures.fail _ rfl
    · next v =>
      apply (orFail_agree _ _ fun _ => rfl).forget.bind
      intro _
      refine (coerceTo_agree t v).andThen fun v => Ensures.pure ?_
      rintro _ _ _ _ ⟨⟩
      trivial
    · exact Ensures.ite (fun _ => Ensures.pure fun _ _ h => h) fun _ => Ensures.fail _ rfl
    · exact Ensures.pure fun _ _ h => h

end Binding

section Calling

variable {α : Type} {x y : Analysis α} {post : α → State → Prop}

/-- What a call boundary makes of the outcome of a body. -/
def crossed (halted : Bool) : Except Failure α → Except Failure α
  | .error .leaving => .error (if halted then .leaving else .reported)
  | r => r

theorem atCallBoundary_run (x : Analysis α) (config : Config) (s : State) :
    atCallBoundary x config s =
      (crossed (x config s).2.halted (x config s).1, (x config s).2) := by
  have hattempt : attempt x config s = (.ok (x config s).1, (x config s).2) := rfl
  rw [atCallBoundary, run_bind, hattempt]
  rcases x config s with ⟨e | a, t⟩
  · cases e with
    | leaving =>
      dsimp only [crossed]
      rw [run_get]
      cases t.halted <;> rfl
    | statement d => rfl
    | construct d => rfl
    | reported => rfl
  · rfl

/-- A failure that is due to an error is due to it outside of the call. -/
theorem Tallies.crossed {s t : State} {r : Except Failure α} (h : Tallies s (r, t)) (halted : Bool) :
    Tallies s (crossed halted r, t) := by
  rcases r with e | a
  · have haccounted := h.error e rfl
    cases e with
    | statement d => exact h
    | construct d => exact h
    | leaving => cases halted <;> exact .throw haccounted
    | reported => exact h
  · exact h

theorem atCallBoundary_ensures (h : Ensures I pre x y post) :
    Ensures I pre (atCallBoundary x) (atCallBoundary y) post := by
  intro config s hs hp
  obtain ⟨halike, hframe, hcore, hputsOut, htallies, hpost⟩ := h config s hs hp
  rw [atCallBoundary_run, atCallBoundary_run]
  refine ⟨?_, hframe, hcore, hputsOut, fun h => (htallies h).crossed _, fun a ha => hpost a ?_⟩
  · rcases halike with heq | hmeets
    · rw [← heq]
      exact Alike.refl _
    · refine Or.inr (hmeets.imp_left ?_)
      rintro ⟨d, hd, hresult⟩
      exact ⟨d, hd, by rw [hresult]; rfl⟩
  · rcases hr : (x config s).1 with e | b
    · rw [hr] at ha
      cases e <;> nomatch ha
    · rw [hr] at ha
      exact ha

theorem inCall_run (name : String) (x : Analysis α) (config : Config) (s : State) :
    inCall name x config s =
      followedBy x
        (fun t => { t with
          scopes := t.scopes.exit, calls := t.calls.tail
          loopScope := s.loopScope, callScope := s.callScope })
        config
        { s with
          calls := name :: s.calls, scopes := s.scopes.enter .subroutineBody
          loopScope := none, callScope := some (s.scopes.enter .subroutineBody).depth } := rfl

/-- The body of a subroutine that is not being expanded runs where its own invariant holds. -/
theorem inCall_ensures {name : String} (before : Registers → Prop) (after : α → Registers → Prop)
    (hexpands : Expands I J name .subroutineBody fun _ => True)
    (hx : Ensures J (fun s => before s.registers ∧ s.scopes.InBody) x y
      (fun a s => after a s.registers)) :
    Ensures I (fun s => name ∉ s.calls ∧ before s.registers) (inCall name x) (inCall name y)
      (fun a s => after a s.registers) := by
  rintro config s hs ⟨hname, hbefore⟩
  have hentered := hexpands.entered s hs trivial hname
  obtain ⟨halike, hframe, hcore, hputsOut, htallies, hpost⟩ := hx config
    { s with
      calls := name :: s.calls, scopes := s.scopes.enter .subroutineBody
      loopScope := none, callScope := some (s.scopes.enter .subroutineBody).depth }
    (J.core_congr hentered rfl rfl rfl rfl) ⟨hbefore, _, rfl, rfl⟩
  rw [inCall_run, inCall_run]
  refine ⟨(halike.imp hexpands.excuses).followedBy fun _ => rfl, ?_⟩
  unfold followedBy
  rcases hr : x config _ with ⟨r, t⟩
  rw [hr] at hframe hcore hputsOut htallies hpost
  have htail : t.calls.tail = s.calls := congrArg List.tail hframe.calls
  dsimp only
  rw [htail]
  -- The scopes of loops and calls are the only other parts of the state that were changed.
  have hframe' : Frame { s with calls := name :: s.calls, scopes := s.scopes.enter .subroutineBody }
      { t with loopScope := s.loopScope, callScope := s.callScope } :=
    { hframe with loopScope := rfl, callScope := rfl }
  have hleft := hexpands.left s _ hs hframe' (J.core_congr hcore rfl rfl rfl rfl)
  exact ⟨hframe'.expanded, hleft, hputsOut.imp hexpands.flat,
    fun h => (htallies (hexpands.tallied h)).bracket ⟨rfl, rfl, rfl, rfl⟩ ⟨rfl, rfl, rfl, rfl⟩, hpost⟩

variable {weight weight' : String → Nat} {k k' : Nat} {calls calls' : Calls}

/-- A subroutine that is being expanded already is not entered. What its call hands back is made of qubits
that are there. -/
theorem callSubroutine_ensures {block block' : List Statement → Analysis Signal}
    {d : SubroutineDefinition} {args : List Expr} (hargs : CallsAgree I weight k calls calls')
    (hsignature : CallsAgree I weight' k' calls calls')
    (hk : weigh weight (exprsCallees args) ≤ k) (hk' : weigh weight' d.signatureCallees ≤ k')
    (hexpands : Expands I D.toInvariant d.name .subroutineBody fun _ => True)
    (hsymbol : ∀ r x, I.symbol r x → D.symbol r x) (hmeasured : ∀ r q, D.measured r q → I.measured r q)
    (hblock : Ensures D.toInvariant (fun _ => True) (block d.body) (block' d.body)
      (fun signal s => signal.Fits D.toFacts s.registers)) :
    Ensures I (fun _ => True) (callSubroutine calls block d args)
      (callSubroutine calls' block' d args)
      (fun r s => ∀ v, r = some v → v.Fits I.toFacts s.registers) := by
  rw [SubroutineDefinition.signatureCallees, weigh_append] at hk'
  have hstable : Stable fun s => d.name ∉ s.calls := by
    intro s t hframe h
    rw [hframe.calls]
    exact h
  have hpairs : ∀ p ∈ d.formals.zip args,
      weigh weight' p.1.callees ≤ k' ∧ weigh weight p.2.callees ≤ k := by
    intro p hp
    obtain ⟨hformal, harg⟩ := List.of_mem_zip hp
    have hformals := weigh_le_flatMap weight' Formal.callees hformal
    exact ⟨by omega, Nat.le_trans (weigh_le_of_mem weight harg) hk⟩
  have hbody : ∀ symbols, Ensures I
      (fun s => d.name ∉ s.calls ∧ ∀ x ∈ symbols, I.symbol s.registers x)
      (atCallBoundary (inCall d.name (declareAll symbols >>= fun _ => block d.body)))
      (atCallBoundary (inCall d.name (declareAll symbols >>= fun _ => block' d.body)))
      (fun signal s => ∀ v, resultOf signal = some v → v.Fits I.toFacts s.registers) := by
    intro symbols
    have hrun : Ensures D.toInvariant
        (fun s => (∀ x ∈ symbols, I.symbol s.registers x) ∧ s.scopes.InBody)
        (declareAll symbols >>= fun _ => block d.body) (declareAll symbols >>= fun _ => block' d.body)
        (fun signal s => signal.Fits D.toFacts s.registers) :=
      ((declareAll_ensures symbols).bind fun _ => hblock).mono
        (fun s _ hx => ⟨fun x hmem => hsymbol _ x (hx.1 x hmem), hx.2⟩) fun _ _ _ h => h
    refine (atCallBoundary_ensures (inCall_ensures (fun r => ∀ x ∈ symbols, I.symbol r x)
      (fun (signal : Signal) r => signal.Fits D.toFacts r) hexpands hrun)).weaken ?_
    -- Only a return hands something back, and measured qubits are measured around the call as well.
    · intro signal s _ hsignal v hv
      cases signal with
      | returned r =>
        cases hv
        cases v with
        | measured qubits => exact fun q hq => hmeasured _ q (hsignal q hq)
        | known _ => trivial
        | runtime _ => trivial
      | normal => nomatch hv
      | breakLoop => nomatch hv
      | continueLoop => nomatch hv
  unfold callSubroutine
  -- The call is checked first, but the arguments run before the body is entered: they keep that the body
  -- is not open.
  refine Ensures.get.bind fun s => Ensures.ite (fun _ => Ensures.failConstruct _ rfl) fun hcalls => ?_
  apply Ensures.ite (fun _ => Ensures.fail _ rfl)
  intro _
  have hsymbols := (bindArguments_ensures hargs hsignature d.name _ [] hpairs).carrying hstable
  have hrest := hsymbols.bind fun symbols =>
    ((hbody symbols).mono (fun _ _ h => ⟨h.2, h.1⟩) fun _ _ _ h => h).bind fun signal =>
      checkResult_ensures hsignature d (by omega) (resultOf signal)
  refine hrest.mono ?_ fun _ _ _ h => h
  rintro _ _ ⟨rfl, -⟩ hmem
  exact hcalls (List.contains_iff_mem.2 hmem)

end Calling

end Analysis
end OpenQasm
