import OpenQasm.Proofs.Agreement

/-!
The elementary steps of the analysis: each one is compared with itself, which tells what it keeps and what
its result is like. What is known of the scopes stays known as long as nothing is declared or changed
there.
-/
namespace OpenQasm

namespace Analysis

variable {I : Invariant} {α ε : Type} {pre : State → Prop}

section Stability

theorem stable_places (kind : RegisterKind) (qs : List Nat) :
    Stable fun s => ∀ q ∈ qs, I.place s.registers kind q :=
  fun _ _ hframe h q hq => I.place_mono hframe.registers (h q hq)

theorem stable_measured (qs : List Nat) : Stable fun s => ∀ q ∈ qs, I.measured s.registers q :=
  fun _ _ hframe h q hq => I.measured_mono hframe.registers (h q hq)

theorem stable_view (kind : RegisterKind) (v : View) : Stable fun s => I.view s.registers kind v :=
  fun _ _ hframe h => I.view_mono hframe.registers h

theorem stable_symbol (x : Symbol) : Stable fun s => I.symbol s.registers x :=
  fun _ _ hframe h => I.symbol_mono hframe.registers h

theorem Stable.and {p q : State → Prop} (hp : Stable p) (hq : Stable q) :
    Stable fun s => p s ∧ q s :=
  fun s t hframe h => ⟨hp s t hframe h.1, hq s t hframe h.2⟩

theorem stable_target (name : String) : Stable fun s => I.target s.registers name :=
  fun _ _ hframe h => I.target_mono hframe.registers h

theorem stable_writable (name : String) : Stable (I.writable name) :=
  fun _ _ hframe h => I.writable_mono hframe h

theorem stable_inBody : Stable fun s => s.scopes.InBody := by
  rintro s t hframe ⟨a, ha, hbody⟩
  have hpersist := hframe.symbols
  unfold Scopes.Persist at hpersist
  rcases hs : s.scopes.inner with - | ⟨b, outer⟩
  · rw [hs] at ha
    nomatch ha
  · rw [hs] at ha hpersist
    cases ha
    obtain ⟨c, outer', hwithin, -, ht⟩ := List.forall₂_cons_left_iff.1 hpersist
    exact ⟨c, by rw [ht]; rfl, hwithin.kind ▸ hbody⟩

theorem stable_const (p : Prop) : Stable fun _ => p := fun _ _ _ h => h

end Stability

section Reading

theorem resolve?_ensures (name : String) :
    Ensures I pre (resolve? name) (resolve? name)
      (fun x s => s.scopes.resolve? name = x ∧ pre s) := by
  refine Ensures.get.bind fun s => Ensures.pure ?_
  rintro t _ ⟨rfl, hp⟩
  exact ⟨rfl, hp⟩

theorem resolve_ensures (name : String) :
    Ensures I pre (resolve name) (resolve name)
      (fun x s => s.scopes.resolve? name = some x ∧ pre s) := by
  refine (resolve?_ensures name).bind fun x => ?_
  cases x with
  | none => exact Ensures.fail _ rfl
  | some x => exact Ensures.pure fun s _ h => h

theorem resolve?_agree (name : String) : Agree I (resolve? name) (resolve? name) :=
  (resolve?_ensures name).agree

theorem resolve_agree (name : String) : Agree I (resolve name) (resolve name) :=
  (resolve_ensures name).agree

theorem orFail_agree (problem : ε → Problem) (r : Except ε α)
    (hproblem : ∀ e, (problem e).severity = .error) :
    Agree I (orFail problem r) (orFail problem r) := by
  cases r with
  | ok a => exact Agree.pure _
  | error e => exact Agree.fail _ (hproblem e)

theorem severity_takenBy (x : Symbol) : (takenBy x).severity = .error := by
  unfold takenBy
  split <;> rfl

theorem ensureFree_agree (name : String) : Agree I (ensureFree name) (ensureFree name) := by
  apply Agree.get.bind
  intro s
  split
  · exact Agree.fail _ (severity_takenBy _)
  · exact Agree.pure _

/-- A symbol that has got nothing but a name and a kind. -/
structure Fresh (name : String) (kind : SymbolKind) (x : Symbol) : Prop where
  name : x.name = name
  kind : x.kind = kind
  binding : x.binding = .none
  emitName : x.emitName = none
  mutable : x.mutable = false

theorem Fresh.targeted {F : Facts} {r : Registers} {name : String} {kind : SymbolKind} {x : Symbol}
    (h : Fresh name kind x) : x.Targeted F r := Symbol.targeted_of_unnamed h.emitName

theorem newSymbol_ensures (p : State → Prop) (name : String) (kind : SymbolKind) :
    Ensures I p (newSymbol name kind) (newSymbol name kind) (fun x s => Fresh name kind x ∧ p s) :=
  Ensures.get.bind fun _ => Ensures.pure fun _ _ h => ⟨⟨rfl, rfl, rfl, rfl, rfl⟩, h.2⟩

theorem physical_ensures (kind : RegisterKind) (v : View) :
    Ensures I (fun s => I.view s.registers kind v) (physical v) (physical v)
      (fun qs s => ∀ q ∈ qs, I.place s.registers kind q) := by
  refine Ensures.get.bind fun s => Ensures.pure ?_
  rintro t _ ⟨rfl, hv⟩ q hq
  exact I.view_place hv hq

theorem qubitLabel_agree (q : Nat) : Agree I (qubitLabel q) (qubitLabel q) :=
  Agree.get.bind fun _ => Agree.pure _

/-- Whether a scope has a symbol from outside of the innermost branch that is decided when the program
runs. -/
def Branched (scope : Nat) (branched : Bool) (s : State) : Prop :=
  branched = s.runtimeFloor.any fun floor => scope < floor

theorem stable_branched (scope : Nat) (branched : Bool) : Stable (Branched scope branched) := by
  intro s t hframe h
  unfold Branched
  rw [hframe.runtimeFloor]
  exact h

theorem branchedSince_ensures (scope : Nat) :
    Ensures I pre (branchedSince scope) (branchedSince scope)
      (fun branched s => Branched scope branched s ∧ pre s) := by
  refine Ensures.get.bind fun s => Ensures.pure ?_
  rintro _ _ ⟨rfl, hp⟩
  exact ⟨rfl, hp⟩

theorem branchedSince_agree (scope : Nat) : Agree I (branchedSince scope) (branchedSince scope) :=
  (branchedSince_ensures scope).agree

end Reading

section Writing

/-- A flat statement without measurements and resets is put out. -/
theorem emit_keeping (f : FlatStatement) (hf : I.tallied → ∀ i ∈ f.ops, i.Unnoted) (p : Scopes → Prop) :
    Ensures I (fun s => I.flat s.registers f ∧ p s.scopes) (emit f) (emit f)
      (fun _ s => p s.scopes) := by
  intro config s hs hp
  refine ⟨Alike.refl _, Frame.emitted s f, I.core_congr hs rfl rfl rfl rfl, ⟨[f], rfl, ?_⟩,
    fun h => .of_ok (.emitted s (hf h)), fun _ _ => hp.2⟩
  exact List.forall_mem_singleton.2 hp.1

theorem emit_ensures (f : FlatStatement) (hf : I.tallied → ∀ i ∈ f.ops, i.Unnoted) :
    Ensures I (fun s => I.flat s.registers f) (emit f) (emit f) (fun _ _ => True) :=
  (emit_keeping f hf fun _ => True).mono (fun _ _ h => ⟨h, trivial⟩) fun _ _ _ h => h

/-- A new name of the flat program, which assignments go to. -/
theorem reserve_keeping (name : String) (p : Scopes → Prop) :
    Ensures I (fun s => p s.scopes) (reserve name) (reserve name)
      (fun m s => I.target s.registers m ∧ p s.scopes) := by
  apply Ensures.get.bind
  intro s
  refine Ensures.bind (q := fun _ t => I.target t.registers (s.registers.reserve name).1 ∧ p t.scopes)
    (Ensures.modify ?_ ?_) fun _ => ?_
  · rintro _ ⟨rfl, -⟩
    exact ⟨rfl, rfl, rfl, rfl⟩
  · rintro _ hs ⟨rfl, hp⟩
    have hextends := Registers.extends_reserve s.registers name
    exact ⟨Frame.ofRegisters hextends, I.core_reserve name hs, I.target_reserve name hs, hp⟩
  · exact Ensures.pure fun _ _ h => h

/-- A new register, for a property of its name and its view that the allocation gives. -/
theorem allocate_keeping (name : String) (size : Nat) (kind : RegisterKind) (p : Scopes → Prop)
    {q : String × View → State → Prop} (hsize : kind = .quantum → 0 < size)
    (hq : ∀ {s : State} {id v registers}, I.core s →
      s.registers.allocate name size kind = .ok (id, v, registers) →
        q (registers.nameOf id, v) { s with registers }) :
    Ensures I (fun s => p s.scopes) (allocate name size kind) (allocate name size kind)
      (fun r s => I.target s.registers r.1 ∧ q r s ∧ p s.scopes) := by
  apply Ensures.get.bind
  intro s
  rcases hr : s.registers.allocate name size kind with e | ⟨id, v, registers⟩
  · exact Ensures.fail _ rfl
  · refine Ensures.bind (q := fun _ t => I.target t.registers (registers.nameOf id) ∧ q (registers.nameOf id, v) t ∧
        p t.scopes) (Ensures.modify ?_ ?_) fun _ => ?_
    · rintro _ ⟨rfl, -⟩
      exact ⟨rfl, Registers.measured_allocate hr, rfl, rfl⟩
    · rintro _ hs ⟨rfl, hp⟩
      have hextends := Registers.extends_allocate hr
      exact ⟨Frame.ofRegisters hextends, I.core_allocate hs hsize hr, I.target_allocate hs hr, hq hs hr, hp⟩
    · exact Ensures.pure fun _ _ h => h

theorem addDeclaration_keeping (d : Declaration) (p : Scopes → Prop) :
    Ensures I (fun s => p s.scopes) (addDeclaration d) (addDeclaration d) (fun _ s => p s.scopes) :=
  Ensures.modify (fun _ _ => ⟨rfl, rfl, rfl, rfl⟩) fun s hs hp =>
    ⟨{ Frame.refl s with }, I.core_congr hs rfl rfl rfl rfl, hp⟩

theorem addDeclaration_agree (d : Declaration) : Agree I (addDeclaration d) (addDeclaration d) :=
  addDeclaration_keeping d fun _ => True

/-- An error is reported. -/
theorem report_ensures (d : Diagnostic) (hd : I.tallied → d.severity = .error) :
    Ensures I pre (report d) (report d) (fun _ s => I.tallied → s.Spoiled) := by
  intro config s hs _
  have hspoiled (h : I.tallied) : State.Spoiled (report d config s).2 :=
    Or.inr ⟨d, List.mem_cons_self, hd h⟩
  have hhalted (h : s.halted = true) : (report d config s).2.halted = true :=
    (congrArg (· || ends config d) h).trans (Bool.true_or _)
  exact ⟨Alike.refl _, { Frame.refl s with diagnostics := List.suffix_cons _ _, halted := hhalted },
    I.core_congr hs rfl rfl rfl rfl, .nothing rfl, fun h => .of_spoiled (hspoiled h),
    fun _ _ => hspoiled⟩

theorem reportHere_agree (p : Problem) (hp : p.severity = .error) :
    Agree I (reportHere p) (reportHere p) :=
  Agree.get.bind fun s => (report_ensures ⟨p, s.span⟩ fun _ => hp).agree

theorem useQubit_run (i : Instruction) (q : Nat) (usage : Usage) (config : Config) (s : State) :
    (emitOp i >>= fun _ => noteUsage q usage) config s =
      (.ok (), { s with
        output := .op i :: s.output
        registers := (s.registers.mark q usage).2
        diagnostics :=
          ((s.registers.mark q usage).1.map fun w => ⟨.remeasured w, s.span⟩).toList ++ s.diagnostics
        halted := s.halted ||
          (s.registers.mark q usage).1.any fun w => ends config ⟨.remeasured w, s.span⟩ }) := by
  have hemit : emitOp i config s = (.ok (), { s with output := .op i :: s.output }) := rfl
  rw [run_bind, hemit]
  dsimp only
  rw [noteUsage, run_get]
  rcases s.registers.mark q usage with ⟨warning, registers⟩
  cases warning with
  | none =>
    rw [Option.any_none, Bool.or_false]
    rfl
  | some w => rfl

/-- What is measured or reset is put out and noted at once. -/
theorem useQubit_ensures (i : Instruction) {q : Nat} {usage : Usage} (hqubits : i.qubits = [q])
    (hkind : i.kind = .measure ∧ usage = .measured ∨ i.kind = .reset ∧ usage = .reset) :
    Ensures I (fun s => I.flat s.registers (.op i) ∧ I.measured s.registers q)
      (emitOp i >>= fun _ => noteUsage q usage) (emitOp i >>= fun _ => noteUsage q usage)
      (fun _ _ => True) := by
  rintro config s hs ⟨hflat, hq⟩
  have hextends := Registers.extends_mark s.registers q usage
  rw [useQubit_run]
  refine ⟨Alike.refl _, ?_, I.core_congr (I.core_mark q usage hs) rfl rfl rfl rfl, ⟨[.op i], rfl, ?_⟩,
    fun h => .of_ok ?_, fun _ _ => trivial⟩
  · exact { Frame.refl s with
      registers := hextends, output := List.suffix_cons _ _, diagnostics := List.suffix_append _ _
      halted := fun h => Bool.or_eq_true_iff.2 (Or.inl h) }
  · exact List.forall_mem_singleton.2 (I.flat_mono hextends hflat)
  · exact .used hqubits hkind (I.tallied_measured h hs hq) rfl rfl rfl

/-- What a name stands for has a certain name in the flat program, and its scope is one of some. -/
def Named (name : String) (place : Nat → Prop) (emitName : String) (scopes : Scopes) : Prop :=
  ∃ x, scopes.resolve? name = some x ∧ x.emitName = some emitName ∧ place x.scope

/-- A variable without a name in the flat program; if its value is known, this needs a reason. -/
def Unnamed (name : String) (place : Nat → Prop) (reason : Prop) (scopes : Scopes) : Prop :=
  ∃ x, scopes.resolve? name = some x ∧ x.kind = .classicalVariable ∧ x.emitName = none ∧
    place x.scope ∧ (x.value = none ∨ (∃ p, x.binding = .param p) ∨ reason)

/-- A variable gets its name in the flat program. -/
theorem setName_ensures (name emitName : String) (place : Nat → Prop) (reason : Prop) :
    Ensures I
      (fun s => I.target s.registers emitName ∧ Unnamed name place reason s.scopes ∧
        (reason → I.writable name s))
      (modifySymbol name fun x => { x with emitName := some emitName })
      (modifySymbol name fun x => { x with emitName := some emitName })
      (fun _ s => I.target s.registers emitName ∧ Named name place emitName s.scopes) := by
  refine Ensures.modify (fun _ _ => ⟨rfl, rfl, rfl, rfl⟩) ?_
  intro s hs hp
  obtain ⟨htarget, ⟨x, hx, hkind, hnone, hplace, hcause⟩, hreason⟩ := hp
  refine ⟨Frame.modified (Symbol.declared_emitName (some emitName)) name, ?_, htarget, ?_⟩
  · exact I.core_name hs htarget hx hkind hnone (hcause.imp_right (Or.imp_right hreason))
  · refine ⟨{ x with emitName := some emitName }, ?_, rfl, hplace⟩
    rw [Scopes.resolve?_modify (keepsKey_emitName (some emitName)), hx, Option.map_some]

/-- A variable may be given a name in the flat program. -/
def MayName (I : Invariant) (name : String) (s : State) : Prop :=
  ∀ x, s.scopes.resolve? name = some x → x.kind = .classicalVariable → x.emitName = none →
    x.value = none ∨ (∃ p, x.binding = .param p) ∨ I.writable name s

section Values

variable {W : WritingInvariant}

/-- A value is followed. -/
theorem setValue_ensures (name : String) (value : Option Value) :
    Ensures W.toInvariant
      (fun s => W.writable name s ∧ ∃ x, s.scopes.resolve? name = some x ∧
        ∀ floor, s.runtimeFloor = some floor → x.scope < floor → value = none)
      (modifySymbol name fun x => { x with value := value })
      (modifySymbol name fun x => { x with value := value }) (fun _ s => W.written name s) := by
  refine Ensures.modify (fun _ _ => ⟨rfl, rfl, rfl, rfl⟩) ?_
  rintro s hs ⟨hwritable, x, hx, hfloor⟩
  obtain ⟨hcore, hwritten⟩ := W.core_value value hs hwritable hx hfloor
  exact ⟨Frame.modified (Symbol.declared_value value) name, hcore, hwritten⟩

/-- A value is not known any more. -/
theorem forget_ensures (name : String) :
    Ensures W.toInvariant pre (modifySymbol name fun x => { x with value := none })
      (modifySymbol name fun x => { x with value := none }) (fun _ s => W.written name s) := by
  refine Ensures.modify (fun _ _ => ⟨rfl, rfl, rfl, rfl⟩) ?_
  intro s hs _
  obtain ⟨hcore, hwritten⟩ := W.core_forget name hs
  exact ⟨Frame.modified (Symbol.declared_value none) name, hcore, hwritten⟩

end Values

/-- What is declared is what its name stands for then. -/
theorem declare_ensures {D : DeclaringInvariant} (x : Symbol) :
    Ensures D.toInvariant
      (fun s => D.symbol s.registers x ∧ (x.Targeted D.toFacts s.registers ∨ s.scopes.InBody))
      (declare x) (declare x)
      (fun _ s => s.scopes.resolve? x.name = some { x with scope := s.scopes.depth }) := by
  apply Ensures.get.bind
  intro s
  rcases hr : s.scopes.declare x with first | scopes
  · exact Ensures.fail _ (severity_takenBy _)
  · refine Ensures.modify (fun _ _ => ⟨rfl, rfl, rfl, rfl⟩) ?_
    rintro _ hs ⟨rfl, hx, htargeted⟩
    refine ⟨Frame.declared hr, D.core_declare hs hx htargeted hr, ?_⟩
    dsimp only
    rw [(Scopes.grows_declare hr).depth_eq, Scopes.eq_push_of_declare hr, Scopes.resolve?_push_self]

end Writing

section Brackets

variable {J : Invariant} {x y : Analysis α} {post post' : α → State → Prop}

/-- A step that is run from a changed state, after which the change is undone. -/
theorem followedBy_keeps {config : Config} {s s' : State} {back : State → State}
    (hx : Alike J (x config s') (y config s') ∧ Keeps J s' post (x config s'))
    (hexcuses : ∀ p, J.excuses p → I.excuses p) (htallied : I.tallied → J.tallied)
    (hquiet : Quiet s s') (hback : ∀ t, Quiet t (back t))
    (hframe : ∀ t, Frame s' t → Frame s (back t))
    (hcore : ∀ t, Frame s' t → J.core t → I.core (back t))
    (hputsOut : ∀ t, Frame s' t → J.PutsOut s' t → I.PutsOut s (back t))
    (hpost : ∀ a t, J.core t → post a t → post' a (back t)) :
    Alike I (followedBy x back config s') (followedBy y back config s') ∧
      Keeps I s post' (followedBy x back config s') := by
  obtain ⟨halike, hkeeps⟩ := hx
  exact ⟨(halike.imp hexcuses).followedBy fun t => (hback t).diagnostics, hframe _ hkeeps.frame,
    hcore _ hkeeps.frame hkeeps.core, hputsOut _ hkeeps.frame hkeeps.putsOut,
    fun h => (hkeeps.tallies (htallied h)).bracket hquiet (hback _),
    fun a ha => hpost a _ hkeeps.core (hkeeps.post a ha)⟩

/-- An invariant for what is done in a scope that is opened where another one holds. -/
structure Encloses (I J : Invariant) (kind : ScopeKind) : Prop where
  excuses : ∀ p, J.excuses p → I.excuses p
  tallied : I.tallied → J.tallied
  flat : ∀ r f, J.flat r f → I.flat r f
  entered : ∀ s, I.core s → J.core { s with scopes := s.scopes.enter kind }
  left : ∀ s t, I.core s → Frame { s with scopes := s.scopes.enter kind } t → J.core t →
    I.core { t with scopes := t.scopes.exit }

theorem inScope_run (kind : ScopeKind) (x : Analysis α) (config : Config) (s : State) :
    inScope kind x config s =
      followedBy x (fun t => { t with scopes := t.scopes.exit }) config
        { s with scopes := s.scopes.enter kind } := rfl

theorem inScope_ensures {kind : ScopeKind} (henclose : Encloses I J kind)
    (hx : Ensures J (fun _ => True) x y post)
    (hpost : ∀ a t, J.core t → post a t → post' a { t with scopes := t.scopes.exit }) :
    Ensures I pre (inScope kind x) (inScope kind y) post' := by
  intro config s hs _
  rw [inScope_run, inScope_run]
  refine followedBy_keeps (hx config _ (henclose.entered s hs) trivial) henclose.excuses
    henclose.tallied ⟨rfl, rfl, rfl, rfl⟩ (fun _ => ⟨rfl, rfl, rfl, rfl⟩) ?_ ?_ ?_ hpost
  · exact fun t hframe => hframe.inScope
  · exact fun t hframe ht => henclose.left s t hs hframe ht
  · exact fun t _ h => h.imp henclose.flat

/-- A step that only fails after it has reported why. -/
theorem attempt_agree (hx : Ensures I pre x y post)
    (hreports : ∀ config s e, (x config s).1 = .error e → e = .leaving) :
    Ensures I pre (attempt x) (attempt y) (fun _ _ => True) := by
  intro config s hs hp
  obtain ⟨halike, hkeeps⟩ := hx config s hs hp
  refine ⟨?_, hkeeps.frame, hkeeps.core, hkeeps.putsOut, fun h => ⟨fun _ _ => ?_, fun _ h => nomatch h⟩,
    fun _ _ => trivial⟩
  · unfold attempt
    rcases halike with heq | ⟨d, -, he⟩ | hreported
    · rw [← heq]
      exact Alike.refl _
    · nomatch hreports config s _ he
    · exact Or.inr (Or.inr hreported)
  · have htallies := hkeeps.tallies h
    unfold attempt
    rcases hr : x config s with ⟨e | a, t⟩
    · rw [hr] at htallies
      cases hreports config s e (congrArg Prod.fst hr)
      exact Or.inl (htallies.error _ rfl)
    · rw [hr] at htallies
      exact htallies.ok a rfl

end Brackets

end Analysis
end OpenQasm
