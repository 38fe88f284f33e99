import OpenQasm.Proofs.TrackedValues

/-!
An invariant that asks for nothing of the place of a step holds in every state that occurs in an analysis, if it
holds at the start: between the statements, in the bodies of branches and loops, and in the bodies of calls. What
is noted about the place itself are the depths of the loop, the call and the branch around it, in an order that
says which of them is the innermost one.
-/
namespace OpenQasm

open Analysis

namespace StatementInvariant.Pervasive

variable {I : StatementInvariant} {n : Nat} {config : Config} {s t : State} {α : Type}

theorem evaluation (h : I.Pervasive) {x : Analysis α} (hx : Evaluation (.nested n) x) : Agree I.toInvariant x x := by
  have hcalls := h.nested n
  have hweight (callees : List String) : weigh (fun _ => 0) callees ≤ 0 := Nat.le_of_eq (weigh_zero _)
  cases hx with
  | value e => exact fold_agree hcalls e (hweight _)
  | shown e => exact residualize_agree hcalls e (hweight _)
  | typed e => exact infer_agree hcalls e (hweight _)
  | type t => exact resolveType_agree hcalls t (hweight _)
  | view e => exact (viewOf_ensures hcalls e (hweight _)).agree
  | right e => exact (rightValue_ensures hcalls e (hweight _)).agree
  | parameter e => exact toParameter_agree hcalls e (hweight _)
  | operations call => exact (expandCall_ensures hcalls call (hweight _)).agree
  | arguments subroutine seen bound =>
    exact (bindArguments_ensures hcalls hcalls subroutine bound seen fun _ _ => ⟨hweight _, hweight _⟩).agree

theorem opened (h : I.Pervasive) (hs : I.core s) : I.core s.opened :=
  I.core_congr (I.core_branch (h.entered .block s.calls hs)) rfl rfl rfl rfl

theorem closed (h : I.Pervasive) (hs : I.core s) (hframe : Frame s.opened t) (ht : I.core t) :
    I.core (s.closed t) :=
  I.core_congr (I.core_floor hs (h.left t.calls hs hframe.scopes ht)) rfl rfl rfl rfl

theorem enters (h : I.Pervasive) {kind : StatementKind} {body : List Statement}
    (henters : Enters (.nested n) config kind s body t) (hs : I.core s) : I.core t := by
  have hcalls := h.nested n
  have hweight (callees : List String) : weigh (fun _ => 0) callees ≤ 0 := Nat.le_of_eq (weigh_zero _)
  cases henters with
  | block => exact h.entered .block _ hs
  | taken hfold htruth =>
    have hcondition := (fold_agree hcalls _ (hweight _)).core hs hfold
    exact h.entered .block _ ((conditionTruth_agree _).core hcondition htruth)
  | thenPart hfold hhead =>
    have hcondition := (fold_agree hcalls _ (hweight _)).core hs hfold
    exact h.opened ((h.branchHead _ _).core hcondition hhead)
  | elsePart hfold hhead hthen =>
    have hcondition := (fold_agree hcalls _ (hweight _)).core hs hfold
    have hprepared := (h.branchHead _ _).core hcondition hhead
    -- The second body starts where the first one has been closed.
    have hended := (h.block hcalls _).keeps (h.opened hprepared) ⟨⟩ hthen
    exact h.opened (h.closed hprepared hended.frame hended.core)
  | round htyped hstarts hdeclared =>
    have htypes := (typedValues_agree hcalls _ _ (hweight _)).core hs htyped
    have hround := hstarts.core (h.forRound _ _ _) (I.core_congr htypes rfl rfl rfl rfl)
    exact (loopVariable_agree _ _ _).core (h.entered .block _ hround) hdeclared
  | iteration hstarts =>
    have hstart := hstarts.core (whileCondition_agree hcalls _ (hweight _)) (h.inScope (h.block hcalls _)).agree
      (I.core_congr hs rfl rfl rfl rfl)
    exact h.entered .block _ hstart

/-- The body of a subroutine starts with its parameters declared. -/
theorem called (h : I.Pervasive) {d : SubroutineDefinition} {args : List Expr} {symbols : List Symbol} {u : State}
    (hs : I.core s)
    (hbound : bindArguments (.nested n) d.name [] (d.formals.zip args) config s = (.ok symbols, t))
    (hdeclared : declareAll symbols config (t.inBody d.name) = (.ok (), u)) : I.core u := by
  have hcalls := h.nested n
  -- The arguments are evaluated outside of the body, then they are declared in its scope.
  have hbind := (bindArguments_ensures hcalls hcalls d.name (d.formals.zip args) [] fun _ _ =>
    ⟨Nat.le_of_eq (weigh_zero _), Nat.le_of_eq (weigh_zero _)⟩).keeps hs ⟨⟩ hbound
  have hbody : I.core (t.inBody d.name) :=
    I.core_congr (h.entered .subroutineBody (d.name :: t.calls) hbind.core) rfl rfl rfl rfl
  have hinBody : (t.inBody d.name).scopes.InBody := ⟨_, rfl, rfl⟩
  exact ((declareAll_ensures (D := I.toDeclaringInvariant) symbols).keeps hbody
    ⟨hbind.post symbols rfl, hinBody⟩ hdeclared).core

theorem expanded (h : I.Pervasive) {name : String} {params : List (String × Parameter)}
    {qubits : List (String × Nat)} (hs : I.core s)
    (hbound : (bindParams params >>= fun _ => bindQubits qubits) config (s.inGate name) = (.ok (), t)) :
    I.core t := by
  have hbody : I.core (s.inGate name) := h.entered .gateBody (name :: s.calls) hs
  have hbind : Agree I.toInvariant (bindParams params >>= fun _ => bindQubits qubits)
      (bindParams params >>= fun _ => bindQubits qubits) :=
    (bindParams_agree (D := I.toDeclaringInvariant) params).bind fun _ =>
      bindQubits_agree qubits fun s q v hs _ => h.view s q v hs
  exact hbind.core hbody hbound

end StatementInvariant.Pervasive

theorem Analysis.Occurs.core {I : StatementInvariant} (h : I.Pervasive) (hinitial : I.core .initial)
    {config : Config} {s : State} (hs : Occurs config s) : I.core s := by
  induction hs with
  | initial => exact hinitial
  | reported d _ ih => exact I.core_congr ih rfl rfl rfl rfl
  | starts span _ ih => exact I.core_congr ih rfl rfl rfl rfl
  | performed n kind _ ih => exact (h.perform n kind).core ih rfl
  | ends n st _ ih => exact (h.statement n st).core ih rfl
  | enters _ henters ih => exact h.enters henters ih
  | evaluated _ hx ih => exact (h.evaluation hx).core ih rfl
  | called _ hbound hdeclared ih => exact h.called ih hbound hdeclared
  | expanded _ hbound ih => exact h.expanded ih hbound

/-- What the flow of control of a statement can be held by. -/
inductive Construct
  | loop | call
  /-- A body of a branch that is decided when the program runs. -/
  | branch
  deriving DecidableEq

namespace Analysis

section Surroundings

/-- What is noted about the constructs around a statement, the innermost first: the depths of the innermost loop,
call and branch. A call and a branch begin with a scope of their own, a loop stands in the scope of its
statement, and a call hides the loops around it. -/
inductive Depths : List Construct → Option Nat → Option Nat → Option Nat → Nat → Prop
  | outermost {depth} : Depths [] none none none depth
  | loop {around loop call branch depth depth'} : Depths around loop call branch depth → depth ≤ depth' →
      Depths (.loop :: around) (some depth) call branch depth'
  | call {around loop call branch depth k depth'} : Depths around loop call branch depth → depth < k →
      k ≤ depth' → Depths (.call :: around) none (some k) branch depth'
  | branch {around loop call branch depth k depth'} : Depths around loop call branch depth → depth < k →
      k ≤ depth' → Depths (.branch :: around) loop call (some k) depth'

/-- The constructs around the bodies of a statement. A branch is one of them if its condition is not known. -/
def bodiesWithin (calls : Calls) (config : Config) (s : State) (around : List Construct) :
    StatementKind → List Construct
  | .forLoop _ _ _ _ | .whileLoop _ _ => .loop :: around
  | .branch condition _ _ =>
    match (fold calls condition config s).1 with
    | .ok none => .branch :: around
    | _ => around
  | _ => around

/-- The states that occur in an analysis, and the constructs around the statement that is being performed. -/
inductive OccursIn (config : Config) : List Construct → State → Prop
  | initial : OccursIn config [] .initial
  | reported {around s} (d : Diagnostic) : OccursIn config around s → OccursIn config around (report d config s).2
  | starts {around s} (span : Span) : OccursIn config around s → OccursIn config around { s with span }
  | performed {around s} (n : Nat) (kind : StatementKind) : OccursIn config around s →
      OccursIn config around (perform (.nested n) kind config s).2
  | ends {around s} (n : Nat) (st : Statement) : OccursIn config around s →
      OccursIn config around (statement (.nested n) st config s).2
  | enters {around s n kind body t} : OccursIn config around s → Enters (.nested n) config kind s body t →
      OccursIn config (bodiesWithin (.nested n) config s around kind) t
  | evaluated {around s n β} {x : Analysis β} : OccursIn config around s → Evaluation (.nested n) x →
      OccursIn config around (x config s).2
  /-- A subroutine may be called in any of the constructs around the call. -/
  | called {around s n args symbols t u} {d : SubroutineDefinition} : OccursIn config around s →
      bindArguments (.nested n) d.name [] (d.formals.zip args) config s = (.ok symbols, t) →
      declareAll symbols config (t.inBody d.name) = (.ok (), u) → OccursIn config (.call :: around) u
  | expanded {around s name params qubits t} : OccursIn config around s →
      (bindParams params >>= fun _ => bindQubits qubits) config (s.inGate name) = (.ok (), t) →
      OccursIn config around t

variable {config : Config} {s t : State} {n : Nat} {α : Type} {around : List Construct}
  {loop call branch : Option Nat} {depth depth' : Nat}

theorem Depths.mono (h : Depths around loop call branch depth) (hle : depth ≤ depth') :
    Depths around loop call branch depth' := by
  cases h with
  | outermost => exact .outermost
  | loop hinner hdepth => exact .loop hinner (hdepth.trans hle)
  | call hinner hbegin hdepth => exact .call hinner hbegin (hdepth.trans hle)
  | branch hinner hbegin hdepth => exact .branch hinner hbegin (hdepth.trans hle)

theorem Depths.loop_le (h : Depths around loop call branch depth) : ∀ k ∈ loop, k ≤ depth := by
  induction h with
  | outermost => nofun
  | loop _ hdepth => exact fun k hk => Option.mem_some.1 hk ▸ hdepth
  | call => nofun
  | branch _ hbegin hdepth ih => exact fun k hk => (ih k hk).trans (hbegin.le.trans hdepth)

theorem Depths.call_le (h : Depths around loop call branch depth) : ∀ k ∈ call, k ≤ depth := by
  induction h with
  | outermost => nofun
  | loop _ hdepth ih => exact fun k hk => (ih k hk).trans hdepth
  | call _ _ hdepth => exact fun k hk => Option.mem_some.1 hk ▸ hdepth
  | branch _ hbegin hdepth ih => exact fun k hk => (ih k hk).trans (hbegin.le.trans hdepth)

theorem Depths.branch_le (h : Depths around loop call branch depth) : ∀ k ∈ branch, 0 < k ∧ k ≤ depth := by
  induction h with
  | outermost => nofun
  | loop _ hdepth ih => exact fun k hk => ⟨(ih k hk).1, (ih k hk).2.trans hdepth⟩
  | call _ hbegin hdepth ih => exact fun k hk => ⟨(ih k hk).1, (ih k hk).2.trans (hbegin.le.trans hdepth)⟩
  | branch _ hbegin hdepth => exact fun k hk => Option.mem_some.1 hk ▸ ⟨Nat.zero_lt_of_lt hbegin, hdepth⟩

/-- The constructs around a statement are those that a state notes. -/
def State.Within (around : List Construct) (s : State) : Prop :=
  Depths around s.loopScope s.callScope s.runtimeFloor s.scopes.depth

theorem stable_within : Stable (State.Within around) := by
  intro s t hframe hs
  rw [State.Within, hframe.loopScope, hframe.callScope, hframe.runtimeFloor, hframe.scopes.depth_eq]
  exact hs

theorem State.Within.step {x : Analysis α} (hs : s.Within around)
    (hx : Agree StatementInvariant.trivial.toInvariant x x) {r : Except Failure α} (h : x config s = (r, t)) :
    t.Within around :=
  stable_within s t (Ensures.keeps hx trivial trivial h).frame hs

theorem State.Within.enter (hs : s.Within around) (kind : ScopeKind) :
    State.Within around { s with scopes := s.scopes.enter kind } := hs.mono (Nat.le_succ _)

theorem State.Within.inLoop (hs : s.Within around) :
    State.Within (.loop :: around) { s with loopScope := some s.scopes.depth } := .loop hs (Nat.le_refl _)

theorem State.Within.opened (hs : s.Within around) : s.opened.Within (.branch :: around) :=
  .branch hs (Nat.lt_succ_self _) (Nat.le_refl _)

theorem State.Within.inBody (hs : s.Within around) (name : String) :
    (s.inBody name).Within (.call :: around) :=
  .call hs (Nat.lt_succ_self _) (Nat.le_refl _)

theorem State.Within.inGate (hs : s.Within around) (name : String) : (s.inGate name).Within around :=
  hs.mono (Nat.le_succ _)

/-- A branch leaves the constructs around it as they were. -/
theorem State.Within.closed (hs : s.Within around) (hframe : Frame s.opened t) : (s.closed t).Within around := by
  have hdepth : (s.closed t).scopes.depth = s.scopes.depth := hframe.scopes.exit.grows.depth_eq
  rw [State.Within, hdepth]
  have hloop : (s.closed t).loopScope = s.loopScope := hframe.loopScope
  have hcall : (s.closed t).callScope = s.callScope := hframe.callScope
  rw [hloop, hcall]
  exact hs

theorem RoundStarts.within {round : Value → Analysis Signal} {values : List Value} {v : Value}
    (h : RoundStarts round config values s v t)
    (hround : ∀ v, Agree StatementInvariant.trivial.toInvariant (round v) (round v)) (hs : s.Within around) :
    t.Within around := by
  induction h with
  | first => exact hs
  | next hr _ _ ih => exact ih (hs.step (hround _) hr)

theorem IterationStarts.within {condition : Analysis Bool} {round : Analysis Signal} {left : Nat}
    (h : IterationStarts condition round config left s t)
    (hcondition : Agree StatementInvariant.trivial.toInvariant condition condition)
    (hround : Agree StatementInvariant.trivial.toInvariant round round) (hs : s.Within around) :
    t.Within around := by
  induction h with
  | first hc => exact hs.step hcondition hc
  | next hc hr _ _ ih => exact ih ((hs.step hcondition hc).step hround hr)

theorem State.Within.enters {kind : StatementKind} {body : List Statement} (hs : s.Within around)
    (henters : Enters (.nested n) config kind s body t) :
    t.Within (bodiesWithin (.nested n) config s around kind) := by
  have hcalls := pervasive_trivial.nested n
  have hweight (callees : List String) : weigh (fun _ => 0) callees ≤ 0 := Nat.le_of_eq (weigh_zero _)
  have hfold (e : Expr) := fold_agree hcalls e (hweight _)
  cases henters with
  | block => exact hs.enter .block
  | taken hcondition htruth =>
    rw [bodiesWithin, hcondition]
    exact ((hs.step (hfold _) hcondition).step (conditionTruth_agree _) htruth).enter .block
  | thenPart hcondition hhead =>
    rw [bodiesWithin, hcondition]
    exact ((hs.step (hfold _) hcondition).step (pervasive_trivial.branchHead _ _) hhead).opened
  | elsePart hcondition hhead hthen =>
    rw [bodiesWithin, hcondition]
    have hprepared := (hs.step (hfold _) hcondition).step (pervasive_trivial.branchHead _ _) hhead
    exact (hprepared.closed ((pervasive_trivial.block hcalls _).keeps trivial trivial hthen).frame).opened
  | round htyped hstarts hdeclared =>
    have hinner := (hs.step (typedValues_agree hcalls _ _ (hweight _)) htyped).inLoop
    have hround := hstarts.within (pervasive_trivial.forRound _ _ _) hinner
    exact (hround.enter .block).step (loopVariable_agree _ _ _) hdeclared
  | iteration hstarts =>
    have hround := hstarts.within (whileCondition_agree hcalls _ (hweight _))
      (pervasive_trivial.inScope (pervasive_trivial.block hcalls _)).agree hs.inLoop
    exact hround.enter .block

theorem OccursIn.occurs (h : OccursIn config around s) : Occurs config s := by
  induction h with
  | initial => exact .initial
  | reported d _ ih => exact ih.reported d
  | starts span _ ih => exact ih.starts span
  | performed n kind _ ih => exact ih.performed n kind
  | ends n st _ ih => exact ih.ends n st
  | enters _ henters ih => exact ih.enters henters
  | evaluated _ hx ih => exact ih.evaluated hx
  | called _ hbound hdeclared ih => exact ih.called hbound hdeclared
  | expanded _ hbound ih => exact ih.expanded hbound

theorem Occurs.within (h : Occurs config s) : ∃ around, OccursIn config around s := by
  induction h with
  | initial => exact ⟨_, .initial⟩
  | reported d _ ih => exact ih.imp fun _ h => h.reported d
  | starts span _ ih => exact ih.imp fun _ h => h.starts span
  | performed n kind _ ih => exact ih.imp fun _ h => h.performed n kind
  | ends n st _ ih => exact ih.imp fun _ h => h.ends n st
  | enters _ henters ih =>
    obtain ⟨_, h⟩ := ih
    exact ⟨_, h.enters henters⟩
  | evaluated _ hx ih => exact ih.imp fun _ h => h.evaluated hx
  | called _ hbound hdeclared ih =>
    obtain ⟨_, h⟩ := ih
    exact ⟨_, h.called hbound hdeclared⟩
  | expanded _ hbound ih => exact ih.imp fun _ h => h.expanded hbound

/-- A state that occurs notes the constructs around its statement. -/
theorem OccursIn.noted (h : OccursIn config around s) : s.Within around := by
  induction h with
  | initial => exact .outermost
  | reported d _ ih => exact ih
  | starts span _ ih => exact ih
  | performed n kind _ ih => exact ih.step (pervasive_trivial.perform n kind) rfl
  | ends n st _ ih => exact ih.step (pervasive_trivial.statement n st) rfl
  | enters _ henters ih => exact ih.enters henters
  | evaluated _ hx ih => exact ih.step (pervasive_trivial.evaluation hx) rfl
  | @called _ _ m args symbols t _ d _ hbound hdeclared ih =>
    have hcalls := pervasive_trivial.nested m
    have hbind := (bindArguments_ensures hcalls hcalls d.name (d.formals.zip args) [] fun _ _ =>
      ⟨Nat.le_of_eq (weigh_zero _), Nat.le_of_eq (weigh_zero _)⟩).keeps trivial trivial hbound
    have hinBody : (t.inBody d.name).scopes.InBody := ⟨_, rfl, rfl⟩
    have hsymbols := (declareAll_ensures (D := StatementInvariant.trivial.toDeclaringInvariant) symbols).keeps
      (s := t.inBody d.name) trivial ⟨hbind.post symbols rfl, hinBody⟩ hdeclared
    exact stable_within _ _ hsymbols.frame ((stable_within _ _ hbind.frame ih).inBody d.name)
  | @expanded _ u name params qubits _ _ hbound ih =>
    have hbind : Agree StatementInvariant.trivial.toInvariant (bindParams params >>= fun _ => bindQubits qubits)
        (bindParams params >>= fun _ => bindQubits qubits) :=
      (bindParams_agree (D := StatementInvariant.trivial.toDeclaringInvariant) params).bind fun _ =>
        bindQubits_agree qubits fun _ _ _ _ _ _ => trivial
    exact (ih.inGate name).step hbind hbound

/-- In the global scope no branch is open that is decided when the program runs. -/
theorem Occurs.runtimeFloor_eq_none (hs : Occurs config s) (h : s.scopes.inner = []) : s.runtimeFloor = none := by
  have hdepth : s.scopes.depth = 0 := congrArg List.length h
  obtain ⟨_, hwithin⟩ := hs.within
  refine Option.eq_none_iff_forall_ne_some.2 fun floor hfloor => ?_
  obtain ⟨hpos, hle⟩ := hwithin.noted.branch_le floor hfloor
  omega

end Surroundings

end Analysis

end OpenQasm
