import OpenQasm.Proofs.Protection

/-!
What is performed in the bodies of a statement, and what is left of it afterwards. A statement performs
others at any depth of blocks, loops and branches; a branch that is decided when the program runs performs
both of its bodies.
-/
namespace OpenQasm

open Analysis

/-- The name of the variable or register that a statement writes to, as a whole or in part. -/
def StatementKind.written? : StatementKind → Option String
  | .assign target _ _ => target.rootName?
  | .measure _ (some target) => target.rootName?
  | _ => none

namespace Analysis

/-- What a branch that is decided when the program runs does before its bodies: its condition for the flat
program and the bits that are read there. -/
def branchHead (calls : Calls) (condition : Expr) (assigned : Analysis Unit) :
    Analysis (Expr × List Nat) := do
  let shown ← residualize calls condition
  let clbits := (readBits (← get) condition).eraseDups
  assigned
  return (shown, clbits)

/-- What such a branch does after that. -/
def branchBodies (thenBody elseBody : Analysis Signal) (head : Expr × List Nat) : Analysis Signal := do
  let (_, thenPart) ← collecting (underRuntimeCondition thenBody)
  let (_, elsePart) ← collecting (underRuntimeCondition elseBody)
  emit (.branch head.1 head.2 thenPart elsePart)
  return .normal

/-- The state in which a body of such a branch starts. -/
def State.opened (s : State) : State :=
  { s with
    output := [], scopes := s.scopes.enter .block
    runtimeFloor := some (s.scopes.enter .block).depth }

/-- The state after such a body, which ended in a state. -/
def State.closed (s t : State) : State :=
  { t with output := s.output, scopes := t.scopes.exit, runtimeFloor := s.runtimeFloor }

/-- A round of a `for` loop. -/
def forRound (calls : Calls) (name : String) (t : ClassicalType) (body : List Statement) (v : Value) :
    Analysis Signal :=
  inScope .block do
    declare (← loopVariable name t v)
    block calls body

/-- The state in which a value starts its round among the rounds of some values. -/
inductive RoundStarts (round : Value → Analysis Signal) (config : Config) :
    List Value → State → Value → State → Prop
  | first {v vs s} : RoundStarts round config (v :: vs) s v s
  | next {v vs s signal t w u} : round v config s = (.ok signal, t) →
      signal = .normal ∨ signal = .continueLoop → RoundStarts round config vs t w u →
      RoundStarts round config (v :: vs) s w u

/-- The states in which the condition of a `while` loop is found to be true. -/
inductive IterationStarts (condition : Analysis Bool) (round : Analysis Signal) (config : Config) :
    Nat → State → State → Prop
  | first {left s t} : condition config s = (.ok true, t) →
      IterationStarts condition round config (left + 1) s t
  | next {left s t signal u w} : condition config s = (.ok true, t) →
      round config t = (.ok signal, u) → signal = .normal ∨ signal = .continueLoop →
      IterationStarts condition round config left u w →
      IterationStarts condition round config (left + 1) s w

/-- The bodies that a statement runs, and the states in which it does. -/
inductive Enters (calls : Calls) (config : Config) :
    StatementKind → State → List Statement → State → Prop
  | block {body s} :
      Enters calls config (.block body) s body { s with scopes := s.scopes.enter .block }
  | taken {condition thenBody elseBody s v t holds u} :
      fold calls condition config s = (.ok (some v), t) →
      conditionTruth v config t = (.ok holds, u) →
      Enters calls config (.branch condition thenBody elseBody) s
        (if holds then thenBody else elseBody.getD []) { u with scopes := u.scopes.enter .block }
  | thenPart {condition thenBody elseBody s t head u} :
      fold calls condition config s = (.ok none, t) →
      branchHead calls condition (materializeAll (thenBody ++ elseBody.getD [])) config t =
        (.ok head, u) →
      Enters calls config (.branch condition thenBody elseBody) s thenBody u.opened
  | elsePart {condition thenBody elseBody s t head u signal w} :
      fold calls condition config s = (.ok none, t) →
      branchHead calls condition (materializeAll (thenBody ++ elseBody.getD [])) config t =
        (.ok head, u) →
      Analysis.block calls thenBody config u.opened = (.ok signal, w) →
      Enters calls config (.branch condition thenBody elseBody) s (elseBody.getD [])
        (u.closed w).opened
  | round {type name values body s typed t v u x w} :
      typedValues calls type values config s = (.ok typed, t) →
      RoundStarts (forRound calls name typed.1 body) config typed.2
        { t with loopScope := some t.scopes.depth } v u →
      (loopVariable name typed.1 v >>= declare) config { u with scopes := u.scopes.enter .block } =
        (.ok x, w) →
      Enters calls config (.forLoop type name values body) s body w
  | iteration {condition body s t} :
      IterationStarts (whileCondition calls condition) (inScope .block (Analysis.block calls body))
        config config.maxLoopIterations { s with loopScope := some s.scopes.depth } t →
      Enters calls config (.whileLoop condition body) s body
        { t with scopes := t.scopes.enter .block }

/-- A statement that is performed while some statements run, and the state in which it starts. -/
inductive Performs (calls : Calls) (config : Config) :
    List Statement → State → StatementKind → State → Prop
  | head {kind span rest s} : s.halted = false →
      Performs calls config (⟨kind, span⟩ :: rest) s kind { s with span }
  | inside {kind span rest s body t performed u} : s.halted = false →
      Enters calls config kind { s with span } body t → Performs calls config body t performed u →
      Performs calls config (⟨kind, span⟩ :: rest) s performed u
  | later {first rest s t performed u} : s.halted = false →
      statement calls first config s = (.ok .normal, t) →
      Performs calls config rest t performed u →
      Performs calls config (first :: rest) s performed u

section Sparing

variable {α β : Type} {branched : Prop} {floor k : Nat} {name : String} {before : Scopes} {config : Config}
  {s t : State}

/-- The value of the symbol that a name has on a level is not known. -/
def Unknown (k : Nat) (name : String) (s : State) : Prop :=
  ∃ x, s.scopes.at? k name = some x ∧ x.value = none

/-- A step that may be done in a branch that is decided when the program runs, below the levels outside. -/
def Spares (x : Analysis α) : Prop :=
  ∀ branched floor before, Agree (StatementInvariant.guarded branched floor before).toInvariant x x

theorem Unknown.exit (h : Unknown k name s) (hk : k < s.scopes.depth) :
    Unknown k name { s with scopes := s.scopes.exit } := by
  obtain ⟨x, hx, hnone⟩ := h
  exact ⟨x, (Scopes.at?_exit hk name).trans hx, hnone⟩

theorem Guarded.unknown (h : Guarded branched floor before t) (hk : k < floor)
    (hbefore : ∃ x, before.at? k name = some x ∧ x.value = none) : Unknown k name t := by
  obtain ⟨x, hx, hnone⟩ := hbefore
  obtain ⟨y, hy, hkept⟩ := h.kept k hk name x hx
  exact ⟨y, hy, hkept.value_none hnone⟩

theorem Spares.guarded {x : Analysis α} (hx : Spares x) (hs : Guarded branched floor before s)
    {r : Except Failure α} (hr : x config s = (r, t)) : Guarded branched floor before t :=
  (hx branched floor before).core hs hr

theorem Spares.frame {x : Analysis α} (hx : Spares x) (hs : Guarded branched floor before s)
    {r : Except Failure α} (hr : x config s = (r, t)) : Frame s t :=
  (Ensures.keeps (hx branched floor before) hs trivial hr).frame

/-- What is not known outside stays so. -/
theorem Spares.unknown {x : Analysis α} (hx : Spares x) (hs : Guarded branched floor before s)
    (hk : k < floor) (h : Unknown k name s) : Unknown k name (x config s).2 :=
  Guarded.unknown (hx.guarded hs.refl rfl) hk h

/-- What is not known after a step is not known after the steps that follow it. -/
theorem Spares.unknown_bind {x : Analysis α} {f : α → Analysis β} (hx : Spares x)
    (hf : ∀ a, Spares (f a)) (hs : Guarded branched floor before s) (hk : k < floor)
    (h : Unknown k name (x config s).2) : Unknown k name ((x >>= f) config s).2 := by
  rw [run_bind]
  rcases hr : x config s with ⟨e | a, t⟩
  · rw [hr] at h
    exact h
  · rw [hr] at h
    exact (hf a).unknown (hx.guarded hs hr) hk h

end Sparing

section Bodies

variable {calls : Calls} {config : Config} {s t : State}

theorem runtimeBranch_eq (condition : Expr) (assigned : Analysis Unit)
    (thenBody elseBody : Analysis Signal) :
    runtimeBranch calls condition assigned thenBody elseBody =
      branchHead calls condition assigned >>= branchBodies thenBody elseBody := by
  simp only [runtimeBranch, branchHead, branchBodies, bind_assoc, pure_bind]

theorem perform_branch (condition : Expr) (thenBody : List Statement)
    (elseBody : Option (List Statement)) :
    perform calls (.branch condition thenBody elseBody) =
      branch calls condition (materializeAll (thenBody ++ elseBody.getD [])) (block calls thenBody)
        (block calls (elseBody.getD [])) := by
  cases elseBody with
  | none =>
    rw [Option.getD_none, List.append_nil]
    rfl
  | some elseBody => rfl

theorem collecting_run_opened (x : Analysis Signal) (config : Config) (s : State) :
    collecting (underRuntimeCondition x) config s =
      match x config s.opened with
      | (.ok signal, t) => (.ok (signal, t.output.reverse), s.closed t)
      | (.error e, t) => (.error e, s.closed t) := by
  rw [collecting_run]
  unfold followedBy
  rw [run_bind, underRuntimeCondition_run]
  unfold followedBy
  have hopened : ({ s with
      output := [], scopes := s.scopes.enter .block
      runtimeFloor := some (s.scopes.enter .block).depth } : State) = s.opened := rfl
  dsimp only
  rw [hopened]
  rcases x config s.opened with ⟨e | signal, t⟩
  · rfl
  · rfl

theorem collecting_eq_ok {x : Analysis Signal} {part : Signal × List FlatStatement}
    (h : collecting (underRuntimeCondition x) config s = (.ok part, t)) :
    ∃ u, x config s.opened = (.ok part.1, u) ∧ t = s.closed u := by
  rw [collecting_run_opened] at h
  rcases hr : x config s.opened with ⟨e | signal, u⟩
  · rw [hr] at h
    nomatch h
  · rw [hr] at h
    cases h
    exact ⟨u, rfl, rfl⟩

end Bodies

section Rounds

variable {I : Invariant} {config : Config} {s t : State}

theorem loopVariable_agree {I : StatementInvariant} (name : String) (u : ClassicalType) (v : Value) :
    Agree I.toInvariant (loopVariable name u v >>= declare) (loopVariable name u v >>= declare) := by
  have hvariable : Ensures I.toInvariant (fun _ => True) (loopVariable name u v) (loopVariable name u v)
      (fun x s => I.symbol s.registers x ∧ (x.Targeted I.toFacts s.registers ∨ s.scopes.InBody)) :=
    (newSymbol_ensures (fun _ => True) name .classicalVariable).bind fun x =>
      Ensures.pure fun _ _ hx => ⟨I.symbol_none hx.1.binding hx.1.targeted, .inl hx.1.targeted⟩
  exact hvariable.bind fun x => (declare_ensures x).mono (fun _ _ hs => hs) fun _ _ _ _ => trivial

theorem forRound_eq (calls : Calls) (name : String) (u : ClassicalType) (body : List Statement)
    (v : Value) :
    forRound calls name u body v =
      inScope .block ((loopVariable name u v >>= declare) >>= fun _ => block calls body) := by
  rw [bind_assoc]
  rfl

/-- What every round keeps holds when a round starts. -/
theorem RoundStarts.core {round : Value → Analysis Signal} {values : List Value} {v : Value}
    (h : RoundStarts round config values s v t) (hround : ∀ v, Agree I (round v) (round v)) (hs : I.core s) :
    I.core t := by
  induction h with
  | first => exact hs
  | next hr _ _ ih => exact ih ((hround _).core hs hr)

theorem IterationStarts.core {condition : Analysis Bool} {round : Analysis Signal} {left : Nat}
    (h : IterationStarts condition round config left s t) (hcondition : Agree I condition condition)
    (hround : Agree I round round) (hs : I.core s) : I.core t := by
  induction h with
  | first hc => exact hcondition.core hs hc
  | next hc hr _ _ ih => exact ih (hround.core (hcondition.core hs hc) hr)

end Rounds

end Analysis

namespace StatementInvariant.Pervasive

variable {I : StatementInvariant} {n : Nat}

theorem forRound (h : I.Pervasive) (name : String) (u : ClassicalType) (body : List Statement) (v : Value) :
    Agree I.toInvariant (forRound (.nested n) name u body v) (forRound (.nested n) name u body v) := by
  rw [forRound_eq]
  exact (h.inScope ((loopVariable_agree name u v).andThen fun _ => h.block (h.nested n) body)).agree

theorem branchHead (h : I.Pervasive) (condition : Expr) (body : List Statement) :
    Agree I.toInvariant (branchHead (.nested n) condition (materializeAll body))
      (branchHead (.nested n) condition (materializeAll body)) :=
  (residualize_agree (h.nested n) condition (Nat.le_of_eq (weigh_zero _))).bind fun _ =>
    Agree.get.bind fun _ => (materializeAll_agree (W := I.toWritingInvariant) body).bind fun _ => Agree.pure _

end StatementInvariant.Pervasive

namespace Analysis

section Entering

variable {n : Nat} {branched : Prop} {floor k : Nat} {name : String} {before : Scopes} {config : Config} {s t : State}

theorem block_spares (body : List Statement) : Spares (block (.nested n) body) :=
  fun branched floor before =>
    have hguarded := pervasive_guarded branched floor before
    (hguarded.block (hguarded.nested n) body).agree

theorem statement_spares (st : Statement) : Spares (statement (.nested n) st) :=
  fun branched floor before => (pervasive_guarded branched floor before).statement n st

theorem Spares.signal {x : Analysis Signal} (hx : Spares x) (branched : Prop) (floor : Nat) (before : Scopes) :
    Ensures (StatementInvariant.guarded branched floor before).toInvariant (fun _ => True) x x
      (SignalFits (StatementInvariant.guarded branched floor before).toInvariant) :=
  (hx branched floor before).weaken fun signal s _ _ => signal.fits_trivial s.registers

theorem inScope_spares {x : Analysis Signal} (hx : Spares x) : Spares (inScope .block x) :=
  fun branched floor before =>
    ((pervasive_guarded branched floor before).inScope (hx.signal branched floor before)).agree

theorem unroll_spares {round : Value → Analysis Signal} (hround : ∀ v, Spares (round v))
    (values : List Value) : Spares (unroll round values) :=
  fun branched floor before => (unroll_ensures (fun v => (hround v).signal branched floor before) values).agree

theorem iterate_spares (limit : Nat) {condition : Analysis Bool} {round : Analysis Signal}
    (hcondition : Spares condition) (hround : Spares round) (left : Nat) :
    Spares (iterate limit condition round left) :=
  fun branched floor before =>
    (iterate_ensures limit (hcondition branched floor before) (hround.signal branched floor before) left).agree

theorem branchHead_spares (condition : Expr) (body : List Statement) :
    Spares (branchHead (.nested n) condition (materializeAll body)) :=
  fun branched floor before => (pervasive_guarded branched floor before).branchHead condition body

theorem underCondition_spares (body : List Statement) :
    Spares (collecting (underRuntimeCondition (block (.nested n) body))) := fun branched floor before =>
  have hguarded := pervasive_guarded branched floor before
  (collecting_ensures id (underRuntimeCondition_agree hguarded.nests
    (hguarded.block (hguarded.nested n) body))).agree

theorem Guarded.opened (hs : Guarded branched floor before s) : Guarded branched floor before s.opened :=
  { hs.enter .block with branch := fun _ => ⟨_, rfl, Nat.le_succ_of_le hs.inside⟩ }

/-- Leaving a branch that was entered in a state. -/
theorem Guarded.closed (hs : Guarded branched floor before s)
    (hgrows : (s.scopes.enter .block).Grows t.scopes) (ht : Guarded branched floor before t) :
    Guarded branched floor before (s.closed t) :=
  { hs.exit hgrows ht with branch := hs.branch }

theorem RoundStarts.guarded {round : Value → Analysis Signal} {values : List Value} {v : Value}
    (h : RoundStarts round config values s v t) (hround : ∀ v, Spares (round v))
    (hs : Guarded branched floor before s) : Guarded branched floor before t :=
  h.core (fun v => hround v branched floor before) hs

/-- What is not known after a round is not known after the loop. -/
theorem RoundStarts.unknown {round : Value → Analysis Signal} {values : List Value} {v : Value}
    (h : RoundStarts round config values s v t) (hround : ∀ v, Spares (round v))
    (hs : Guarded branched floor before s) (hk : k < floor)
    (hunknown : Unknown k name (round v config t).2) :
    Unknown k name (unroll round values config s).2 := by
  induction h with
  | @first v vs s =>
    refine (hround v).unknown_bind (fun signal => ?_) hs hk hunknown
    cases signal with
    | breakLoop => exact fun _ _ _ => Agree.pure _
    | returned r => exact fun _ _ _ => Agree.pure _
    | normal => exact unroll_spares hround vs
    | continueLoop => exact unroll_spares hround vs
  | next hr hsignal _ ih =>
    have hrest := ih ((hround _).guarded hs hr) hunknown
    rw [unroll, run_bind, hr]
    rcases hsignal with rfl | rfl
    · exact hrest
    · exact hrest

theorem IterationStarts.guarded {condition : Analysis Bool} {round : Analysis Signal} {left : Nat}
    (h : IterationStarts condition round config left s t) (hcondition : Spares condition)
    (hround : Spares round) (hs : Guarded branched floor before s) : Guarded branched floor before t :=
  h.core (hcondition branched floor before) (hround branched floor before) hs

theorem IterationStarts.unknown {condition : Analysis Bool} {round : Analysis Signal} {left limit : Nat}
    (h : IterationStarts condition round config left s t) (hcondition : Spares condition)
    (hround : Spares round) (hs : Guarded branched floor before s) (hk : k < floor)
    (hunknown : Unknown k name (round config t).2) :
    Unknown k name (iterate limit condition round left config s).2 := by
  induction h with
  | @first left s t hc =>
    have ht := hcondition.guarded hs hc
    rw [iterate, run_bind, hc]
    refine hround.unknown_bind (fun signal => ?_) ht hk hunknown
    cases signal with
    | breakLoop => exact fun _ _ _ => Agree.pure _
    | returned r => exact fun _ _ _ => Agree.pure _
    | normal => exact iterate_spares limit hcondition hround left
    | continueLoop => exact iterate_spares limit hcondition hround left
  | next hc hr hsignal _ ih =>
    have hrest := ih (hround.guarded (hcondition.guarded hs hc) hr) hunknown
    rw [iterate, run_bind, hc]
    dsimp only [if_true]
    rw [if_pos rfl, run_bind, hr]
    rcases hsignal with rfl | rfl
    · exact hrest
    · exact hrest

theorem fold_spares (e : Expr) : Spares (fold (.nested n) e) := fun branched floor before =>
  fold_agree ((pervasive_guarded branched floor before).nested n) e (Nat.le_of_eq (weigh_zero _))

theorem whileCondition_spares (e : Expr) : Spares (whileCondition (.nested n) e) := fun branched floor before =>
  whileCondition_agree ((pervasive_guarded branched floor before).nested n) e (Nat.le_of_eq (weigh_zero _))

theorem typedValues_spares (type : Option TypeExpr) (values : LoopValues) :
    Spares (typedValues (.nested n) type values) := fun branched floor before =>
  typedValues_agree ((pervasive_guarded branched floor before).nested n) type values (Nat.le_of_eq (weigh_zero _))

theorem loopVariable_spares (name : String) (u : ClassicalType) (v : Value) :
    Spares (loopVariable name u v >>= declare) := fun _ _ _ => loopVariable_agree name u v

theorem forRound_spares (name : String) (u : ClassicalType) (body : List Statement) (v : Value) :
    Spares (forRound (.nested n) name u body v) :=
  fun branched floor before => (pervasive_guarded branched floor before).forRound name u body v

/-- A body of a statement starts in a state where the levels outside are as they are for the statement. -/
theorem Enters.guarded {kind : StatementKind} {body : List Statement}
    (h : Enters (.nested n) config kind s body t) (hs : Guarded branched floor before s) :
    Guarded branched floor before t := by
  cases h with
  | block => exact hs.enter .block
  | taken hfold htruth =>
    have ht := (fold_spares _).guarded hs hfold
    exact (Spares.guarded (fun _ _ _ => conditionTruth_agree _) ht htruth).enter .block
  | thenPart hfold hhead =>
    have ht := (fold_spares _).guarded hs hfold
    exact ((branchHead_spares _ _).guarded ht hhead).opened
  | elsePart hfold hhead hthen =>
    have ht := (fold_spares _).guarded hs hfold
    have hu := (branchHead_spares _ _).guarded ht hhead
    have hframe := (block_spares _).frame hu.opened hthen
    exact (hu.closed hframe.scopes ((block_spares _).guarded hu.opened hthen)).opened
  | round htyped hrounds hvariable =>
    have ht := (typedValues_spares _ _).guarded hs htyped
    have hu := hrounds.guarded (forRound_spares _ _ _) (ht.congr rfl rfl)
    exact (loopVariable_spares _ _ _).guarded (hu.enter .block) hvariable
  | iteration hiterations =>
    have ht := hiterations.guarded (whileCondition_spares _) (inScope_spares (block_spares _))
      (hs.congr rfl rfl)
    exact ht.enter .block

/-- What is not known where the scope of a body is left is not known outside. -/
theorem unknown_inScope {x : Analysis Signal} (hx : Spares x) (hs : Guarded branched floor before s)
    (hk : k < floor) (h : Unknown k name (x config { s with scopes := s.scopes.enter .block }).2) :
    Unknown k name (inScope .block x config s).2 := by
  have ht : Guarded branched floor before (x config { s with scopes := s.scopes.enter .block }).2 :=
    hx.guarded (hs.enter .block) rfl
  exact h.exit (Nat.lt_of_lt_of_le hk ht.inside)

theorem unknown_collecting {x : Analysis Signal} (hx : Spares x)
    (hs : Guarded branched floor before s) (hk : k < floor) (h : Unknown k name (x config s.opened).2) :
    Unknown k name (collecting (underRuntimeCondition x) config s).2 := by
  have ht : Guarded branched floor before (x config s.opened).2 := hx.guarded hs.opened rfl
  have hclosed : Unknown k name (s.closed (x config s.opened).2) :=
    h.exit (Nat.lt_of_lt_of_le hk ht.inside)
  rw [collecting_run_opened]
  rcases hr : x config s.opened with ⟨e | signal, t⟩
  · rwa [hr] at hclosed
  · rwa [hr] at hclosed

theorem runtimePart_spares (body : List Statement) (head : Expr × List Nat)
    (thenPart : Signal × List FlatStatement) :
    Spares (collecting (underRuntimeCondition (block (.nested n) body)) >>= fun elsePart =>
      emit (.branch head.1 head.2 thenPart.2 elsePart.2) >>= fun _ => pure Signal.normal) :=
  fun branched floor before => (underCondition_spares body branched floor before).bind fun _ =>
    ((emit_ensures _ False.elim).mono (fun _ _ _ => trivial) fun _ _ _ h => h).bind fun _ => Agree.pure _

/-- What is not known after the body of a statement is not known after the statement. -/
theorem Enters.unknown {kind : StatementKind} {body : List Statement}
    (h : Enters (.nested n) config kind s body t) (hs : Guarded branched floor before s) (hk : k < floor)
    (hunknown : Unknown k name (Analysis.block (.nested n) body config t).2) :
    Unknown k name (perform (.nested n) kind config s).2 := by
  cases h with
  | block => exact unknown_inScope (block_spares _) hs hk hunknown
  | @taken condition thenBody elseBody _ v t holds u hfold htruth =>
    have ht := (fold_spares _).guarded hs hfold
    have hu := Spares.guarded (fun _ _ _ => conditionTruth_agree _) ht htruth
    rw [perform_branch, branch, run_bind, hfold]
    dsimp only
    rw [run_bind, htruth]
    cases holds with
    | true => exact unknown_inScope (block_spares _) hu hk hunknown
    | false => exact unknown_inScope (block_spares _) hu hk hunknown
  | thenPart hfold hhead =>
    have ht := (fold_spares _).guarded hs hfold
    have hu := (branchHead_spares _ _).guarded ht hhead
    rw [perform_branch, branch, run_bind, hfold]
    dsimp only
    rw [runtimeBranch_eq, run_bind, hhead]
    exact (underCondition_spares _).unknown_bind (fun thenPart => runtimePart_spares _ _ thenPart) hu hk
      (unknown_collecting (block_spares _) hu hk hunknown)
  | elsePart hfold hhead hthen =>
    have ht := (fold_spares _).guarded hs hfold
    have hu := (branchHead_spares _ _).guarded ht hhead
    have hframe := (block_spares _).frame hu.opened hthen
    have hw := hu.closed hframe.scopes ((block_spares _).guarded hu.opened hthen)
    rw [perform_branch, branch, run_bind, hfold]
    dsimp only
    rw [runtimeBranch_eq, run_bind, hhead]
    dsimp only
    rw [branchBodies, run_bind, collecting_run_opened, hthen]
    dsimp only
    exact (underCondition_spares _).unknown_bind (fun elsePart _ _ _ =>
      ((emit_ensures _ False.elim).mono (fun _ _ _ => trivial) fun _ _ _ h => h).bind fun _ => Agree.pure _) hw hk
      (unknown_collecting (block_spares _) hw hk hunknown)
  | @round type loopName values _ _ typed u v w x _ htyped hrounds hvariable =>
    have hu := (typedValues_spares _ _).guarded hs htyped
    have hstart := hu.congr (t := { u with loopScope := some u.scopes.depth }) rfl rfl
    have hw := hrounds.guarded (forRound_spares _ _ _) hstart
    have hround : Unknown k name (forRound (.nested n) loopName typed.1 body v config w).2 := by
      rw [forRound_eq]
      refine unknown_inScope ?_ hw hk ?_
      · exact fun branched floor before =>
          (loopVariable_spares _ _ _ branched floor before).bind fun _ => block_spares body branched floor before
      · rwa [run_bind, hvariable]
    rw [perform, run_bind, htyped]
    exact hrounds.unknown (forRound_spares _ _ _) hstart hk hround
  | iteration hiterations =>
    have hstart := hs.congr (t := { s with loopScope := some s.scopes.depth }) rfl rfl
    have ht := hiterations.guarded (whileCondition_spares _) (inScope_spares (block_spares _)) hstart
    exact hiterations.unknown (whileCondition_spares _) (inScope_spares (block_spares _)) hstart hk
      (unknown_inScope (block_spares _) ht hk hunknown)

theorem perform_spares (kind : StatementKind) : Spares (perform (.nested n) kind) :=
  fun branched floor before => (pervasive_guarded branched floor before).perform n kind

theorem unknown_settled {x : Analysis Signal} (hx : Spares x) (span : Span)
    (hs : Guarded branched floor before s) (hk : k < floor)
    (h : Unknown k name (x config { s with span }).2) :
    Unknown k name (settled span x config s).2 := by
  rw [settled_run]
  rcases hr : x config { s with span } with ⟨failure | signal, t⟩
  · rw [hr] at h
    have ht := hx.guarded (hs.congr (t := { s with span }) rfl rfl) hr
    have hrecover : Spares (recover failure) := fun branched floor before =>
      (recover_ensures failure).mono (fun _ _ _ => False.elim) fun _ _ _ _ => trivial
    exact hrecover.unknown (ht.congr rfl rfl) hk h
  · rwa [hr] at h

/-- What is done after a statement of a block. -/
def blockRest (calls : Calls) (rest : List Statement) : Signal → Analysis Signal
  | .normal => block calls rest
  | signal => pure signal

theorem block_cons_run {calls : Calls} (first : Statement) (rest : List Statement)
    (h : s.halted = false) :
    block calls (first :: rest) config s =
      (statement calls first >>= blockRest calls rest) config s := by
  rw [block, run_get, h]
  simp only [Bool.false_eq_true, if_false]
  congr 2

theorem blockRest_spares (rest : List Statement) (signal : Signal) :
    Spares (blockRest (.nested n) rest signal) := by
  cases signal with
  | normal => exact block_spares rest
  | breakLoop => exact fun _ _ _ => Agree.pure _
  | continueLoop => exact fun _ _ _ => Agree.pure _
  | returned r => exact fun _ _ _ => Agree.pure _

theorem Performs.guarded {body : List Statement} {kind : StatementKind}
    (h : Performs (.nested n) config body s kind t) (hs : Guarded branched floor before s) :
    Guarded branched floor before t := by
  induction h with
  | head => exact hs.congr rfl rfl
  | inside _ henters _ ih => exact ih (henters.guarded (hs.congr rfl rfl))
  | later _ hr _ ih => exact ih ((statement_spares _).guarded hs hr)

/-- What is not known after a statement that is performed in a body is not known after the body. -/
theorem Performs.unknown {body : List Statement} {kind : StatementKind}
    (h : Performs (.nested n) config body s kind t) (hs : Guarded branched floor before s) (hk : k < floor)
    (hunknown : Unknown k name (perform (.nested n) kind config t).2) :
    Unknown k name (block (.nested n) body config s).2 := by
  induction h with
  | head hhalted =>
    rw [block_cons_run _ _ hhalted]
    exact (statement_spares _).unknown_bind (blockRest_spares _) hs hk
      (unknown_settled (perform_spares _) _ hs hk hunknown)
  | @inside _ span _ s _ _ _ _ hhalted henters _ ih =>
    have hs' := hs.congr (t := { s with span }) rfl rfl
    have hbody := ih (henters.guarded hs') hunknown
    rw [block_cons_run _ _ hhalted]
    exact (statement_spares _).unknown_bind (blockRest_spares _) hs hk
      (unknown_settled (perform_spares _) _ hs hk (henters.unknown hs' hk hbody))
  | later hhalted hr _ ih =>
    have hrest := ih ((statement_spares _).guarded hs hr) hunknown
    rw [block_cons_run _ _ hhalted, run_bind, hr]
    exact hrest

end Entering

section Writing

variable {n floor : Nat} {before : Scopes} {config : Config} {s t : State}

theorem thenNext_eq_ok {x : Analysis Unit} {signal : Signal}
    (h : thenNext x config s = (.ok signal, t)) : x config s = (.ok (), t) := by
  obtain ⟨_, u, hx, hnext⟩ := run_bind_eq_ok.1 h
  cases hnext
  exact hx

/-- What a statement has written outside is not known after it. -/
theorem unknown_of_written {kind : StatementKind} {signal : Signal} {root : String} {x : Symbol}
    (hs : Guarded True floor before s) (hwrites : kind.written? = some root)
    (hperform : perform (.nested n) kind config s = (.ok signal, t))
    (hx : s.scopes.resolve? root = some x) (hlt : x.scope < floor) : Unknown x.scope root t := by
  let W := (StatementInvariant.guarded True floor s.scopes).staying s.scopes
  have hcalls := nested_staying True floor s.scopes s.scopes n
  have hcore : W.core s := ⟨hs.refl, Scopes.Same.refl _⟩
  -- What is written is known by its name where the statement ends; this is the same symbol there.
  have hend (step : Analysis Unit) (hstep : Ensures W.toInvariant (fun _ => True) step step
      fun _ t => ∀ name, kind.written? = some name → W.written name t)
      (hr : step config s = (.ok (), t)) : Unknown x.scope root t := by
    obtain ⟨-, -, hkept, -, -, hpost⟩ := hstep config s hcore trivial
    rw [hr] at hkept hpost
    obtain ⟨hguarded, hsame⟩ := hkept
    obtain ⟨y, hy, -, hlevel⟩ := hsame.resolve?_scope hs.numbered hguarded.numbered hx
    have hnone : y.value = none := hpost () rfl root hwrites y hy (hlevel ▸ hlt)
    exact ⟨y, hlevel ▸ hguarded.numbered.at?_of_resolve? hy, hnone⟩
  cases kind with
  | assign target op value =>
    exact hend _ (assign_ensures hcalls target op value (Nat.le_of_eq (weigh_zero _)))
      (thenNext_eq_ok hperform)
  | measure operand target =>
    cases target with
    | some target =>
      exact hend _ (measure_ensures hcalls operand (some target) (Nat.le_of_eq (weigh_zero _)))
        (thenNext_eq_ok hperform)
    | none => nomatch hwrites
  | _ => nomatch hwrites

end Writing

end Analysis

end OpenQasm
