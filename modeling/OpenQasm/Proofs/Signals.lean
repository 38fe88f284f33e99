import OpenQasm.Proofs.Occurrences
import OpenQasm.Proofs.ReturnedResults
import OpenQasm.Proofs.RuntimeBranches

/-!
Where control goes after a `break`, a `continue` or a `return`. The depths that are noted for the innermost loop,
call and branch tell which of them is the innermost one, so a statement is refused that would have to leave the body
of a branch that is decided when the program runs. Nothing is lost when such a branch drops the signals of its
bodies, as there is none but the one to go on.
-/
namespace OpenQasm

namespace Analysis

/-- A construct around a statement takes up the signal that leaves it: a loop directly around it a jump, and a call
around it a result, if there are only loops in between. -/
def HandledIn (around : List Construct) : Signal → Prop
  | .normal => True
  | .breakLoop | .continueLoop => around.head? = some .loop
  | .returned _ => around.find? (fun c => decide (c ≠ .loop)) = some .call

/-- What a branch that is decided when the program runs would do after its head, if it handed on the signals of its
bodies, that of the first body before that of the second. -/
def branchBodiesHandingOn (thenBody elseBody : Analysis Signal) (head : Expr × List Nat) : Analysis Signal := do
  let (first, thenPart) ← collecting (underRuntimeCondition thenBody)
  let (second, elsePart) ← collecting (underRuntimeCondition elseBody)
  emit (.branch head.1 head.2 thenPart elsePart)
  match first with
  | .normal => return second
  | signal => return signal

/-- An `if` that hands on the signals of its bodies in any case. -/
def branchHandingOn (calls : Calls) (condition : Expr) (thenBody elseBody : List Statement) : Analysis Signal := do
  match ← fold calls condition with
  | none => do
    let head ← branchHead calls condition (materializeAll (thenBody ++ elseBody))
    branchBodiesHandingOn (block calls thenBody) (block calls elseBody) head
  | some v =>
    if ← conditionTruth v then inScope .block (block calls thenBody) else inScope .block (block calls elseBody)

/-- A statement is dropped and reported as one that is not supported. -/
def Refuses (calls : Calls) (config : Config) (s : State) (st : Statement) : Prop :=
  ∃ p : Problem, p.kind = .unsupported ∧ p.severity = .error ∧
    statement calls st config s = (.ok .normal, (report ⟨p, st.span⟩ config s).2)

variable {calls : Calls} {config : Config} {s t : State} {around : List Construct} {n : Nat} {signal : Signal}

section Depths

variable {loop call branch : Option Nat} {depth : Nat}

/-- The innermost construct is a loop if and only if a loop is noted and no branch has begun inside of it. -/
theorem Depths.innermost_loop (h : Depths around loop call branch depth) :
    around.head? = some .loop ∧ (∃ k, loop = some k ∧ ∀ floor ∈ branch, floor ≤ k) ∨
      around.head? ≠ some .loop ∧ ∀ k ∈ loop, ∃ floor ∈ branch, k < floor := by
  cases h with
  | outermost => exact Or.inr ⟨nofun, nofun⟩
  | loop hinner => exact Or.inl ⟨rfl, _, rfl, fun floor hfloor => (hinner.branch_le floor hfloor).2⟩
  | call => exact Or.inr ⟨nofun, nofun⟩
  | branch hinner hbegin =>
    exact Or.inr ⟨nofun, fun k hk => ⟨_, rfl, (hinner.loop_le k hk).trans_lt hbegin⟩⟩

/-- Apart from loops, the innermost construct is a call if and only if a call is noted and no branch has begun
inside of it. -/
theorem Depths.innermost_call (h : Depths around loop call branch depth) :
    around.find? (fun c => decide (c ≠ .loop)) = some .call ∧
        (∃ k, call = some k ∧ ∀ floor ∈ branch, floor ≤ k) ∨
      around.find? (fun c => decide (c ≠ .loop)) ≠ some .call ∧ ∀ k ∈ call, ∃ floor ∈ branch, k < floor := by
  induction h with
  | outermost => exact Or.inr ⟨nofun, nofun⟩
  | loop _ _ ih => exact ih
  | call hinner hbegin _ =>
    have houter := fun floor hfloor => (hinner.branch_le floor hfloor).2.trans hbegin.le
    exact Or.inl ⟨rfl, _, rfl, houter⟩
  | branch hinner hbegin _ =>
    exact Or.inr ⟨nofun, fun k hk => ⟨_, rfl, (hinner.call_le k hk).trans_lt hbegin⟩⟩

end Depths

section Verdicts

theorem branchedSince_run (scope : Nat) (config : Config) (s : State) :
    branchedSince scope config s = (.ok (s.runtimeFloor.any fun floor => scope < floor), s) := rfl

theorem not_branched {k : Nat} (h : ∀ floor ∈ s.runtimeFloor, floor ≤ k) :
    (s.runtimeFloor.any fun floor => k < floor) = false := by
  rw [Option.any_eq_false]
  exact fun floor hfloor => decide_eq_false (Nat.not_lt.2 (h floor hfloor))

theorem branched {k : Nat} (h : ∃ floor ∈ s.runtimeFloor, k < floor) :
    (s.runtimeFloor.any fun floor => k < floor) = true := by
  obtain ⟨floor, hfloor, hlt⟩ := h
  rw [Option.any_eq_true]
  exact ⟨floor, hfloor, decide_eq_true hlt⟩

/-- A step fails with a problem of what is not supported, and changes nothing. -/
def FailsUnsupported (x : Analysis Signal) (config : Config) (s : State) : Prop :=
  ∃ p : Problem, p.kind = .unsupported ∧ p.severity = .error ∧ x config s = (.error (.statement ⟨p, s.span⟩), s)

/-- A jump is accepted directly in a loop and nowhere else. -/
theorem jump_verdict (config : Config) (signal : Signal) (hs : s.Within around) (keyword : String) :
    around.head? = some .loop ∧ jump signal keyword config s = (.ok signal, s) ∨
      around.head? ≠ some .loop ∧ FailsUnsupported (jump signal keyword) config s := by
  refine hs.innermost_loop.imp (And.imp_right ?_) (And.imp_right ?_)
  · rintro ⟨k, hloop, hfloor⟩
    rw [jump, run_get, hloop]
    dsimp only
    rw [run_bind, branchedSince_run, not_branched hfloor]
    rfl
  · intro hbranched
    cases hloop : s.loopScope with
    | none =>
      refine ⟨.jumpOutsideLoop keyword, rfl, rfl, ?_⟩
      rw [jump, run_get, hloop]
      exact run_fail _ config s
    | some k =>
      refine ⟨.runtimeJump keyword, rfl, rfl, ?_⟩
      rw [jump, run_get, hloop]
      dsimp only
      rw [run_bind, branchedSince_run, branched (hbranched k hloop)]
      exact run_fail _ config s

/-- What a `return` hands back where it is accepted. -/
def handedBack (calls : Calls) : Option Expr → Analysis Signal
  | none => return .returned none
  | some e => return .returned (some (← rightValue calls e))

/-- A `return` is accepted in a call, in any of the loops there, and nowhere else. -/
theorem handBack_verdict (calls : Calls) (config : Config) (hs : s.Within around) (value : Option Expr) :
    around.find? (fun c => decide (c ≠ .loop)) = some .call ∧
        handBack calls value config s = handedBack calls value config s ∨
      around.find? (fun c => decide (c ≠ .loop)) ≠ some .call ∧
        FailsUnsupported (handBack calls value) config s := by
  refine hs.innermost_call.imp (And.imp_right ?_) (And.imp_right ?_)
  · rintro ⟨k, hcall, hfloor⟩
    unfold handBack
    rw [run_get, hcall]
    dsimp only
    rw [run_bind, branchedSince_run, not_branched hfloor]
    cases value with
    | none => rfl
    | some e => rfl
  · intro hbranched
    cases hcall : s.callScope with
    | none =>
      refine ⟨.returnOutside, rfl, rfl, ?_⟩
      unfold handBack
      rw [run_get, hcall]
      exact run_fail _ config s
    | some k =>
      refine ⟨.runtimeReturn, rfl, rfl, ?_⟩
      unfold handBack
      rw [run_get, hcall]
      dsimp only
      rw [run_bind, branchedSince_run, branched (hbranched k hcall)]
      exact run_fail _ config s

theorem handedBack_eq_ok {value : Option Expr} (h : handedBack calls value config s = (.ok signal, t)) :
    ∃ r, signal = .returned r := by
  cases value with
  | none =>
    cases h
    exact ⟨none, rfl⟩
  | some e =>
    obtain ⟨found, u, -, h⟩ := run_bind_eq_ok.1 h
    cases h
    exact ⟨some found, rfl⟩

theorem refuses_of_fails {kind : StatementKind} {span : Span}
    (h : FailsUnsupported (perform calls kind) config { s with span }) : Refuses calls config s ⟨kind, span⟩ := by
  obtain ⟨p, hkind, hseverity, hfails⟩ := h
  refine ⟨p, hkind, hseverity, ?_⟩
  rw [statement_failed hfails]
  rfl

end Verdicts

section Rounds

/-- A loop takes up the jumps of its rounds. -/
theorem unroll_eq_ok {round : Value → Analysis Signal} {values : List Value}
    (h : unroll round values config s = (.ok signal, t)) : signal = .normal ∨ ∃ r, signal = .returned r := by
  induction values generalizing s with
  | nil =>
    cases h
    exact Or.inl rfl
  | cons v vs ih =>
    rw [unroll] at h
    obtain ⟨found, u, -, h⟩ := run_bind_eq_ok.1 h
    cases found with
    | breakLoop =>
      cases h
      exact Or.inl rfl
    | returned r =>
      cases h
      exact Or.inr ⟨r, rfl⟩
    | normal => exact ih h
    | continueLoop => exact ih h

theorem iterate_eq_ok {limit left : Nat} {condition : Analysis Bool} {round : Analysis Signal}
    (h : iterate limit condition round left config s = (.ok signal, t)) :
    signal = .normal ∨ ∃ r, signal = .returned r := by
  induction left generalizing s with
  | zero =>
    rw [iterate] at h
    obtain ⟨holds, u, -, h⟩ := run_bind_eq_ok.1 h
    cases holds with
    | false =>
      cases h
      exact Or.inl rfl
    | true => cases h
  | succ left ih =>
    rw [iterate] at h
    obtain ⟨holds, u, -, h⟩ := run_bind_eq_ok.1 h
    cases holds with
    | false =>
      cases h
      exact Or.inl rfl
    | true =>
      rw [if_pos rfl] at h
      obtain ⟨found, w, -, h⟩ := run_bind_eq_ok.1 h
      cases found with
      | breakLoop =>
        cases h
        exact Or.inl rfl
      | returned r =>
        cases h
        exact Or.inr ⟨r, rfl⟩
      | normal => exact ih h
      | continueLoop => exact ih h

theorem forLoop_eq_ok {type : Option TypeExpr} {name : String} {values : LoopValues} {body : List Statement}
    (h : perform calls (.forLoop type name values body) config s = (.ok signal, t)) :
    signal = .normal ∨ ∃ r, signal = .returned r := by
  obtain ⟨typed, u, -, h⟩ := run_bind_eq_ok.1 h
  have hloop : inLoop (unroll (forRound calls name typed.1 body) typed.2) config u = (.ok signal, t) := h
  rw [inLoop_run] at hloop
  obtain ⟨u', hrounds⟩ := followedBy_eq_ok hloop
  exact unroll_eq_ok hrounds

theorem whileLoop_eq_ok {condition : Expr} {body : List Statement}
    (h : perform calls (.whileLoop condition body) config s = (.ok signal, t)) :
    signal = .normal ∨ ∃ r, signal = .returned r := by
  have hloop : inLoop (iterate config.maxLoopIterations (whileCondition calls condition)
      (inScope .block (block calls body)) config.maxLoopIterations) config s = (.ok signal, t) := h
  rw [inLoop_run] at hloop
  obtain ⟨u', hrounds⟩ := followedBy_eq_ok hloop
  exact iterate_eq_ok hrounds

end Rounds

section Handling

mutual

theorem statement_handled : ∀ (st : Statement) {around : List Construct} {s t : State} {signal : Signal},
    s.Within around → statement (.nested n) st config s = (.ok signal, t) → HandledIn around signal
  | ⟨kind, span⟩, around, s, t, signal, hs, h => by
    rw [statement] at h
    rcases settled_eq_ok h with rfl | ⟨u, hperform⟩
    · trivial
    have hplaced : State.Within around { s with span } := hs
    cases kind with
    | breakLoop =>
      rcases jump_verdict config .breakLoop hplaced "break" with
        ⟨hhead, -⟩ | ⟨-, _, -, -, hfails⟩
      · exact jump_eq_ok hperform ▸ hhead
      · cases hfails.symm.trans hperform
    | continueLoop =>
      rcases jump_verdict config .continueLoop hplaced "continue" with
        ⟨hhead, -⟩ | ⟨-, _, -, -, hfails⟩
      · exact jump_eq_ok hperform ▸ hhead
      · cases hfails.symm.trans hperform
    | returnValue value =>
      rcases handBack_verdict (.nested n) config hplaced value with
        ⟨hfind, hback⟩ | ⟨-, _, -, -, hfails⟩
      · obtain ⟨r, rfl⟩ := handedBack_eq_ok (hback.symm.trans hperform)
        exact hfind
      · cases hfails.symm.trans hperform
    | branch condition thenBody elseBody =>
      rw [perform_branch, branch] at hperform
      obtain ⟨value, v, hfold, hrest⟩ := run_bind_eq_ok.1 hperform
      cases value with
      | none =>
        rw [runtimeBranch_normal hrest]
        trivial
      | some known =>
        obtain ⟨holds, w, htruth, hbody⟩ := run_bind_eq_ok.1 hrest
        -- The body that is taken stands where the branch does.
        have htaken : Enters (.nested n) config (.branch condition thenBody elseBody) { s with span } _ _ :=
          .taken hfold htruth
        have hinside := hplaced.enters htaken
        rw [bodiesWithin, hfold] at hinside
        cases holds with
        | true =>
          obtain ⟨w', hrun⟩ := followedBy_eq_ok ((inScope_run .block _ config w).symm.trans hbody)
          exact block_handled thenBody hinside hrun
        | false =>
          obtain ⟨w', hrun⟩ := followedBy_eq_ok ((inScope_run .block _ config w).symm.trans hbody)
          cases elseBody with
          | none =>
            cases hrun
            trivial
          | some elseBody => exact block_handled elseBody hinside hrun
    | forLoop type name values body =>
      rcases forLoop_eq_ok hperform with rfl | ⟨r, rfl⟩
      · trivial
      · obtain ⟨v, w, henters, hbody⟩ := forLoop_returned hperform
        have hreturned : HandledIn (.loop :: around) (.returned r) :=
          block_handled body (hplaced.enters henters) hbody
        exact hreturned
    | whileLoop condition body =>
      rcases whileLoop_eq_ok hperform with rfl | ⟨r, rfl⟩
      · trivial
      · obtain ⟨v, w, henters, hbody⟩ := whileLoop_returned hperform
        have hreturned : HandledIn (.loop :: around) (.returned r) :=
          block_handled body (hplaced.enters henters) hbody
        exact hreturned
    | block body =>
      rw [perform, inScope_run] at hperform
      obtain ⟨w, hbody⟩ := followedBy_eq_ok hperform
      exact block_handled body (hplaced.enter .block) hbody
    | annotated =>
      cases hperform
      trivial
    | _ =>
      rw [thenNext_normal hperform]
      trivial

/-- The signal that leaves some statements is taken up by a construct around them. -/
theorem block_handled : ∀ (body : List Statement) {around : List Construct} {s t : State} {signal : Signal},
    s.Within around → block (.nested n) body config s = (.ok signal, t) → HandledIn around signal
  | [], around, s, t, signal, hs, h => by
    cases h
    trivial
  | st :: rest, around, s, t, signal, hs, h => by
    rw [block, run_get] at h
    cases hhalted : s.halted with
    | true =>
      rw [hhalted] at h
      cases h
    | false =>
      rw [hhalted] at h
      obtain ⟨found, u, hfirst, h⟩ := run_bind_eq_ok.1 h
      have hfound := statement_handled st hs hfirst
      cases found with
      | normal => exact block_handled rest (hs.step (pervasive_trivial.statement n st) hfirst) h
      | breakLoop =>
        cases h
        exact hfound
      | continueLoop =>
        cases h
        exact hfound
      | returned r =>
        cases h
        exact hfound

end

theorem normal_of_handled (h : HandledIn (.branch :: around) signal) : signal = .normal := by
  cases signal with
  | normal => rfl
  | breakLoop => cases h
  | continueLoop => cases h
  | returned r => cases h

/-- No signal leaves a body under a condition that is decided when the program runs. -/
theorem collecting_normal (hs : s.Within around) {body : List Statement}
    {part : Signal × List FlatStatement}
    (h : collecting (underRuntimeCondition (block (.nested n) body)) config s = (.ok part, t)) :
    part.1 = .normal ∧ t.Within around := by
  obtain ⟨u, hbody, rfl⟩ := collecting_eq_ok h
  have hframe := ((pervasive_trivial.block (pervasive_trivial.nested n) body).keeps trivial trivial hbody).frame
  exact ⟨normal_of_handled (block_handled body hs.opened hbody), hs.closed hframe⟩

/-- Nothing changes if the signals of such bodies are handed on. -/
theorem branchBodies_handingOn (hs : s.Within around) (thenBody elseBody : List Statement)
    (head : Expr × List Nat) :
    branchBodies (block (.nested n) thenBody) (block (.nested n) elseBody) head config s =
      branchBodiesHandingOn (block (.nested n) thenBody) (block (.nested n) elseBody) head config s := by
  unfold branchBodies branchBodiesHandingOn
  rw [run_bind, run_bind]
  rcases hthen : collecting (underRuntimeCondition (block (.nested n) thenBody)) config s with
    ⟨e | ⟨first, thenPart⟩, t⟩
  · rfl
  obtain ⟨hfirst, ht⟩ := collecting_normal hs hthen
  dsimp only at hfirst ⊢
  rw [run_bind, run_bind]
  rcases helse : collecting (underRuntimeCondition (block (.nested n) elseBody)) config t with
    ⟨e | ⟨second, elsePart⟩, u⟩
  · rfl
  obtain ⟨hsecond, -⟩ := collecting_normal ht helse
  dsimp only at hsecond ⊢
  rw [hfirst, hsecond]

theorem branch_handingOn (hs : s.Within around) (condition : Expr) (thenBody : List Statement)
    (elseBody : Option (List Statement)) :
    perform (.nested n) (.branch condition thenBody elseBody) config s =
      branchHandingOn (.nested n) condition thenBody (elseBody.getD []) config s := by
  have hcalls := pervasive_trivial.nested n
  have hcondition := fold_agree hcalls condition (Nat.le_of_eq (weigh_zero _))
  rw [perform_branch, branch, branchHandingOn, run_bind, run_bind]
  rcases hfold : fold (.nested n) condition config s with ⟨e | value, u⟩
  · rfl
  cases value with
  | some v => rfl
  | none =>
    dsimp only
    rw [runtimeBranch_eq, run_bind, run_bind]
    rcases hhead : branchHead (.nested n) condition (materializeAll (thenBody ++ elseBody.getD [])) config u with
      ⟨e | head, w⟩
    · rfl
    have hw := (hs.step hcondition hfold).step (pervasive_trivial.branchHead condition _) hhead
    exact branchBodies_handingOn hw thenBody (elseBody.getD []) head

end Handling

/-- What becomes of the signals of statements that stand in some constructs. -/
structure SignalsHeld (config : Config) (around : List Construct) (s : State) (n : Nat) : Prop where
  guarded : ∀ body signal t,
    underRuntimeCondition (block (.nested n) body) config s = (.ok signal, t) → signal = .normal
  handedOn : ∀ condition thenBody elseBody, perform (.nested n) (.branch condition thenBody elseBody) config s =
    branchHandingOn (.nested n) condition thenBody (elseBody.getD []) config s
  handled : ∀ body signal t, block (.nested n) body config s = (.ok signal, t) → HandledIn around signal
  jumps : around.head? = some .loop → ∀ span,
    statement (.nested n) ⟨.breakLoop, span⟩ config s = (.ok .breakLoop, s) ∧
      statement (.nested n) ⟨.continueLoop, span⟩ config s = (.ok .continueLoop, s)
  jumps_refused : around.head? ≠ some .loop → ∀ span,
    Refuses (.nested n) config s ⟨.breakLoop, span⟩ ∧ Refuses (.nested n) config s ⟨.continueLoop, span⟩
  returns : around.find? (fun c => decide (c ≠ .loop)) = some .call → ∀ value span,
    statement (.nested n) ⟨.returnValue value, span⟩ config s =
      settled span (handedBack (.nested n) value) config s
  returns_refused : around.find? (fun c => decide (c ≠ .loop)) ≠ some .call → ∀ value span,
    Refuses (.nested n) config s ⟨.returnValue value, span⟩
  loops : ∀ kind signal t, bodiesWithin (.nested n) config s around kind = .loop :: around →
    perform (.nested n) kind config s = (.ok signal, t) → signal = .normal ∨ ∃ r, signal = .returned r
  calls : around.head? = some .call → ∀ body signal t,
    block (.nested n) body config s = (.ok signal, t) → signal = .normal ∨ ∃ r, signal = .returned r

section Held

theorem jumps_of_loop (hs : s.Within around) (h : around.head? = some .loop) (span : Span) :
    statement calls ⟨.breakLoop, span⟩ config s = (.ok .breakLoop, s) ∧
      statement calls ⟨.continueLoop, span⟩ config s = (.ok .continueLoop, s) := by
  have hplaced : State.Within around { s with span } := hs
  have haccepted (signal : Signal) (keyword : String) :
      jump signal keyword config { s with span } = (.ok signal, { s with span }) := by
    rcases jump_verdict config _ hplaced keyword with ⟨-, hjump⟩ | ⟨hne, -⟩
    · exact hjump
    · exact absurd h hne
  constructor
  · exact statement_ok (t := { s with span }) (by rw [perform, haccepted])
  · exact statement_ok (t := { s with span }) (by rw [perform, haccepted])

theorem jumps_refused (hs : s.Within around) (h : around.head? ≠ some .loop) (span : Span) :
    Refuses calls config s ⟨.breakLoop, span⟩ ∧ Refuses calls config s ⟨.continueLoop, span⟩ := by
  have hplaced : State.Within around { s with span } := hs
  have hfails (signal : Signal) (keyword : String) :
      FailsUnsupported (jump signal keyword) config { s with span } := by
    rcases jump_verdict config _ hplaced keyword with ⟨heq, -⟩ | ⟨-, hfails⟩
    · exact absurd heq h
    · exact hfails
  exact ⟨refuses_of_fails (hfails .breakLoop "break"), refuses_of_fails (hfails .continueLoop "continue")⟩

theorem return_of_call (hs : s.Within around)
    (h : around.find? (fun c => decide (c ≠ .loop)) = some .call) (value : Option Expr) (span : Span) :
    statement calls ⟨.returnValue value, span⟩ config s = settled span (handedBack calls value) config s := by
  have hplaced : State.Within around { s with span } := hs
  rcases handBack_verdict calls config hplaced value with ⟨-, hback⟩ | ⟨hne, -⟩
  · rw [statement, settled_run, settled_run, perform, hback]
  · exact absurd h hne

theorem return_refused (hs : s.Within around)
    (h : around.find? (fun c => decide (c ≠ .loop)) ≠ some .call) (value : Option Expr) (span : Span) :
    Refuses calls config s ⟨.returnValue value, span⟩ := by
  have hplaced : State.Within around { s with span } := hs
  rcases handBack_verdict calls config hplaced value with ⟨heq, -⟩ | ⟨-, hfails⟩
  · exact absurd heq h
  · exact refuses_of_fails hfails

/-- A statement whose bodies stand in a loop of its own is a loop. -/
theorem eq_loop_of_bodiesWithin {kind : StatementKind}
    (h : bodiesWithin calls config s around kind = .loop :: around) :
    (∃ type name values body, kind = .forLoop type name values body) ∨
      ∃ condition body, kind = .whileLoop condition body := by
  have hne : around ≠ .loop :: around := fun h => absurd (congrArg List.length h) (Nat.succ_ne_self _).symm
  cases kind with
  | forLoop type name values body => exact Or.inl ⟨type, name, values, body, rfl⟩
  | whileLoop condition body => exact Or.inr ⟨condition, body, rfl⟩
  | branch condition thenBody elseBody =>
    rw [bodiesWithin] at h
    split at h
    · cases h
    · exact absurd h hne
  | _ => exact absurd h hne

/-- Wherever statements are performed, no signal leaves a body under a condition that is decided when the program
runs, so nothing is lost when a branch drops what its bodies signal. A jump or a `return` that would have to leave
such a body is refused, and one whose loop or call is inside of it is taken up there. -/
theorem signals_held (n : Nat) (hs : Occurs config s) :
    (∃ around, OccursIn config around s) ∧ ∀ around, OccursIn config around s → SignalsHeld config around s n := by
  refine ⟨hs.within, fun around hin => ?_⟩
  have hwithin := hin.noted
  have hhandled (body : List Statement) (signal : Signal) (t : State)
      (h : block (.nested n) body config s = (.ok signal, t)) : HandledIn around signal :=
    block_handled body hwithin h
  refine ⟨?_, branch_handingOn hwithin, hhandled, jumps_of_loop hwithin, jumps_refused hwithin,
    return_of_call hwithin, return_refused hwithin, ?_, ?_⟩
  · intro body signal t h
    rw [underRuntimeCondition_run] at h
    obtain ⟨u, hbody⟩ := followedBy_eq_ok h
    have hbranch : State.Within (.branch :: around)
        { s with scopes := s.scopes.enter .block, runtimeFloor := some (s.scopes.enter .block).depth } :=
      hwithin.opened
    exact normal_of_handled (block_handled body hbranch hbody)
  · intro kind signal t hkind h
    rcases eq_loop_of_bodiesWithin hkind with ⟨_, _, _, _, rfl⟩ | ⟨_, _, rfl⟩
    · exact forLoop_eq_ok h
    · exact whileLoop_eq_ok h
  · intro hcall body signal t h
    have hsignal := hhandled body signal t h
    cases signal with
    | normal => exact Or.inl rfl
    | returned r => exact Or.inr ⟨r, rfl⟩
    | breakLoop => cases hcall.symm.trans hsignal
    | continueLoop => cases hcall.symm.trans hsignal

/-- A `break` in an `if` on an input would have to end the loop around it. -/
theorem signals_held_break :
    ∃ s, OccursIn .default [.branch, .loop] s ∧ Refuses (.nested 0) .default s ⟨.breakLoop, .none⟩ := by
  let start := (perform (.nested 0) (.classical ⟨.bool, "b", none, false, some .input⟩) .default .initial).2
  have hstart : OccursIn .default [] start := .performed 0 _ .initial
  let inner : StatementKind := .branch (.name "b") [⟨.breakLoop, .none⟩] none
  let looping : State := { start with loopScope := some start.scopes.depth }
  let round : State := { looping with scopes := looping.scopes.enter .block }
  have hiteration : Enters (.nested 0) .default (.whileLoop (.bool true) [⟨inner, .none⟩]) start [⟨inner, .none⟩]
      round := .iteration (.first rfl)
  have hround : OccursIn .default [.loop] round := hstart.enters hiteration
  let known := (fold (.nested 0) (.name "b") .default round).2
  have hfold : fold (.nested 0) (.name "b") .default round = (.ok none, known) := rfl
  have hok : (branchHead (.nested 0) (.name "b") (materializeAll ([⟨.breakLoop, .none⟩] ++ none.getD []))
      .default known).1.toOption.isSome = true := by decide +kernel
  rcases hhead : branchHead (.nested 0) (.name "b") (materializeAll ([⟨.breakLoop, .none⟩] ++ none.getD []))
    .default known with ⟨failure | head, w⟩
  · rw [hhead] at hok
    cases hok
  have hinside : OccursIn .default [.branch, .loop] w.opened := by
    have hwithin : bodiesWithin (.nested 0) .default round [.loop] inner = [.branch, .loop] := by
      rw [bodiesWithin, hfold]
    rw [← hwithin]
    exact hround.enters (.thenPart hfold hhead)
  have hheld := (signals_held 0 hinside.occurs).2 _ hinside
  exact ⟨w.opened, hinside, (hheld.jumps_refused nofun .none).1⟩

end Held

end Analysis

end OpenQasm
