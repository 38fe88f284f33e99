import OpenQasm.Analysis.Program
import OpenQasm.Proofs.FailedDeclarations
import OpenQasm.Proofs.InferredTypes
import OpenQasm.Proofs.SourceCharacters

/-!
What the calls of subroutines hand back, and the declared types of their results. A body that hands back a
result has performed a `return` at some depth of its blocks, loops and branches, outside of branches that are
decided when the program runs. A value that is known there is checked by its own type, which is not always the
one of the expression; measured qubits have to be as many as the bits of the type; and what is left to the run
of the program is not checked.
-/
namespace OpenQasm

namespace Analysis

variable {calls : Calls} {config : Config} {s t : State}

section Returning

variable {r : Option RightValue}

/-- A statement that a body performs ends in handing back a result. -/
def ReturnsFrom (calls : Calls) (config : Config) (body : List Statement) (s : State)
    (r : Option RightValue) : Prop :=
  ∃ value u t, Performs calls config body s (.returnValue value) u ∧
    handBack calls value config u = (.ok (.returned r), t)

theorem settled_eq_ok {span : Span} {x : Analysis Signal} {signal : Signal}
    (h : settled span x config s = (.ok signal, t)) :
    signal = .normal ∨ ∃ u, x config { s with span } = (.ok signal, u) := by
  rw [settled_run] at h
  rcases hx : x config { s with span } with ⟨failure | found, u⟩
  · -- After a failure, the next statement follows or the program is left.
    rw [hx] at h
    cases failure with
    | reported =>
      dsimp only [recover] at h
      rw [run_get] at h
      split at h
      · nomatch h
      · cases h
        exact Or.inl rfl
    | statement =>
      cases h
      exact Or.inl rfl
    | construct => nomatch h
    | leaving => nomatch h
  · rw [hx] at h
    cases h
    exact Or.inr ⟨u, rfl⟩

theorem settled_returned {span : Span} {x : Analysis Signal}
    (h : settled span x config s = (.ok (.returned r), t)) :
    ∃ u, x config { s with span } = (.ok (.returned r), u) :=
  (settled_eq_ok h).resolve_left nofun

theorem thenNext_normal {x : Analysis Unit} {signal : Signal} (h : thenNext x config s = (.ok signal, t)) :
    signal = .normal := by
  obtain ⟨_, _, _, h⟩ := run_bind_eq_ok.1 h
  cases h
  rfl

theorem jump_eq_ok {signal given : Signal} {keyword : String}
    (h : jump given keyword config s = (.ok signal, t)) : signal = given := by
  rw [jump, run_get] at h
  cases hscope : s.loopScope with
  | none =>
    rw [hscope] at h
    nomatch h
  | some scope =>
    rw [hscope] at h
    obtain ⟨_, _, _, h⟩ := run_bind_eq_ok.1 h
    split at h
    · nomatch h
    · cases h
      rfl

theorem followedBy_eq_ok {α : Type} {x : Analysis α} {f : State → State} {a : α}
    (h : followedBy x f config s = (.ok a, t)) : ∃ u, x config s = (.ok a, u) := by
  unfold followedBy at h
  rcases hx : x config s with ⟨result, u⟩
  rw [hx] at h
  cases h
  exact ⟨u, rfl⟩

/-- One of the rounds of a loop has handed back its result. -/
theorem unroll_returned {round : Value → Analysis Signal} {values : List Value}
    (h : unroll round values config s = (.ok (.returned r), t)) :
    ∃ v u w, RoundStarts round config values s v u ∧ round v config u = (.ok (.returned r), w) := by
  induction values generalizing s with
  | nil => cases h
  | cons v vs ih =>
    rw [unroll] at h
    obtain ⟨signal, u, hround, h⟩ := run_bind_eq_ok.1 h
    cases signal with
    | breakLoop => cases h
    | returned r' =>
      cases h
      exact ⟨v, s, _, .first, hround⟩
    | normal =>
      obtain ⟨w, u', t', hstarts, hreturned⟩ := ih h
      exact ⟨w, u', t', .next hround (Or.inl rfl) hstarts, hreturned⟩
    | continueLoop =>
      obtain ⟨w, u', t', hstarts, hreturned⟩ := ih h
      exact ⟨w, u', t', .next hround (Or.inr rfl) hstarts, hreturned⟩

theorem iterate_returned {limit left : Nat} {condition : Analysis Bool} {round : Analysis Signal}
    (h : iterate limit condition round left config s = (.ok (.returned r), t)) :
    ∃ u w, IterationStarts condition round config left s u ∧ round config u = (.ok (.returned r), w) := by
  induction left generalizing s with
  | zero =>
    -- Either the condition does not hold, or there are too many iterations.
    rw [iterate] at h
    obtain ⟨holds, u, -, h⟩ := run_bind_eq_ok.1 h
    cases holds <;> cases h
  | succ left ih =>
    rw [iterate] at h
    obtain ⟨holds, u, hholds, h⟩ := run_bind_eq_ok.1 h
    cases holds with
    | false => cases h
    | true =>
      rw [if_pos rfl] at h
      obtain ⟨signal, w, hround, h⟩ := run_bind_eq_ok.1 h
      cases signal with
      | breakLoop => cases h
      | returned r' =>
        cases h
        exact ⟨u, _, .first hholds, hround⟩
      | normal =>
        obtain ⟨u', t', hstarts, hreturned⟩ := ih h
        exact ⟨u', t', .next hholds hround (Or.inl rfl) hstarts, hreturned⟩
      | continueLoop =>
        obtain ⟨u', t', hstarts, hreturned⟩ := ih h
        exact ⟨u', t', .next hholds hround (Or.inr rfl) hstarts, hreturned⟩

theorem runtimeBranch_normal {condition : Expr} {assigned : Analysis Unit} {thenBody elseBody : Analysis Signal}
    {signal : Signal}
    (h : runtimeBranch calls condition assigned thenBody elseBody config s = (.ok signal, t)) :
    signal = .normal := by
  -- Whatever its bodies hand back, such a branch goes on with the next statement.
  rw [runtimeBranch_eq] at h
  obtain ⟨head, u, -, h⟩ := run_bind_eq_ok.1 h
  obtain ⟨_, u, -, h⟩ := run_bind_eq_ok.1 h
  obtain ⟨_, u, -, h⟩ := run_bind_eq_ok.1 h
  obtain ⟨_, u, -, h⟩ := run_bind_eq_ok.1 h
  cases h
  rfl

/-- A branch hands back what the body that is taken hands back. -/
theorem branch_returned {condition : Expr} {thenBody : List Statement} {elseBody : Option (List Statement)}
    (h : perform calls (.branch condition thenBody elseBody) config s = (.ok (.returned r), t)) :
    ∃ holds : Bool, ∃ u w,
      Enters calls config (.branch condition thenBody elseBody) s (if holds then thenBody else elseBody.getD []) u ∧
        block calls (if holds then thenBody else elseBody.getD []) config u = (.ok (.returned r), w) := by
  rw [perform_branch, branch] at h
  obtain ⟨value, u, hfold, h⟩ := run_bind_eq_ok.1 h
  cases value with
  | none => cases runtimeBranch_normal h
  | some v =>
    obtain ⟨holds, w, htruth, h⟩ := run_bind_eq_ok.1 h
    have hbody : inScope .block (block calls (if holds then thenBody else elseBody.getD [])) config w =
        (.ok (.returned r), t) := by
      cases holds with
      | true => exact h
      | false => exact h
    rw [inScope_run] at hbody
    obtain ⟨w', hrun⟩ := followedBy_eq_ok hbody
    exact ⟨holds, _, w', .taken hfold htruth, hrun⟩

/-- A loop hands back what one of its rounds hands back. -/
theorem forLoop_returned {type : Option TypeExpr} {name : String} {values : LoopValues} {body : List Statement}
    (h : perform calls (.forLoop type name values body) config s = (.ok (.returned r), t)) :
    ∃ u w, Enters calls config (.forLoop type name values body) s body u ∧
      block calls body config u = (.ok (.returned r), w) := by
  obtain ⟨typed, u, htyped, h⟩ := run_bind_eq_ok.1 h
  have hloop : inLoop (unroll (forRound calls name typed.1 body) typed.2) config u = (.ok (.returned r), t) := h
  rw [inLoop_run] at hloop
  obtain ⟨u', hrounds⟩ := followedBy_eq_ok hloop
  obtain ⟨v, w, t', hstarts, hround⟩ := unroll_returned hrounds
  rw [forRound, inScope_run] at hround
  obtain ⟨t'', hround⟩ := followedBy_eq_ok hround
  rw [← bind_assoc] at hround
  obtain ⟨x, w', hdeclared, hbody⟩ := run_bind_eq_ok.1 hround
  exact ⟨w', t'', .round htyped hstarts hdeclared, hbody⟩

theorem whileLoop_returned {condition : Expr} {body : List Statement}
    (h : perform calls (.whileLoop condition body) config s = (.ok (.returned r), t)) :
    ∃ u w, Enters calls config (.whileLoop condition body) s body u ∧
      block calls body config u = (.ok (.returned r), w) := by
  have hloop : inLoop (iterate config.maxLoopIterations (whileCondition calls condition)
      (inScope .block (block calls body)) config.maxLoopIterations) config s = (.ok (.returned r), t) := h
  rw [inLoop_run] at hloop
  obtain ⟨u', hrounds⟩ := followedBy_eq_ok hloop
  obtain ⟨w, t', hstarts, hround⟩ := iterate_returned hrounds
  rw [inScope_run] at hround
  obtain ⟨t'', hbody⟩ := followedBy_eq_ok hround
  exact ⟨_, t'', .iteration hstarts, hbody⟩

/-- What is handed back by a body inside of the first statement is handed back by the statements. -/
theorem ReturnsFrom.inside {kind : StatementKind} {span : Span} {rest body : List Statement} {u : State}
    (hrunning : s.halted = false) (henters : Enters calls config kind { s with span } body u)
    (h : ReturnsFrom calls config body u r) : ReturnsFrom calls config (⟨kind, span⟩ :: rest) s r := by
  obtain ⟨value, w, t, hperforms, hback⟩ := h
  exact ⟨value, w, t, .inside hrunning henters hperforms, hback⟩

mutual

theorem statement_returned : ∀ (st : Statement) (rest : List Statement) {s t : State},
    s.halted = false → statement calls st config s = (.ok (.returned r), t) →
      ReturnsFrom calls config (st :: rest) s r
  | ⟨kind, span⟩, rest, s, t, hrunning, h => by
    rw [statement] at h
    obtain ⟨u, hperform⟩ := settled_returned h
    cases kind with
    | returnValue value => exact ⟨value, _, u, .head hrunning, hperform⟩
    | branch condition thenBody elseBody =>
      obtain ⟨holds, u, w, henters, hbody⟩ := branch_returned hperform
      refine .inside hrunning henters ?_
      cases holds with
      | true => exact block_returned thenBody hbody
      | false =>
        cases elseBody with
        | none => nomatch hbody
        | some elseBody => exact block_returned elseBody hbody
    | forLoop type name values body =>
      obtain ⟨u, w, henters, hbody⟩ := forLoop_returned hperform
      exact .inside hrunning henters (block_returned body hbody)
    | whileLoop condition body =>
      obtain ⟨u, w, henters, hbody⟩ := whileLoop_returned hperform
      exact .inside hrunning henters (block_returned body hbody)
    | block body =>
      rw [perform, inScope_run] at hperform
      obtain ⟨w, hbody⟩ := followedBy_eq_ok hperform
      exact .inside hrunning .block (block_returned body hbody)
    | breakLoop => nomatch jump_eq_ok hperform
    | continueLoop => nomatch jump_eq_ok hperform
    | annotated => nomatch hperform
    | _ => nomatch thenNext_normal hperform

/-- A body that hands back a result has performed a `return`. -/
theorem block_returned : ∀ (body : List Statement) {s t : State},
    block calls body config s = (.ok (.returned r), t) → ReturnsFrom calls config body s r
  | [], s, t, h => nomatch h
  | st :: rest, s, t, h => by
    rw [block, run_get] at h
    cases hhalted : s.halted with
    | true =>
      rw [hhalted] at h
      nomatch h
    | false =>
      rw [hhalted] at h
      obtain ⟨signal, u, hfirst, h⟩ := run_bind_eq_ok.1 h
      cases signal with
      | normal =>
        obtain ⟨value, w, t', hperforms, hback⟩ := block_returned rest h
        exact ⟨value, w, t', .later hhalted hfirst hperforms, hback⟩
      | returned r' =>
        cases h
        exact statement_returned st rest hhalted hfirst
      | breakLoop => nomatch h
      | continueLoop => nomatch h

end

end Returning

section Handing

variable {r : Option RightValue} {body : List Statement} {n : Nat}

theorem handBack_eq_ok {value : Option Expr} (h : handBack calls value config s = (.ok (.returned r), t)) :
    value = none ∧ r = none ∨
      ∃ e found, value = some e ∧ r = some found ∧ rightValue calls e config s = (.ok found, t) := by
  unfold handBack at h
  rw [run_get] at h
  cases hscope : s.callScope with
  | none =>
    rw [hscope] at h
    nomatch h
  | some scope =>
    rw [hscope] at h
    obtain ⟨branched, u, hbranched, h⟩ := run_bind_eq_ok.1 h
    cases hbranched
    split at h
    · nomatch h
    · cases value with
      | none =>
        cases h
        exact Or.inl ⟨rfl, rfl⟩
      | some e =>
        obtain ⟨found, u, hfound, h⟩ := run_bind_eq_ok.1 h
        cases h
        exact Or.inr ⟨e, found, rfl, rfl, hfound⟩

theorem Performs.occurs {kind : StatementKind} (h : Performs (.nested n) config body s kind t)
    (hs : Occurs config s) : Occurs config t := by
  induction h with
  | head => exact hs.starts _
  | inside _ henters _ ih => exact ih ((hs.starts _).enters henters)
  | @later first _ s t _ _ _ hfirst _ ih =>
    have hnext := hs.ends n first
    rw [hfirst] at hnext
    exact ih hnext

variable {d : SubroutineDefinition} {args : List Expr} {e : Expr} {i : State} {found : RightValue}

/-- A call runs the body of the subroutine, and the body hands back what an expression stands for in a state in
which it performs a `return`. -/
structure HandsBack (n : Nat) (config : Config) (d : SubroutineDefinition) (args : List Expr) (s : State)
    (e : Expr) (i : State) (found : RightValue) (t : State) : Prop where
  fresh : s.calls.contains d.name = false
  arity : args.length = d.formals.length
  run : ∃ symbols u b, bindArguments (.nested n) d.name [] (d.formals.zip args) config s = (.ok symbols, u) ∧
    declareAll symbols config (u.inBody d.name) = (.ok (), b) ∧
      Performs (.nested n) config d.body b (.returnValue (some e)) i ∧
        atCallBoundary (inCall d.name (declareAll symbols >>= fun _ => block (.nested n) d.body)) config u =
          (.ok (.returned (some found)), t)
  back : ∃ j, handBack (.nested n) (some e) config i = (.ok (.returned (some found)), j)

theorem HandsBack.occurs (h : HandsBack n config d args s e i found t) (hs : Occurs config s) :
    Occurs config i := by
  obtain ⟨symbols, u, b, hbind, hdeclare, hperforms, -⟩ := h.run
  exact hperforms.occurs (hs.called hbind hdeclare)

theorem HandsBack.rightValue (h : HandsBack n config d args s e i found t) :
    ∃ j, rightValue (.nested n) e config i = (.ok found, j) := by
  obtain ⟨j, hback⟩ := h.back
  rcases handBack_eq_ok hback with ⟨hnone, -⟩ | ⟨_, _, he, hfound, hright⟩
  · nomatch hnone
  · cases he
    cases hfound
    exact ⟨j, hright⟩

/-- After the body there is only the check of what it hands back. -/
theorem HandsBack.call (h : HandsBack n config d args s e i found t) :
    callSubroutine (.nested n) (block (.nested n)) d args config s =
      checkResult (.nested n) d (some found) config t := by
  obtain ⟨symbols, u, b, hbind, -, -, hrun⟩ := h.run
  rw [callSubroutine, run_get, h.fresh, if_neg Bool.false_ne_true, if_neg (not_not.2 h.arity), run_bind, hbind]
  dsimp only
  rw [run_bind, hrun]
  rfl

/-- What a body hands back is what an expression stands for where the body returns it. -/
theorem body_returned {symbols : List Symbol} {u : State}
    (hrun : atCallBoundary (inCall d.name (declareAll symbols >>= fun _ => block (.nested n) d.body)) config u =
      (.ok (.returned (some found)), t)) :
    ∃ e i b j, declareAll symbols config (u.inBody d.name) = (.ok (), b) ∧
      Performs (.nested n) config d.body b (.returnValue (some e)) i ∧
        handBack (.nested n) (some e) config i = (.ok (.returned (some found)), j) := by
  rw [atCallBoundary_run, inCall_run] at hrun
  -- Leaving the body changes the scopes and the calls, but not what is handed back.
  rcases hcall : followedBy (declareAll symbols >>= fun _ => block (.nested n) d.body) _ config _ with ⟨result, w⟩
  rw [hcall] at hrun
  cases result with
  | error failure => cases failure <;> nomatch hrun
  | ok signal =>
    cases hrun
    obtain ⟨w', hbody⟩ := followedBy_eq_ok hcall
    obtain ⟨_, b, hdeclare, hblock⟩ := run_bind_eq_ok.1 hbody
    obtain ⟨value, i, j, hperforms, hback⟩ := block_returned d.body hblock
    rcases handBack_eq_ok hback with ⟨-, hnone⟩ | ⟨e, _, rfl, -, -⟩
    · nomatch hnone
    · exact ⟨e, i, b, j, hdeclare, hperforms, hback⟩

/-- A call of a subroutine with a declared result completes only after its body has handed back something. -/
theorem handsBack_of_completed {type : TypeExpr} {result : Option RightValue} (hd : d.result = some type)
    (h : callSubroutine (.nested n) (block (.nested n)) d args config s = (.ok result, t)) :
    ∃ e i found u T u', HandsBack n config d args s e i found u ∧
      resolveType (.nested n) type config u = (.ok T, u') := by
  rw [callSubroutine, run_get] at h
  cases hfresh : s.calls.contains d.name with
  | true =>
    rw [hfresh, if_pos rfl] at h
    nomatch h
  | false =>
    rw [hfresh, if_neg Bool.false_ne_true] at h
    by_cases harity : args.length = d.formals.length
    · rw [if_neg (not_not.2 harity)] at h
      obtain ⟨symbols, u, hbind, h⟩ := run_bind_eq_ok.1 h
      obtain ⟨signal, w, hrun, hcheck⟩ := run_bind_eq_ok.1 h
      unfold checkResult at hcheck
      rw [hd] at hcheck
      obtain ⟨T, w', hT, hcheck⟩ := run_bind_eq_ok.1 hcheck
      cases signal with
      | returned r =>
        cases r with
        | none => nomatch hcheck
        | some found =>
          obtain ⟨e, i, b, j, hdeclare, hperforms, hback⟩ := body_returned hrun
          exact ⟨e, i, found, w, T, w', ⟨hfresh, harity, ⟨symbols, u, b, hbind, hdeclare, hperforms, hrun⟩,
            ⟨j, hback⟩⟩, hT⟩
      -- A body that ends in another way has no result, which is an error where one is declared.
      | normal | breakLoop | continueLoop => nomatch hcheck
    · rw [if_pos harity] at h
      nomatch h

end Handing

section Judging

variable {T t u : ClassicalType} {v : Value} {n m : Nat} {k l : SizedKind}

/-- Types for which the check goes by what the values are and not by the type of the expression: angles are
kept as real numbers, bits as integers, and the width of the elements of an array is not kept at all. -/
inductive Blurs : ClassicalType → ClassicalType → Prop
  | angle {k : SizedKind} {m n : Nat} (hk : k = .float ∨ k = .complex) : Blurs (.sized k m) (.sized .angle n)
  | bit {k : SizedKind} {m n : Nat} (hk : k = .angle ∨ k = .complex) : Blurs (.sized k m) (.sized .bit n)
  | array {T element : ClassicalType} {dims : List Nat} : Blurs T (.array element dims)

theorem assignable_sized :
    ClassicalType.checkAssignable (.sized k m) (.sized l n) = .ok () ↔ ClassicalType.kindAssignable k l = true := by
  unfold ClassicalType.checkAssignable
  split
  · next h =>
    cases h
    cases k <;> exact iff_of_true rfl rfl
  · dsimp only
    split
    · next hassignable => exact iff_of_true rfl hassignable
    · next hassignable =>
      refine iff_of_false ?_ hassignable
      split <;> nofun

theorem assignable_congr {l' : SizedKind}
    (hkinds : ∀ k m, T = .sized k m → ClassicalType.kindAssignable k l' = ClassicalType.kindAssignable k l) :
    ClassicalType.checkAssignable T (.sized l' m) = .ok () ↔
      ClassicalType.checkAssignable T (.sized l n) = .ok () := by
  cases T with
  | sized k _ => rw [assignable_sized, assignable_sized, hkinds k _ rfl]
  | bool => exact iff_of_true rfl rfl
  | duration | stretch | array => exact iff_of_false nofun nofun

/-- Where the types are not blurred, a value is judged as an expression of its type. -/
theorem assignable_value (hv : t.shape.Holds v) (hblurs : ¬Blurs T t) :
    ClassicalType.checkAssignable T v.type = .ok () ↔ ClassicalType.checkAssignable T t = .ok () := by
  cases t with
  | array element dims => exact absurd .array hblurs
  | bool =>
    cases v with
    | bool b => exact Iff.rfl
    | _ => exact hv.elim
  | duration =>
    cases v with
    | duration x u => exact Iff.rfl
    | _ => exact hv.elim
  | stretch =>
    cases v with
    | duration x u =>
      cases T with
      | duration | stretch => exact iff_of_true rfl rfl
      | _ => exact iff_of_false nofun nofun
    | _ => exact hv.elim
  | sized l n =>
    cases l with
    | int | uint =>
      obtain ⟨x, rfl⟩ : ∃ x, v = .int x := by cases v <;> first | exact ⟨_, rfl⟩ | exact hv.elim
      exact assignable_congr fun k _ _ => by cases k <;> rfl
    | bit =>
      obtain ⟨x, rfl⟩ : ∃ x, v = .int x := by cases v <;> first | exact ⟨_, rfl⟩ | exact hv.elim
      refine assignable_congr fun k m hT => ?_
      subst hT
      cases k with
      | angle => exact absurd (.bit (Or.inl rfl)) hblurs
      | complex => exact absurd (.bit (Or.inr rfl)) hblurs
      | _ => rfl
    | float =>
      obtain ⟨x, rfl⟩ : ∃ x, v = .float x := by cases v <;> first | exact ⟨_, rfl⟩ | exact hv.elim
      exact assignable_congr fun k _ _ => rfl
    | angle =>
      obtain ⟨x, rfl⟩ : ∃ x, v = .float x := by cases v <;> first | exact ⟨_, rfl⟩ | exact hv.elim
      refine assignable_congr fun k m hT => ?_
      subst hT
      cases k with
      | float => exact absurd (.angle (Or.inl rfl)) hblurs
      | complex => exact absurd (.angle (Or.inr rfl)) hblurs
      | _ => rfl
    | complex =>
      obtain ⟨z, rfl⟩ : ∃ z, v = .complex z := by cases v <;> first | exact ⟨_, rfl⟩ | exact hv.elim
      exact assignable_congr fun k _ _ => rfl

/-- The values of blurred scalar types are accepted where expressions of these types are not. -/
theorem blurs_accepts (hblurs : Blurs T t) (hv : t.shape.Holds v) (harray : t.isArray = false) :
    ClassicalType.checkAssignable T v.type = .ok () ∧ ClassicalType.checkAssignable T t ≠ .ok () := by
  cases hblurs with
  | array => cases harray
  | @angle k m n hk =>
    obtain ⟨x, rfl⟩ : ∃ x, v = .float x := by cases v <;> first | exact ⟨_, rfl⟩ | exact hv.elim
    rw [Value.type, ClassicalType.defaultFloat, assignable_sized, ne_eq, assignable_sized]
    rcases hk with rfl | rfl <;> exact ⟨rfl, Bool.false_ne_true⟩
  | @bit k m n hk =>
    obtain ⟨x, rfl⟩ : ∃ x, v = .int x := by cases v <;> first | exact ⟨_, rfl⟩ | exact hv.elim
    rw [Value.type, ClassicalType.defaultInt, assignable_sized, ne_eq, assignable_sized]
    rcases hk with rfl | rfl <;> exact ⟨rfl, Bool.false_ne_true⟩

end Judging

section Verdicts

variable {n : Nat} {d : SubroutineDefinition} {args : List Expr} {type : TypeExpr} {found : RightValue} {e : Expr}
  {i j : State} {v : Value} {T τ : ClassicalType}

/-- An expression of which the type tells what its known value is: nothing in it calls a subroutine or measures
and no part is misjudged, or it is the call of a subroutine as a whole. -/
inductive Told (n : Nat) (config : Config) (s : State) (e : Expr) : Prop
  | passive (hsilent : s.scopes.Silent e.callees) (hmeasures : e.measures = false)
    (hjudged : ∀ p, e.Part p → ¬Misjudged (.nested n) config s p)
  | call {f : String} {args : List Expr} {d : SubroutineDefinition} (he : e.unparen = .call f args)
    (hf : s.scopes.subroutine? f = some d)

theorem plainValue_known (h : plainValue calls e config s = (.ok (.known v), t)) :
    fold calls e config s = (.ok (some v), t) := by
  obtain ⟨value, u, hfold, h⟩ := run_bind_eq_ok.1 h
  cases value with
  | none =>
    obtain ⟨_, _, _, h⟩ := run_bind_eq_ok.1 h
    nomatch h
  | some w =>
    cases h
    exact hfold

theorem rightValue_known (hsilent : s.scopes.Silent e.callees)
    (h : rightValue calls e config s = (.ok (.known v), t)) : fold calls e config s = (.ok (some v), t) := by
  rw [← fold_unparen]
  rw [← unparen_callees] at hsilent
  unfold rightValue at h
  generalize e.unparen = e' at hsilent h
  cases e' with
  | measure operand =>
    obtain ⟨_, _, _, h⟩ := run_bind_eq_ok.1 h
    nomatch h
  | call f args =>
    have hnone : s.scopes.subroutine? f = none := (Scopes.silent_cons.1 hsilent).1
    have hrun : subroutine? f config s = (.ok (s.scopes.subroutine? f), s) := rfl
    dsimp only at h
    rw [run_bind, hrun, hnone] at h
    exact plainValue_known h
  | _ => exact plainValue_known h

theorem infer_unparen (calls : Calls) (e : Expr) : infer calls e.unparen = infer calls e := by
  fun_induction Expr.unparen e with
  | case1 e ih => rw [ih, infer]
  | case2 => rfl

theorem resolveType_sized {kind : SizedKind} {width : Option Expr}
    (h : resolveType calls (.sized kind width) config s = (.ok T, t)) : ∃ n, T = .sized kind n := by
  cases width with
  | none =>
    cases h
    exact ⟨_, rfl⟩
  | some e =>
    simp only [resolveType] at h
    obtain ⟨_, _, _, h⟩ := run_bind_eq_ok.1 h
    obtain ⟨_, _, _, h⟩ := run_bind_eq_ok.1 h
    obtain ⟨_, _, _, h⟩ := run_bind_eq_ok.1 h
    cases h
    exact ⟨_, rfl⟩

/-- The values of a type that is written, where it is not the type of an array, do not depend on its width. -/
theorem resolveType_shape {u u' : State} {S : ClassicalType}
    (h : resolveType calls type config s = (.ok T, t)) (h' : resolveType calls type config u = (.ok S, u'))
    (harray : T.isArray = false) : S.shape = T.shape := by
  cases type with
  | bool | duration | stretch =>
    cases h
    cases h'
    rfl
  | sized kind width =>
    obtain ⟨_, rfl⟩ := resolveType_sized h
    obtain ⟨_, rfl⟩ := resolveType_sized h'
    rfl
  | array element dims =>
    simp only [resolveType] at h
    obtain ⟨_, _, _, h⟩ := run_bind_eq_ok.1 h
    split at h
    · nomatch h
    · obtain ⟨_, _, _, h⟩ := run_bind_eq_ok.1 h
      cases h
      nomatch harray

/-- A known result has been converted to a type that is declared for it. -/
theorem checkResult_known (hd : d.result = some type)
    (h : checkResult calls d (some found) config s = (.ok (some (.known v)), t)) :
    ∃ T u u' w, resolveType calls type config u = (.ok T, u') ∧ Value.coerce T w = .ok v := by
  rw [checkResult, hd] at h
  obtain ⟨T, u, hT, h⟩ := run_bind_eq_ok.1 h
  cases found with
  | known w =>
    obtain ⟨_, u', -, h⟩ := run_bind_eq_ok.1 h
    obtain ⟨w', u'', hcoerce, h⟩ := run_bind_eq_ok.1 h
    cases h
    refine ⟨T, s, u, w, hT, ?_⟩
    rw [coerceTo] at hcoerce
    cases hw : Value.coerce T w with
    | ok w' =>
      rw [hw] at hcoerce
      cases hcoerce
      rfl
    | error fault =>
      rw [hw] at hcoerce
      nomatch hcoerce
  | runtime => nomatch h
  | measured qubits =>
    dsimp only at h
    split at h <;> nomatch h

theorem Told.holds (h : Told n config i e) (hs : Occurs config i)
    (hright : rightValue (.nested n) e config i = (.ok (.known v), j)) {i' : State}
    (htype : infer (.nested n) e config i = (.ok τ, i')) (harray : τ.isArray = false) : τ.shape.Holds v := by
  cases h with
  | passive hsilent hmeasures hjudged =>
    rcases inferred_type_holds hs hsilent hmeasures hjudged htype (rightValue_known hsilent hright) with
      hholds | ⟨-, hslice, -⟩
    · exact hholds
    · cases harray.symm.trans hslice
  | @call f args d he hf =>
    rw [← infer_unparen, he] at htype
    unfold rightValue at hright
    rw [he] at hright
    have hrun : subroutine? f config i = (.ok (i.scopes.subroutine? f), i) := rfl
    dsimp only at hright
    rw [run_bind, hrun, hf] at hright
    obtain ⟨result, u, hcall, hright⟩ := run_bind_eq_ok.1 hright
    cases result with
    | none => cases hright
    | some result =>
      cases hright
      cases n with
      | zero => cases hcall
      | succ n =>
        -- The result was converted to the type that the subroutine declares for it.
        have hinfer : ∃ type, d.result = some type ∧ resolveType (.nested n) type config i = (.ok τ, i') := by
          obtain ⟨x, hx, hsub⟩ := Option.bind_eq_some_iff.1 hf
          rw [infer, run_bind, run_lookup, hx] at htype
          simp only [hsub] at htype
          cases hd : d.result with
          | none =>
            rw [hd] at htype
            cases htype
          | some type =>
            rw [hd] at htype
            exact ⟨type, rfl, htype⟩
        obtain ⟨type, hd, hτ⟩ := hinfer
        have hcompleted : callSubroutine (.nested n) (block (.nested n)) d args config i =
            (.ok (some (.known v)), j) := hcall
        obtain ⟨_, _, found, u, _, _, hback, -⟩ := handsBack_of_completed hd hcompleted
        obtain ⟨T, w, w', a, hT, hcoerce⟩ := checkResult_known hd (hback.call.symm.trans hcompleted)
        have hpositive : T.Positive := (resolveType_writable hT).positive
        have hholds := (Value.coerce_inhabits hpositive hcoerce).holds
        rwa [resolveType_shape hτ hT harray] at hholds

theorem run_orFail {ε α : Type} {problem : ε → Problem} {result : Except ε α} :
    orFail problem result config s =
      match result with
      | .ok a => (.ok a, s)
      | .error fault => (.error (.statement ⟨problem fault, s.span⟩), s) := by
  cases result <;> rfl

theorem checkResult_eq {u : State} (hd : d.result = some type)
    (hT : resolveType calls type config s = (.ok T, u)) :
    checkResult calls d (some found) config s =
      match found with
      | .known v =>
        match ClassicalType.checkAssignable T v.type with
        | .ok () => (coerceTo T v >>= fun w => return some (.known w) : Analysis (Option RightValue)) config u
        | .error fault => (.error (.statement ⟨.resultType d.name T fault, u.span⟩), u)
      | .measured qubits =>
        if T = .sized .bit qubits.length then (.ok (some (.measured qubits)), u)
        else (.error (.statement ⟨.resultMeasured d.name T qubits.length, u.span⟩), u)
      | .runtime x => (.ok (some (.runtime x)), u) := by
  rw [checkResult, hd]
  dsimp only
  rw [run_bind, hT]
  cases found with
  | known v =>
    dsimp only
    rw [run_bind, run_orFail]
    cases ClassicalType.checkAssignable T v.type <;> rfl
  | measured qubits =>
    dsimp only
    split <;> rfl
  | runtime x => rfl

/-- What becomes of a call of a subroutine with a declared result, in every state that occurs. It completes only
after its body has handed back what an expression stands for. If that is a known value, which the type of the
expression tells, the call goes by this type: it converts the value, or it fails with a mismatch. Measured qubits
are as many as the bits of the result. What is left to the run of the program is handed on as it is. -/
theorem result_verdict (hs : Occurs config s) (hd : d.result = some type) :
    (∀ r t, callSubroutine (.nested n) (block (.nested n)) d args config s = (.ok r, t) →
      ∃ e i found u T u', HandsBack n config d args s e i found u ∧
        resolveType (.nested n) type config u = (.ok T, u')) ∧
      ∀ e i found u T u', HandsBack n config d args s e i found u →
        resolveType (.nested n) type config u = (.ok T, u') →
          let call := callSubroutine (.nested n) (block (.nested n)) d args config s
          (∀ v τ j, found = .known v → infer (.nested n) e config i = (.ok τ, j) → Told n config i e → ¬Blurs T τ →
            (ClassicalType.checkAssignable T τ = .ok () →
              call = (coerceTo T v >>= fun w => return some (.known w) : Analysis (Option RightValue)) config u') ∧
            (ClassicalType.checkAssignable T τ ≠ .ok () → ∃ fault,
              call = (.error (.statement ⟨.resultType d.name T fault, u'.span⟩), u'))) ∧
          (∀ qubits, found = .measured qubits → call =
            if T = .sized .bit qubits.length then (.ok (some found), u')
            else (.error (.statement ⟨.resultMeasured d.name T qubits.length, u'.span⟩), u')) ∧
          ∀ x, found = .runtime x → call = (.ok (some found), u') := by
  refine ⟨fun r t => handsBack_of_completed hd, fun e i found u T u' hback hT => ?_⟩
  have hcall := hback.call.trans (checkResult_eq hd hT)
  dsimp only
  rw [hcall]
  refine ⟨?_, ?_, ?_⟩
  · rintro v τ j rfl hτ htold hblurs
    obtain ⟨_, hright⟩ := hback.rightValue
    have hassignable : ClassicalType.checkAssignable T v.type = .ok () ↔
        ClassicalType.checkAssignable T τ = .ok () := by
      cases harray : τ.isArray with
      | false => exact assignable_value (htold.holds (hback.occurs hs) hright hτ harray) hblurs
      | true =>
        cases τ with
        | array => exact absurd .array hblurs
        | _ => nomatch harray
    dsimp only
    constructor
    · intro hτ
      rw [hassignable.2 hτ]
    · intro hτ
      cases hv : ClassicalType.checkAssignable T v.type with
      | ok => exact absurd (hassignable.1 hv) hτ
      | error fault => exact ⟨fault, rfl⟩
  · rintro qubits rfl
    rfl
  · rintro x rfl
    rfl

/-- A subroutine that is declared to return integers and returns its argument, which is a real number. -/
def rounding : SubroutineDefinition where
  name := "f"
  formals := [.classical (.sized .float none) "x"]
  result := some (.sized .int none)
  body := [⟨.returnValue (some (.name "x")), .none⟩]

/-- A number that is known is refused. -/
theorem result_verdict_rounding : ∃ t fault,
    callSubroutine (.nested 0) (block (.nested 0)) rounding [.float 1.5] .default .initial =
      (.error (.statement ⟨.resultType "f" ClassicalType.defaultInt fault, .none⟩), t) := by
  let bound := bindArguments (.nested 0) "f" [] (rounding.formals.zip [.float 1.5]) .default .initial
  let symbols := bound.1.toOption.getD []
  let declared := declareAll symbols .default (bound.2.inBody "f")
  let ran := atCallBoundary (inCall "f" (declareAll symbols >>= fun _ => block (.nested 0) rounding.body)) .default
    bound.2
  have hback : HandsBack 0 .default rounding [.float 1.5] .initial (.name "x") { declared.2 with span := .none }
      (.known (.float 1.5)) ran.2 :=
    ⟨rfl, rfl, ⟨symbols, bound.2, declared.2, rfl, rfl, .head rfl, rfl⟩, ⟨_, rfl⟩⟩
  have htype : infer (.nested 0) (.name "x") .default { declared.2 with span := .none } =
      (.ok ClassicalType.defaultFloat, { declared.2 with span := .none }) := rfl
  have htold : Told 0 .default { declared.2 with span := .none } (.name "x") :=
    .passive nofun rfl fun p hp => by cases hp; nofun
  have hblurs : ¬Blurs ClassicalType.defaultInt ClassicalType.defaultFloat := nofun
  obtain ⟨hknown, -⟩ := (result_verdict .initial rfl).2 _ _ _ _ _ _ hback rfl
  obtain ⟨fault, hfails⟩ := (hknown _ _ _ rfl htype htold hblurs).2 nofun
  exact ⟨_, fault, hfails⟩

/-- A number that is an input of the program is handed back by the same subroutine. -/
theorem result_unchecked :
    let messages (argument : String) := (ofSource .default ("def f(float x) -> int \x7b return x; \x7d\n" ++
      "input float a;\nint r = f(" ++ argument ++ ");\n")).diagnostics.map Diagnostic.text
    messages "a" = [] ∧ messages "1.5" = ["3:1: error[type-mismatch]: " ++
      "`f` returns int[32]: float[64] cannot be implicitly converted to int[32]; use an explicit cast"] := by
  dsimp only
  repeat rw [← String.ofList_append]
  rw [ofSource_ofList, ofSource_ofList]
  decide +kernel

end Verdicts

end Analysis
end OpenQasm
