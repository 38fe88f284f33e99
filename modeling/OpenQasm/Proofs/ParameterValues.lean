import OpenQasm.Proofs.RewrittenParameters
import OpenQasm.Proofs.SharedResults

/-!
The parameters of gates against the evaluation of expressions. A parameter is put together from the same
operators, but each of them is one on doubles: integers are not cut, do not wrap, and a quotient by zero is
left as it is written. Where no operator shows the difference, the parameter for an expression that has a real
value is this value, and for an expression that has an error there is no parameter.
-/
namespace OpenQasm

open ParamExpr

/-- Whether an expression is taken as a whole for a parameter, whatever its names stand for. -/
def Expr.isWhole : Expr → Bool
  | .paren _ | .unary .neg _ | .call _ _ => false
  | .binary _ op _ => (Analysis.parameterOperation? op).isNone
  | _ => true

namespace Analysis

/-- What an operator is on doubles in a parameter, where it is defined. -/
def doubleOperation? (op : BinaryOp) (x y : Float) : Option Float :=
  (parameterOperation? op).bind fun combine => (combine (.constant x) (.constant y)).value?

/-- The real number that an operation has given. -/
def realResult? (r : Except EvalError Value) : Option Float := r.toOption.bind Value.real?

/-- An operation on two values of which the one on doubles gives an account: it has a real result where that
one has this result, and on real numbers it has one. -/
def AsOnDoubles (op : BinaryOp) (v w : Value) : Prop :=
  realResult? (Value.evalBinary op v w) = (do doubleOperation? op (← v.real?) (← w.real?)) ∧
    (v.real?.isSome = true → w.real?.isSome = true →
      (realResult? (Value.evalBinary op v w)).isSome = true)

/-- An expression no operator of which shows a difference between its values and doubles, as far as the
evaluation comes. Where a left operand is not known, so that names are given to variables before the right one
is looked at, neither of them calls a subroutine or measures. -/
inductive Faithful (calls : Calls) (config : Config) : State → Expr → Prop
  | whole {s : State} {e : Expr} (he : e.isWhole = true) : Faithful calls config s e
  | paren {s : State} {e : Expr} (he : Faithful calls config s e) : Faithful calls config s (.paren e)
  | neg {s : State} {e : Expr} (he : Faithful calls config s e)
    (hneg : ∀ v t, fold calls e config s = (.ok (some v), t) →
      realResult? (Value.evalUnary .neg v) = v.real?.map (- ·)) :
    Faithful calls config s (.unary .neg e)
  | binary {s : State} {l r : Expr} {op : BinaryOp} (hop : (parameterOperation? op).isSome = true)
    (hl : Faithful calls config s l)
    (hr : ∀ left t, fold calls l config s = (.ok left, t) → Faithful calls config t r)
    (hknown : ∀ v w t u, fold calls l config s = (.ok (some v), t) →
      fold calls r config t = (.ok (some w), u) → AsOnDoubles op v w)
    (hunknown : ∀ t, fold calls l config s = (.ok none, t) →
      s.scopes.Passive (Expr.binary l op r).callees (Expr.binary l op r).measures) :
    Faithful calls config s (.binary l op r)
  | function {s : State} {f : String} {e : Expr} (hf : (MathFunction.ofName? f).isSome = true)
    (hfree : s.scopes.resolve? f = none) (he : Faithful calls config s e)
    (hvalue : ∀ v t x, fold calls e config s = (.ok (some v), t) → v.real? = some x →
      (MathFunction.valueOf? f x).isSome = true) :
    Faithful calls config s (.call f [e])
  | call {s : State} {f : String} {args : List Expr}
    (hcall : (MathFunction.ofName? f).isSome = true → s.scopes.resolve? f = none → args.length ≠ 1) :
    Faithful calls config s (.call f args)

section Operators

variable {op : BinaryOp} {combine : Parameter → Parameter → Parameter} {v w : Value}

theorem value?_combine (hop : parameterOperation? op = some combine) (p q : Parameter) :
    (combine p q).value? = (do doubleOperation? op (← p.value?) (← q.value?)) := by
  have hvalue (a b : Parameter) : (combine a b).value? =
      a.value?.bind fun x => b.value?.bind fun y => (combine (.constant x) (.constant y)).value? := by
    cases op <;> cases hop <;> rfl
  rw [hvalue]
  simp only [doubleOperation?, hop]
  rfl

/-- The operators of parameters need both their operands. -/
theorem decided?_parameter (hop : parameterOperation? op = some combine) (left : Option Value) :
    decided? op left = none := by
  cases op <;> cases hop <;> rfl

end Operators

section Reflecting

variable {calls : Calls} {config : Config} {s i t : State} {e l r : Expr}

/-- Two states for one expression: the same one, or two between which variables have got names, if it neither
calls subroutines nor measures. -/
structure Together (s i : State) (e : Expr) : Prop where
  named : Renaming s i
  passive : i = s ∨ s.scopes.Passive e.callees e.measures

/-- How what becomes of the parameter goes with what has become of the evaluation. -/
inductive Reflects (s i : State) (e : Expr) :
    Except Failure (Option Value) × State → Except Failure Parameter × State → Prop
  | known {v : Value} {x : Float} {p : Parameter} {t j : State} (hv : v.real? = some x)
    (hp : p.value? = some x) (hnamed : Renaming t j) (hsame : i = s → j = t) :
    Reflects s i e (.ok (some v), t) (.ok p, j)
  | unreal {v : Value} {f : Failure} {t j : State} (hv : v.real? = none) :
    Reflects s i e (.ok (some v), t) (.error f, j)
  | unknown {p : Parameter} {t j : State}
    (hnamed : s.scopes.Passive e.callees e.measures → Renaming t j) :
    Reflects s i e (.ok none, t) (.ok p, j)
  | refused {f : Failure} {t j : State} : Reflects s i e (.ok none, t) (.error f, j)
  | failing {f g : Failure} {t j : State} : Reflects s i e (.error f, t) (.error g, j)

theorem Reflects.within {e' : Expr} {evaluated : Except Failure (Option Value) × State}
    {tree : Except Failure Parameter × State} (h : Reflects s i e evaluated tree)
    (hpassive : s.scopes.Passive e'.callees e'.measures → s.scopes.Passive e.callees e.measures) :
    Reflects s i e' evaluated tree := by
  cases h with
  | known hv hp hnamed hsame => exact .known hv hp hnamed hsame
  | unreal hv => exact .unreal hv
  | unknown hnamed => exact .unknown fun hq => hnamed (hpassive hq)
  | refused => exact .refused
  | failing => exact .failing

theorem Together.refl (s : State) (e : Expr) : Together s s e := ⟨.refl s, Or.inl rfl⟩

/-- The evaluation has the same result in both states. -/
theorem Together.fold (h : Together s i e) {result : Except Failure (Option Value)}
    (hrun : fold calls e config s = (result, t)) :
    ∃ j, fold calls e config i = (result, j) ∧ Renaming t j ∧ (i = s → j = t) ∧
      (s.scopes.Passive e.callees e.measures → j = i) := by
  rcases h.passive with rfl | hq
  · refine ⟨t, hrun, .refl t, fun _ => rfl, fun hq => ?_⟩
    have hshares : Shares config i i (Analysis.fold calls e) := fold_shares (.refl i) e hq
    obtain ⟨_, hshared, -⟩ := hshares
    cases hrun.symm.trans hshared
    rfl
  · have hshares : Shares config s i (Analysis.fold calls e) := fold_shares h.named e hq
    obtain ⟨_, hs, hi⟩ := hshares
    cases hrun.symm.trans hs
    exact ⟨i, hi, h.named, fun hsame => hsame, fun _ => rfl⟩

/-- What is taken as a whole is its value as a number, or a name for what is left of it. -/
theorem parameterLeaf_reflects (h : Together s i e) :
    Reflects s i e (fold calls e config s) (parameterLeaf calls e config i) := by
  rcases hrun : fold calls e config s with ⟨result, t⟩
  obtain ⟨j, hfold, hnamed, hsame, hstill⟩ := h.fold hrun
  rw [parameterLeaf, run_bind, hfold]
  cases result with
  | error f => exact .failing
  | ok value =>
    cases value with
    | some v =>
      dsimp only
      cases hv : v.real? with
      | none => exact .unreal hv
      | some x => exact .known hv rfl hnamed hsame
    | none =>
      dsimp only
      rw [run_bind]
      rcases hresidual : residualize calls e config j with ⟨f | r, k⟩
      · exact .refused
      · -- What is left of the expression is rewritten, which gives names to variables.
        have hlater : s.scopes.Passive e.callees e.measures → Renaming t k := fun hq => by
          cases hstill hq
          exact hnamed.trans (residualize_renaming e (h.named.scopes.refines.passive hq) hresidual)
        cases r with
        | name n => exact .unknown hlater
        | _ => exact .unknown hlater

theorem parameterTree_name {n : String} : parameterTree calls (.name n) config i =
    match (i.scopes.resolve? n).map Symbol.binding with
    | some (.param p) => (.ok p, i)
    | _ => parameterLeaf calls (.name n) config i := by
  rw [parameterTree, run_bind, boundParameter?, run_bind, run_lookup]
  dsimp only
  rcases (i.scopes.resolve? n).map Symbol.binding with - | binding
  · rfl
  · cases binding <;> rfl

theorem fold_bound {n : String} {x : Symbol} {p : Parameter} (hx : s.scopes.resolve? n = some x)
    (hp : x.binding = .param p) : fold calls (.name n) config s = (.ok (p.value?.map .float), s) := by
  have hresolve : resolve n config s = (.ok x, s) := by
    rw [resolve, run_bind, run_lookup, hx]
    rfl
  rw [fold, nameValue, run_bind, hresolve]
  simp only [hp]
  rfl

theorem name_reflects {n : String} (h : Together s i (.name n)) :
    Reflects s i (.name n) (fold calls (.name n) config s) (parameterTree calls (.name n) config i) := by
  rw [parameterTree_name]
  split
  · next p hp =>
    obtain ⟨y, hy, hbinding⟩ := Option.map_eq_some_iff.1 hp
    obtain ⟨x, hx, hxy⟩ := h.named.scopes.refined.resolve? hy
    rw [fold_bound hx (hxy.binding.trans hbinding)]
    cases hvalue : p.value? with
    | some x => exact .known rfl hvalue h.named id
    | none => exact .unknown fun _ => h.named
  · exact parameterLeaf_reflects h

theorem whole_reflects (he : e.isWhole = true) (h : Together s i e) :
    Reflects s i e (fold calls e config s) (parameterTree calls e config i) := by
  have hleaf : Reflects s i e (fold calls e config s) (parameterLeaf calls e config i) :=
    parameterLeaf_reflects h
  cases e with
  | name n => exact name_reflects h
  | constant c =>
    cases c with
    | pi => exact .known rfl rfl h.named id
    | _ => exact hleaf
  | unary op e =>
    cases op with
    | neg => nomatch he
    | _ => exact hleaf
  | binary l op r =>
    have hop : parameterOperation? op = none := Option.isNone_iff_eq_none.1 he
    have htree : parameterTree calls (.binary l op r) = parameterLeaf calls (.binary l op r) := by
      rw [parameterTree, hop]
    rw [htree]
    exact hleaf
  | paren | call => nomatch he
  | _ => exact hleaf

/-- An operation without a real result, on an operand of which there is no parameter. -/
theorem operation_unreal {result : Except EvalError Value} {f : Failure} {j : State}
    (hresult : realResult? result = none) :
    Reflects s i e ((some <$> orFail .evaluation result : Analysis (Option Value)) config t) (.error f, j) := by
  cases result with
  | error fault => exact .failing
  | ok v => exact .unreal hresult

/-- An operation with a real result, of which there is a parameter. -/
theorem operation_known {result : Except EvalError Value} {x : Float} {p : Parameter} {j : State}
    (hresult : realResult? result = some x) (hp : p.value? = some x) (hnamed : Renaming t j)
    (hsame : i = s → j = t) :
    Reflects s i e ((some <$> orFail .evaluation result : Analysis (Option Value)) config t) (.ok p, j) := by
  cases result with
  | error fault => nomatch hresult
  | ok v => exact .known hresult hp hnamed hsame

theorem neg_reflects (hneg : ∀ v t, fold calls e config s = (.ok (some v), t) →
      realResult? (Value.evalUnary .neg v) = v.real?.map (- ·))
    (h : Reflects s i e (fold calls e config s) (parameterTree calls e config i)) :
    Reflects s i (.unary .neg e) (fold calls (.unary .neg e) config s)
      (parameterTree calls (.unary .neg e) config i) := by
  rw [fold, parameterTree, run_bind, run_bind]
  generalize hfold : fold calls e config s = evaluated at h
  generalize parameterTree calls e config i = tree at h
  cases h with
  | @known v x p t j hv hp hnamed hsame =>
    have hresult := hneg v t hfold
    rw [hv] at hresult
    exact operation_known hresult (congrArg (Option.map Arithmetic.neg) hp) hnamed hsame
  | @unreal v f t j hv =>
    have hresult := hneg v t hfold
    rw [hv] at hresult
    exact operation_unreal hresult
  | unknown hnamed => exact .unknown hnamed
  | refused => exact .refused
  | failing => exact .failing

theorem function_reflects {f : String} (hf : (MathFunction.ofName? f).isSome = true)
    (hfree : s.scopes.resolve? f = none)
    (hvalue : ∀ v t x, fold calls e config s = (.ok (some v), t) → v.real? = some x →
      (MathFunction.valueOf? f x).isSome = true)
    (hnamed : Renaming s i)
    (h : Reflects s i e (fold calls e config s) (parameterTree calls e config i)) :
    Reflects s i (.call f [e]) (fold calls (.call f [e]) config s)
      (parameterTree calls (.call f [e]) config i) := by
  have hfree' : i.scopes.resolve? f = none := hnamed.scopes.refines.resolve?_isNone hfree
  have hfold : fold calls (.call f [e]) config s = (fold calls e >>= functionValue f) config s := by
    rw [fold, run_bind, run_lookup, hfree]
    dsimp only [Option.bind_none]
    rw [if_pos hf]
    rfl
  have htree : parameterTree calls (.call f [e]) config i =
      (parameterTree calls e >>= fun p => pure (ParamExpr.function f p)) config i := by
    rw [parameterTree, run_bind, run_lookup, hfree', hf]
    simp only [Option.isNone_none, Bool.and_self, if_true, onlyParameter, bind_assoc, pure_bind]
  rw [hfold, htree, run_bind, run_bind]
  generalize hrun : fold calls e config s = evaluated at h
  generalize parameterTree calls e config i = tree at h
  cases h with
  | @known v x p t j hv hp hnamed hsame =>
    obtain ⟨y, hy⟩ := Option.isSome_iff_exists.1 (hvalue v t x hrun hv)
    have hfunction : (ParamExpr.function f p).value? = some y := by
      show (p.value?.bind fun x => MathFunction.valueOf? f x) = some y
      rw [hp]
      exact hy
    dsimp only
    rw [functionValue, hv]
    simp only [hy]
    exact .known rfl hfunction hnamed hsame
  | unreal hv =>
    dsimp only
    rw [functionValue, hv]
    exact .failing
  | unknown hnamed => exact .unknown fun hq => hnamed (Scopes.passive_append.1 (Scopes.passive_cons.1 hq).2).1
  | refused => exact .refused
  | failing => exact .failing

theorem fold_operation {op : BinaryOp} (hop : (parameterOperation? op).isSome = true) :
    fold calls (.binary l op r) = fold calls l >>= fun left => fold calls r >>= fun right =>
      match left, right with
      | some v, some w => some <$> orFail .evaluation (Value.evalBinary op v w)
      | _, _ => pure none := by
  obtain ⟨combine, hop⟩ := Option.isSome_iff_exists.1 hop
  rw [fold]
  apply bind_congr
  intro left
  rewrite [decided?_parameter hop]
  apply bind_congr
  intro right
  rcases left with - | v <;> rcases right with - | w <;> rfl

theorem binary_reflects {op : BinaryOp} (hop : (parameterOperation? op).isSome = true)
    (hknown : ∀ v w t u, fold calls l config s = (.ok (some v), t) →
      fold calls r config t = (.ok (some w), u) → AsOnDoubles op v w)
    (hunknown : ∀ t, fold calls l config s = (.ok none, t) →
      s.scopes.Passive (Expr.binary l op r).callees (Expr.binary l op r).measures)
    (h : Together s i (.binary l op r))
    (hl : Reflects s i l (fold calls l config s) (parameterTree calls l config i))
    (hr : ∀ left t j, fold calls l config s = (.ok left, t) → Together t j r →
      Reflects t j r (fold calls r config t) (parameterTree calls r config j)) :
    Reflects s i (.binary l op r) (fold calls (.binary l op r) config s)
      (parameterTree calls (.binary l op r) config i) := by
  obtain ⟨combine, hcombine⟩ := Option.isSome_iff_exists.1 hop
  have htree : parameterTree calls (.binary l op r) =
      parameterTree calls l >>= fun a => parameterTree calls r >>= fun b => pure (combine a b) := by
    rw [parameterTree, hcombine]
  rw [fold_operation hop, htree, run_bind, run_bind]
  generalize hleft : fold calls l config s = left at hl
  generalize parameterTree calls l config i = tree at hl
  cases hl with
  | @known v x p t j hv hp hnamed hsame =>
    -- Both go on from one state, or the left operand has changed neither of them but for names.
    have htogether : Together t j r := by
      refine ⟨hnamed, h.passive.imp hsame fun hq => ?_⟩
      obtain ⟨hl, hr⟩ := Scopes.passive_append.1 hq
      cases passive_still hl _ t hleft
      exact hr
    have hright := hr _ t j hleft htogether
    dsimp only
    rw [run_bind, run_bind]
    generalize hrun : fold calls r config t = right at hright
    generalize parameterTree calls r config j = tree at hright
    cases hright with
    | @known w y q u k hw hq hnamed' hsame' =>
      obtain ⟨hresult, hdefined⟩ := hknown v w t u hleft hrun
      have hvalue : (combine p q).value? = realResult? (Value.evalBinary op v w) := by
        rw [value?_combine hcombine, hresult, hv, hp, hw, hq]
      obtain ⟨z, hz⟩ := Option.isSome_iff_exists.1 (hdefined (by rw [hv]; rfl) (by rw [hw]; rfl))
      exact operation_known hz (hvalue.trans hz) hnamed' fun h => hsame' (hsame h)
    | @unreal w f u k hw =>
      obtain ⟨hresult, -⟩ := hknown v w t u hleft hrun
      rw [hv, hw] at hresult
      exact operation_unreal hresult
    | unknown hnamed' =>
      refine .unknown fun hq => hnamed' ?_
      obtain ⟨hl, hr⟩ := Scopes.passive_append.1 hq
      cases passive_still hl _ t hleft
      exact hr
    | refused => exact .refused
    | failing => exact .failing
  | @unreal v f t j hv =>
    -- There is no parameter already, and whatever the right operand is, there is no real result.
    dsimp only
    rw [run_bind]
    rcases hrun : fold calls r config t with ⟨g | - | w, u⟩
    · exact .failing
    · exact .refused
    · obtain ⟨hresult, -⟩ := hknown v w t u hleft hrun
      rw [hv] at hresult
      exact operation_unreal hresult
  | @unknown p t j hnamed =>
    -- The parameter has named variables of the left operand, on which the right one does not depend.
    have hq := hunknown t hleft
    obtain ⟨hql, hqr⟩ := Scopes.passive_append.1 hq
    cases passive_still hql _ t hleft
    have hright := hr _ s j hleft ⟨hnamed hql, Or.inr hqr⟩
    dsimp only
    rw [run_bind, run_bind]
    generalize hrun : fold calls r config s = right at hright
    generalize parameterTree calls r config j = tree at hright
    cases hright with
    | known _ _ hnamed' => exact .unknown fun _ => hnamed'
    | unreal => exact .refused
    | unknown hnamed' => exact .unknown fun _ => hnamed' hqr
    | refused => exact .refused
    | failing => exact .failing
  | @refused f t j =>
    dsimp only
    rw [run_bind]
    rcases fold calls r config t with ⟨g | w, u⟩
    · exact .failing
    · exact .refused
  | failing => exact .failing

/-- Everything but a function of one argument, which no declaration hides, is taken as a whole. -/
theorem call_reflects {f : String} {args : List Expr}
    (hcall : (MathFunction.ofName? f).isSome = true → s.scopes.resolve? f = none → args.length ≠ 1)
    (h : Together s i (.call f args)) :
    Reflects s i (.call f args) (fold calls (.call f args) config s)
      (parameterTree calls (.call f args) config i) := by
  have htree : parameterTree calls (.call f args) config i = parameterLeaf calls (.call f args) config i := by
    rw [parameterTree, run_bind, run_lookup]
    by_cases hfunction : ((MathFunction.ofName? f).isSome && (i.scopes.resolve? f).isNone) = true
    · obtain ⟨hf, hnone⟩ := Bool.and_eq_true_iff.1 hfunction
      have hfree : s.scopes.resolve? f = none :=
        h.named.scopes.refined.resolve?_isNone (Option.isNone_iff_eq_none.1 hnone)
      have hlength := hcall hf hfree
      dsimp only
      rw [if_pos hfunction]
      match args, hlength with
      | [], _ => rfl
      | _ :: _ :: _, _ => rfl
      | [_], hlength => exact absurd rfl hlength
    · dsimp only
      rw [if_neg hfunction]
  rw [htree]
  exact parameterLeaf_reflects h

/-- The parameter for a faithful expression reflects the evaluation. -/
theorem Faithful.reflects (hfaithful : Faithful calls config s e) (h : Together s i e) :
    Reflects s i e (fold calls e config s) (parameterTree calls e config i) := by
  induction hfaithful generalizing i with
  | whole he => exact whole_reflects he h
  | paren he ih => exact (ih ⟨h.named, h.passive⟩).within id
  | @neg s e he hneg ih => exact neg_reflects hneg (ih ⟨h.named, h.passive⟩)
  | @binary s l r op hop hl hr hknown hunknown ihl ihr =>
    have hleft : Together s i l := ⟨h.named, h.passive.imp_right fun hq => (Scopes.passive_append.1 hq).1⟩
    exact binary_reflects hop hknown hunknown h (ihl hleft) fun left t j hrun => ihr left t hrun
  | @function s f e hf hfree he hvalue ih =>
    refine function_reflects hf hfree hvalue h.named (ih ⟨h.named, h.passive.imp_right fun hq => ?_⟩)
    exact (Scopes.passive_append.1 (Scopes.passive_cons.1 hq).2).1
  | call hcall => exact call_reflects hcall h

end Reflecting

section Parameters

variable {calls : Calls} {config : Config} {s t u : State} {e l r : Expr}

theorem toParameter_run {p : Parameter} (h : parameterTree calls e config s = (.ok p, t)) :
    toParameter calls e config s = (.ok p.simplify, t) := by
  rw [toParameter, run_bind, h]
  rfl

theorem Faithful.tree {v : Value} {x : Float} (h : Faithful calls config s e)
    (hv : fold calls e config s = (.ok (some v), t)) (hx : v.real? = some x) :
    ∃ p, parameterTree calls e config s = (.ok p, t) ∧ p.value? = some x := by
  have hreflects := h.reflects (.refl s e)
  rw [hv] at hreflects
  generalize parameterTree calls e config s = tree at hreflects
  cases hreflects with
  | @known _ _ p _ j hw hp _ hsame =>
    cases hsame rfl
    cases hx.symm.trans hw
    exact ⟨p, rfl, hp⟩
  | unreal hnone => nomatch hx.symm.trans hnone

/-- The parameter for a faithful expression is its value, if it has a real one, and there is none if the
evaluation fails. -/
theorem parameter_follows (h : Faithful calls config s e) :
    (∀ v t x, fold calls e config s = (.ok (some v), t) → v.real? = some x →
      toParameter calls e config s = (.ok (.constant x), t)) ∧
      ∀ f t, fold calls e config s = (.error f, t) →
        ∃ g u, toParameter calls e config s = (.error g, u) := by
  constructor
  · intro v t x hv hx
    obtain ⟨p, htree, hp⟩ := h.tree hv hx
    rw [toParameter_run htree, simplify_known hp]
  · intro f t hf
    have hreflects := h.reflects (.refl s e)
    rw [hf] at hreflects
    generalize htree : parameterTree calls e config s = tree at hreflects
    cases hreflects with
    | @failing _ g _ u =>
      refine ⟨g, u, ?_⟩
      rw [toParameter, run_bind, htree]

/-- The parameter for an operation on real numbers has the value that the operation has on doubles, and is
there if it has none, whatever comes of the evaluation. -/
theorem parameter_of_operation {op : BinaryOp} {v w : Value} {x y : Float}
    (hop : (parameterOperation? op).isSome = true) (hl : Faithful calls config s l)
    (hr : Faithful calls config t r) (hleft : fold calls l config s = (.ok (some v), t))
    (hright : fold calls r config t = (.ok (some w), u)) (hv : v.real? = some x) (hw : w.real? = some y) :
    ∃ p, toParameter calls (.binary l op r) config s = (.ok p, u) ∧ p.value? = doubleOperation? op x y := by
  obtain ⟨combine, hcombine⟩ := Option.isSome_iff_exists.1 hop
  obtain ⟨p, hp, hpx⟩ := hl.tree hleft hv
  obtain ⟨q, hq, hqy⟩ := hr.tree hright hw
  refine ⟨(combine p q).simplify, toParameter_run ?_, ?_⟩
  · rw [parameterTree, hcombine]
    exact run_bind_eq_ok.2 ⟨p, t, hp, run_bind_eq_ok.2 ⟨q, u, hq, rfl⟩⟩
  · rw [value?_simplify, value?_combine hcombine, hpx, hqy]
    rfl

end Parameters

section Differences

variable {op : BinaryOp} {x y : Float} {w : Value}

/-- A number that is not complex. -/
inductive Plain : Value → Prop
  | int (n : Int64) : Plain (.int n)
  | float (x : Float) : Plain (.float x)

/-- Operations with a double on one side are as on doubles. -/
theorem asOnDoubles_float (hw : Plain w) (hop : op ∈ [.add, .sub, .mul, .pow]) :
    AsOnDoubles op (.float x) w ∧ AsOnDoubles op w (.float x) := by
  simp only [List.mem_cons, List.not_mem_nil, or_false] at hop
  cases hw <;> rcases hop with rfl | rfl | rfl | rfl <;>
    exact ⟨⟨rfl, fun _ _ => rfl⟩, ⟨rfl, fun _ _ => rfl⟩⟩

theorem doubleOperation?_div (x y : Float) :
    doubleOperation? .div x y = if y == 0.0 then none else some (x / y) := rfl

/-- Quotients with a double on one side are so unless the divisor is zero. -/
theorem asOnDoubles_div {v : Value} (hv : v.real? = some x) (hw : w.real? = some y)
    (heval : Value.evalBinary .div v w = .ok (.float (x / y))) :
    AsOnDoubles .div v w ↔ (y == 0.0) = false := by
  have hresult : realResult? (Value.evalBinary .div v w) = some (x / y) := by
    rw [heval]
    rfl
  unfold AsOnDoubles
  rw [hresult, hv, hw]
  simp [doubleOperation?_div]

theorem asOnDoubles_div_float (hw : Plain w) (hy : w.real? = some y) :
    AsOnDoubles .div (.float x) w ↔ (y == 0.0) = false := by
  refine asOnDoubles_div rfl hy ?_
  cases hw <;> cases hy <;> rfl

/-- Operations on integers are so where the result is exact, as far as the doubles tell. -/
theorem asOnDoubles_int {a b c : Int64} (h : Value.intOperation op a b = .ok (.int c))
    (hop : (parameterOperation? op).isSome = true) :
    AsOnDoubles op (.int a) (.int b) ↔
      doubleOperation? op (Word.toFloat a) (Word.toFloat b) = some (Word.toFloat c) := by
  have heval : Value.evalBinary op (.int a) (.int b) = .ok (.int c) := by
    cases op <;> first | exact h | nomatch hop
  have hresult : realResult? (Value.evalBinary op (.int a) (.int b)) = some (Word.toFloat c) := by
    rw [heval]
    rfl
  unfold AsOnDoubles
  rw [hresult]
  exact ⟨fun h => h.1.symm, fun h => ⟨h.symm, fun _ _ => rfl⟩⟩

/-- A quotient of integers by zero is an error of the evaluation, but a parameter. -/
theorem not_asOnDoubles_zero (a : Int64) : ¬AsOnDoubles .div (.int a) (.int 0) :=
  fun h => nomatch h.2 rfl rfl

/-- Quotients of integers are not cut in a parameter, and there is one for a quotient by zero. -/
theorem quotients_differ :
    let quotient (a b : UInt64) := Expr.binary (.int a) .div (.int b)
    let text (e : Expr) := (toParameter (.nested 0) e .default .initial).1.toOption.map Parameter.text
    (fold (.nested 0) (quotient 7 2) .default .initial).1 = .ok (some (.int 3)) ∧
      text (quotient 7 2) = some "3.5" ∧
        (fold (.nested 0) (quotient 1 0) .default .initial).1 =
          .error (.statement ⟨.evaluation .divisionByZero, .none⟩) ∧
        text (quotient 1 0) = some "1 / 0" :=
  ⟨rfl, by decide +kernel, rfl, by decide +kernel⟩

end Differences

section Instance

/-- The angle `(k + 0.5) * pi`. -/
def turns : Expr := .binary (.paren (.binary (.name "k") .add (.float 0.5))) .mul (.constant .pi)

/-- A state in which an integer `k` is known. -/
def counted : State := .ofSymbols [Grid.summand]

theorem fold_count : fold (.nested 0) (.name "k") .default counted = (.ok (some (.int 3)), counted) := rfl

theorem turns_faithful : Faithful (.nested 0) .default counted turns := by
  have hsum : Faithful (.nested 0) .default counted (.binary (.name "k") .add (.float 0.5)) := by
    refine .binary rfl (.whole rfl) (fun _ _ _ => .whole rfl) (fun v w t u hv hw => ?_) fun t ht => ?_
    · cases fold_count.symm.trans hv
      cases hw
      exact (asOnDoubles_float (.int 3) (by decide)).2
    · cases fold_count.symm.trans ht
  have hvalue : fold (.nested 0) (.paren (.binary (.name "k") .add (.float 0.5))) .default counted =
      (.ok (some (.float (Word.toFloat 3 + 0.5))), counted) := rfl
  refine .binary rfl (.paren hsum) (fun _ _ _ => .whole rfl) (fun v w t u hv hw => ?_) fun t ht => ?_
  · cases hvalue.symm.trans hv
    cases hw
    exact (asOnDoubles_float (.float _) (by decide)).1
  · cases hvalue.symm.trans ht

theorem parameter_follows_turns :
    Faithful (.nested 0) .default counted turns ∧
      toParameter (.nested 0) turns .default counted =
        (.ok (.constant ((Word.toFloat 3 + 0.5) * MathConstant.pi.value)), counted) ∧
        ∀ f t, fold (.nested 0) turns .default counted = (.error f, t) →
          ∃ g u, toParameter (.nested 0) turns .default counted = (.error g, u) :=
  have hfollows := parameter_follows turns_faithful
  ⟨turns_faithful, hfollows.1 _ _ _ rfl rfl, hfollows.2⟩

end Instance

end Analysis
end OpenQasm
