import OpenQasm.Proofs.PartialEvaluation

/-!
An evaluation that neither calls subroutines nor measures does not depend on the names that variables have in
the flat program. Where these are all that has changed, it has the same result, be that a value, the answer
that there is none yet, or a failure; and the rewriting of an expression changes nothing else.
-/
namespace OpenQasm

namespace Analysis

variable {α β : Type} {config : Config} {s t u : State} {calls : Calls}

/-- A later state of the same statement, where at most some variables have got names in the flat program. -/
structure Renaming (s t : State) : Prop where
  scopes : s.scopes.Renames t.scopes
  span : t.span = s.span

namespace Renaming

theorem refl (s : State) : Renaming s s := ⟨.refl _, rfl⟩

theorem trans (h : Renaming s t) (h' : Renaming t u) : Renaming s u :=
  ⟨h.scopes.trans h'.scopes, h'.span.trans h.span⟩

end Renaming

/-- A step that changes nothing in two states and has the same result in both. -/
def Shares (config : Config) (s u : State) (x : Analysis α) : Prop :=
  ∃ r, x config s = (r, s) ∧ x config u = (r, u)

section Rules

variable {x y : Analysis α} {f : α → Analysis β}

theorem Shares.pure (a : α) : Shares config s u (Pure.pure a : Analysis α) := ⟨.ok a, rfl, rfl⟩

theorem Shares.fail (h : Renaming s u) (p : Problem) : Shares config s u (Analysis.fail p : Analysis α) := by
  refine ⟨.error (.statement ⟨p, s.span⟩), rfl, ?_⟩
  rw [← h.span]
  rfl

theorem Shares.bind (hx : Shares config s u x) (hf : ∀ a, Shares config s u (f a)) :
    Shares config s u (x >>= f) := by
  obtain ⟨r, hs, hu⟩ := hx
  unfold Shares
  rw [run_bind, run_bind, hs, hu]
  cases r with
  | error e => exact ⟨.error e, rfl, rfl⟩
  | ok a => exact hf a

theorem Shares.map {φ : α → β} (hx : Shares config s u x) : Shares config s u (φ <$> x) :=
  hx.bind fun _ => .pure _

theorem Shares.ite {c : Prop} [Decidable c] (hx : Shares config s u x) (hy : Shares config s u y) :
    Shares config s u (if c then x else y) := by
  split
  · exact hx
  · exact hy

theorem Shares.orFail {ε : Type} (h : Renaming s u) (problem : ε → Problem) (r : Except ε α) :
    Shares config s u (Analysis.orFail problem r) := by
  cases r with
  | ok a => exact .pure a
  | error e => exact .fail h _

/-- What is done with a symbol does not depend on the name that it has in the flat program. -/
theorem Shares.lookup {name : String} {f : Option Symbol → Analysis α} (h : Renaming s u)
    (hf : ∀ x y, s.scopes.resolve? name = x → Option.Rel Symbol.Renames x y →
      f y = f x ∧ Shares config s u (f x)) :
    Shares config s u (resolve? name >>= f) := by
  obtain ⟨hsame, r, hs, hu⟩ := hf _ _ rfl (h.scopes name)
  refine ⟨r, hs, ?_⟩
  rw [run_bind, run_lookup]
  exact (congrFun (congrFun hsame config) u).trans hu

theorem Shares.resolve {name : String} {f : Symbol → Analysis α} (h : Renaming s u)
    (hf : ∀ x y, x.Renames y → f y = f x ∧ Shares config s u (f x)) :
    Shares config s u (Analysis.resolve name >>= f) := by
  unfold Analysis.resolve
  rw [bind_assoc]
  refine Shares.lookup h fun x y _ hxy => ?_
  cases hxy with
  | none => exact ⟨rfl, Shares.bind (.fail h _) fun x => (hf x x (.refl x)).2⟩
  | some hxy => exact hf _ _ hxy

end Rules

section Reading

theorem nameValue_shares (h : Renaming s u) (name : String) : Shares config s u (nameValue name) := by
  refine Shares.resolve h fun x y hxy => ?_
  rw [hxy.same]
  refine ⟨rfl, ?_⟩
  split
  · exact .pure _
  · exact .pure _
  · exact .pure _
  · exact .pure _
  · exact .pure _
  · exact .fail h _

theorem nameType_shares (h : Renaming s u) (name : String) : Shares config s u (nameType name) := by
  refine Shares.resolve h fun x y hxy => ?_
  rw [hxy.same]
  refine ⟨rfl, ?_⟩
  split
  · exact .pure _
  · exact .pure _
  · exact .fail h _

theorem functionValue_shares (h : Renaming s u) (f : String) (v : Option Value) :
    Shares config s u (functionValue f v) := by
  unfold functionValue
  split
  · exact .pure _
  · split
    · exact .fail h _
    · split
      · exact .pure _
      · exact .fail h _

theorem indexValue_shares (h : Renaming s u) (e : Expr) (v : Option Value) : Shares config s u (indexValue e v) := by
  unfold indexValue
  split
  · exact .pure _
  · exact .fail h _
  · exact .fail h _

theorem widthValue_shares (h : Renaming s u) (e : Expr) (v : Option Value) : Shares config s u (widthValue e v) := by
  unfold widthValue
  split
  · exact .ite (.fail h _) (.ite (.pure _) (.fail h _))
  · exact .fail h _
  · exact .fail h _

theorem checkWidth_shares (h : Renaming s u) (kind : SizedKind) (n : Nat) : Shares config s u (checkWidth kind n) := by
  cases kind with
  | int | uint => exact .ite (.fail h _) (.pure _)
  | float | complex => exact .ite (.pure _) (.fail h _)
  | angle | bit => exact .pure _

theorem unaryType_shares (h : Renaming s u) (op : UnaryOp) (t : ClassicalType) :
    Shares config s u (unaryType op t) := by
  cases op with
  | not | bitNot => exact .pure _
  | neg => exact .ite (.fail h _) (.pure _)

theorem itemsType_shares (h : Renaming s u) (t : ClassicalType) (items : List IndexItem) :
    Shares config s u (itemsType t items) := by
  induction items generalizing t with
  | nil => exact .pure _
  | cons item rest ih =>
    unfold itemsType
    split
    · exact ih _
    · exact .fail h _

end Reading

section Evaluating

mutual

/-- An evaluation has one result, whatever names the variables have got. -/
theorem fold_shares (h : Renaming s u) : ∀ e : Expr,
    s.scopes.Passive e.callees e.measures → Shares config s u (fold calls e)
  | .int _, _ => .ite (.pure _) (.fail h _)
  | .float _, _ | .imaginary _, _ | .bool _, _ | .duration _ _, _ | .constant _, _ => .pure _
  | .bits digits, _ => by
    simp only [fold]
    split
    · exact .pure _
    · exact .fail h _
  | .name n, _ => nameValue_shares h n
  | .unary op e, hq => by
    simp only [fold]
    refine (fold_shares h e hq).bind fun v => ?_
    split
    · exact (Shares.orFail h _ _).map
    · exact .pure _
  | .binary l op r, hq => by
    obtain ⟨hl, hr⟩ := Scopes.passive_append.1 hq
    simp only [fold]
    refine (fold_shares h l hl).bind fun left => ?_
    split
    · exact .pure _
    · refine (fold_shares h r hr).bind fun right => ?_
      split
      · exact (Shares.orFail h _ _).map
      · exact .pure _
  | .call f args, hq => by
    obtain ⟨hf, hargs⟩ := Scopes.passive_cons.1 hq
    have hfunction : Shares config s u (foldArgument calls f args >>= functionValue f) :=
      (foldArgument_shares h f args hargs).bind fun v => functionValue_shares h f v
    simp only [fold]
    refine Shares.lookup h fun x y hx hxy => ?_
    have hnone : x.bind Symbol.subroutine? = none := hx ▸ hf
    have hsame : y.bind Symbol.subroutine? = x.bind Symbol.subroutine? ∧ y.isSome = x.isSome := by
      cases hxy with
      | none => exact ⟨rfl, rfl⟩
      | some hxy =>
        rw [hxy.same]
        exact ⟨rfl, rfl⟩
    simp only [hsame, hnone]
    exact ⟨trivial, .ite hfunction (.ite (.fail h _) (.fail h _))⟩
  | .index base items, hq => by
    obtain ⟨hbase, hitems⟩ := Scopes.passive_append.1 hq
    simp only [fold]
    refine (infer_shares h base hbase).bind fun t => ?_
    exact (fold_shares h base hbase).bind fun v => foldItems_shares h t v items hitems
  | .cast type e, hq => by
    obtain ⟨htype, he⟩ := Scopes.passive_append.1 hq
    simp only [fold]
    refine (resolveType_shares h type htype).bind fun t => ?_
    refine (fold_shares h e he).bind fun v => ?_
    split
    · exact (Shares.orFail h _ _).map
    · exact .pure _
  | .array items, hq => by
    simp only [fold]
    exact (foldAll_shares h items hq).bind fun _ => .pure _
  | .measure _, _ => .fail h _
  | .paren e, hq => fold_shares h e hq

theorem foldAll_shares (h : Renaming s u) : ∀ es : List Expr,
    s.scopes.Passive (exprsCallees es) (exprsMeasure es) → Shares config s u (foldAll calls es)
  | [], _ => .pure _
  | e :: es, hq => by
    obtain ⟨he, hes⟩ := Scopes.passive_append.1 hq
    simp only [foldAll]
    refine (fold_shares h e he).bind fun v => ?_
    exact (foldAll_shares h es hes).bind fun _ => .pure _

theorem foldArgument_shares (h : Renaming s u) (f : String) : ∀ es : List Expr,
    s.scopes.Passive (exprsCallees es) (exprsMeasure es) → Shares config s u (foldArgument calls f es)
  | [], _ => .fail h _
  | [e], hq => fold_shares h e (Scopes.passive_append.1 hq).1
  | _ :: _ :: _, _ => .fail h _

theorem foldItems_shares (h : Renaming s u) :
    ∀ (t : ClassicalType) (v : Option Value) (items : List IndexItem),
      s.scopes.Passive (itemsCallees items) (itemsMeasure items) →
        Shares config s u (foldItems calls t v items)
  | _, _, [], _ => .pure _
  | t, v, item :: rest, hq => by
    obtain ⟨hitem, hrest⟩ := Scopes.passive_append.1 hq
    simp only [foldItems]
    split
    · exact .fail h _
    · refine (itemPositions_shares h _ item hitem).bind fun positions => ?_
      split
      · exact foldItems_shares h _ _ rest hrest
      · exact .fail h _

theorem itemPositions_shares (h : Renaming s u) (n : Nat) : ∀ item : IndexItem,
    s.scopes.Passive item.callees item.measures → Shares config s u (itemPositions calls n item)
  | .single e, hq => by
    simp only [itemPositions]
    refine (fold_shares h e hq).bind fun v => ?_
    refine (indexValue_shares h e v).bind fun i => ?_
    exact (Shares.orFail h _ _).bind fun _ => .pure _
  | .set items, hq => setPositions_shares h n items hq
  | .range r, hq => rangePositions_shares h n r hq

theorem setPositions_shares (h : Renaming s u) (n : Nat) : ∀ es : List Expr,
    s.scopes.Passive (exprsCallees es) (exprsMeasure es) → Shares config s u (setPositions calls n es)
  | [], _ => .pure _
  | e :: es, hq => by
    obtain ⟨he, hes⟩ := Scopes.passive_append.1 hq
    simp only [setPositions]
    refine (fold_shares h e he).bind fun v => ?_
    refine (indexValue_shares h e v).bind fun i => ?_
    refine (Shares.orFail h _ _).bind fun p => ?_
    exact (setPositions_shares h n es hes).bind fun _ => .pure _

theorem rangePositions_shares (h : Renaming s u) (n : Nat) : ∀ r : RangeExpr,
    s.scopes.Passive r.callees r.measures → Shares config s u (rangePositions calls n r)
  | ⟨start, step, stop⟩, hq => by
    obtain ⟨hends, hstop⟩ := Scopes.passive_append.1 hq
    obtain ⟨hstart, hstep⟩ := Scopes.passive_append.1 hends
    simp only [rangePositions]
    refine (rangePart_shares h start hstart).bind fun _ => ?_
    refine (rangePart_shares h step hstep).bind fun _ => ?_
    exact (rangePart_shares h stop hstop).bind fun _ => .orFail h _ _

theorem rangePart_shares (h : Renaming s u) : ∀ e : Option Expr,
    s.scopes.Passive (optionCallees e) (optionMeasures e) → Shares config s u (rangePart calls e)
  | none, _ => .pure _
  | some e, hq => by
    simp only [rangePart]
    refine (fold_shares h e hq).bind fun v => ?_
    exact (indexValue_shares h e v).bind fun _ => .pure _

theorem infer_shares (h : Renaming s u) : ∀ e : Expr,
    s.scopes.Passive e.callees e.measures → Shares config s u (infer calls e)
  | .int _, _ | .float _, _ | .constant _, _ | .imaginary _, _ | .bool _, _ | .bits _, _
  | .duration _ _, _ => .pure _
  | .name n, _ => nameType_shares h n
  | .unary op e, hq => by
    simp only [infer]
    exact (infer_shares h e hq).bind fun t => unaryType_shares h op t
  | .binary l op r, hq => by
    obtain ⟨hl, hr⟩ := Scopes.passive_append.1 hq
    simp only [infer]
    refine (infer_shares h l hl).bind fun t => ?_
    exact (infer_shares h r hr).bind fun u => .orFail h _ _
  | .call f args, hq => by
    obtain ⟨hf, hargs⟩ := Scopes.passive_cons.1 hq
    have hfunction : Shares config s u (inferAll calls args >>= fun _ => Pure.pure ClassicalType.defaultFloat) :=
      (inferAll_shares h args hargs).bind fun _ => .pure _
    simp only [infer]
    refine Shares.lookup h fun x y hx hxy => ?_
    -- The name is none of a subroutine, so it is one of the functions of the language or of nothing.
    cases hxy with
    | none => exact ⟨rfl, .ite hfunction (.fail h _)⟩
    | @some x y hxy =>
      have hnone : x.subroutine? = none := by
        unfold Scopes.subroutine? at hf
        rwa [hx] at hf
      rw [hxy.same]
      refine ⟨rfl, ?_⟩
      simp only [hnone]
      exact .fail h _
  | .index base items, hq => by
    obtain ⟨hbase, -⟩ := Scopes.passive_append.1 hq
    simp only [infer]
    exact (infer_shares h base hbase).bind fun t => itemsType_shares h t items
  | .cast type _, hq => resolveType_shares h type (Scopes.passive_append.1 hq).1
  | .array items, hq => by
    simp only [infer]
    exact (inferFirst_shares h items hq).bind fun _ => .pure _
  | .measure _, hq => absurd hq.2 nofun
  | .paren e, hq => infer_shares h e hq

theorem inferAll_shares (h : Renaming s u) : ∀ es : List Expr,
    s.scopes.Passive (exprsCallees es) (exprsMeasure es) → Shares config s u (inferAll calls es)
  | [], _ => .pure _
  | e :: es, hq => by
    obtain ⟨he, hes⟩ := Scopes.passive_append.1 hq
    simp only [inferAll]
    exact (infer_shares h e he).bind fun _ => inferAll_shares h es hes

theorem inferFirst_shares (h : Renaming s u) : ∀ es : List Expr,
    s.scopes.Passive (exprsCallees es) (exprsMeasure es) → Shares config s u (inferFirst calls es)
  | [], _ => .pure _
  | e :: _, hq => infer_shares h e (Scopes.passive_append.1 hq).1

theorem resolveType_shares (h : Renaming s u) : ∀ t : TypeExpr,
    s.scopes.Passive t.callees t.measures → Shares config s u (resolveType calls t)
  | .bool, _ | .duration, _ | .stretch, _ | .sized _ none, _ => .pure _
  | .sized kind (some e), hq => by
    simp only [resolveType]
    refine (fold_shares h e hq).bind fun v => ?_
    refine (widthValue_shares h e v).bind fun n => ?_
    exact (checkWidth_shares h kind n).bind fun _ => .pure _
  | .array element dims, hq => by
    obtain ⟨helement, hdims⟩ := Scopes.passive_append.1 hq
    simp only [resolveType]
    refine (resolveType_shares h element helement).bind fun t => ?_
    exact .ite (.fail h _) ((resolveWidths_shares h dims hdims).bind fun _ => .pure _)

theorem resolveWidths_shares (h : Renaming s u) : ∀ es : List Expr,
    s.scopes.Passive (exprsCallees es) (exprsMeasure es) → Shares config s u (resolveWidths calls es)
  | [], _ => .pure _
  | e :: es, hq => by
    obtain ⟨he, hes⟩ := Scopes.passive_append.1 hq
    simp only [resolveWidths]
    refine (fold_shares h e he).bind fun v => ?_
    refine (widthValue_shares h e v).bind fun n => ?_
    exact (resolveWidths_shares h es hes).bind fun _ => .pure _

end

end Evaluating

section Rewriting

variable {e r : Expr}

theorem runtimeName_renaming {name emitName : String} (h : runtimeName name config s = (.ok emitName, t)) :
    Renaming s t := by
  refine ⟨(runtimeName_renames h).1, ?_⟩
  obtain ⟨x, s', hresolve, hrest⟩ := run_bind_eq_ok.1 h
  obtain ⟨-, rfl⟩ := resolve_eq_ok hresolve
  rcases hname : x.emitName with - | m
  · simp only [hname] at hrest
    by_cases hkind : x.kind = .classicalVariable
    · rw [if_pos hkind] at hrest
      obtain ⟨y, registers, declarations, -, rfl⟩ := materialize_eq_ok hrest
      rfl
    · rw [if_neg hkind] at hrest
      nomatch hrest
  · rw [hname] at hrest
    cases hrest
    rfl

/-- Either the value is known, so that nothing is to be named, or the parts are rewritten. -/
theorem renaming_or_parts (hq : s.scopes.Passive e.callees e.measures)
    (h : residualize calls e config s = (.ok r, t)) :
    t = s ∨ residualizeParts calls e config s = (.ok r, t) := by
  obtain ⟨v, hv, -⟩ | ⟨u, hu, hparts⟩ := residualize_cases h
  · exact Or.inl (passive_still hq (some v) t hv)
  · cases passive_still hq none u hu
    exact Or.inr hparts

mutual

/-- Rewriting an expression gives names to variables and changes nothing else that an evaluation looks at. -/
theorem residualize_renaming : ∀ (e : Expr) {r : Expr} {s t : State},
    s.scopes.Passive e.callees e.measures → residualize calls e config s = (.ok r, t) → Renaming s t
  | .name n, r, s, t, hq, h => by
    rcases renaming_or_parts hq h with rfl | h
    · exact .refl _
    obtain ⟨emitName, u, hname, hresult⟩ := run_bind_eq_ok.1 h
    cases hresult
    exact runtimeName_renaming hname
  | .unary op e, r, s, t, hq, h => by
    rcases renaming_or_parts hq h with rfl | h
    · exact .refl _
    obtain ⟨r', u, hr', hresult⟩ := run_bind_eq_ok.1 h
    cases hresult
    exact residualize_renaming e hq hr'
  | .paren e, r, s, t, hq, h => by
    rcases renaming_or_parts hq h with rfl | h
    · exact .refl _
    obtain ⟨r', u, hr', hresult⟩ := run_bind_eq_ok.1 h
    cases hresult
    exact residualize_renaming e hq hr'
  | .binary l op r, _, s, t, hq, h => by
    rcases renaming_or_parts hq h with rfl | h
    · exact .refl _
    obtain ⟨hl, hr⟩ := Scopes.passive_append.1 hq
    obtain ⟨l', u, hl', hrest⟩ := run_bind_eq_ok.1 h
    obtain ⟨r', u', hr', hresult⟩ := run_bind_eq_ok.1 hrest
    cases hresult
    have hleft := residualize_renaming l hl hl'
    exact hleft.trans (residualize_renaming r (hleft.scopes.refines.passive hr) hr')
  | .call f args, r, s, t, hq, h => by
    rcases renaming_or_parts hq h with rfl | h
    · exact .refl _
    obtain ⟨args', u, hargs', hresult⟩ := run_bind_eq_ok.1 h
    cases hresult
    exact residualizeAll_renaming args (Scopes.passive_cons.1 hq).2 hargs'
  | .index base items, r, s, t, hq, h => by
    rcases renaming_or_parts hq h with rfl | h
    · exact .refl _
    -- The indices are evaluated only, so that names are given in the base.
    obtain ⟨_, _, _, -, -, hbase', -⟩ := residualizeParts_index hq h
    exact residualize_renaming base (Scopes.passive_append.1 hq).1 hbase'
  | .cast type e, r, s, t, hq, h => by
    rcases renaming_or_parts hq h with rfl | h
    · exact .refl _
    obtain ⟨htype, he⟩ := Scopes.passive_append.1 hq
    obtain ⟨t', u, ht', hrest⟩ := run_bind_eq_ok.1 h
    -- So are the widths in the type.
    cases (resolveType_carries (Scopes.Refines.refl _) type htype t' u ht').1
    obtain ⟨r', u', hr', hresult⟩ := run_bind_eq_ok.1 hrest
    cases hresult
    exact residualize_renaming e he hr'
  | .array items, r, s, t, hq, h => by
    rcases renaming_or_parts hq h with rfl | h
    · exact .refl _
    obtain ⟨items', u, hitems', hresult⟩ := run_bind_eq_ok.1 h
    cases hresult
    exact residualizeAll_renaming items hq hitems'
  | .int _, _, _, _, hq, h | .float _, _, _, _, hq, h | .imaginary _, _, _, _, hq, h
  | .bool _, _, _, _, hq, h | .bits _, _, _, _, hq, h | .duration _ _, _, _, _, hq, h
  | .constant _, _, _, _, hq, h | .measure _, _, _, _, hq, h => by
    rcases renaming_or_parts hq h with rfl | h
    · exact .refl _
    · cases h
      exact .refl _

theorem residualizeAll_renaming : ∀ (es : List Expr) {rs : List Expr} {s t : State},
    s.scopes.Passive (exprsCallees es) (exprsMeasure es) → residualizeAll calls es config s = (.ok rs, t) →
      Renaming s t
  | [], _, _, _, _, h => by
    cases h
    exact .refl _
  | e :: es, _, s, t, hq, h => by
    obtain ⟨he, hes⟩ := Scopes.passive_append.1 hq
    rw [residualizeAll] at h
    obtain ⟨r, u, hr, hrest⟩ := run_bind_eq_ok.1 h
    obtain ⟨rs, u', hrs, hresult⟩ := run_bind_eq_ok.1 hrest
    cases hresult
    have hfirst := residualize_renaming e he hr
    exact hfirst.trans (residualizeAll_renaming es (hfirst.scopes.refines.passive hes) hrs)

end

end Rewriting

end Analysis
end OpenQasm
