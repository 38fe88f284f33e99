import OpenQasm.Proofs.PartialEvaluation
import OpenQasm.Proofs.TandemEvaluation

/-!
Parameters of gates in tandem. What is left of an expression for the flat program is the same in both runs, and
so are the names that variables get there; what has other names in the second run has a known value, which is
written out.
-/
namespace OpenQasm

namespace Analysis

variable {α : Type} {L : Link} {config : Config} {calls : Calls} {s t : State}

section Naming

variable {n : String} {x y : Symbol}

/-- A variable gets the same name in the flat program in both runs. -/
theorem materialize_tandem (hL : L.Sound) (hst : Linked L s t) (hx : s.scopes.resolve? n = some x)
    (hy : t.scopes.resolve? n = some y) (hxy : x.Wired L.wiring y) (hkind : x.kind = .classicalVariable) :
    Outcome L Eq (materialize n config s) (materialize n config t) := by
  have hnames {s' t' : State} (hst' : Linked L s' t') (hs : s'.scopes = s.scopes) (ht : t'.scopes = t.scopes)
      (m : String) : Outcome L Eq
        ((modifySymbol n (fun z => { z with emitName := some m }) >>= fun _ => pure m) config s')
        ((modifySymbol n (fun z => { z with emitName := some m }) >>= fun _ => pure m) config t') := by
    have hscopes := hL.names m hst'.scopes (hs.symm ▸ hx) (ht.symm ▸ hy) hxy hkind
    refine .ok rfl ⟨?_, hscopes, hst'.registers⟩
    dsimp only
    rw [hst'.rest]
    rfl
  unfold materialize
  rw [resolve_bind hx, resolve_bind hy, hxy.type, hxy.value, hxy.kind]
  cases x.type with
  | none => exact .fail hst fun _ => .same _
  | some u =>
    dsimp only
    refine ((hoist_blind n u).tandem s t hst).bind fun m _ s' t' hs ht hm hst' => ?_
    cases hm
    have hs' := (hoist_blind n u).scopes_eq hs
    have ht' := (hoist_blind n u).scopes_eq ht
    cases x.value with
    | none => exact hnames hst' hs' ht' m
    | some v =>
      refine ((emit_blind _).tandem s' t' hst').bind fun _ _ s'' t'' hs ht _ hst'' => ?_
      exact hnames hst'' (((emit_blind _).scopes_eq hs).trans hs') (((emit_blind _).scopes_eq ht).trans ht') m

theorem runtimeName_tandem (hL : L.Sound) (hst : Linked L s t) (hx : s.scopes.resolve? n = some x)
    (hy : t.scopes.resolve? n = some y) (hxy : x.Wired L.wiring y) :
    Outcome L Eq (runtimeName n config s) (runtimeName n config t) := by
  unfold runtimeName
  rw [resolve_bind hx, resolve_bind hy, hxy.emitName, hxy.kind]
  cases x.emitName with
  | some m => exact .ok rfl hst
  | none =>
    dsimp only
    split
    · next hkind => exact materialize_tandem hL hst hx hy hxy hkind
    · exact .fail hst fun _ => .same _

end Naming

section Residuals

mutual

/-- Where no subroutine is called, none is seen to be called. -/
theorem callsSubroutine_of_silent {scopes : Scopes} : ∀ e : Expr, scopes.Silent e.callees →
    callsSubroutine scopes e = false
  | .call f args, he => by
    obtain ⟨hf, hargs⟩ := Scopes.silent_cons.1 he
    unfold Scopes.subroutine? at hf
    rw [callsSubroutine, hf, anyCallsSubroutine_of_silent args hargs]
    rfl
  | .unary _ e, he | .paren e, he | .measure e, he => callsSubroutine_of_silent e he
  | .cast _ e, he => callsSubroutine_of_silent e (Scopes.silent_append.1 he).2
  | .binary l _ r, he => by
    obtain ⟨hl, hr⟩ := Scopes.silent_append.1 he
    rw [callsSubroutine, callsSubroutine_of_silent l hl, callsSubroutine_of_silent r hr]
    rfl
  | .index base _, he => callsSubroutine_of_silent base (Scopes.silent_append.1 he).1
  | .array items, he => anyCallsSubroutine_of_silent items he
  | .int _, _ | .float _, _ | .imaginary _, _ | .bool _, _ | .bits _, _ | .duration _ _, _ | .name _, _
  | .constant _, _ => rfl

theorem anyCallsSubroutine_of_silent {scopes : Scopes} : ∀ es : List Expr, scopes.Silent (exprsCallees es) →
    anyCallsSubroutine scopes es = false
  | [], _ => rfl
  | e :: es, he => by
    obtain ⟨he, hes⟩ := Scopes.silent_append.1 he
    rw [anyCallsSubroutine, callsSubroutine_of_silent e he, anyCallsSubroutine_of_silent es hes]
    rfl

end

theorem Linked.silent (hL : L.Sound) (hst : Linked L s t) {callees : List String} (h : L.Allows callees) :
    s.scopes.Silent callees ∧ t.scopes.Silent callees :=
  ⟨fun f hf => (hL.calls hst.scopes (h f hf)).1, fun f hf => (hL.calls hst.scopes (h f hf)).2.1⟩

theorem foldLiteral?_run {e : Expr} (h : s.scopes.Silent e.callees) :
    foldLiteral? calls e config s = (fold calls e >>= fun v => pure (v.map Value.toExpr)) config s := by
  rw [foldLiteral?, run_get, callsSubroutine_of_silent e h]
  rfl

theorem foldLiteral?_tandem (hL : L.Sound) (config : Config) (calls : Calls) (e : Expr) (he : L.Allows e.callees) :
    Tandem L config Eq (foldLiteral? calls e) (foldLiteral? calls (e.rename L.name)) := by
  intro s t hst
  obtain ⟨hs, ht⟩ := hst.silent hL he
  rw [foldLiteral?_run hs, foldLiteral?_run (by rwa [Expr.callees_rename])]
  exact (fold_tandem hL e he).bindSame (fun _ => .pure rfl) s t hst

theorem literalItems_tandem (hL : L.Sound) (n : Nat) (items : List IndexItem) (h : L.Allows (itemsCallees items)) :
    Tandem L config Eq (literalItems calls n items) (literalItems calls n (itemsRename L.name items)) := by
  induction items with
  | nil => exact .pure rfl
  | cons item rest ih =>
    obtain ⟨hitem, hrest⟩ := Link.allows_append.1 h
    simp only [literalItems, itemsRename, isSingle_rename]
    refine (itemPositions_tandem hL n item hitem).bindSame fun positions => ?_
    exact (ih hrest).bindSame fun _ => .pure rfl

/-- A name without a value stands for something that is not equal to anything. -/
theorem foldLiteral?_name {n : String} (h : foldLiteral? calls (.name n) config s = (.ok none, t)) :
    t = s ∧ ∃ x, s.scopes.resolve? n = some x ∧ ∀ y, ¬x.Equals y := by
  rw [foldLiteral?_run (e := .name n) fun _ hf => nomatch hf] at h
  obtain ⟨v, u, hv, hr⟩ := run_bind_eq_ok.1 h
  obtain rfl := passive_still (e := .name n) ⟨fun _ hf => (nomatch hf), rfl⟩ v u hv
  obtain ⟨x, u', hx, hvalue⟩ := run_bind_eq_ok.1 hv
  obtain ⟨hx, rfl⟩ := resolve_eq_ok hx
  cases v with
  | some v => nomatch hr
  | none =>
    cases hr
    refine ⟨rfl, x, hx, fun y hequals => ?_⟩
    obtain ⟨v, hvalue', -⟩ := hequals.value
    rw [hequals.bindings.1, hequals.kinds.1, hvalue'] at hvalue
    nomatch hvalue

/-- What has another name in the second run is written out. -/
theorem residualize_name_tandem (hL : L.Sound) (n : String) :
    Tandem L config Eq (residualize calls (.name n)) (residualize calls (.name (L.name n))) := by
  intro s t hst
  have hliteral := foldLiteral?_tandem hL config calls (.name n) (fun _ hf => nomatch hf) s t hst
  simp only [residualize]
  refine hliteral.bind fun a b s' t' hs ht hab hst' => ?_
  cases hab
  cases a with
  | some e => exact .ok rfl hst'
  | none =>
    obtain ⟨rfl, x, hx, hunequal⟩ := foldLiteral?_name hs
    obtain ⟨rfl, -⟩ := foldLiteral?_name ht
    obtain ⟨y, hy, ⟨hn, hxy⟩ | hequals⟩ := hL.found hst.scopes hx
    · rw [hn] at hy ⊢
      exact (runtimeName_tandem hL hst hx hy hxy).bind fun _ _ _ _ _ _ hm hst' => .ok (hm ▸ rfl) hst'
    · exact absurd hequals (hunequal y)

mutual

/-- What is left of an expression is the same in both runs. -/
theorem residualize_tandem (hL : L.Sound) : ∀ e : Expr, L.Allows e.callees →
    Tandem L config Eq (residualize calls e) (residualize calls (e.rename L.name))
  | .name n, _ => residualize_name_tandem hL n
  | .unary op e, he => by
    have hliteral := foldLiteral?_tandem hL config calls (.unary op e) he
    simp only [residualize, Expr.rename] at hliteral ⊢
    refine hliteral.bindSame fun literal => ?_
    split
    · exact .pure rfl
    · exact (residualize_tandem hL e he).bindSame fun _ => .pure rfl
  | .binary l op r, he => by
    have hliteral := foldLiteral?_tandem hL config calls (.binary l op r) he
    obtain ⟨hl, hr⟩ := Link.allows_append.1 he
    simp only [residualize, Expr.rename] at hliteral ⊢
    refine hliteral.bindSame fun literal => ?_
    split
    · exact .pure rfl
    · refine (residualize_tandem hL l hl).bindSame fun _ => ?_
      exact (residualize_tandem hL r hr).bindSame fun _ => .pure rfl
  | .call f args, he => by
    have hliteral := foldLiteral?_tandem hL config calls (.call f args) he
    simp only [residualize, Expr.rename] at hliteral ⊢
    refine hliteral.bindSame fun literal => ?_
    split
    · exact .pure rfl
    · exact (residualizeAll_tandem hL args (Link.allows_cons.1 he).2).bindSame fun _ => .pure rfl
  | .index base items, he => by
    have hliteral := foldLiteral?_tandem hL config calls (.index base items) he
    obtain ⟨hbase, hitems⟩ := Link.allows_append.1 he
    simp only [residualize, Expr.rename] at hliteral ⊢
    refine hliteral.bindSame fun literal => ?_
    split
    · exact .pure rfl
    · refine (infer_tandem hL base hbase).bindSame fun t => ?_
      refine (literalItems_tandem hL _ items hitems).bindSame fun _ => ?_
      exact (residualize_tandem hL base hbase).bindSame fun _ => .pure rfl
  | .cast type e, he => by
    have hliteral := foldLiteral?_tandem hL config calls (.cast type e) he
    obtain ⟨htype, he⟩ := Link.allows_append.1 he
    simp only [residualize, Expr.rename] at hliteral ⊢
    refine hliteral.bindSame fun literal => ?_
    split
    · exact .pure rfl
    · refine (resolveType_tandem hL type htype).bindSame fun t => ?_
      exact (residualize_tandem hL e he).bindSame fun _ => .pure rfl
  | .array items, he => by
    have hliteral := foldLiteral?_tandem hL config calls (.array items) he
    simp only [residualize, Expr.rename] at hliteral ⊢
    refine hliteral.bindSame fun literal => ?_
    split
    · exact .pure rfl
    · exact (residualizeAll_tandem hL items he).bindSame fun _ => .pure rfl
  | .paren e, he => by
    have hliteral := foldLiteral?_tandem hL config calls (.paren e) he
    simp only [residualize, Expr.rename] at hliteral ⊢
    refine hliteral.bindSame fun literal => ?_
    split
    · exact .pure rfl
    · exact (residualize_tandem hL e he).bindSame fun _ => .pure rfl
  | .measure e, he => fun s t hst => by
    -- A measurement has no value, so that its text is not needed.
    refine (foldLiteral?_tandem hL config calls (.measure e) he s t hst).bind fun _ _ _ _ hs _ _ _ => ?_
    rw [foldLiteral?_run (hst.silent hL he).1] at hs
    obtain ⟨_, _, hmeasured, -⟩ := run_bind_eq_ok.1 hs
    nomatch hmeasured
  | .int n, he => (foldLiteral?_tandem hL config calls (.int n) he).bindSame fun _ => .pure rfl
  | .float x, he => (foldLiteral?_tandem hL config calls (.float x) he).bindSame fun _ => .pure rfl
  | .imaginary x, he => (foldLiteral?_tandem hL config calls (.imaginary x) he).bindSame fun _ => .pure rfl
  | .bool b, he => (foldLiteral?_tandem hL config calls (.bool b) he).bindSame fun _ => .pure rfl
  | .bits digits, he => (foldLiteral?_tandem hL config calls (.bits digits) he).bindSame fun _ => .pure rfl
  | .duration x u, he => (foldLiteral?_tandem hL config calls (.duration x u) he).bindSame fun _ => .pure rfl
  | .constant c, he => (foldLiteral?_tandem hL config calls (.constant c) he).bindSame fun _ => .pure rfl

theorem residualizeAll_tandem (hL : L.Sound) : ∀ es : List Expr, L.Allows (exprsCallees es) →
    Tandem L config Eq (residualizeAll calls es) (residualizeAll calls (exprsRename L.name es))
  | [], _ => .pure rfl
  | e :: es, he => by
    obtain ⟨he, hes⟩ := Link.allows_append.1 he
    simp only [residualizeAll, exprsRename]
    refine (residualize_tandem hL e he).bindSame fun _ => ?_
    exact (residualizeAll_tandem hL es hes).bindSame fun _ => .pure rfl

end

end Residuals

section Parameters

theorem parameterLeaf_tandem (hL : L.Sound) (config : Config) (calls : Calls) (e : Expr) (he : L.Allows e.callees) :
    Tandem L config Eq (parameterLeaf calls e) (parameterLeaf calls (e.rename L.name)) := by
  refine (fold_tandem hL e he).bindSame fun v => ?_
  split
  · split
    · exact .pure rfl
    · exact .fail _
  · refine (residualize_tandem hL e he).bindSame fun shown => ?_
    split
    · exact .pure rfl
    · exact .pure rfl

/-- Parameters that gates are called with are the same in both runs. -/
theorem boundParameter?_tandem (hL : L.Sound) (n : String) :
    Tandem L config Eq (boundParameter? n) (boundParameter? (L.name n)) := by
  intro s t hst
  unfold boundParameter?
  rw [lookup_bind, lookup_bind]
  rcases hx : s.scopes.resolve? n with - | x
  · rcases hy : t.scopes.resolve? (L.name n) with - | y
    · exact .ok rfl hst
    · rw [Option.map_some, (hL.missing hst.scopes hx hy).2]
      exact .ok rfl hst
  · obtain ⟨y, hy, ⟨-, hxy⟩ | hequals⟩ := hL.found hst.scopes hx
    · rw [hy]
      cases hxy with
      | same _ =>
        rw [Option.map_some]
        cases x.binding <;> exact .ok rfl hst
      | qubits hx _ =>
        rw [Option.map_some, Option.map_some, hx]
        exact .ok rfl hst
    · rw [hy, Option.map_some, Option.map_some, hequals.bindings.1, hequals.bindings.2]
      exact .ok rfl hst

mutual

theorem parameterTree_tandem (hL : L.Sound) : ∀ e : Expr, L.Allows e.callees →
    Tandem L config Eq (parameterTree calls e) (parameterTree calls (e.rename L.name))
  | .constant c, he => by
    cases c with
    | pi => exact .pure rfl
    | tau | euler => exact parameterLeaf_tandem hL config calls _ he
  | .name n, he => by
    simp only [parameterTree, Expr.rename]
    refine (boundParameter?_tandem hL n).bindSame fun p => ?_
    split
    · exact .pure rfl
    · exact parameterLeaf_tandem hL config calls (.name n) he
  | .paren e, he => parameterTree_tandem hL e he
  | .unary op e, he => by
    cases op with
    | neg => exact (parameterTree_tandem hL e he).bindSame fun _ => .pure rfl
    | not => exact parameterLeaf_tandem hL config calls (.unary .not e) he
    | bitNot => exact parameterLeaf_tandem hL config calls (.unary .bitNot e) he
  | .binary l op r, he => by
    obtain ⟨hl, hr⟩ := Link.allows_append.1 he
    simp only [parameterTree, Expr.rename]
    split
    · refine (parameterTree_tandem hL l hl).bindSame fun a => ?_
      exact (parameterTree_tandem hL r hr).bindSame fun _ => .pure rfl
    · exact parameterLeaf_tandem hL config calls (.binary l op r) he
  | .call f args, he => by
    obtain ⟨hf, hargs⟩ := Link.allows_cons.1 he
    have hleaf := parameterLeaf_tandem hL config calls (.call f args) he
    have honly : Tandem L config Eq
        (onlyParameter calls args >>= fun p => match p with
          | some p => pure (ParamExpr.function f p)
          | none => parameterLeaf calls (.call f args))
        (onlyParameter calls (exprsRename L.name args) >>= fun p => match p with
          | some p => pure (ParamExpr.function f p)
          | none => parameterLeaf calls (.call f (exprsRename L.name args))) := by
      refine (onlyParameter_tandem hL args hargs).bindSame fun p => ?_
      split
      · exact .pure rfl
      · exact hleaf
    intro s t hst
    have hnone : (t.scopes.resolve? f).isNone = (s.scopes.resolve? f).isNone := by
      rw [← Option.not_isSome, ← Option.not_isSome, (hL.calls hst.scopes hf).2.2]
    simp only [parameterTree, Expr.rename]
    rw [lookup_bind, lookup_bind, hnone]
    exact Tandem.ite honly hleaf s t hst
  | .int n, he => parameterLeaf_tandem hL config calls (.int n) he
  | .float x, he => parameterLeaf_tandem hL config calls (.float x) he
  | .imaginary x, he => parameterLeaf_tandem hL config calls (.imaginary x) he
  | .bool b, he => parameterLeaf_tandem hL config calls (.bool b) he
  | .bits digits, he => parameterLeaf_tandem hL config calls (.bits digits) he
  | .duration x u, he => parameterLeaf_tandem hL config calls (.duration x u) he
  | .index base items, he => parameterLeaf_tandem hL config calls (.index base items) he
  | .cast type e, he => parameterLeaf_tandem hL config calls (.cast type e) he
  | .array items, he => parameterLeaf_tandem hL config calls (.array items) he
  | .measure e, he => parameterLeaf_tandem hL config calls (.measure e) he

theorem onlyParameter_tandem (hL : L.Sound) : ∀ es : List Expr, L.Allows (exprsCallees es) →
    Tandem L config Eq (onlyParameter calls es) (onlyParameter calls (exprsRename L.name es))
  | [e], he => (parameterTree_tandem hL e (Link.allows_append.1 he).1).bindSame fun _ => .pure rfl
  | [], _ | _ :: _ :: _, _ => .pure rfl

end

/-- The parameters that an expression stands for are the same in both runs. -/
theorem toParameter_tandem (hL : L.Sound) (e : Expr) (he : L.Allows e.callees) :
    Tandem L config Eq (toParameter calls e) (toParameter calls (e.rename L.name)) :=
  (parameterTree_tandem hL e he).bindSame fun _ => .pure rfl

end Parameters

end Analysis
end OpenQasm
