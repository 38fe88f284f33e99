import OpenQasm.Proofs.Tandem

/-!
Expressions in tandem. Where names stand for corresponding things, an expression and the one that reads the
other names have the same value, the same type, corresponding views and the same text in the flat program. No
subroutine is called in them.
-/
namespace OpenQasm

/-- The names of what is called may be called. -/
def Link.Allows (L : Link) (callees : List String) : Prop := ∀ f ∈ callees, L.Callable f

namespace Link

variable {L : Link} {f : String} {xs ys : List String}

theorem allows_append : L.Allows (xs ++ ys) ↔ L.Allows xs ∧ L.Allows ys := List.forall_mem_append

theorem allows_cons : L.Allows (f :: xs) ↔ L.Callable f ∧ L.Allows xs := List.forall_mem_cons

end Link

/-- An index names corresponding qubits of two views, or none of either. -/
theorem Wiring.resolve (W : Wiring) {r : Registers} {v w : View} (hr : W.At r) (h : W.view v w) (i : Int) :
    (∃ e, r.resolve v i = .error e ∧ r.resolve w i = .error e) ∨
      ∃ q, r.resolve v i = .ok q ∧ r.resolve w i = .ok (W.qubit q) ∧ W.Declared q := by
  have hlength := W.length h
  rcases hk : Index.normalize i v.length with e | k
  · refine Or.inl ⟨e, ?_, ?_⟩
    · rw [Registers.resolve, hk]
      rfl
    · rw [Registers.resolve, hlength, hk]
      rfl
  · have hk' : Index.normalize i w.length = .ok k := hlength ▸ hk
    rcases hq : (r.physical v)[k]? with - | q
    · have hq' : (r.physical w)[k]? = none := by rw [W.physical hr h, List.getElem?_map, hq]; rfl
      rw [Registers.getElem?_physical, Option.map_eq_none_iff] at hq hq'
      refine Or.inl ⟨.outOfRange i v.length, ?_, ?_⟩
      · rw [Registers.resolve, hk]
        dsimp only [bind, Except.bind]
        rw [hq]
      · rw [Registers.resolve, hk', hlength]
        dsimp only [bind, Except.bind]
        rw [hq']
    · have hq' : (r.physical w)[k]? = some (W.qubit q) := by rw [W.physical hr h, List.getElem?_map, hq]; rfl
      exact Or.inr ⟨q, Registers.resolve_eq hk hq, Registers.resolve_eq hk' hq',
        W.declared hr h q (List.mem_of_getElem? hq)⟩

/-- Corresponding registers, aliases or parts of one; those of bits are the same. -/
inductive Wiring.Located (W : Wiring) : RegisterKind × View → RegisterKind × View → Prop
  | quantum {v w : View} : W.view v w → Located W (.quantum, v) (.quantum, w)
  | classical (v : View) : Located W (.classical, v) (.classical, v)

namespace Wiring.Located

variable {W : Wiring} {kind kind' : RegisterKind} {v w : View}

theorem length (h : W.Located (kind, v) (kind', w)) : w.length = v.length := by
  cases h with
  | quantum h => exact W.length h
  | classical => rfl

theorem pick (h : W.Located (kind, v) (kind, w)) (positions : List Nat) :
    W.Located (kind, v.pick positions) (kind, w.pick positions) := by
  cases h with
  | quantum h => exact .quantum (W.pick positions h)
  | classical => exact .classical _

end Wiring.Located

namespace Analysis

variable {α β : Type} {L : Link} {config : Config} {calls : Calls} {Q : α → β → Prop} {s t : State}

section Lookup

theorem Tandem.resolve (hL : L.Sound) {n : String} {f : Symbol → Analysis α} {g : Symbol → Analysis β}
    (h : ∀ x y, L.Matches n x y → Tandem L config Q (f x) (g y)) :
    Tandem L config Q (Analysis.resolve n >>= f) (Analysis.resolve (L.name n) >>= g) := by
  intro s t hst
  unfold Analysis.resolve
  rw [bind_assoc, bind_assoc, lookup_bind, lookup_bind]
  rcases hx : s.scopes.resolve? n with - | x
  · by_cases hstrict : L.Strict
    · have hy : t.scopes.resolve? (L.name n) = none :=
        Option.eq_none_iff_forall_ne_some.2 fun y hy => (hL.missing hst.scopes hx hy).1 hstrict
      rw [hy, hL.name_id hstrict]
      exact (Outcome.fail (Q := Eq) hst fun _ => .same _).bind fun _ _ _ _ h => nomatch h
    · exact .lost _ hstrict
  · obtain ⟨y, hy, hxy⟩ := hL.found hst.scopes hx
    rw [hy]
    exact h x y hxy s t hst

theorem nameValue_tandem (hL : L.Sound) (n : String) :
    Tandem L config Eq (nameValue n) (nameValue (L.name n)) := by
  refine .resolve hL fun x y hxy => ?_
  obtain ⟨hn, hwired⟩ | hequals := hxy
  · rw [hn]
    cases hwired with
    | same _ => split <;> first | exact .pure rfl | exact .fail _
    | qubits hx _ =>
      dsimp only
      rw [hx]
      cases x.kind <;> first | exact .pure rfl | exact .fail _
  · obtain ⟨v, hv, hv'⟩ := hequals.value
    rw [hequals.bindings.1, hequals.bindings.2, hequals.kinds.1, hequals.kinds.2, hv, hv']
    exact .pure rfl

theorem nameType_tandem (hL : L.Sound) (n : String) :
    Tandem L config Eq (nameType n) (nameType (L.name n)) := by
  refine .resolve hL fun x y hxy => ?_
  obtain ⟨hn, hwired⟩ | hequals := hxy
  · rw [hn]
    cases hwired with
    | same _ => split <;> first | exact .pure rfl | exact .fail _
    | qubits hx _ =>
      dsimp only
      rw [hx]
      cases x.type <;> first | exact .pure rfl | exact .fail _
  · rw [hequals.bindings.1, hequals.bindings.2, hequals.kinds.1, hequals.kinds.2, hequals.type]
    cases x.type
    · exact .failRenamed fun hstrict => by rw [hL.name_id hstrict]
    · exact .pure rfl

theorem nameView_tandem (hL : L.Sound) (n : String) :
    Tandem L config L.wiring.Located (nameView n) (nameView (L.name n)) := by
  refine .resolve hL fun x y hxy => ?_
  obtain ⟨hn, hwired⟩ | hequals := hxy
  · rw [hn]
    cases hwired with
    | same hx =>
      split
      · next v hv => exact absurd hv (hx v)
      · exact .pure (.classical _)
      · exact .fail _
    | qubits hx hvw =>
      dsimp only
      rw [hx]
      exact .pure (.quantum hvw)
  · rw [hequals.bindings.1, hequals.bindings.2]
    exact .failRenamed fun hstrict => by rw [hL.name_id hstrict]

theorem elementView_tandem {kind : RegisterKind} {v w : View} (h : L.wiring.Located (kind, v) (kind, w))
    (i : Int) : Tandem L config (fun a b => L.wiring.Located (kind, a) (kind, b)) (elementView kind v i)
      (elementView kind w i) := by
  intro s t hst
  rw [elementView, elementView, run_get, run_get, hst.registers_eq]
  cases h with
  | quantum hvw =>
    obtain ⟨e, hv, hw⟩ | ⟨q, hv, hw, hq⟩ := L.wiring.resolve hst.registers hvw i
    · rw [hv, hw]
      exact .fail hst fun _ => .same _
    · rw [hv, hw, L.wiring.length hvw]
      have helement := L.wiring.element hst.registers hq
      dsimp only
      generalize s.registers.elementView? .quantum q = a at helement ⊢
      generalize s.registers.elementView? .quantum (L.wiring.qubit q) = b at helement ⊢
      cases helement with
      | none => exact .fail hst fun _ => .same _
      | some hab => exact .ok (.quantum hab) hst
  | classical =>
    cases s.registers.resolve v i with
    | error e => exact .fail hst fun _ => .same _
    | ok p =>
      dsimp only
      cases s.registers.elementView? .classical p with
      | none => exact .fail hst fun _ => .same _
      | some a => exact .ok (.classical _) hst

theorem physical_tandem {v w : View} (h : L.wiring.view v w) :
    Tandem L config (fun qs rs => (∀ q ∈ qs, L.wiring.Declared q) ∧ rs = qs.map L.wiring.qubit)
      (physical v) (physical w) := fun s t hst => by
  have hphysical := L.wiring.physical hst.registers h
  rw [← hst.registers_eq] at hphysical
  exact .ok ⟨L.wiring.declared hst.registers h, hst.registers_eq ▸ hphysical⟩ hst

end Lookup

section Results

theorem functionValue_tandem (f : String) (v : Option Value) :
    Tandem L config Eq (functionValue f v) (functionValue f v) := by
  unfold functionValue
  split
  · exact .pure rfl
  · split
    · exact .fail _
    · split
      · exact .pure rfl
      · exact .fail _

theorem indexValue_tandem (hL : L.Sound) (e : Expr) (v : Option Value) :
    Tandem L config Eq (indexValue e v) (indexValue (e.rename L.name) v) := by
  unfold indexValue
  split
  · exact .pure rfl
  · exact .fail _
  · exact .failRenamed fun hstrict => by rw [e.rename_id (hL.name_id hstrict)]

theorem widthValue_tandem (hL : L.Sound) (e : Expr) (v : Option Value) :
    Tandem L config Eq (widthValue e v) (widthValue (e.rename L.name) v) := by
  unfold widthValue
  split
  · exact .ite (.fail _) (.ite (.pure rfl) (.fail _))
  · exact .fail _
  · exact .failRenamed fun hstrict => by rw [e.rename_id (hL.name_id hstrict)]

theorem checkWidth_tandem (kind : SizedKind) (n : Nat) :
    Tandem L config Eq (checkWidth kind n) (checkWidth kind n) := by
  cases kind with
  | int | uint => exact .ite (.fail _) (.pure rfl)
  | float | complex => exact .ite (.pure rfl) (.fail _)
  | angle | bit => exact .pure rfl

theorem unaryType_tandem (op : UnaryOp) (t : ClassicalType) :
    Tandem L config Eq (unaryType op t) (unaryType op t) := by
  cases op with
  | not | bitNot => exact .pure rfl
  | neg => exact .ite (.fail _) (.pure rfl)

theorem isSingle_rename (f : String → String) (item : IndexItem) : isSingle (item.rename f) = isSingle item := by
  cases item <;> rfl

theorem itemsType_tandem (f : String → String) (t : ClassicalType) (items : List IndexItem) :
    Tandem L config Eq (itemsType t items) (itemsType t (itemsRename f items)) := by
  induction items generalizing t with
  | nil => exact .pure rfl
  | cons item rest ih =>
    rw [itemsRename]
    unfold itemsType
    rw [isSingle_rename]
    split
    · exact ih _
    · exact .fail _

end Results

section Evaluating

mutual

/-- An expression and the one that reads the other names have the same value. -/
theorem fold_tandem (hL : L.Sound) : ∀ e : Expr, L.Allows e.callees →
    Tandem L config Eq (fold calls e) (fold calls (e.rename L.name))
  | .int _, _ => .ite (.pure rfl) (.fail _)
  | .float _, _ | .imaginary _, _ | .bool _, _ | .duration _ _, _ | .constant _, _ => .pure rfl
  | .bits digits, _ => by
    simp only [fold, Expr.rename]
    split
    · exact .pure rfl
    · exact .fail _
  | .name n, _ => nameValue_tandem hL n
  | .unary op e, he => by
    simp only [fold, Expr.rename]
    refine (fold_tandem hL e he).bindSame fun v => ?_
    split
    · exact (Tandem.orFail _ _).map fun _ _ => congrArg some
    · exact .pure rfl
  | .binary l op r, he => by
    obtain ⟨hl, hr⟩ := Link.allows_append.1 he
    simp only [fold, Expr.rename]
    refine (fold_tandem hL l hl).bindSame fun left => ?_
    split
    · exact .pure rfl
    · refine (fold_tandem hL r hr).bindSame fun right => ?_
      split
      · exact (Tandem.orFail _ _).map fun _ _ => congrArg some
      · exact .pure rfl
  | .call f args, he => by
    obtain ⟨hf, hargs⟩ := Link.allows_cons.1 he
    have hfunction : Tandem L config Eq (foldArgument calls f args >>= functionValue f)
        (foldArgument calls f (exprsRename L.name args) >>= functionValue f) :=
      (foldArgument_tandem hL f args hargs).bindSame fun v => functionValue_tandem f v
    intro s t hst
    obtain ⟨hnone, hnone', hsome⟩ := hL.calls hst.scopes hf
    simp only [fold, Expr.rename]
    rw [lookup_bind, lookup_bind]
    simp only [Scopes.subroutine?] at hnone hnone'
    simp only [hnone, hnone', hsome]
    exact Tandem.ite hfunction (.ite (.fail _) (.fail _)) s t hst
  | .index base items, he => by
    obtain ⟨hbase, hitems⟩ := Link.allows_append.1 he
    simp only [fold, Expr.rename]
    refine (infer_tandem hL base hbase).bindSame fun t => ?_
    exact (fold_tandem hL base hbase).bindSame fun v => foldItems_tandem hL t v items hitems
  | .cast type e, he => by
    obtain ⟨htype, he⟩ := Link.allows_append.1 he
    simp only [fold, Expr.rename]
    refine (resolveType_tandem hL type htype).bindSame fun t => ?_
    refine (fold_tandem hL e he).bindSame fun v => ?_
    split
    · exact (Tandem.orFail _ _).map fun _ _ => congrArg some
    · exact .pure rfl
  | .array items, he => by
    simp only [fold, Expr.rename]
    exact (foldAll_tandem hL items he).bindSame fun _ => .pure rfl
  | .measure _, _ => .fail _
  | .paren e, he => fold_tandem hL e he

theorem foldAll_tandem (hL : L.Sound) : ∀ es : List Expr, L.Allows (exprsCallees es) →
    Tandem L config Eq (foldAll calls es) (foldAll calls (exprsRename L.name es))
  | [], _ => .pure rfl
  | e :: es, he => by
    obtain ⟨he, hes⟩ := Link.allows_append.1 he
    simp only [foldAll, exprsRename]
    refine (fold_tandem hL e he).bindSame fun v => ?_
    exact (foldAll_tandem hL es hes).bindSame fun _ => .pure rfl

theorem foldArgument_tandem (hL : L.Sound) (f : String) : ∀ es : List Expr, L.Allows (exprsCallees es) →
    Tandem L config Eq (foldArgument calls f es) (foldArgument calls f (exprsRename L.name es))
  | [], _ => .fail _
  | [e], he => fold_tandem hL e (Link.allows_append.1 he).1
  | _ :: _ :: es, _ => by
    rw [exprsRename, exprsRename, foldArgument, foldArgument, exprsRename_eq_map, List.length_cons, List.length_cons,
      List.length_cons, List.length_cons, List.length_map]
    · exact .fail _
    all_goals nofun

theorem foldItems_tandem (hL : L.Sound) : ∀ (t : ClassicalType) (v : Option Value) (items : List IndexItem),
    L.Allows (itemsCallees items) →
      Tandem L config Eq (foldItems calls t v items) (foldItems calls t v (itemsRename L.name items))
  | _, _, [], _ => .pure rfl
  | t, v, item :: rest, he => by
    obtain ⟨hitem, hrest⟩ := Link.allows_append.1 he
    simp only [foldItems, itemsRename, isSingle_rename]
    split
    · exact .fail _
    · refine (itemPositions_tandem hL _ item hitem).bindSame fun positions => ?_
      split
      · exact foldItems_tandem hL _ _ rest hrest
      · exact .fail _

theorem itemPositions_tandem (hL : L.Sound) (n : Nat) : ∀ item : IndexItem, L.Allows item.callees →
    Tandem L config Eq (itemPositions calls n item) (itemPositions calls n (item.rename L.name))
  | .single e, he => by
    simp only [itemPositions, IndexItem.rename]
    refine (fold_tandem hL e he).bindSame fun v => ?_
    refine (indexValue_tandem hL e v).bindSame fun i => ?_
    exact (Tandem.orFail _ _).bindSame fun _ => .pure rfl
  | .set items, he => setPositions_tandem hL n items he
  | .range r, he => rangePositions_tandem hL n r he

theorem setPositions_tandem (hL : L.Sound) (n : Nat) : ∀ es : List Expr, L.Allows (exprsCallees es) →
    Tandem L config Eq (setPositions calls n es) (setPositions calls n (exprsRename L.name es))
  | [], _ => .pure rfl
  | e :: es, he => by
    obtain ⟨he, hes⟩ := Link.allows_append.1 he
    simp only [setPositions, exprsRename]
    refine (fold_tandem hL e he).bindSame fun v => ?_
    refine (indexValue_tandem hL e v).bindSame fun i => ?_
    refine (Tandem.orFail _ _).bindSame fun p => ?_
    exact (setPositions_tandem hL n es hes).bindSame fun _ => .pure rfl

theorem rangePositions_tandem (hL : L.Sound) (n : Nat) : ∀ r : RangeExpr, L.Allows r.callees →
    Tandem L config Eq (rangePositions calls n r) (rangePositions calls n (r.rename L.name))
  | ⟨start, step, stop⟩, he => by
    obtain ⟨hends, hstop⟩ := Link.allows_append.1 he
    obtain ⟨hstart, hstep⟩ := Link.allows_append.1 hends
    simp only [rangePositions, RangeExpr.rename]
    refine (rangePart_tandem hL start hstart).bindSame fun _ => ?_
    refine (rangePart_tandem hL step hstep).bindSame fun _ => ?_
    exact (rangePart_tandem hL stop hstop).bindSame fun _ => .orFail _ _

theorem rangePart_tandem (hL : L.Sound) : ∀ e : Option Expr, L.Allows (optionCallees e) →
    Tandem L config Eq (rangePart calls e) (rangePart calls (optionRename L.name e))
  | none, _ => .pure rfl
  | some e, he => by
    simp only [rangePart, optionRename]
    refine (fold_tandem hL e he).bindSame fun v => ?_
    exact (indexValue_tandem hL e v).bindSame fun _ => .pure rfl

theorem infer_tandem (hL : L.Sound) : ∀ e : Expr, L.Allows e.callees →
    Tandem L config Eq (infer calls e) (infer calls (e.rename L.name))
  | .int _, _ | .float _, _ | .constant _, _ | .imaginary _, _ | .bool _, _ | .bits _, _
  | .duration _ _, _ => .pure rfl
  | .name n, _ => nameType_tandem hL n
  | .unary op e, he => by
    simp only [infer, Expr.rename]
    exact (infer_tandem hL e he).bindSame fun t => unaryType_tandem op t
  | .binary l op r, he => by
    obtain ⟨hl, hr⟩ := Link.allows_append.1 he
    simp only [infer, Expr.rename]
    refine (infer_tandem hL l hl).bindSame fun t => ?_
    exact (infer_tandem hL r hr).bindSame fun u => .orFail _ _
  | .call f args, he => by
    obtain ⟨hf, hargs⟩ := Link.allows_cons.1 he
    have hfunction : Tandem L config Eq (inferAll calls args >>= fun _ => Pure.pure ClassicalType.defaultFloat)
        (inferAll calls (exprsRename L.name args) >>= fun _ => Pure.pure ClassicalType.defaultFloat) :=
      (inferAll_tandem hL args hargs).bindSame fun _ => .pure rfl
    intro s t hst
    obtain ⟨hnone, hnone', hsome⟩ := hL.calls hst.scopes hf
    simp only [infer, Expr.rename]
    rw [lookup_bind, lookup_bind]
    -- The name is none of a subroutine, so it is one of the functions of the language or of nothing.
    rcases hx : s.scopes.resolve? f with - | x <;> rcases hy : t.scopes.resolve? f with - | y
    · exact Tandem.ite hfunction (.fail _) s t hst
    · rw [hx, hy] at hsome
      nomatch hsome
    · rw [hx, hy] at hsome
      nomatch hsome
    · rw [Scopes.subroutine?, hx] at hnone
      rw [Scopes.subroutine?, hy] at hnone'
      simp only [Option.bind_some] at hnone hnone'
      simp only [hnone, hnone']
      exact .fail hst fun _ => .same _
  | .index base items, he => by
    obtain ⟨hbase, -⟩ := Link.allows_append.1 he
    simp only [infer, Expr.rename]
    exact (infer_tandem hL base hbase).bindSame fun t => itemsType_tandem _ t items
  | .cast type _, he => resolveType_tandem hL type (Link.allows_append.1 he).1
  | .array items, he => by
    simp only [infer, Expr.rename, exprsRename_eq_map, List.length_map]
    rw [← exprsRename_eq_map]
    exact (inferFirst_tandem hL items he).bindSame fun _ => .pure rfl
  | .measure e, he => by
    simp only [infer, Expr.rename]
    refine (viewOf_tandem hL e he).bind fun a b hab => ?_
    cases hab with
    | quantum hvw =>
      dsimp only
      rw [L.wiring.length hvw]
      exact .pure rfl
    | classical => exact .fail _
  | .paren e, he => infer_tandem hL e he

theorem inferAll_tandem (hL : L.Sound) : ∀ es : List Expr, L.Allows (exprsCallees es) →
    Tandem L config Eq (inferAll calls es) (inferAll calls (exprsRename L.name es))
  | [], _ => .pure rfl
  | e :: es, he => by
    obtain ⟨he, hes⟩ := Link.allows_append.1 he
    simp only [inferAll, exprsRename]
    exact (infer_tandem hL e he).bindSame fun _ => inferAll_tandem hL es hes

theorem inferFirst_tandem (hL : L.Sound) : ∀ es : List Expr, L.Allows (exprsCallees es) →
    Tandem L config Eq (inferFirst calls es) (inferFirst calls (exprsRename L.name es))
  | [], _ => .pure rfl
  | e :: _, he => infer_tandem hL e (Link.allows_append.1 he).1

theorem resolveType_tandem (hL : L.Sound) : ∀ t : TypeExpr, L.Allows t.callees →
    Tandem L config Eq (resolveType calls t) (resolveType calls (t.rename L.name))
  | .bool, _ | .duration, _ | .stretch, _ | .sized _ none, _ => .pure rfl
  | .sized kind (some e), he => by
    simp only [resolveType, TypeExpr.rename, optionRename]
    refine (fold_tandem hL e he).bindSame fun v => ?_
    refine (widthValue_tandem hL e v).bindSame fun n => ?_
    exact (checkWidth_tandem kind n).bindSame fun _ => .pure rfl
  | .array element dims, he => by
    obtain ⟨helement, hdims⟩ := Link.allows_append.1 he
    simp only [resolveType, TypeExpr.rename]
    refine (resolveType_tandem hL element helement).bindSame fun t => ?_
    exact .ite (.fail _) ((resolveWidths_tandem hL dims hdims).bindSame fun _ => .pure rfl)

theorem resolveWidths_tandem (hL : L.Sound) : ∀ es : List Expr, L.Allows (exprsCallees es) →
    Tandem L config Eq (resolveWidths calls es) (resolveWidths calls (exprsRename L.name es))
  | [], _ => .pure rfl
  | e :: es, he => by
    obtain ⟨he, hes⟩ := Link.allows_append.1 he
    simp only [resolveWidths, exprsRename]
    refine (fold_tandem hL e he).bindSame fun v => ?_
    refine (widthValue_tandem hL e v).bindSame fun n => ?_
    exact (resolveWidths_tandem hL es hes).bindSame fun _ => .pure rfl

/-- The operands denote corresponding views. -/
theorem viewOf_tandem (hL : L.Sound) : ∀ e : Expr, L.Allows e.callees →
    Tandem L config L.wiring.Located (viewOf calls e) (viewOf calls (e.rename L.name))
  | .name n, _ => nameView_tandem hL n
  | .index base items, he => by
    obtain ⟨hbase, hitems⟩ := Link.allows_append.1 he
    simp only [viewOf, Expr.rename]
    refine (viewOf_tandem hL base hbase).bind fun a b hab => ?_
    have hkind : b.1 = a.1 := by cases hab <;> rfl
    obtain ⟨kind, v⟩ := a
    obtain ⟨kind', w⟩ := b
    cases hkind
    exact (partView_tandem hL hab items hitems).bind fun _ _ hpart => .pure hpart
  | .binary l op r, he => by
    obtain ⟨hl, hr⟩ := Link.allows_append.1 he
    by_cases hop : op = .concat
    · subst hop
      simp only [viewOf, Expr.rename]
      refine (viewOf_tandem hL l hl).bind fun a b hab => ?_
      refine (viewOf_tandem hL r hr).bind fun a' b' hab' => ?_
      cases hab with
      | quantum hvw =>
        cases hab' with
        | quantum hvw' => exact .pure (.quantum (L.wiring.concat hvw hvw'))
        | classical => exact .fail _
      | classical =>
        cases hab' with
        | quantum => exact .fail _
        | classical => exact .pure (.classical _)
    · rw [Expr.rename, viewOf, viewOf]
      · exact .fail _
      all_goals simp_all
  | .paren e, he => viewOf_tandem hL e he
  | .int _, _ | .float _, _ | .imaginary _, _ | .bool _, _ | .bits _, _ | .duration _ _, _ | .constant _, _
  | .unary _ _, _ | .call _ _, _ | .cast _ _, _ | .array _, _ | .measure _, _ => .fail _

theorem partView_tandem (hL : L.Sound) {kind : RegisterKind} {v w : View}
    (h : L.wiring.Located (kind, v) (kind, w)) : ∀ items : List IndexItem, L.Allows (itemsCallees items) →
      Tandem L config (fun a b => L.wiring.Located (kind, a) (kind, b)) (partView calls kind v items)
        (partView calls kind w (itemsRename L.name items))
  | [], _ => .fail _
  | [.single e], he => by
    simp only [partView, itemsRename, IndexItem.rename]
    refine (fold_tandem hL e (Link.allows_append.1 he).1).bindSame fun v => ?_
    refine (indexValue_tandem hL e v).bindSame fun i => ?_
    exact elementView_tandem h i
  | [.set items], he => by
    simp only [partView, itemsRename, IndexItem.rename]
    rw [h.length]
    exact (itemPositions_tandem hL _ (.set items) (Link.allows_append.1 he).1).bindSame fun _ => .pure (h.pick _)
  | [.range r], he => by
    simp only [partView, itemsRename, IndexItem.rename]
    rw [h.length]
    exact (itemPositions_tandem hL _ (.range r) (Link.allows_append.1 he).1).bindSame fun _ => .pure (h.pick _)
  | a :: _ :: _, _ => by
    cases a <;> exact .fail _

end

end Evaluating

end Analysis
end OpenQasm
