import OpenQasm.Proofs.Steps
import OpenQasm.Syntax.Calls

/-!
The evaluation of expressions changes the state only through the calls in them. Two ways to expand
definitions that agree on calls therefore agree on all evaluation, and what calls keep is kept.
-/
namespace OpenQasm

/-- The weight of a list, such as that of the calls in a text. -/
def weigh {α : Type} (weight : α → Nat) : List α → Nat
  | [] => 0
  | x :: xs => weight x + weigh weight xs

section Weigh

variable {α : Type} (weight : α → Nat)

@[simp] theorem weigh_nil : weigh weight [] = 0 := rfl

@[simp] theorem weigh_cons (x : α) (xs : List α) :
    weigh weight (x :: xs) = weight x + weigh weight xs := rfl

@[simp] theorem weigh_append (xs ys : List α) :
    weigh weight (xs ++ ys) = weigh weight xs + weigh weight ys := by
  induction xs with
  | nil => rw [List.nil_append, weigh_nil, Nat.zero_add]
  | cons x xs ih => rw [List.cons_append, weigh_cons, weigh_cons, ih, Nat.add_assoc]

/-- Where nothing weighs anything, no list does. -/
theorem weigh_zero (xs : List α) : weigh (fun _ => 0) xs = 0 := by
  induction xs with
  | nil => rfl
  | cons x xs ih => rw [weigh_cons, ih]

end Weigh

namespace Analysis

/-- Two expansions of definitions agree on the calls in a text of weight `k`: a call weighs as much as its
name and its arguments. -/
structure CallsAgree (I : Invariant) (weight : String → Nat) (k : Nat) (calls calls' : Calls) :
    Prop where
  subroutine : ∀ f d args, I.subroutine f d → weight f + weigh weight (exprsCallees args) ≤ k →
    Ensures I (fun _ => True) (calls.subroutine d args) (calls'.subroutine d args)
      (fun r s => ∀ v, r = some v → v.Fits I.toFacts s.registers)
  resultType : ∀ f d t, I.subroutine f d → d.result = some t → weight f ≤ k →
    Agree I (calls.resultType d t) (calls'.resultType d t)
  gate : ∀ f d params qubits, I.gate f d → weight f ≤ k → qubits.Nodup →
    Ensures I (fun s => ∀ q ∈ qubits, I.place s.registers .quantum q)
      (calls.gate d params qubits) (calls'.gate d params qubits) (fun ops _ => ∀ i ∈ ops, I.op qubits i)

section Reading

variable {I : Invariant} {pre : State → Prop}

theorem nameValue_agree (name : String) : Agree I (nameValue name) (nameValue name) := by
  apply (resolve_agree name).bind
  intro x
  split <;> first | exact Agree.pure _ | exact Agree.fail _ rfl

theorem nameType_agree (name : String) : Agree I (nameType name) (nameType name) := by
  apply (resolve_agree name).bind
  intro x
  split <;> first | exact Agree.pure _ | exact Agree.fail _ rfl

theorem nameView_ensures (name : String) :
    Ensures I (fun _ => True) (nameView name) (nameView name)
      (fun v s => I.view s.registers v.1 v.2) := by
  apply (resolve_ensures name).bind
  intro x
  split
  · next hx => exact Ensures.pure fun s hs h => I.resolves_qubits hs h.1 hx
  · next hx => exact Ensures.pure fun s hs h => I.resolves_clbits hs h.1 hx
  · exact Ensures.fail _ rfl

theorem callValue_agree (name : String) (r : Option RightValue) :
    Agree I (callValue name r) (callValue name r) := by
  rcases r with _ | v | e | qubits
  · exact Agree.fail _ rfl
  · exact Agree.pure _
  · exact Agree.fail _ rfl
  · exact Agree.fail _ rfl

theorem functionValue_agree (f : String) (v : Option Value) :
    Agree I (functionValue f v) (functionValue f v) := by
  unfold functionValue
  split
  · exact Agree.pure _
  · split
    · exact Agree.fail _ rfl
    · split
      · exact Agree.pure _
      · exact Agree.fail _ rfl

theorem indexValue_agree (e : Expr) (v : Option Value) :
    Agree I (indexValue e v) (indexValue e v) := by
  unfold indexValue
  split
  · exact Agree.pure _
  · exact Agree.fail _ rfl
  · exact Agree.fail _ rfl

theorem widthValue_ensures (e : Expr) (v : Option Value) :
    Ensures I (fun _ => True) (widthValue e v) (widthValue e v) (fun n _ => 0 < n) := by
  unfold widthValue
  split
  · next n =>
    refine Ensures.ite (fun _ => Ensures.fail _ rfl) fun hpos =>
      Ensures.ite (fun _ => Ensures.pure fun _ _ _ => ?_) fun _ => Ensures.fail _ rfl
    have hn : 0 < n.toInt := Int64.lt_iff_toInt_lt.1 (Int64.not_le.1 hpos)
    omega
  · exact Ensures.fail _ rfl
  · exact Ensures.fail _ rfl

theorem widthValue_agree (e : Expr) (v : Option Value) :
    Agree I (widthValue e v) (widthValue e v) := (widthValue_ensures e v).agree

theorem checkWidth_agree (kind : SizedKind) (n : Nat) :
    Agree I (checkWidth kind n) (checkWidth kind n) := by
  cases kind <;>
    first
    | exact Agree.pure _
    | exact Agree.ite (Agree.fail _ rfl) (Agree.pure _)
    | exact Agree.ite (Agree.pure _) (Agree.fail _ rfl)

theorem unaryType_agree (op : UnaryOp) (t : ClassicalType) :
    Agree I (unaryType op t) (unaryType op t) := by
  cases op with
  | not => exact Agree.pure _
  | neg => exact Agree.ite (Agree.fail _ rfl) (Agree.pure _)
  | bitNot => exact Agree.pure _

theorem itemsType_agree (t : ClassicalType) (items : List IndexItem) :
    Agree I (itemsType t items) (itemsType t items) := by
  induction items generalizing t with
  | nil => exact Agree.pure _
  | cons item rest ih =>
    unfold itemsType
    split
    · exact ih _
    · exact Agree.fail _ rfl

theorem elementView_ensures (kind : RegisterKind) (v : View) (index : Int) :
    Ensures I (fun s => I.view s.registers kind v) (elementView kind v index)
      (elementView kind v index) (fun w s => I.view s.registers kind w) := by
  apply Ensures.get.bind
  intro s
  dsimp only
  split
  · exact Ensures.fail _ rfl
  · next q hq =>
    split
    · next w hw =>
      apply Ensures.pure
      rintro _ hs ⟨rfl, hv⟩
      exact I.view_element hs hv hq hw
    · exact Ensures.fail _ rfl

end Reading

section Evaluating

variable {I : Invariant} {weight : String → Nat} {k : Nat} {calls calls' : Calls}

/-- What a name resolves to, if it is a subroutine, is one that the name may stand for. -/
theorem resolve_subroutine_ensures (f : String) :
    Ensures I (fun _ => True) (resolve? f) (resolve? f) (fun x _ =>
      ∀ d, x.bind Symbol.subroutine? = some d → I.subroutine f d) := by
  refine (resolve?_ensures f).weaken ?_
  rintro _ s hs ⟨rfl, -⟩ d hd
  obtain ⟨x, hx, hd⟩ := Option.bind_eq_some_iff.1 hd
  unfold Symbol.subroutine? at hd
  split at hd
  · next hbinding => exact I.resolves_subroutine hs hx (Option.some.inj hd ▸ hbinding)
  · nomatch hd

-- The induction is on the syntax, and the weights of the parts add up to at most that of the whole. The
-- only cases that are not about a smaller part are the calls, which the assumption is for.
mutual

theorem fold_agree (h : CallsAgree I weight k calls calls') : ∀ e : Expr, weigh weight e.callees ≤ k →
    Agree I (fold calls e) (fold calls' e)
  | .int _, _ => Agree.ite (Agree.pure _) (Agree.fail _ rfl)
  | .float _, _ | .imaginary _, _ | .bool _, _ | .duration _ _, _ | .constant _, _ => Agree.pure _
  | .bits digits, _ => by
    simp only [fold]
    split
    · exact Agree.pure _
    · exact Agree.fail _ rfl
  | .name n, _ => nameValue_agree n
  | .unary op e, hk => by
    simp only [fold]
    apply (fold_agree h e hk).bind
    intro v
    split
    · exact (orFail_agree _ _ fun _ => rfl).map
    · exact Agree.pure _
  | .binary l op r, hk => by
    simp only [Expr.callees, weigh_append] at hk
    have hl : weigh weight l.callees ≤ k := by omega
    have hr : weigh weight r.callees ≤ k := by omega
    simp only [fold]
    apply (fold_agree h l hl).bind
    intro left
    split
    · exact Agree.pure _
    · apply (fold_agree h r hr).bind
      intro right
      split
      · exact (orFail_agree _ _ fun _ => rfl).map
      · exact Agree.pure _
  | .call f args, hk => by
    simp only [Expr.callees, weigh_cons] at hk
    have hargs : weigh weight (exprsCallees args) ≤ k := by omega
    simp only [fold]
    apply (resolve_subroutine_ensures f).bind
    intro x
    split
    · next d hd =>
      refine Ensures.assuming (hd ▸ fun known => ?_)
      exact (h.subroutine f d args (known d rfl) hk).agree.bind fun r => callValue_agree f r
    · apply Ensures.assuming
      intro _
      refine Agree.ite ?_ (Agree.ite (Agree.fail _ rfl) (Agree.fail _ rfl))
      exact (foldArgument_agree h f args hargs).bind fun v => functionValue_agree f v
  | .index base items, hk => by
    simp only [Expr.callees, weigh_append] at hk
    have hbase : weigh weight base.callees ≤ k := by omega
    have hitems : weigh weight (itemsCallees items) ≤ k := by omega
    simp only [fold]
    apply (infer_agree h base hbase).bind
    intro t
    apply (fold_agree h base hbase).bind
    intro v
    exact foldItems_agree h t v items hitems
  | .cast type e, hk => by
    simp only [Expr.callees, weigh_append] at hk
    have htype : weigh weight type.callees ≤ k := by omega
    have he : weigh weight e.callees ≤ k := by omega
    simp only [fold]
    apply (resolveType_agree h type htype).bind
    intro t
    apply (fold_agree h e he).bind
    intro v
    split
    · exact (orFail_agree _ _ fun _ => rfl).map
    · exact Agree.pure _
  | .array items, hk => by
    simp only [fold]
    exact (foldAll_agree h items hk).bind fun vs => Agree.pure _
  | .measure _, _ => Agree.fail _ rfl
  | .paren e, hk => fold_agree h e hk

theorem foldAll_agree (h : CallsAgree I weight k calls calls') : ∀ es : List Expr,
    weigh weight (exprsCallees es) ≤ k → Agree I (foldAll calls es) (foldAll calls' es)
  | [], _ => Agree.pure _
  | e :: es, hk => by
    simp only [exprsCallees, weigh_append] at hk
    have he : weigh weight e.callees ≤ k := by omega
    have hes : weigh weight (exprsCallees es) ≤ k := by omega
    simp only [foldAll]
    apply (fold_agree h e he).bind
    intro v
    exact (foldAll_agree h es hes).bind fun vs => Agree.pure _

theorem foldArgument_agree (h : CallsAgree I weight k calls calls') (f : String) : ∀ es : List Expr,
    weigh weight (exprsCallees es) ≤ k →
      Agree I (foldArgument calls f es) (foldArgument calls' f es)
  | [], _ => Agree.fail _ rfl
  | [e], hk => by
    simp only [exprsCallees, weigh_append] at hk
    have he : weigh weight e.callees ≤ k := by omega
    exact fold_agree h e he
  | _ :: _ :: _, _ => Agree.fail _ rfl

theorem foldItems_agree (h : CallsAgree I weight k calls calls') :
    ∀ (t : ClassicalType) (v : Option Value) (items : List IndexItem),
      weigh weight (itemsCallees items) ≤ k →
      Agree I (foldItems calls t v items) (foldItems calls' t v items)
  | _, _, [], _ => Agree.pure _
  | t, v, item :: rest, hk => by
    simp only [itemsCallees, weigh_append] at hk
    have hitem : weigh weight item.callees ≤ k := by omega
    have hrest : weigh weight (itemsCallees rest) ≤ k := by omega
    simp only [foldItems]
    split
    · exact Agree.fail _ rfl
    · apply (itemPositions_agree h _ item hitem).bind
      intro positions
      split
      · exact foldItems_agree h _ _ rest hrest
      · exact Agree.fail _ rfl

theorem itemPositions_agree (h : CallsAgree I weight k calls calls') (n : Nat) : ∀ item : IndexItem,
    weigh weight item.callees ≤ k →
      Agree I (itemPositions calls n item) (itemPositions calls' n item)
  | .single e, hk => by
    simp only [itemPositions]
    apply (fold_agree h e hk).bind
    intro v
    apply (indexValue_agree e v).bind
    intro i
    exact (orFail_agree _ _ fun _ => rfl).bind fun p => Agree.pure _
  | .set items, hk => setPositions_agree h n items hk
  | .range r, hk => rangePositions_agree h n r hk

theorem setPositions_agree (h : CallsAgree I weight k calls calls') (n : Nat) : ∀ es : List Expr,
    weigh weight (exprsCallees es) ≤ k →
      Agree I (setPositions calls n es) (setPositions calls' n es)
  | [], _ => Agree.pure _
  | e :: es, hk => by
    simp only [exprsCallees, weigh_append] at hk
    have he : weigh weight e.callees ≤ k := by omega
    have hes : weigh weight (exprsCallees es) ≤ k := by omega
    simp only [setPositions]
    apply (fold_agree h e he).bind
    intro v
    apply (indexValue_agree e v).bind
    intro i
    apply (orFail_agree _ _ fun _ => rfl).bind
    intro p
    exact (setPositions_agree h n es hes).bind fun ps => Agree.pure _

theorem rangePositions_agree (h : CallsAgree I weight k calls calls') (n : Nat) : ∀ r : RangeExpr,
    weigh weight r.callees ≤ k →
      Agree I (rangePositions calls n r) (rangePositions calls' n r)
  | ⟨start, step, stop⟩, hk => by
    simp only [RangeExpr.callees, weigh_append] at hk
    have hstart : weigh weight (optionCallees start) ≤ k := by omega
    have hstep : weigh weight (optionCallees step) ≤ k := by omega
    have hstop : weigh weight (optionCallees stop) ≤ k := by omega
    simp only [rangePositions]
    apply (rangePart_agree h start hstart).bind
    intro a
    apply (rangePart_agree h step hstep).bind
    intro b
    apply (rangePart_agree h stop hstop).bind
    intro c
    exact orFail_agree _ _ fun _ => rfl

theorem rangePart_agree (h : CallsAgree I weight k calls calls') : ∀ e : Option Expr,
    weigh weight (optionCallees e) ≤ k → Agree I (rangePart calls e) (rangePart calls' e)
  | none, _ => Agree.pure _
  | some e, hk => by
    simp only [rangePart]
    apply (fold_agree h e hk).bind
    intro v
    exact (indexValue_agree e v).bind fun i => Agree.pure _

theorem infer_agree (h : CallsAgree I weight k calls calls') : ∀ e : Expr, weigh weight e.callees ≤ k →
    Agree I (infer calls e) (infer calls' e)
  | .int _, _ | .float _, _ | .constant _, _ | .imaginary _, _ | .bool _, _ | .bits _, _
  | .duration _ _, _ => Agree.pure _
  | .name n, _ => nameType_agree n
  | .unary op e, hk => by
    simp only [infer]
    exact (infer_agree h e hk).bind fun t => unaryType_agree op t
  | .binary l op r, hk => by
    simp only [Expr.callees, weigh_append] at hk
    have hl : weigh weight l.callees ≤ k := by omega
    have hr : weigh weight r.callees ≤ k := by omega
    simp only [infer]
    apply (infer_agree h l hl).bind
    intro t
    exact (infer_agree h r hr).bind fun u => orFail_agree _ _ fun _ => rfl
  | .call f args, hk => by
    simp only [Expr.callees, weigh_cons] at hk
    have hname : weight f ≤ k := by omega
    have hargs : weigh weight (exprsCallees args) ≤ k := by omega
    simp only [infer]
    refine (resolve_subroutine_ensures f).bind fun x => Ensures.assuming fun known => ?_
    split
    · next x =>
      split
      · exact Agree.fail _ rfl
      · next d hd =>
        split
        · next t ht => exact h.resultType f d t (known d hd) ht hname
        · exact Agree.fail _ rfl
    · refine Agree.ite ?_ (Agree.fail _ rfl)
      exact (inferAll_agree h args hargs).bind fun _ => Agree.pure _
  | .index base items, hk => by
    simp only [Expr.callees, weigh_append] at hk
    have hbase : weigh weight base.callees ≤ k := by omega
    simp only [infer]
    exact (infer_agree h base hbase).bind fun t => itemsType_agree t items
  | .cast type e, hk => by
    simp only [Expr.callees, weigh_append] at hk
    have htype : weigh weight type.callees ≤ k := by omega
    exact resolveType_agree h type htype
  | .array items, hk => by
    simp only [infer]
    exact (inferFirst_agree h items hk).bind fun t => Agree.pure _
  | .measure e, hk => by
    simp only [infer]
    apply (viewOf_ensures h e hk).agree.bind
    intro v
    split
    · exact Agree.pure _
    · exact Agree.fail _ rfl
  | .paren e, hk => infer_agree h e hk

theorem inferAll_agree (h : CallsAgree I weight k calls calls') : ∀ es : List Expr,
    weigh weight (exprsCallees es) ≤ k → Agree I (inferAll calls es) (inferAll calls' es)
  | [], _ => Agree.pure _
  | e :: es, hk => by
    simp only [exprsCallees, weigh_append] at hk
    have he : weigh weight e.callees ≤ k := by omega
    have hes : weigh weight (exprsCallees es) ≤ k := by omega
    simp only [inferAll]
    apply (infer_agree h e he).bind
    intro _
    exact inferAll_agree h es hes

theorem inferFirst_agree (h : CallsAgree I weight k calls calls') : ∀ es : List Expr,
    weigh weight (exprsCallees es) ≤ k → Agree I (inferFirst calls es) (inferFirst calls' es)
  | [], _ => Agree.pure _
  | e :: es, hk => by
    simp only [exprsCallees, weigh_append] at hk
    have he : weigh weight e.callees ≤ k := by omega
    exact infer_agree h e he

theorem resolveType_agree (h : CallsAgree I weight k calls calls') : ∀ t : TypeExpr,
    weigh weight t.callees ≤ k → Agree I (resolveType calls t) (resolveType calls' t)
  | .bool, _ | .duration, _ | .stretch, _ | .sized _ none, _ => Agree.pure _
  | .sized kind (some e), hk => by
    simp only [resolveType]
    apply (fold_agree h e hk).bind
    intro v
    apply (widthValue_agree e v).bind
    intro n
    exact (checkWidth_agree kind n).bind fun _ => Agree.pure _
  | .array element dims, hk => by
    simp only [TypeExpr.callees, weigh_append] at hk
    have helement : weigh weight element.callees ≤ k := by omega
    have hdims : weigh weight (exprsCallees dims) ≤ k := by omega
    simp only [resolveType]
    apply (resolveType_agree h element helement).bind
    intro t
    apply Agree.ite (Agree.fail _ rfl)
    exact (resolveWidths_agree h dims hdims).bind fun _ => Agree.pure _

theorem resolveWidths_agree (h : CallsAgree I weight k calls calls') : ∀ es : List Expr,
    weigh weight (exprsCallees es) ≤ k →
      Agree I (resolveWidths calls es) (resolveWidths calls' es)
  | [], _ => Agree.pure _
  | e :: es, hk => by
    simp only [exprsCallees, weigh_append] at hk
    have he : weigh weight e.callees ≤ k := by omega
    have hes : weigh weight (exprsCallees es) ≤ k := by omega
    simp only [resolveWidths]
    apply (fold_agree h e he).bind
    intro v
    apply (widthValue_agree e v).bind
    intro n
    exact (resolveWidths_agree h es hes).bind fun _ => Agree.pure _

theorem viewOf_ensures (h : CallsAgree I weight k calls calls') : ∀ e : Expr,
    weigh weight e.callees ≤ k → Ensures I (fun _ => True) (viewOf calls e) (viewOf calls' e)
      (fun v s => I.view s.registers v.1 v.2)
  | .name n, _ => nameView_ensures n
  | .index base items, hk => by
    simp only [Expr.callees, weigh_append] at hk
    have hbase : weigh weight base.callees ≤ k := by omega
    have hitems : weigh weight (itemsCallees items) ≤ k := by omega
    simp only [viewOf]
    apply (viewOf_ensures h base hbase).bind
    intro v
    apply (partView_ensures h v.1 v.2 items hitems).bind
    intro w
    exact Ensures.pure fun _ _ hw => hw
  | .binary l op r, hk => by
    simp only [Expr.callees, weigh_append] at hk
    have hl : weigh weight l.callees ≤ k := by omega
    have hr : weigh weight r.callees ≤ k := by omega
    by_cases hop : op = .concat
    · subst hop
      simp only [viewOf]
      apply (viewOf_ensures h l hl).bind
      intro v
      -- The first part stays a view of its register while the second is looked up.
      apply ((viewOf_ensures h r hr).carrying (stable_view v.1 v.2)).bind
      intro w
      refine Ensures.ite (fun hkind => Ensures.pure ?_) fun _ => Ensures.fail _ rfl
      rintro s _ ⟨hw, hv⟩
      rw [← hkind] at hw
      exact I.view_concat hv hw
    · rw [viewOf, viewOf]
      · exact Ensures.fail _ rfl
      all_goals simp_all
  | .paren e, hk => viewOf_ensures h e hk
  | .int _, _ | .float _, _ | .imaginary _, _ | .bool _, _ | .bits _, _ | .duration _ _, _
  | .constant _, _ | .unary _ _, _ | .call _ _, _ | .cast _ _, _ | .array _, _ | .measure _, _ =>
    Ensures.fail _ rfl

theorem partView_ensures (h : CallsAgree I weight k calls calls') (kind : RegisterKind) (v : View) :
    ∀ items : List IndexItem, weigh weight (itemsCallees items) ≤ k →
      Ensures I (fun s => I.view s.registers kind v) (partView calls kind v items)
        (partView calls' kind v items) (fun w s => I.view s.registers kind w)
  | [], _ => Ensures.fail _ rfl
  | [.single e], hk => by
    simp only [itemsCallees, IndexItem.callees, weigh_append] at hk
    have he : weigh weight e.callees ≤ k := by omega
    simp only [partView]
    apply ((fold_agree h e he).carrying (stable_view kind v)).bind
    intro w
    apply ((indexValue_agree e w).carrying (stable_view kind v)).bind
    intro i
    exact elementView_ensures kind v i
  | [.set items], hk => by
    simp only [itemsCallees, weigh_append] at hk
    have hitem : weigh weight (IndexItem.set items).callees ≤ k := by omega
    simp only [partView]
    apply ((itemPositions_agree h _ (.set items) hitem).carrying (stable_view kind v)).bind
    intro ps
    exact Ensures.pure fun _ _ hv => I.view_pick ps hv
  | [.range r], hk => by
    simp only [itemsCallees, weigh_append] at hk
    have hitem : weigh weight (IndexItem.range r).callees ≤ k := by omega
    simp only [partView]
    apply ((itemPositions_agree h _ (.range r) hitem).carrying (stable_view kind v)).bind
    intro ps
    exact Ensures.pure fun _ _ hv => I.view_pick ps hv
  | a :: _ :: _, _ => by
    cases a <;> exact Ensures.fail _ rfl

end

/-- A width that is written is positive. -/
theorem resolveWidth_ensures (h : CallsAgree I weight k calls calls') (e : Expr)
    (hk : weigh weight e.callees ≤ k) :
    Ensures I (fun _ => True) (resolveWidth calls e) (resolveWidth calls' e) (fun n _ => 0 < n) :=
  (fold_agree h e hk).andThen fun v => widthValue_ensures e v

theorem resolveWidth_agree (h : CallsAgree I weight k calls calls') (e : Expr)
    (hk : weigh weight e.callees ≤ k) : Agree I (resolveWidth calls e) (resolveWidth calls' e) :=
  (resolveWidth_ensures h e hk).agree

theorem quantumView_ensures (h : CallsAgree I weight k calls calls') (e : Expr)
    (hk : weigh weight e.callees ≤ k) :
    Ensures I (fun _ => True) (quantumView calls e) (quantumView calls' e)
      (fun v s => I.view s.registers .quantum v) := by
  apply (viewOf_ensures h e hk).bind
  intro v
  split
  · exact Ensures.pure fun _ _ hv => hv
  · exact Ensures.fail _ rfl

theorem quantumQubits_ensures (h : CallsAgree I weight k calls calls') (e : Expr)
    (hk : weigh weight e.callees ≤ k) :
    Ensures I (fun _ => True) (quantumQubits calls e) (quantumQubits calls' e)
      (fun qs s => ∀ q ∈ qs, I.place s.registers .quantum q) :=
  (quantumView_ensures h e hk).bind fun v => physical_ensures .quantum v

end Evaluating

end Analysis
end OpenQasm
