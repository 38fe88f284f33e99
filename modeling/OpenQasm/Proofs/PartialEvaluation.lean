import OpenQasm.Analysis.Program
import OpenQasm.Proofs.ExpressionValues
import OpenQasm.Proofs.Materialization
import OpenQasm.Proofs.SourceCharacters

/-!
The expression that is written into the flat program has, when the program runs, the value of the
expression of the source. What is known is written as a literal, variables go by the names that they have
there, and indices are written as positions. The positions all count from the ends of the first dimension,
so that the statement asks for indices that mean the same in their own dimension.
-/
namespace OpenQasm

/-- A symbol that at most has got a name in the flat program. -/
structure Symbol.Renames (x y : Symbol) : Prop where
  same : y = { x with emitName := y.emitName }
  kept : ∀ emitName, x.emitName = some emitName → y.emitName = some emitName

namespace Symbol.Renames

variable {x y z : Symbol}

theorem refl (x : Symbol) : Renames x x := ⟨rfl, fun _ h => h⟩

theorem trans (h : Renames x y) (h' : Renames y z) : Renames x z :=
  ⟨by rw [h'.same, h.same], fun m hm => h'.kept m (h.kept m hm)⟩

theorem refines (h : Renames x y) : x.Refines y := by
  rw [h.same]
  exact ⟨rfl, rfl, rfl, fun _ hv => hv⟩

theorem refined (h : Renames x y) : y.Refines x := by
  rw [h.same]
  exact ⟨rfl, rfl, rfl, fun _ hv => hv⟩

end Symbol.Renames

namespace Scopes

variable {s t u : Scopes} {name emitName : String}

/-- Every name stands for the same symbol, which at most has got a name in the flat program. -/
def Renames (s t : Scopes) : Prop :=
  ∀ name, Option.Rel Symbol.Renames (s.resolve? name) (t.resolve? name)

/-- What a name stands for has a name in the flat program. -/
def Emits (s : Scopes) (name emitName : String) : Prop :=
  ∃ x, s.resolve? name = some x ∧ x.emitName = some emitName

namespace Renames

theorem refl (s : Scopes) : Renames s s := fun _ => rel_refl Symbol.Renames.refl _

theorem trans (h : Renames s t) (h' : Renames t u) : Renames s u :=
  fun name => rel_trans (fun _ _ _ hxy hyz => hxy.trans hyz) (h name) (h' name)

theorem refines (h : Renames s t) : s.Refines t :=
  fun name => rel_imp (fun _ _ hxy => hxy.refines) (h name)

theorem refined (h : Renames s t) : t.Refines s :=
  fun name => rel_swap (fun _ _ hxy => hxy.refined) (h name)

theorem emits (h : Renames s t) (hname : s.Emits name emitName) : t.Emits name emitName := by
  obtain ⟨x, hx, hemit⟩ := hname
  obtain ⟨y, hy, hxy⟩ := rel_some (hx ▸ h name)
  exact ⟨y, hy, hxy.kept emitName hemit⟩

end Renames

/-- A variable without a name in the flat program gets one. -/
theorem renames_modify {x : Symbol} (hx : s.resolve? name = some x) (hnone : x.emitName = none)
    (emitName : String) :
    s.Renames (s.modify name fun y => { y with emitName := some emitName }) := by
  intro n
  have hkey := keepsKey_emitName (some emitName)
  by_cases hn : n = name
  · subst hn
    rw [resolve?_modify hkey, hx]
    exact .some ⟨rfl, fun m hm => nomatch hnone.symm.trans hm⟩
  · rw [resolve?_modify_of_ne hkey s hn]
    exact rel_refl Symbol.Renames.refl _

end Scopes

namespace Analysis

variable {calls : Calls} {config : Config} {s t i j : State}

theorem runtimeName_renames {name emitName : String}
    (h : runtimeName name config s = (.ok emitName, t)) :
    s.scopes.Renames t.scopes ∧ t.scopes.Emits name emitName := by
  obtain ⟨x, s', hresolve, hrest⟩ := run_bind_eq_ok.1 h
  obtain ⟨hx, rfl⟩ := resolve_eq_ok hresolve
  rcases hname : x.emitName with - | m
  · rw [hname] at hrest
    by_cases hkind : x.kind = .classicalVariable
    · simp only [if_pos hkind] at hrest
      obtain ⟨y, registers, declarations, hy, rfl⟩ := materialize_eq_ok hrest
      refine ⟨Scopes.renames_modify hx hname emitName, { x with emitName := some emitName }, ?_, rfl⟩
      dsimp only
      rw [Scopes.resolve?_modify (keepsKey_emitName _), hx, Option.map_some]
    · simp only [if_neg hkind] at hrest
      nomatch hrest
  · rw [hname] at hrest
    cases hrest
    exact ⟨Scopes.Renames.refl _, x, hx, hname⟩

/-- A state of the flat program goes with one of the source: every variable that has a name in the flat
program has under this name the same value and the same type. The flat program has no subroutines. -/
structure Mirrors (calls : Calls) (config : Config) (t source flat : State) : Prop where
  value : ∀ name emitName, t.scopes.Emits name emitName → ∀ v,
    Gives calls config source (.name name) v ↔ Gives calls config flat (.name emitName) v
  type : ∀ name emitName, t.scopes.Emits name emitName → ∀ type,
    HasType calls config source (.name name) type → HasType calls config flat (.name emitName) type
  silent : ∀ name, flat.scopes.subroutine? name = none

/-- An expression of the flat program that has the value of one of the source, whenever the variables have
values that agree with what is known. -/
def Represents (calls : Calls) (config : Config) (t : State) (e r : Expr) : Prop :=
  ∀ ⦃source flat⦄, t.scopes.Refines source.scopes → Mirrors calls config t source flat → ∀ v,
    Gives calls config source e v ↔ Gives calls config flat r v

section Moving

variable {source flat : State} {e r : Expr}

theorem Mirrors.earlier (h : Mirrors calls config t source flat) (hst : s.scopes.Renames t.scopes) :
    Mirrors calls config s source flat :=
  ⟨fun _ _ hname => h.value _ _ (hst.emits hname), fun _ _ hname => h.type _ _ (hst.emits hname),
    h.silent⟩

theorem Represents.later (h : Represents calls config s e r) (hst : s.scopes.Renames t.scopes) :
    Represents calls config t e r :=
  fun _ _ hsource hflat => h (hst.refines.trans hsource) (hflat.earlier hst)

/-- Without subroutines nothing is changed by an evaluation. -/
theorem Mirrors.still (h : Mirrors calls config t source flat) (e : Expr) :
    Still calls config flat e := by
  intro v u hrun
  have htypes : calls.TypesResults flat.scopes := fun f _ _ hd => nomatch (h.silent f).symm.trans hd
  have hstate := fold_leaves htypes e (fun f _ => h.silent f) config flat (Scopes.Same.refl _)
  rw [hrun] at hstate
  exact hstate

theorem passive_still (hq : s.scopes.Passive e.callees e.measures) : Still calls config s e :=
  fun v u hrun => (fold_carries (Scopes.Refines.refl _) e hq v u hrun).1

theorem gives_of_refines (h : s.scopes.Refines t.scopes) (hq : s.scopes.Passive e.callees e.measures)
    {v : Value} (hv : Gives calls config s e v) : Gives calls config t e v :=
  (fold_carries h e hq (some v) s hv).2 rfl

theorem hasType_of_refines (h : s.scopes.Refines t.scopes)
    (hq : s.scopes.Passive e.callees e.measures) {type : ClassicalType}
    (htype : HasType calls config s e type) : HasType calls config t e type :=
  (infer_carries h e hq type s htype).2 trivial

end Moving

section Literals

variable {e r : Expr} {v : Value} {literal : Option Expr}

theorem foldLiteral?_eq_ok (h : foldLiteral? calls e config s = (.ok literal, t)) :
    ∃ v, fold calls e config s = (.ok v, t) ∧ literal = v.map Value.toExpr := by
  rw [foldLiteral?, run_get] at h
  by_cases hcalls : callsSubroutine s.scopes e = true
  · rw [if_pos hcalls] at h
    cases h
  · rw [if_neg hcalls] at h
    obtain ⟨v, u, hv, h⟩ := run_bind_eq_ok.1 h
    cases h
    exact ⟨v, hv, rfl⟩

/-- How an expression is rewritten of which the value is not known. -/
def residualizeParts (calls : Calls) : Expr → Analysis Expr
  | .name n => do return .name (← runtimeName n)
  | .unary op e => do return .unary op (← residualize calls e)
  | .binary l op r => do
    let l ← residualize calls l
    let r ← residualize calls r
    return .binary l op r
  | .call f args => do return .call f (← residualizeAll calls args)
  | .index base items => do
    let t ← infer calls base
    let items ← literalItems calls (t.width?.getD 0) items
    return .index (← residualize calls base) items
  | .cast type e => do
    let t ← resolveType calls type
    return .cast t.toExpr (← residualize calls e)
  | .array items => do return .array (← residualizeAll calls items)
  | .paren e => do return .paren (← residualize calls e)
  | e => return e

theorem residualize_eq (calls : Calls) (e : Expr) :
    residualize calls e = foldLiteral? calls e >>= fun literal =>
      literal.elim (residualizeParts calls e) pure := by
  cases e <;>
    · simp only [residualize, residualizeParts]
      apply bind_congr
      rintro (_ | r) <;> rfl

/-- An expression that is known is written as a literal, and of another one the parts are rewritten. -/
theorem residualize_cases (h : residualize calls e config s = (.ok r, t)) :
    (∃ v, fold calls e config s = (.ok (some v), t) ∧ r = v.toExpr) ∨
      ∃ u, fold calls e config s = (.ok none, u) ∧ residualizeParts calls e config u = (.ok r, t) := by
  rw [residualize_eq] at h
  obtain ⟨literal, u, hliteral, hrest⟩ := run_bind_eq_ok.1 h
  obtain ⟨w, hw, rfl⟩ := foldLiteral?_eq_ok hliteral
  cases w with
  | some w =>
    cases hrest
    exact Or.inl ⟨w, hw, rfl⟩
  | none => exact Or.inr ⟨u, hw, hrest⟩

/-- What is known is written as a literal. -/
theorem residualize_known (hv : Gives calls config s e v)
    (h : residualize calls e config s = (.ok r, t)) : r = v.toExpr ∧ t = s := by
  obtain ⟨w, hw, rfl⟩ | ⟨u, hu, -⟩ := residualize_cases h
  · cases hv.symm.trans hw
    exact ⟨rfl, rfl⟩
  · nomatch hv.symm.trans hu

/-- Where nothing else can come of the evaluation than that the value is not known, the parts are
rewritten. -/
theorem residualize_unknown
    (hunknown : ∀ v t, fold calls e config i = (.ok v, t) → v = none ∧ t = i)
    (h : residualize calls e config i = (.ok r, j)) :
    residualizeParts calls e config i = (.ok r, j) := by
  obtain ⟨w, hw, -⟩ | ⟨u, hu, hrest⟩ := residualize_cases h
  · nomatch (hunknown (some w) j hw).1
  · obtain ⟨-, rfl⟩ := hunknown none u hu
    exact hrest

/-- What is not known at first is not known while names are given. -/
theorem Undetermined.renamed (hs : Undetermined calls config s e)
    (hq : s.scopes.Passive e.callees e.measures) (hsi : s.scopes.Renames i.scopes) {v : Option Value}
    (h : fold calls e config i = (.ok v, t)) : v = none ∧ t = i := by
  obtain ⟨rfl, hkept⟩ := fold_carries hsi.refined e (hsi.refines.passive hq) v t h
  cases v with
  | none => exact ⟨rfl, rfl⟩
  | some v => nomatch hs.symm.trans (hkept rfl)

theorem Undetermined.residualizeParts (hs : Undetermined calls config s e)
    (hq : s.scopes.Passive e.callees e.measures) (hsi : s.scopes.Renames i.scopes)
    (h : residualize calls e config i = (.ok r, j)) :
    Analysis.residualizeParts calls e config i = (.ok r, j) :=
  residualize_unknown (fun _ _ hv => hs.renamed hq hsi hv) h

end Literals

section Indices

variable {n : Nat} {type : ClassicalType} {items written : List IndexItem}

/-- Every item of an index names the same positions in its own dimension as in a sequence of one
length. -/
def CountsAlike (calls : Calls) (config : Config) (s : State) (n : Nat) :
    ClassicalType → List IndexItem → Prop
  | _, [] => True
  | type, item :: rest => ∀ ps, itemPositions calls n item config s = (.ok ps, s) →
    (∀ m, type.width? = some m → itemPositions calls m item config s = (.ok ps, s)) ∧
      ∀ t, selectedType? type (isSingle item) ps.length = some t →
        CountsAlike calls config s n t rest

/-- An index with one item counts in the dimension that it applies to. -/
theorem countsAlike_singleton (hwidth : type.width? = some n) (item : IndexItem) :
    CountsAlike calls config s n type [item] := by
  refine fun ps hps => ⟨fun m hm => ?_, fun _ _ => trivial⟩
  cases hwidth.symm.trans hm
  exact hps

theorem itemsType_congr (h : written.map isSingle = items.map isSingle) (t : ClassicalType) :
    itemsType t written = itemsType t items := by
  induction items generalizing written t with
  | nil => rw [List.map_eq_nil_iff.1 h]
  | cons item rest ih =>
    cases written with
    | nil => nomatch h
    | cons item' rest' =>
      obtain ⟨hitem, hrest⟩ := List.cons.inj h
      simp only [itemsType, hitem]
      split
      · exact ih hrest _
      · rfl

/-- The positions of the first item, and the rest. -/
theorem literalItems_cons {item : IndexItem} {rest : List IndexItem}
    (hq : i.scopes.Passive item.callees item.measures)
    (h : literalItems calls n (item :: rest) config i = (.ok written, j)) :
    ∃ ps more, itemPositions calls n item config i = (.ok ps, i) ∧
      literalItems calls n rest config i = (.ok more, j) ∧
      written = literalItem (isSingle item) ps :: more := by
  rw [literalItems] at h
  obtain ⟨ps, u, hps, hrest⟩ := run_bind_eq_ok.1 h
  cases (itemPositions_carries (Scopes.Refines.refl _) n item hq ps u hps).1
  obtain ⟨more, u', hmore, hresult⟩ := run_bind_eq_ok.1 hrest
  cases hresult
  exact ⟨ps, more, hps, hmore, rfl⟩

theorem literalItems_shape (hq : i.scopes.Passive (itemsCallees items) (itemsMeasure items))
    (h : literalItems calls n items config i = (.ok written, j)) :
    j = i ∧ written.map isSingle = items.map isSingle := by
  induction items generalizing written j with
  | nil =>
    cases h
    exact ⟨rfl, rfl⟩
  | cons item rest ih =>
    obtain ⟨hitem, hrest⟩ := Scopes.passive_append.1 hq
    obtain ⟨ps, more, hps, hmore, rfl⟩ := literalItems_cons hitem h
    obtain ⟨hstate, hshape⟩ := ih hrest hmore
    refine ⟨hstate, ?_⟩
    rw [List.map_cons, List.map_cons, hshape, isSingle_literalItem (itemPositions_isSingle hps)]

/-- Positions that are written out select what the items of the index select when the program runs. -/
theorem literalItems_select (hq : s.scopes.Passive (itemsCallees items) (itemsMeasure items))
    (hsi : s.scopes.Renames i.scopes) (hbound : n ≤ Bound.integer)
    (halike : CountsAlike calls config s n type items)
    (h : literalItems calls n items config i = (.ok written, j)) {source : State}
    (hsource : s.scopes.Refines source.scopes) (flat : State) (v w : Option Value) :
    foldItems calls type v items config source = (.ok w, source) ↔
      foldItems calls type v written config flat = (.ok w, flat) := by
  induction items generalizing type written j v with
  | nil =>
    cases h
    constructor <;>
      · rintro ⟨⟩
        rfl
  | cons item rest ih =>
    obtain ⟨hitem, hrest⟩ := Scopes.passive_append.1 hq
    obtain ⟨ps, more, hps, hmore, rfl⟩ := literalItems_cons (hsi.refines.passive hitem) h
    have hpositions : itemPositions calls n item config s = (.ok ps, s) :=
      (itemPositions_carries hsi.refined n item (hsi.refines.passive hitem) ps i hps).2 trivial
    obtain ⟨hown, hnext⟩ := halike ps hpositions
    simp only [foldItems]
    -- In the source the item counts in its own dimension, and its positions are the ones written.
    rcases hwidth : type.width? with - | m
    · exact ⟨(fun h => by cases h), fun h => by cases h⟩
    · have hat := hown m hwidth
      have hlt : ∀ p ∈ ps, p < m ∧ p < Bound.integer := fun p hp =>
        ⟨itemPositions_lt hat p hp, Nat.lt_of_lt_of_le (itemPositions_lt hps p hp) hbound⟩
      have hwritten := itemPositions_literalItem (itemPositions_isSingle hps) hlt calls config flat
      have hread : itemPositions calls m item config source = (.ok ps, source) :=
        (itemPositions_carries hsource m item hitem ps s hat).2 trivial
      dsimp only
      rw [run_bind, hread, run_bind, hwritten]
      simp only [isSingle_literalItem (itemPositions_isSingle hps)]
      rcases htype : selectedType? type (isSingle item) ps.length with - | t
      · exact ⟨(fun h => by cases h), fun h => by cases h⟩
      · exact ih hrest (hnext t htype) hmore _

end Indices

section Places

variable {e r : Expr}

/-- A variable whose value is not known, or a part of one. -/
inductive Located (calls : Calls) (config : Config) (s : State) : Expr → Prop
  | name {n : String} : Undetermined calls config s (.name n) → Located calls config s (.name n)
  | index {base : Expr} (items : List IndexItem) : Located calls config s base →
    Located calls config s (.index base items)
  | paren {e : Expr} : Located calls config s e → Located calls config s (.paren e)

/-- Nothing is known of such a part while names are given. -/
theorem Located.renamed (he : Located calls config s e) (hq : s.scopes.Passive e.callees e.measures)
    (hsi : s.scopes.Renames i.scopes) {v : Option Value} (h : fold calls e config i = (.ok v, t)) :
    v = none ∧ t = i := by
  induction he generalizing v t with
  | name hn => exact hn.renamed hq hsi h
  | @index base items _ ih =>
    obtain ⟨hbase, -⟩ := Scopes.passive_append.1 hq
    refine ⟨?_, (fold_carries (Scopes.Refines.refl _) _ (hsi.refines.passive hq) v t h).1⟩
    rw [fold] at h
    obtain ⟨type, u, htype, hrest⟩ := run_bind_eq_ok.1 h
    cases (infer_carries (Scopes.Refines.refl _) base (hsi.refines.passive hbase) type u htype).1
    obtain ⟨b, u', hb, hitems⟩ := run_bind_eq_ok.1 hrest
    cases (ih hbase hb).1
    exact foldItems_none hitems
  | paren _ ih => exact ih hq h

theorem Located.residualizeParts (he : Located calls config s e)
    (hq : s.scopes.Passive e.callees e.measures) (hsi : s.scopes.Renames i.scopes)
    (h : residualize calls e config i = (.ok r, j)) :
    Analysis.residualizeParts calls e config i = (.ok r, j) :=
  residualize_unknown (fun _ _ hv => he.renamed hq hsi hv) h

/-- The items of an index are written first, and then what they apply to. -/
theorem residualizeParts_index {base : Expr} {items : List IndexItem}
    (hq : i.scopes.Passive (Expr.index base items).callees (Expr.index base items).measures)
    (h : residualizeParts calls (.index base items) config i = (.ok r, j)) :
    ∃ type written r', HasType calls config i base type ∧
      literalItems calls (type.width?.getD 0) items config i = (.ok written, i) ∧
      residualize calls base config i = (.ok r', j) ∧ r = .index r' written := by
  obtain ⟨hbase, hitems⟩ := Scopes.passive_append.1 hq
  obtain ⟨type, u, htype, hrest⟩ := run_bind_eq_ok.1 h
  cases (infer_carries (Scopes.Refines.refl _) base hbase type u htype).1
  obtain ⟨written, u, hwritten, hrest⟩ := run_bind_eq_ok.1 hrest
  cases (literalItems_shape hitems hwritten).1
  obtain ⟨r', u, hr', hresult⟩ := run_bind_eq_ok.1 hrest
  cases hresult
  exact ⟨type, written, r', htype, hwritten, hr', rfl⟩

/-- A part of a variable is written as a part of the variable under its other name, so that it has the same
type. -/
theorem Located.hasType {source flat : State} {type : ClassicalType}
    (he : Located calls config s e) (hq : s.scopes.Passive e.callees e.measures)
    (hsi : s.scopes.Renames i.scopes) (h : residualize calls e config i = (.ok r, j))
    (hsource : s.scopes.Refines source.scopes) (hflat : Mirrors calls config j source flat)
    (htype : HasType calls config source e type) : HasType calls config flat r type := by
  induction he generalizing r type with
  | @name n hn =>
    have hparts := hn.residualizeParts hq hsi h
    obtain ⟨emitName, u, hname, hresult⟩ := run_bind_eq_ok.1 hparts
    cases hresult
    exact hflat.type n emitName (runtimeName_renames hname).2 type htype
  | @index base items he ih =>
    obtain ⟨hbase, hitems⟩ := Scopes.passive_append.1 hq
    obtain ⟨_, written, r', -, hwritten, hr', rfl⟩ :=
      residualizeParts_index (hsi.refines.passive hq) ((he.index items).residualizeParts hq hsi h)
    obtain ⟨-, hshape⟩ := literalItems_shape (hsi.refines.passive hitems) hwritten
    rw [HasType, infer] at htype
    obtain ⟨t, u, ht, hrest⟩ := run_bind_eq_ok.1 htype
    cases (infer_carries (Scopes.Refines.refl _) base (hsource.passive hbase) t u ht).1
    have hinner : HasType calls config flat r' t := ih hbase hr' ht
    -- The static type of an element takes only the form of the items, not their positions.
    have hitem : itemsType t items config flat = (.ok type, flat) :=
      (itemsType_carries t items type source hrest).2 trivial
    rw [HasType, infer, run_bind, hinner]
    dsimp only
    rw [itemsType_congr hshape, hitem]
  | @paren e he ih =>
    obtain ⟨r', u, hr', hresult⟩ := run_bind_eq_ok.1 (he.paren.residualizeParts hq hsi h)
    cases hresult
    have hinner : HasType calls config flat r' type := ih hq hr' htype
    exact hinner

end Places

/-- Expressions that the flat program can express. Each part has a value that is known and that a literal
stands for, or it is rewritten; what is indexed is a variable or a part of one. -/
inductive Expressible (calls : Calls) (config : Config) (s : State) : Expr → Prop
  | known {e : Expr} {v : Value} : Gives calls config s e v → v.ReadsBack →
    Expressible calls config s e
  | name {n : String} : Undetermined calls config s (.name n) →
    Expressible calls config s (.name n)
  | unary {op : UnaryOp} {e : Expr} : Undetermined calls config s (.unary op e) →
    Expressible calls config s e → Expressible calls config s (.unary op e)
  | binary {l r : Expr} {op : BinaryOp} : Undetermined calls config s (.binary l op r) →
    Expressible calls config s l → Expressible calls config s r →
      Expressible calls config s (.binary l op r)
  | call {f : String} {args : List Expr} : Undetermined calls config s (.call f args) →
    (∀ e ∈ args, Expressible calls config s e) → Expressible calls config s (.call f args)
  | index {base : Expr} {items : List IndexItem} {type : ClassicalType} {n : Nat} :
    Undetermined calls config s (.index base items) → Located calls config s base →
      Expressible calls config s base → HasType calls config s base type →
        type.width? = some n → n ≤ Bound.integer → CountsAlike calls config s n type items →
          Expressible calls config s (.index base items)
  | cast {type : TypeExpr} {e : Expr} : Undetermined calls config s (.cast type e) →
    Expressible calls config s e → Expressible calls config s (.cast type e)
  | array {es : List Expr} : Undetermined calls config s (.array es) →
    (∀ e ∈ es, Expressible calls config s e) → Expressible calls config s (.array es)
  | paren {e : Expr} : Undetermined calls config s (.paren e) → Expressible calls config s e →
    Expressible calls config s (.paren e)

/-- However names have been given before, the expression is rewritten to one that represents it. -/
def Rewrites (calls : Calls) (config : Config) (s : State) (e : Expr) : Prop :=
  ∀ ⦃i r j⦄, s.scopes.Renames i.scopes → residualize calls e config i = (.ok r, j) →
    i.scopes.Renames j.scopes ∧ Represents calls config j e r

section Rewriting

variable {e l r : Expr} {es args : List Expr}

theorem rewrites_known {v : Value} (hq : s.scopes.Passive e.callees e.measures)
    (hv : Gives calls config s e v) (hread : v.ReadsBack) : Rewrites calls config s e := by
  intro i r j hsi hrun
  obtain ⟨rfl, rfl⟩ := residualize_known (gives_of_refines hsi.refines hq hv) hrun
  refine ⟨Scopes.Renames.refl _, fun source flat hsource hflat w => ?_⟩
  have hsourceValue := gives_of_refines (hsi.refines.trans hsource) hq hv
  constructor
  · intro hw
    cases hsourceValue.unique hw
    exact hread calls config flat
  · intro hw
    cases Gives.unique (hread calls config flat) hw
    exact hsourceValue

theorem rewrites_name {n : String} (hq : s.scopes.Passive (Expr.name n).callees (Expr.name n).measures)
    (hn : Undetermined calls config s (.name n)) : Rewrites calls config s (.name n) := by
  intro i r j hsi hrun
  obtain ⟨emitName, u, hname, hresult⟩ := run_bind_eq_ok.1 (hn.residualizeParts hq hsi hrun)
  cases hresult
  obtain ⟨hrenames, hemits⟩ := runtimeName_renames hname
  exact ⟨hrenames, fun source flat _ hflat => hflat.value n emitName hemits⟩

theorem rewrites_unary {op : UnaryOp}
    (hq : s.scopes.Passive (Expr.unary op e).callees (Expr.unary op e).measures)
    (hu : Undetermined calls config s (.unary op e)) (he : Rewrites calls config s e) :
    Rewrites calls config s (.unary op e) := by
  intro i r j hsi hrun
  obtain ⟨r', u, hr', hresult⟩ := run_bind_eq_ok.1 (hu.residualizeParts hq hsi hrun)
  cases hresult
  obtain ⟨hrenames, hrepresents⟩ := he hsi hr'
  refine ⟨hrenames, fun source flat hsource hflat v => ?_⟩
  rw [gives_unary, gives_unary]
  simp only [hrepresents hsource hflat]

theorem rewrites_binary {op : BinaryOp}
    (hq : s.scopes.Passive (Expr.binary l op r).callees (Expr.binary l op r).measures)
    (hu : Undetermined calls config s (.binary l op r)) (hl : Rewrites calls config s l)
    (hr : Rewrites calls config s r) : Rewrites calls config s (.binary l op r) := by
  intro i result j hsi hrun
  obtain ⟨l', k, hl', hrest⟩ := run_bind_eq_ok.1 (hu.residualizeParts hq hsi hrun)
  obtain ⟨r', j', hr', hresult⟩ := run_bind_eq_ok.1 hrest
  cases hresult
  obtain ⟨hik, hleft⟩ := hl hsi hl'
  obtain ⟨hkj, hright⟩ := hr (hsi.trans hik) hr'
  refine ⟨hik.trans hkj, fun source flat hsource hflat v => ?_⟩
  have hlater := ((hsi.trans hik).trans hkj).refines.trans hsource
  have hpassive := hlater.passive (Scopes.passive_append.1 hq).1
  rw [gives_binary (passive_still hpassive), gives_binary (hflat.still l')]
  -- The names of the left operand are still there after the right one has been rewritten.
  simp only [hleft.later hkj hsource hflat, hright hsource hflat]

theorem rewrites_all (hes : ∀ e ∈ es, Rewrites calls config s e) {rs : List Expr}
    (hsi : s.scopes.Renames i.scopes) (h : residualizeAll calls es config i = (.ok rs, j)) :
    i.scopes.Renames j.scopes ∧ List.Forall₂ (Represents calls config j) es rs := by
  induction es generalizing i rs with
  | nil =>
    cases h
    exact ⟨Scopes.Renames.refl _, .nil⟩
  | cons e es ih =>
    obtain ⟨he, hes⟩ := List.forall_mem_cons.1 hes
    rw [residualizeAll] at h
    obtain ⟨r, k, hr, hrest⟩ := run_bind_eq_ok.1 h
    obtain ⟨rs, j', hrs, hresult⟩ := run_bind_eq_ok.1 hrest
    cases hresult
    obtain ⟨hik, hrepresents⟩ := he hsi hr
    obtain ⟨hkj, hall⟩ := ih hes (hsi.trans hik) hrs
    exact ⟨hik.trans hkj, .cons (hrepresents.later hkj) hall⟩

theorem rewrites_call {f : String}
    (hq : s.scopes.Passive (Expr.call f args).callees (Expr.call f args).measures)
    (hu : Undetermined calls config s (.call f args))
    (hargs : ∀ e ∈ args, Rewrites calls config s e) : Rewrites calls config s (.call f args) := by
  intro i r j hsi hrun
  obtain ⟨rs, u, hrs, hresult⟩ := run_bind_eq_ok.1 (hu.residualizeParts hq hsi hrun)
  cases hresult
  obtain ⟨hrenames, hall⟩ := rewrites_all hargs hsi hrs
  refine ⟨hrenames, fun source flat hsource hflat v => ?_⟩
  have hsilent := ((hsi.trans hrenames).refines.trans hsource).subroutine? f
  rw [gives_call (hsilent.trans (Scopes.passive_cons.1 hq).1), gives_call (hflat.silent f)]
  -- Only a call with one argument has a value.
  cases hall with
  | nil => simp
  | cons hfirst hothers =>
    cases hothers with
    | nil =>
      have hvalue := hfirst hsource hflat
      simp [hvalue]
    | cons _ _ => simp

theorem forall₂_gives {source flat : State} {rs : List Expr} {vs : List Value}
    (h : List.Forall₂ (fun e r => ∀ v, Gives calls config source e v ↔ Gives calls config flat r v)
      es rs) :
    List.Forall₂ (Gives calls config source) es vs ↔
      List.Forall₂ (Gives calls config flat) rs vs := by
  induction h generalizing vs with
  | nil => rw [List.forall₂_nil_left_iff, List.forall₂_nil_left_iff]
  | cons hvalue _ ih =>
    rw [List.forall₂_cons_left_iff, List.forall₂_cons_left_iff]
    simp only [hvalue, ih]

theorem rewrites_array
    (hq : s.scopes.Passive (Expr.array es).callees (Expr.array es).measures)
    (hu : Undetermined calls config s (.array es))
    (hes : ∀ e ∈ es, Rewrites calls config s e) : Rewrites calls config s (.array es) := by
  intro i r j hsi hrun
  obtain ⟨rs, u, hrs, hresult⟩ := run_bind_eq_ok.1 (hu.residualizeParts hq hsi hrun)
  cases hresult
  obtain ⟨hrenames, hall⟩ := rewrites_all hes hsi hrs
  refine ⟨hrenames, fun source flat hsource hflat v => ?_⟩
  have hlater := (hsi.trans hrenames).refines.trans hsource
  have hstill : ∀ e ∈ es, Still calls config source e :=
    fun e he => passive_still (hlater.passive (Scopes.passive_of_mem he hq))
  have hvalues (vs : List Value) : List.Forall₂ (Gives calls config source) es vs ↔
      List.Forall₂ (Gives calls config flat) rs vs :=
    forall₂_gives (hall.imp fun _ _ hrepresents => hrepresents hsource hflat)
  rw [gives_array hstill, gives_array fun r _ => hflat.still r]
  simp only [hvalues]

theorem rewrites_index {base : Expr} {items : List IndexItem} {type : ClassicalType} {n : Nat}
    (hq : s.scopes.Passive (Expr.index base items).callees (Expr.index base items).measures)
    (hu : Undetermined calls config s (.index base items)) (hplace : Located calls config s base)
    (hbase : Rewrites calls config s base) (htype : HasType calls config s base type)
    (hwidth : type.width? = some n) (hbound : n ≤ Bound.integer)
    (halike : CountsAlike calls config s n type items) :
    Rewrites calls config s (.index base items) := by
  intro i r j hsi hrun
  obtain ⟨hqbase, hqitems⟩ := Scopes.passive_append.1 hq
  obtain ⟨type', written, r', htype', hwritten, hr', rfl⟩ :=
    residualizeParts_index (hsi.refines.passive hq) (hu.residualizeParts hq hsi hrun)
  -- The length that all items are counted in is the one of the first dimension.
  cases (hasType_of_refines hsi.refines hqbase htype).symm.trans htype'
  rw [hwidth, Option.getD_some] at hwritten
  obtain ⟨hrenames, hrepresents⟩ := hbase hsi hr'
  refine ⟨hrenames, fun source flat hsource hflat v => ?_⟩
  have hlater := (hsi.trans hrenames).refines.trans hsource
  have hsourceType := hasType_of_refines hlater hqbase htype
  have hflatType := hplace.hasType hqbase hsi hr' hlater hflat hsourceType
  rw [gives_index hsourceType (passive_still (hlater.passive hqbase)),
    gives_index hflatType (hflat.still r')]
  simp only [hrepresents hsource hflat,
    literalItems_select hqitems hsi hbound halike hwritten hlater flat]

theorem rewrites_cast {type : TypeExpr}
    (hq : s.scopes.Passive (Expr.cast type e).callees (Expr.cast type e).measures)
    (hu : Undetermined calls config s (.cast type e)) (he : Rewrites calls config s e) :
    Rewrites calls config s (.cast type e) := by
  intro i r j hsi hrun
  obtain ⟨hqtype, hqe⟩ := Scopes.passive_append.1 hq
  obtain ⟨t, u, ht, hrest⟩ := run_bind_eq_ok.1 (hu.residualizeParts hq hsi hrun)
  obtain ⟨hstate, hkept⟩ := resolveType_carries hsi.refined type (hsi.refines.passive hqtype) t u ht
  cases hstate
  obtain ⟨r', j', hr', hresult⟩ := run_bind_eq_ok.1 hrest
  cases hresult
  obtain ⟨hrenames, hrepresents⟩ := he hsi hr'
  refine ⟨hrenames, fun source flat hsource hflat v => ?_⟩
  have hlater := (hsi.trans hrenames).refines.trans hsource
  have htype : resolveType calls type config source = (.ok t, source) :=
    (resolveType_carries hlater type hqtype t s (hkept trivial)).2 trivial
  -- The type is written with its widths, and read again from them.
  have hwritten := resolveType_toExpr (resolveType_writable ht) calls config flat
  rw [gives_cast htype, gives_cast hwritten]
  simp only [hrepresents hsource hflat]

theorem rewrites_paren (hq : s.scopes.Passive (Expr.paren e).callees (Expr.paren e).measures)
    (hu : Undetermined calls config s (.paren e)) (he : Rewrites calls config s e) :
    Rewrites calls config s (.paren e) := by
  intro i r j hsi hrun
  obtain ⟨r', u, hr', hresult⟩ := run_bind_eq_ok.1 (hu.residualizeParts hq hsi hrun)
  cases hresult
  have hinner := he hsi hr'
  exact hinner

/-- The induction is on the evidence. Names that some variables have got are no obstacle to giving names to
others. -/
theorem Expressible.rewrites (h : Expressible calls config s e)
    (hq : s.scopes.Passive e.callees e.measures) : Rewrites calls config s e := by
  induction h with
  | known hv hread => exact rewrites_known hq hv hread
  | name hn => exact rewrites_name hq hn
  | unary hu _ ih => exact rewrites_unary hq hu (ih hq)
  | binary hu _ _ ihl ihr =>
    obtain ⟨hl, hr⟩ := Scopes.passive_append.1 hq
    exact rewrites_binary hq hu (ihl hl) (ihr hr)
  | call hu _ ih =>
    exact rewrites_call hq hu fun e he =>
      ih e he (Scopes.passive_of_mem he (Scopes.passive_cons.1 hq).2)
  | index hu hplace _ htype hwidth hbound halike ih =>
    exact rewrites_index hq hu hplace (ih (Scopes.passive_append.1 hq).1) htype hwidth hbound halike
  | cast hu _ ih => exact rewrites_cast hq hu (ih (Scopes.passive_append.1 hq).2)
  | array hu _ ih => exact rewrites_array hq hu fun e he => ih e he (Scopes.passive_of_mem he hq)
  | paren hu _ ih => exact rewrites_paren hq hu (ih hq)

end Rewriting

/-- What is left of an expression for the run of the program has the same value as the expression, for all
values of the variables that agree with what is known. -/
theorem residual_gives {e r : Expr} (hsilent : s.scopes.Silent e.callees)
    (hmeasures : e.measures = false) (hexpressible : Expressible calls config s e)
    (hrun : residualize calls e config s = (.ok r, t)) {source flat : State}
    (hsource : t.scopes.Refines source.scopes) (hflat : Mirrors calls config t source flat)
    (v : Value) : Gives calls config source e v ↔ Gives calls config flat r v := by
  obtain ⟨-, hrepresents⟩ :=
    hexpressible.rewrites ⟨hsilent, hmeasures⟩ (Scopes.Renames.refl _) hrun
  exact hrepresents hsource hflat v

section Instance

/-- A state in which some symbols are declared globally, and nothing else has been done. -/
def State.ofSymbols (symbols : List Symbol) : State :=
  { State.initial with scopes := ⟨symbols, []⟩ }

theorem resolve?_ofSymbols (symbols : List Symbol) (name : String) :
    (State.ofSymbols symbols).scopes.resolve? name = Symbol.find? name symbols := by
  have hvisible : (State.ofSymbols symbols).scopes.resolve? name =
      (Symbol.find? name symbols).filter fun x => !false || x.crossesBodies := rfl
  rw [hvisible]
  cases Symbol.find? name symbols <;> rfl

namespace Grid

/-- An array of two rows; in the flat program it is called `b`. -/
def array (name : String) (value : Option Value) : Symbol :=
  { name, kind := .classicalVariable, span := .none, type := some (.array .defaultInt [2, 2]),
    value, emitName := some "b" }

/-- A variable whose value is known. -/
def summand : Symbol :=
  { name := "k", kind := .classicalVariable, span := .none, type := some .defaultInt,
    value := some (.int 3) }

def before : State := .ofSymbols [array "a" none, summand]

def rows : Value := .array [.array [.int 1, .int 2], .array [.int 4, .int 5]]

def source : State := .ofSymbols [array "a" (some rows), summand]

def flat : State := .ofSymbols [array "b" (some rows)]

/-- The last element of the last row. -/
def element : Expr := .index (.name "a") [.single (.int 1), .single (.unary .neg (.int 1))]

def sum : Expr := .binary element .add (.name "k")

def residual : Expr :=
  .binary (.index (.name "b") [.single (.int 1), .single (.int 1)]) .add (.int 3)

theorem residualize_sum : residualize (.nested 0) sum .default before = (.ok residual, before) := rfl

/-- Both dimensions have the same length, so that the last index may count from the end. -/
theorem element_expressible : Expressible (.nested 0) .default before element := by
  have hname : Undetermined (.nested 0) .default before (.name "a") := rfl
  have htype : HasType (.nested 0) .default before (.name "a") (.array .defaultInt [2, 2]) := rfl
  have hwidth : (ClassicalType.array .defaultInt [2, 2]).width? = some 2 := rfl
  have halike : CountsAlike (.nested 0) .default before 2 (.array .defaultInt [2, 2])
      [.single (.int 1), .single (.unary .neg (.int 1))] := by
    refine fun ps hps => ⟨fun m hm => ?_, fun t ht => ?_⟩
    · cases hm
      exact hps
    · cases ht
      exact countsAlike_singleton rfl _
  exact .index rfl (.name hname) (.name hname) htype hwidth (by decide) halike

theorem sum_expressible : Expressible (.nested 0) .default before sum := by
  have hknown : Gives (.nested 0) .default before (.name "k") (.int 3) := rfl
  exact .binary rfl element_expressible (.known hknown (Value.readsBack_int (by decide)))

theorem source_refines : before.scopes.Refines source.scopes := by
  intro name
  rw [before, source, resolve?_ofSymbols, resolve?_ofSymbols,
    Scopes.find?_push (array "a" none), Scopes.find?_push (array "a" (some rows))]
  by_cases hname : "a" = name
  · subst hname
    exact .some ⟨rfl, rfl, rfl, nofun⟩
  · have hsource : (array "a" (some rows)).name ≠ name := hname
    have hbefore : (array "a" none).name ≠ name := hname
    rw [if_neg hbefore, if_neg hsource]
    exact rel_refl Symbol.Refines.refl _

theorem before_emits {name emitName : String} (h : before.scopes.Emits name emitName) :
    name = "a" ∧ emitName = "b" := by
  obtain ⟨x, hx, hemit⟩ := h
  rw [before, resolve?_ofSymbols] at hx
  obtain ⟨hmem, hname⟩ := Scopes.mem_of_find? hx
  rcases List.mem_cons.1 hmem with rfl | hlast
  · cases hemit
    exact ⟨hname.symm, rfl⟩
  · cases List.mem_singleton.1 hlast
    nomatch hemit

theorem flat_mirrors : Mirrors (.nested 0) .default before source flat where
  value name emitName hname v := by
    obtain ⟨rfl, rfl⟩ := before_emits hname
    have hsource : Gives (.nested 0) .default source (.name "a") rows := rfl
    have hflat : Gives (.nested 0) .default flat (.name "b") rows := rfl
    exact ⟨fun h => hsource.unique h ▸ hflat, fun h => hflat.unique h ▸ hsource⟩
  type name emitName hname type htype := by
    obtain ⟨rfl, rfl⟩ := before_emits hname
    cases htype
    rfl
  silent name := by
    rw [Scopes.subroutine?, flat, resolve?_ofSymbols, Scopes.find?_push]
    split <;> rfl

end Grid

/-- The sum at the end of the rows has the same value in the source and in the flat program. -/
theorem residual_gives_sum :
    Grid.before.scopes.Silent Grid.sum.callees ∧ Grid.sum.measures = false ∧
      (Gives (.nested 0) .default Grid.source Grid.sum (.int 8) ↔
        Gives (.nested 0) .default Grid.flat Grid.residual (.int 8)) ∧
      Gives (.nested 0) .default Grid.source Grid.sum (.int 8) := by
  have hsilent : Grid.before.scopes.Silent Grid.sum.callees := fun _ hf => nomatch hf
  exact ⟨hsilent, rfl, residual_gives hsilent rfl Grid.sum_expressible Grid.residualize_sum
    Grid.source_refines Grid.flat_mirrors (.int 8), rfl⟩

end Instance

section Misplaced

variable {name : String} {first second r : Expr} {type : ClassicalType} {v : Int64}
  {n m a p q : Nat}

/-- Counting from the end gives different positions in sequences of different lengths. -/
theorem normalize_negative (hv : v.toInt < 0) (hn : n ≠ m)
    (hp : Index.normalize v.toInt n = .ok p) (hq : Index.normalize v.toInt m = .ok q) : p ≠ q := by
  have hcount {length k : Nat} (hk : Index.normalize v.toInt length = .ok k) :
      (k : Int) = v.toInt + length := by
    unfold Index.normalize at hk
    simp only [if_pos hv] at hk
    split at hk
    · cases hk
      omega
    · nomatch hk
  have hpn := hcount hp
  have hqm := hcount hq
  omega

theorem itemPositions_fold (hv : fold calls first config s = (.ok (some (.int v)), s))
    (hp : Index.normalize v.toInt n = .ok p) :
    itemPositions calls n (.single first) config s = (.ok [p], s) := by
  rw [itemPositions, run_bind, hv]
  simp only [indexValue, pure_bind, hp]
  rfl

/-- The second index of an element is written as if it counted from the end of the first dimension. In its
own dimension, if that has another length, it names another position. -/
theorem residual_misplaces
    (hpassive : s.scopes.Passive (Expr.index (.name name) [.single first, .single second]).callees
      (Expr.index (.name name) [.single first, .single second]).measures)
    (hname : Undetermined calls config s (.name name))
    (htype : HasType calls config s (.name name) type) (hwidth : type.width? = some n) (hn : n ≠ m)
    (hfirst : itemPositions calls n (.single first) config s = (.ok [a], s))
    (hsecond : fold calls second config s = (.ok (some (.int v)), s)) (hv : v.toInt < 0)
    (hp : Index.normalize v.toInt n = .ok p) (hq : Index.normalize v.toInt m = .ok q)
    (hrun : residualize calls (.index (.name name) [.single first, .single second]) config s =
      (.ok r, t)) :
    ∃ emitName, t.scopes.Emits name emitName ∧
      r = .index (.name emitName) [.single (positionExpr a), .single (positionExpr p)] ∧
      itemPositions calls m (.single second) config s = (.ok [q], s) ∧ p ≠ q := by
  have hsame := Scopes.Renames.refl s.scopes
  have hplace := (Located.name hname).index [.single first, .single second]
  obtain ⟨type', written, r', htype', hwritten, hr', rfl⟩ :=
    residualizeParts_index hpassive (hplace.residualizeParts hpassive hsame hrun)
  cases htype.symm.trans htype'
  have hitems : literalItems calls n [.single first, .single second] config s =
      (.ok [.single (positionExpr a), .single (positionExpr p)], s) := by
    rw [literalItems, run_bind, hfirst]
    dsimp only
    rw [run_bind, literalItems, run_bind, itemPositions_fold hsecond hp]
    rfl
  rw [hwidth, Option.getD_some, hitems] at hwritten
  cases hwritten
  have hparts := hname.residualizeParts (Scopes.passive_append.1 hpassive).1 hsame hr'
  obtain ⟨emitName, u, hemit, hresult⟩ := run_bind_eq_ok.1 hparts
  cases hresult
  exact ⟨emitName, (runtimeName_renames hemit).2, rfl, itemPositions_fold hsecond hq,
    normalize_negative hv hn hp hq⟩

/-- The last element of a row of three is written as the second one, because there are two rows. -/
theorem last_of_row_misplaced :
    let p := ofSource .default ("qubit q;\nbit c;\narray[int[32], 2, 3] a = {{1, 2, 3}, {4, 5, 6}};\n" ++
      "c = measure q;\nif (c == 1) { a[0, 0] = 9; }\nint k = a[1, -1];\n")
    p.diagnostics.length = 0 ∧
      p.statements.filterMap (fun f => match f with
        | .assign target value => some (target.text, value.text)
        | _ => none) = [("a", "{{1, 2, 3}, {4, 5, 6}}"), ("k", "a[1, 1]")] := by
  rw [← String.ofList_append, ofSource_ofList]
  decide +kernel

end Misplaced

end Analysis
end OpenQasm
