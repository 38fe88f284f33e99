import OpenQasm.Proofs.PartialEvaluation
import OpenQasm.Proofs.Selections
import OpenQasm.Proofs.TrackedValues
import OpenQasm.Proofs.ValueShapes

/-!
The type that is found for an expression, and the value that it has. Both are found by recursion on the expression,
each with rules for the operators of its own. Where the rules agree on every operation, the value is of the kind that
the type prescribes. Apart from operations whose result is of another kind than their type, there are two more
exceptions: the elements of an array literal are taken to have the type of the first one, and a part of an array has
the type of the whole array, so that its length can be another one.
-/
namespace OpenQasm

/-- Whether the value of an expression can be a part of an array. -/
def Expr.slices : Expr → Bool
  | .paren e => e.slices
  | .binary l .concat r => l.slices || r.slices
  | .index base items => items.foldl (fun _ item => !Analysis.isSingle item) base.slices
  | _ => false

/-- The parts of an expression that its type is found from. -/
inductive Expr.Part : Expr → Expr → Prop
  | self (e : Expr) : Part e e
  | paren {e p : Expr} : Part e p → Part (.paren e) p
  | unary {e p : Expr} {op : UnaryOp} : op ≠ .not → Part e p → Part (.unary op e) p
  | left {l r p : Expr} {op : BinaryOp} : op.isTest = false → Part l p → Part (.binary l op r) p
  | right {l r p : Expr} {op : BinaryOp} : op.isTest = false → Part r p → Part (.binary l op r) p
  | base {e p : Expr} {items : List IndexItem} : Part e p → Part (.index e items) p
  | element {e p : Expr} {es : List Expr} : e ∈ es → Part e p → Part (.array es) p

namespace Analysis

section Parts

variable {calls : Calls} {config : Config} {s s' s₁ s₂ : State} {t t' u u' : ClassicalType} {v x : Value}

/-- The type of an operation on one operand is that of the operand, except where it is a truth value. -/
theorem unaryType_eq_ok {op : UnaryOp} (hop : op ≠ .not) (h : unaryType op t config s = (.ok u, s')) : u = t := by
  cases op with
  | not => exact absurd rfl hop
  | bitNot =>
    cases h
    rfl
  | neg =>
    simp only [unaryType] at h
    split at h
    · cases h
    · cases h
      rfl

theorem evalUnary_holds {op : UnaryOp} (ht : unaryType op t config s = (.ok u, s'))
    (hpart : op ≠ .not → t.shape.HoldsPart v) (hx : Value.evalUnary op v = .ok x) : u.shape.Holds x := by
  by_cases hop : op = .not
  · subst hop
    cases ht
    obtain ⟨b, rfl⟩ := Value.evalUnary_not hx
    trivial
  · obtain rfl := unaryType_eq_ok hop ht
    exact Value.evalUnary_shape hop (hpart hop) hx

/-- A conversion makes a value of the type. -/
theorem cast_holds {type : TypeExpr} (ht : resolveType calls type config s = (.ok t, s'))
    (hx : Value.cast t v = .ok x) : t.shape.Holds x := by
  have hpositive : t.Positive := (resolveType_writable ht).positive
  unfold Value.cast at hx
  split at hx <;> exact (Value.coerce_inhabits hpositive hx).holds

/-- The types by which the evaluation and the finding of types go through an index, side by side. They differ where
bits are selected, whose width is only one of the two. -/
def Parallel (t u : ClassicalType) : Prop := t = u ∨ t.hasBits = true ∧ u.hasBits = true

theorem shape_of_hasBits (h : t.hasBits = true) : t.shape = .int := by
  obtain ⟨kind, n, rfl, rfl | rfl | rfl⟩ := ClassicalType.hasBits_cases h <;> rfl

theorem Parallel.shape (h : Parallel t u) : t.shape = u.shape := by
  rcases h with rfl | ⟨ht, hu⟩
  · rfl
  · rw [shape_of_hasBits ht, shape_of_hasBits hu]

theorem hasBits_selected {single : Bool} {count : Nat} (h : t.hasBits = true)
    (ht : selectedType? t single count = some t') : t'.hasBits = true := by
  obtain ⟨kind, n, rfl, rfl | rfl | rfl⟩ := ClassicalType.hasBits_cases h <;> cases single <;> cases ht <;> rfl

theorem hasBits_item {single : Bool} (h : t.hasBits = true) (ht : itemType? t single = some t') :
    t'.hasBits = true := by
  obtain ⟨kind, n, rfl, rfl | rfl | rfl⟩ := ClassicalType.hasBits_cases h <;> cases single <;> cases ht <;> rfl

theorem Parallel.item {single : Bool} {count : Nat} (h : Parallel t u) (ht : selectedType? t single count = some t')
    (hu : itemType? u single = some u') : Parallel t' u' := by
  rcases h with rfl | ⟨hbits, hbits'⟩
  · by_cases hbits : t.hasBits = true
    · exact Or.inr ⟨hasBits_selected hbits ht, hasBits_item hbits hu⟩
    · cases t with
      | array element dims => cases single <;> cases ht <;> cases hu <;> exact Or.inl rfl
      | sized kind n => cases kind <;> first | exact absurd rfl hbits | cases single <;> cases hu
      | bool | duration | stretch => cases single <;> nomatch hu
  · exact Or.inr ⟨hasBits_selected hbits ht, hasBits_item hbits' hu⟩

/-- What an index item selects is an element or a part, of the type of which the evaluation goes on. -/
theorem select_holds {single : Bool} {positions : List Nat} {n count : Nat} (hn : t.width? = some n)
    (ht : selectedType? t single count = some t') (hv : t.shape.HoldsPart v)
    (hx : select t.isArray single positions (some v) = some x) :
    t'.shape.HoldsPart x ∧ (single = true → t'.shape.Holds x) := by
  cases t with
  | array element dims =>
    cases dims with
    | nil => cases hn
    | cons d ds =>
      obtain ⟨items, rfl, hitems⟩ := Shape.holdsPart_list hv
      cases single with
      | true =>
        cases ht
        obtain ⟨p, -, hp⟩ := Option.bind_eq_some_iff.1 hx
        have hholds := hitems x (List.mem_of_getElem? hp)
        rw [← ClassicalType.shape_arrayOf] at hholds
        exact ⟨hholds.part, fun _ => hholds⟩
      | false =>
        cases ht
        cases hx
        refine ⟨fun y hy => ?_, fun h => absurd h Bool.false_ne_true⟩
        obtain ⟨p, -, hp⟩ := List.mem_filterMap.1 hy
        exact hitems y (List.mem_of_getElem? hp)
  | sized kind m =>
    -- Of numbers only those have bits whose values are integers, and the bits are an integer.
    cases v with
    | int i =>
      have hint : kind.shape = .int := hv.int
      obtain ⟨j, -, rfl⟩ := Option.map_eq_some_iff.1 hx
      have hbits : (ClassicalType.sized kind m).hasBits = true := by cases kind <;> first | rfl | cases hint
      have hholds : t'.shape.Holds (.int j) := Shape.holds_int.2 (shape_of_hasBits (hasBits_selected hbits ht))
      exact ⟨hholds.part, fun _ => hholds⟩
    | _ => cases hx
  | bool | duration | stretch => cases hn

/-- One item after another, what is selected has the type that is found for it. Its length is that of the type where
the last item names a single element. -/
theorem foldItems_holds {items : List IndexItem} {sliced : Bool} (hparallel : Parallel t u) (hv : t.shape.HoldsPart v)
    (hexact : sliced = false → t.shape.Holds v) (hx : foldItems calls t (some v) items config s = (.ok (some x), s'))
    (hu : itemsType u items config s₁ = (.ok u', s₂)) :
    u'.shape.HoldsPart x ∧ (items.foldl (fun _ item => !isSingle item) sliced = false → u'.shape.Holds x) := by
  -- Induction on the items, with the two types side by side. Whether a part is left open is settled by each item anew.
  induction items generalizing t u v s sliced with
  | nil =>
    cases hx
    cases hu
    rw [← hparallel.shape]
    exact ⟨hv, hexact⟩
  | cons item rest ih =>
    rw [foldItems] at hx
    rw [itemsType] at hu
    cases hwidth : t.width? with
    | none =>
      simp only [hwidth] at hx
      cases hx
    | some n =>
      simp only [hwidth] at hx
      obtain ⟨positions, s₃, -, hx⟩ := run_bind_eq_ok.1 hx
      cases ht' : selectedType? t (isSingle item) positions.length with
      | none =>
        simp only [ht'] at hx
        cases hx
      | some t' =>
        cases hu' : itemType? u (isSingle item) with
        | none =>
          simp only [hu'] at hu
          cases hu
        | some w =>
          simp only [ht'] at hx
          simp only [hu'] at hu
          cases hy : select t.isArray (isSingle item) positions (some v) with
          | none =>
            rw [hy] at hx
            cases foldItems_none hx
          | some y =>
            rw [hy] at hx
            obtain ⟨hpart, hsingle⟩ := select_holds hwidth ht' hv hy
            have hexact' : (!isSingle item) = false → t'.shape.Holds y := fun h => hsingle (Bool.not_eq_false' .. ▸ h)
            exact ih (hparallel.item ht' hu') hpart hexact' hx hu

end Parts

/-- An expression whose type does not follow its value, though those of its parts do. -/
inductive Misjudged (calls : Calls) (config : Config) (s : State) : Expr → Prop
  | operation {l r : Expr} {op : BinaryOp} {t u : ClassicalType} {w : Value} :
    HasType calls config s l t → HasType calls config s r u → Gives calls config s r w → Mistyped op t u w →
      Misjudged calls config s (.binary l op r)
  /-- An element does not have the type of the first one, by which the array goes. -/
  | element {e f : Expr} {es : List Expr} {t : ClassicalType} :
    HasType calls config s e t → f ∈ es → (∀ u, HasType calls config s f u → u.shape ≠ t.shape) →
      Misjudged calls config s (.array (e :: es))
  /-- A part of an array is an element of another one. -/
  | slice {e : Expr} {es : List Expr} {t : ClassicalType} :
    e ∈ es → e.slices = true → HasType calls config s e t → t.isArray = true → Misjudged calls config s (.array es)

/-- A value that an expression has is one that its type prescribes, or a part of one where the expression selects parts
of arrays. -/
def Judges (calls : Calls) (config : Config) (s : State) (e : Expr) : Prop :=
  s.scopes.Passive e.callees e.measures → (∀ p, e.Part p → ¬Misjudged calls config s p) →
    ∀ t v, HasType calls config s e t → Gives calls config s e v →
      t.shape.HoldsPart v ∧ (e.slices = false → t.shape.Holds v)

section Expressions

variable {calls : Calls} {config : Config} {s s' : State} {e l r base : Expr} {t : ClassicalType} {v : Value}

theorem passive_infer (hq : s.scopes.Passive e.callees e.measures) (h : infer calls e config s = (.ok t, s')) :
    s' = s := (infer_carries (Scopes.Refines.refl _) e hq t s' h).1

/-- A value of the type, whatever it is found from. -/
theorem judges_of_holds (h : s.scopes.Passive e.callees e.measures → ∀ t v, HasType calls config s e t →
    Gives calls config s e v → t.shape.Holds v) : Judges calls config s e := by
  intro hq _ t v ht hv
  have hholds := h hq t v ht hv
  exact ⟨hholds.part, fun _ => hholds⟩

/-- The type of a name is that of its symbol, unless it is a parameter, whose value is a real number. -/
theorem name_shape {name : String} {x : Symbol} (hx : s.scopes.resolve? name = some x)
    (ht : HasType calls config s (.name name) t) (hv : Gives calls config s (.name name) v) :
    t.shape.Holds v ∨ x.type = some t ∧ x.value = some v := by
  unfold HasType at ht
  unfold Gives at hv
  rw [infer, nameType, run_bind, run_resolve hx] at ht
  rw [fold, nameValue, run_bind, run_resolve hx] at hv
  dsimp only at ht hv
  cases hbinding : x.binding with
  | param p =>
    -- A parameter of a gate is a real number, or it is not known yet.
    simp only [hbinding] at ht hv
    cases ht
    cases hy : p.value? with
    | none =>
      rw [hy] at hv
      cases hv
    | some y =>
      rw [hy] at hv
      cases hv
      exact Or.inl trivial
  | _ =>
    simp only [hbinding] at ht hv
    right
    constructor
    · cases htype : x.type with
      | none =>
        simp only [htype] at ht
        cases ht
      | some u =>
        simp only [htype] at ht
        cases ht
        rfl
    · cases hkind : x.kind <;> simp only [hkind] at hv <;>
        first | exact Except.ok.inj (congrArg Prod.fst hv) | cases hv

/-- In states that occur, symbols have values of their types. -/
theorem judges_name (hs : Occurs config s) (name : String) : Judges calls config s (.name name) := by
  refine judges_of_holds fun _ t v ht hv => ?_
  obtain ⟨x, s₁, hx, -⟩ := run_bind_eq_ok.1 (show nameType name config s = _ from ht)
  obtain ⟨hx, -⟩ := resolve_eq_ok hx
  rcases name_shape hx ht hv with hholds | ⟨htype, hvalue⟩
  · exact hholds
  · obtain ⟨-, htyped⟩ := (hs.reachable.sound.symbol x (Scopes.has_of_resolve? hx)).typed t htype
    exact (htyped v hvalue).holds

theorem judges_unary (op : UnaryOp) (he : Judges calls config s e) : Judges calls config s (.unary op e) := by
  intro hq hparts t v ht hv
  obtain ⟨u, s₁, hu, ht⟩ := run_bind_eq_ok.1 (show (infer calls e >>= unaryType op) config s = _ from ht)
  obtain rfl := passive_infer (e := e) hq hu
  obtain ⟨a, ha, hv⟩ := gives_unary.1 hv
  have hpart (hop : op ≠ .not) : u.shape.HoldsPart a := (he hq (fun p hp => hparts p (.unary hop hp)) u a hu ha).1
  have hholds := evalUnary_holds ht hpart hv
  exact ⟨hholds.part, fun _ => hholds⟩

theorem judges_int (n : UInt64) : Judges calls config s (.int n) := by
  refine judges_of_holds fun _ t v ht hv => ?_
  cases ht
  unfold Gives at hv
  rw [fold] at hv
  split at hv
  · cases hv
    trivial
  · nomatch hv

theorem judges_bits (digits : String) : Judges calls config s (.bits digits) := by
  refine judges_of_holds fun _ t v ht hv => ?_
  cases ht
  unfold Gives at hv
  rw [fold] at hv
  cases hn : bitsValue? digits with
  | none =>
    simp only [hn] at hv
    nomatch hv
  | some n =>
    simp only [hn] at hv
    cases hv
    trivial

theorem judges_paren (he : Judges calls config s e) : Judges calls config s (.paren e) := by
  intro hq hparts t v ht hv
  unfold HasType at ht
  unfold Gives at hv
  rw [infer] at ht
  rw [fold] at hv
  exact he hq (fun p hp => hparts p (.paren hp)) t v ht hv

/-- A conversion makes a value of the type, whatever it is applied to. -/
theorem judges_cast (type : TypeExpr) (e : Expr) : Judges calls config s (.cast type e) := by
  refine judges_of_holds fun hq t v ht hv => ?_
  have htype : resolveType calls type config s = (.ok t, s) := ht
  obtain ⟨a, -, hx⟩ := (gives_cast htype).1 hv
  exact cast_holds htype hx

/-- The only calls are those of functions, whose values are real numbers. -/
theorem judges_call (f : String) (args : List Expr) : Judges calls config s (.call f args) := by
  refine judges_of_holds fun hq t v ht hv => ?_
  obtain ⟨hf, -⟩ := Scopes.passive_cons.1 hq
  obtain ⟨hmath, -, -, -, y, -, -, -, -, rfl⟩ := (gives_call hf).1 hv
  unfold HasType at ht
  rw [infer, run_bind, run_lookup] at ht
  cases hx : s.scopes.resolve? f with
  | some x =>
    have hnone : x.subroutine? = none := by
      unfold Scopes.subroutine? at hf
      rwa [hx] at hf
    simp only [hx, hnone] at ht
    nomatch ht
  | none =>
    simp only [hx, if_pos hmath] at ht
    obtain ⟨_, s₁, -, ht⟩ := run_bind_eq_ok.1 ht
    cases ht
    trivial

theorem judges_index (items : List IndexItem) (hbase : Judges calls config s base) :
    Judges calls config s (.index base items) := by
  intro hq hparts t v ht hv
  obtain ⟨hq, -⟩ := Scopes.passive_append.1 hq
  unfold HasType at ht
  rw [infer] at ht
  obtain ⟨u, s₁, hu, ht⟩ := run_bind_eq_ok.1 ht
  obtain rfl := passive_infer hq hu
  obtain ⟨b, hb, hx⟩ := (gives_index hu (passive_still hq)).1 hv
  obtain ⟨hpart, hexact⟩ := hbase hq (fun p hp => hparts p (.base hp)) u b hu hb
  exact foldItems_holds (Or.inl rfl) hpart hexact hx ht

theorem judges_binary (op : BinaryOp) (hl : Judges calls config s l) (hr : Judges calls config s r) :
    Judges calls config s (.binary l op r) := by
  intro hq hparts t v ht hv
  obtain ⟨hql, hqr⟩ := Scopes.passive_append.1 hq
  unfold HasType at ht
  rw [infer] at ht
  obtain ⟨a, s₁, ha, ht⟩ := run_bind_eq_ok.1 ht
  obtain rfl := passive_infer hql ha
  obtain ⟨b, s₂, hb, ht⟩ := run_bind_eq_ok.1 ht
  obtain rfl := passive_infer hqr hb
  obtain ⟨htype, -⟩ := orFail_eq_ok ht
  obtain ⟨x, hx, hv⟩ := (gives_binary (passive_still hql)).1 hv
  cases htest : op.isTest with
  | true =>
    -- A truth value, whatever the operands are, and also where the left one decides.
    have hbool : t = .bool := ClassicalType.eq_bool_of_test htest htype
    have hholds : t.shape.Holds v := by
      rw [hbool]
      rcases hv with ⟨d, -, rfl⟩ | ⟨-, y, -, hv⟩
      · trivial
      · obtain ⟨d, rfl⟩ := Value.evalBinary_test htest hv
        trivial
    exact ⟨hholds.part, fun _ => hholds⟩
  | false =>
    rcases hv with ⟨d, hdecided, -⟩ | ⟨-, y, hy, hv⟩
    · cases op with
      | and | or => nomatch htest
      | _ => nomatch hdecided
    have hkind : ¬Mistyped op a b y := fun h => hparts _ (.self _) (.operation ha hb hy h)
    obtain ⟨hpartl, hexactl⟩ := hl hql (fun p hp => hparts p (.left htest hp)) a x ha hx
    obtain ⟨hpartr, hexactr⟩ := hr hqr (fun p hp => hparts p (.right htest hp)) b y hb hy
    obtain ⟨hpart, hexact⟩ := ClassicalType.evalBinary_holds htype hkind hpartl hpartr hv
    refine ⟨hpart, fun hslices => hexact ?_⟩
    rintro rfl
    obtain ⟨hslicesl, hslicesr⟩ := Bool.or_eq_false_iff.1 (show (l.slices || r.slices) = false from hslices)
    exact ⟨hexactl hslicesl, hexactr hslicesr⟩

theorem forall_mem_right {α β : Type} {related : α → β → Prop} {p : β → Prop} {as : List α} {bs : List β}
    (h : List.Forall₂ related as bs) (hp : ∀ a ∈ as, ∀ b, related a b → p b) : ∀ b ∈ bs, p b := by
  induction h with
  | nil => exact nofun
  | @cons a b as bs hab _ ih =>
    obtain ⟨hfirst, hrest⟩ := List.forall_mem_cons.1 hp
    exact List.forall_mem_cons.2 ⟨hfirst b hab, ih hrest⟩

/-- Where all elements have the type of the first one, and none is a part of an array, an array literal has the type
that is found for it. -/
theorem judges_array {es : List Expr} (hes : ∀ e ∈ es, Judges calls config s e) :
    Judges calls config s (.array es) := by
  intro hq hparts t v ht hv
  have hqe (e : Expr) (he : e ∈ es) : s.scopes.Passive e.callees e.measures := Scopes.passive_of_mem he hq
  obtain ⟨vs, rfl, hvs⟩ := (gives_array fun e he => passive_still (hqe e he)).1 hv
  unfold HasType at ht
  rw [infer] at ht
  obtain ⟨u, s₁, hu, ht⟩ := run_bind_eq_ok.1 ht
  cases ht
  -- An element with a type of the shape of the first one's has a value of this shape.
  have hvalue (f : Expr) (hf : f ∈ es) (w : ClassicalType) (hw : HasType calls config s f w)
      (hshape : w.shape = u.shape) (x : Value) (hx : Gives calls config s f x) : u.shape.Holds x := by
    obtain ⟨hpart, hexact⟩ := hes f hf (hqe f hf) (fun p hp => hparts p (.element hf hp)) w x hw hx
    rw [← hshape]
    by_cases harray : w.isArray = true
    · cases hslices : f.slices with
      | true => exact absurd (.slice hf hslices hw harray) (hparts _ (.self _))
      | false => exact hexact hslices
    · exact hpart.holds (ClassicalType.shape_ne_list harray)
  have hitems : ∀ x ∈ vs, u.shape.Holds x := by
    refine forall_mem_right hvs fun f hf x hx => ?_
    cases es with
    | nil => nomatch hf
    | cons e rest =>
      rw [inferFirst] at hu
      rcases List.mem_cons.1 hf with rfl | hf'
      · exact hvalue f hf u hu rfl x hx
      · by_contra hnot
        refine hparts _ (.self _) (.element hu hf' fun w hw hshape => ?_)
        exact hnot (hvalue f hf w hw hshape x hx)
  have hholds : (ClassicalType.listOf es.length u).shape.Holds (.array vs) := by
    rw [ClassicalType.shape_listOf]
    exact ⟨hvs.length_eq.symm, hitems⟩
  exact ⟨hholds.part, fun _ => hholds⟩

mutual

/-- The value of every expression has the type that is found for it, where those of its parts have theirs. -/
theorem judges (hs : Occurs config s) : ∀ e : Expr, Judges calls config s e
  | .int n => judges_int n
  | .float _ | .constant _ | .imaginary _ | .bool _ | .duration _ _ => judges_of_holds fun _ t v ht hv => by
    cases ht
    cases hv
    trivial
  | .bits digits => judges_bits digits
  | .name name => judges_name hs name
  | .unary op e => judges_unary op (judges hs e)
  | .binary l op r => judges_binary op (judges hs l) (judges hs r)
  | .call f args => judges_call f args
  | .index base items => judges_index items (judges hs base)
  | .cast type e => judges_cast type e
  | .array es => judges_array (all_judge hs es)
  | .measure e => judges_of_holds fun hq => absurd hq.2 nofun
  | .paren e => judges_paren (judges hs e)

theorem all_judge (hs : Occurs config s) : ∀ es : List Expr, ∀ e ∈ es, Judges calls config s e
  | [] => nofun
  | e :: es => List.forall_mem_cons.2 ⟨judges hs e, all_judge hs es⟩

end

/-- A value has the shape that the type of the expression prescribes, in every state that occurs, if no part of the
expression is misjudged; where the expression selects a part of an array, the value is a part of such an array. -/
theorem inferred_type_holds (hs : Occurs config s) (hsilent : s.scopes.Silent e.callees)
    (hmeasures : e.measures = false) (hjudged : ∀ p, e.Part p → ¬Misjudged calls config s p) {s₁ s₂ : State}
    (htype : infer calls e config s = (.ok t, s₁)) (hvalue : fold calls e config s = (.ok (some v), s₂)) :
    t.shape.Holds v ∨ e.slices = true ∧ t.isArray = true ∧ t.shape.HoldsPart v := by
  have hq : s.scopes.Passive e.callees e.measures := ⟨hsilent, hmeasures⟩
  obtain rfl := passive_infer hq htype
  obtain rfl := passive_still hq _ _ hvalue
  obtain ⟨hpart, hexact⟩ := judges hs e hq hjudged t v htype hvalue
  cases hslices : e.slices with
  | false => exact Or.inl (hexact hslices)
  | true =>
    by_cases harray : t.isArray = true
    · exact Or.inr ⟨rfl, harray, hpart⟩
    · exact Or.inl (hpart.holds (ClassicalType.shape_ne_list harray))

/-- An array with one power of integers. -/
def powers : Expr := .array [.binary (.int 2) .pow (.int 3)]

/-- The power is judged right, as its exponent is small. -/
theorem inferred_type_holds_powers :
    infer (.nested 0) powers .default .initial = (.ok (.array .defaultInt [1]), .initial) ∧
    ∃ v, fold (.nested 0) powers .default .initial = (.ok (some v), .initial) ∧ (Shape.list 1 .int).Holds v := by
  have hexponent : Gives (.nested 0) .default .initial (.int 3) (.int 3) := rfl
  have htype : infer (.nested 0) powers .default .initial = (.ok (.array .defaultInt [1]), .initial) := rfl
  have hvalue : fold (.nested 0) powers .default .initial = (.ok (some (.array [.int (Word.pow 2 3)])), .initial) := rfl
  have hjudged : ∀ p, powers.Part p → ¬Misjudged (.nested 0) .default .initial p := by
    intro p hp h
    cases hp with
    | self =>
      cases h with
      | element _ hf => nomatch hf
      | slice he hslices =>
        cases List.mem_singleton.1 he
        nomatch hslices
    | element he hp =>
      cases List.mem_singleton.1 he
      cases hp with
      | self =>
        cases h with
        | operation ha hb hw hkind =>
          cases ha
          cases hb
          cases hexponent.unique hw
          cases hkind with
          | power _ hlarge => exact hlarge (by decide)
          | scaledLeft _ hcomplex => nomatch hcomplex
          | scaledRight _ hduration => nomatch hduration
      | left _ hp =>
        cases hp
        nomatch h
      | right _ hp =>
        cases hp
        nomatch h
  have hsilent : State.initial.scopes.Silent powers.callees := fun _ hf => nomatch hf
  rcases inferred_type_holds .initial hsilent rfl hjudged htype hvalue with hholds | ⟨hslices, -⟩
  · exact ⟨htype, _, hvalue, hholds⟩
  · nomatch hslices

/-- An operation that is mistyped has a value of another kind than its type, whenever it has both. -/
theorem mistyped_differs {op : BinaryOp} {a b : ClassicalType} {w x : Value}
    (hq : s.scopes.Passive (Expr.binary l op r).callees (Expr.binary l op r).measures)
    (ha : HasType calls config s l a) (hb : HasType calls config s r b) (hv : Gives calls config s l v)
    (hw : Gives calls config s r w) (hva : a.shape.Holds v) (hwb : b.shape.Holds w) (hkind : Mistyped op a b w)
    (hplain : ¬(a.isArray = true ∨ b.isArray = true)) (ht : HasType calls config s (.binary l op r) t)
    (hx : Gives calls config s (.binary l op r) x) : ¬t.shape.Holds x := by
  have hop := hkind.isArithmetic
  have htype : ClassicalType.binary op a b = .ok t := by
    unfold HasType at ht
    rw [infer, run_bind, ha] at ht
    dsimp only at ht
    rw [run_bind, hb] at ht
    exact (orFail_eq_ok ht).1
  obtain ⟨rfl, hl, hr⟩ := ClassicalType.binary_arithmetic hop htype
  obtain ⟨v', hv', hresult⟩ := (gives_binary (passive_still (Scopes.passive_append.1 hq).1)).1 hx
  obtain rfl := hv.unique hv'
  rcases hresult with ⟨d, hdecided, -⟩ | ⟨-, w', hw', hx⟩
  · cases op with
    | and | or => nomatch hop
    | _ => nomatch hdecided
  · obtain rfl := hw.unique hw'
    exact fun hholds => (ClassicalType.evalBinary_arithmetic_iff hop hl hr hplain hva hwb hx).1 hholds hkind

/-- A ratio of durations is judged to be a duration, a power with a negative exponent an integer, and a list of an
integer and a real number a list of integers. -/
theorem ratio_judged_duration :
    (∃ x, infer (.nested 0) (.binary (.duration 4.0 .ns) .div (.duration 2.0 .ns)) .default .initial =
        (.ok .duration, .initial) ∧
      fold (.nested 0) (.binary (.duration 4.0 .ns) .div (.duration 2.0 .ns)) .default .initial =
        (.ok (some (.float x)), .initial) ∧ ¬ClassicalType.duration.shape.Holds (.float x)) ∧
    (∃ x, infer (.nested 0) (.binary (.int 2) .pow (.unary .neg (.int 1))) .default .initial =
        (.ok .defaultInt, .initial) ∧
      fold (.nested 0) (.binary (.int 2) .pow (.unary .neg (.int 1))) .default .initial =
        (.ok (some (.float x)), .initial) ∧ ¬ClassicalType.defaultInt.shape.Holds (.float x)) ∧
    ∃ v, infer (.nested 0) (.array [.int 1, .float 2.0]) .default .initial =
        (.ok (.array .defaultInt [2]), .initial) ∧
      fold (.nested 0) (.array [.int 1, .float 2.0]) .default .initial = (.ok (some v), .initial) ∧
      ¬(ClassicalType.array .defaultInt [2]).shape.Holds v := by
  refine ⟨⟨_, rfl, rfl, id⟩, ⟨_, rfl, rfl, id⟩, _, rfl, rfl, ?_⟩
  rintro ⟨-, hitems⟩
  exact hitems (.float 2.0) (by simp)

end Expressions

end Analysis

end OpenQasm
