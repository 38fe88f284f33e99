import OpenQasm.Proofs.Silence

/-!
What is known carries over to every state in which at least as much is known. An expression that calls no
subroutine and measures nothing is evaluated from the symbols alone, and without a change of the state; so
the value that it has during the analysis is the one that it has when the program runs and all variables
have got values.
-/
namespace OpenQasm

mutual

/-- Whether there is a measurement in an expression, its indices and the types of its casts included. -/
def Expr.measures : Expr → Bool
  | .measure _ => true
  | .unary _ e | .paren e => e.measures
  | .binary l _ r => l.measures || r.measures
  | .call _ args => exprsMeasure args
  | .index base items => base.measures || itemsMeasure items
  | .cast t e => t.measures || e.measures
  | .array items => exprsMeasure items
  | _ => false

def exprsMeasure : List Expr → Bool
  | [] => false
  | e :: es => e.measures || exprsMeasure es

def TypeExpr.measures : TypeExpr → Bool
  | .sized _ width => optionMeasures width
  | .array element dims => element.measures || exprsMeasure dims
  | _ => false

def optionMeasures : Option Expr → Bool
  | none => false
  | some e => e.measures

def RangeExpr.measures : RangeExpr → Bool
  | ⟨start, step, stop⟩ => optionMeasures start || optionMeasures step || optionMeasures stop

def IndexItem.measures : IndexItem → Bool
  | .single e => e.measures
  | .range r => r.measures
  | .set items => exprsMeasure items

def itemsMeasure : List IndexItem → Bool
  | [] => false
  | item :: items => item.measures || itemsMeasure items

end

section Relation

variable {α β γ : Type} {r : α → β → Prop}

theorem rel_refl {r : α → α → Prop} (h : ∀ a, r a a) (x : Option α) : Option.Rel r x x := by
  cases x with
  | none => exact .none
  | some a => exact .some (h a)

theorem rel_trans {r' : β → γ → Prop} {r'' : α → γ → Prop}
    (h : ∀ a b c, r a b → r' b c → r'' a c) {x : Option α} {y : Option β} {z : Option γ}
    (hxy : Option.Rel r x y) (hyz : Option.Rel r' y z) : Option.Rel r'' x z := by
  cases hxy with
  | none =>
    cases hyz
    exact .none
  | some hab =>
    cases hyz with
    | some hbc => exact .some (h _ _ _ hab hbc)

theorem rel_imp {r' : α → β → Prop} (h : ∀ a b, r a b → r' a b) {x : Option α} {y : Option β}
    (hxy : Option.Rel r x y) : Option.Rel r' x y := by
  cases hxy with
  | none => exact .none
  | some hab => exact .some (h _ _ hab)

theorem rel_swap {r' : β → α → Prop} (h : ∀ a b, r a b → r' b a) {x : Option α} {y : Option β}
    (hxy : Option.Rel r x y) : Option.Rel r' y x := by
  cases hxy with
  | none => exact .none
  | some hab => exact .some (h _ _ hab)

theorem rel_some {a : α} {y : Option β} (h : Option.Rel r (some a) y) :
    ∃ b, y = some b ∧ r a b := by
  cases h with
  | some hab => exact ⟨_, rfl, hab⟩

theorem rel_none {y : Option β} (h : Option.Rel r none y) : y = none := by
  cases h
  rfl

end Relation

/-- A symbol of which at least as much is known. -/
structure Symbol.Refines (x y : Symbol) : Prop where
  kind : y.kind = x.kind
  type : y.type = x.type
  binding : y.binding = x.binding
  value : ∀ v, x.value = some v → y.value = some v

namespace Symbol.Refines

variable {x y z : Symbol}

theorem refl (x : Symbol) : Refines x x := ⟨rfl, rfl, rfl, fun _ h => h⟩

theorem trans (h : Refines x y) (h' : Refines y z) : Refines x z :=
  ⟨h'.kind.trans h.kind, h'.type.trans h.type, h'.binding.trans h.binding,
    fun v hv => h'.value v (h.value v hv)⟩

end Symbol.Refines

namespace Scopes

variable {s t u : Scopes} {name : String} {x y : Symbol} {a b : List String} {m n : Bool}

/-- Every name stands for the same symbol, of which at least as much is known. -/
def Refines (s t : Scopes) : Prop :=
  ∀ name, Option.Rel Symbol.Refines (s.resolve? name) (t.resolve? name)

namespace Refines

theorem refl (s : Scopes) : Refines s s := fun _ => rel_refl Symbol.Refines.refl _

theorem trans (h : Refines s t) (h' : Refines t u) : Refines s u :=
  fun name => rel_trans (fun _ _ _ hxy hyz => hxy.trans hyz) (h name) (h' name)

theorem resolve? (h : Refines s t) (hx : s.resolve? name = some x) :
    ∃ y, t.resolve? name = some y ∧ x.Refines y := rel_some (hx ▸ h name)

theorem resolve?_isNone (h : Refines s t) (hx : s.resolve? name = none) :
    t.resolve? name = none := rel_none (hx ▸ h name)

theorem subroutine? (h : Refines s t) (name : String) :
    t.subroutine? name = s.subroutine? name := by
  unfold Scopes.subroutine?
  cases hx : s.resolve? name with
  | none => rw [h.resolve?_isNone hx]
  | some x =>
    obtain ⟨y, hy, hxy⟩ := h.resolve? hx
    simp only [hy, Option.bind_some, Symbol.subroutine?, hxy.binding]

end Refines

/-- Nothing with some calls, and with or without a measurement, does more than to read the symbols. -/
def Passive (s : Scopes) (callees : List String) (measures : Bool) : Prop :=
  s.Silent callees ∧ measures = false

theorem passive_append : s.Passive (a ++ b) (m || n) ↔ s.Passive a m ∧ s.Passive b n := by
  simp only [Passive, silent_append, Bool.or_eq_false_iff]
  exact and_and_and_comm

theorem passive_cons {f : String} : s.Passive (f :: a) m ↔ s.subroutine? f = none ∧ s.Passive a m := by
  simp only [Passive, silent_cons, and_assoc]

theorem passive_of_mem {es : List Expr} {e : Expr} (he : e ∈ es)
    (hq : s.Passive (exprsCallees es) (exprsMeasure es)) : s.Passive e.callees e.measures := by
  induction es with
  | nil => nomatch he
  | cons e' es ih =>
    obtain ⟨hfirst, hrest⟩ := passive_append.1 hq
    rcases List.mem_cons.1 he with rfl | he
    · exact hfirst
    · exact ih he hrest

theorem Refines.passive (h : Refines s t) (hq : s.Passive a m) : t.Passive a m :=
  ⟨fun f hf => (h.subroutine? f).trans (hq.1 f hf), hq.2⟩

end Scopes

namespace Analysis

variable {α β : Type} {config : Config} {s u : State}

/-- A step that changes nothing in one state, and that has the same result in another state if the result
is one to be kept. -/
def Carries (config : Config) (s u : State) (kept : α → Prop) (x : Analysis α) : Prop :=
  ∀ a t, x config s = (.ok a, t) → t = s ∧ (kept a → x config u = (.ok a, u))

/-- A step that changes nothing and has no result that is to be kept. -/
def Loses (config : Config) (s : State) (kept : α → Prop) (x : Analysis α) : Prop :=
  ∀ a t, x config s = (.ok a, t) → t = s ∧ ¬kept a

/-- A value that is known. -/
def Certain (v : Option α) : Prop := v.isSome = true

/-- Every result is kept. -/
abbrev Any : α → Prop := fun _ => True

section Rules

variable {x : Analysis α} {f : α → Analysis β} {p : α → Prop} {q : β → Prop}

theorem Carries.pure (a : α) : Carries config s u p (Pure.pure a : Analysis α) := by
  rintro _ _ ⟨⟩
  exact ⟨rfl, fun _ => rfl⟩

theorem Carries.fail (problem : Problem) : Carries config s u p (fail problem : Analysis α) := nofun

theorem Carries.ite {c : Prop} [Decidable c] {y : Analysis α} (hx : Carries config s u p x)
    (hy : Carries config s u p y) : Carries config s u p (if c then x else y) := by
  split
  · exact hx
  · exact hy

theorem Carries.orFail {ε : Type} (problem : ε → Problem) (r : Except ε α) :
    Carries config s u p (orFail problem r) := by
  cases r with
  | ok a => exact Carries.pure a
  | error e => exact Carries.fail _

theorem Loses.fail (problem : Problem) : Loses config s p (fail problem : Analysis α) := nofun

theorem Loses.pure {a : α} (ha : ¬p a) : Loses config s p (Pure.pure a : Analysis α) := by
  rintro _ _ ⟨⟩
  exact ⟨rfl, ha⟩

theorem Loses.bind (hx : Carries config s u p x) (hf : ∀ a, Loses config s q (f a)) :
    Loses config s q (x >>= f) := by
  intro b t hrun
  obtain ⟨a, s', ha, hb⟩ := run_bind_eq_ok.1 hrun
  obtain ⟨rfl, -⟩ := hx a s' ha
  exact hf a b t hb

theorem Carries.bind (hx : Carries config s u p x) (hkept : ∀ a, p a → Carries config s u q (f a))
    (hlost : ∀ a, ¬p a → Loses config s q (f a)) : Carries config s u q (x >>= f) := by
  intro b t hrun
  obtain ⟨a, s', ha, hb⟩ := run_bind_eq_ok.1 hrun
  obtain ⟨rfl, hsame⟩ := hx a s' ha
  by_cases hpa : p a
  · obtain ⟨ht, hrest⟩ := hkept a hpa b t hb
    exact ⟨ht, fun hqb => run_bind_eq_ok.2 ⟨a, u, hsame hpa, hrest hqb⟩⟩
  · obtain ⟨ht, hnot⟩ := hlost a hpa b t hb
    exact ⟨ht, fun hqb => absurd hqb hnot⟩

/-- A step after one all of whose results carry over. -/
theorem Carries.bindAny (hx : Carries config s u Any x) (hf : ∀ a, Carries config s u q (f a)) :
    Carries config s u q (x >>= f) :=
  hx.bind (fun a _ => hf a) fun _ hnot => absurd trivial hnot

/-- A step after the evaluation of a part. -/
theorem Carries.bindCertain {x : Analysis (Option α)} {f : Option α → Analysis β}
    (hx : Carries config s u Certain x) (hsome : ∀ a, Carries config s u q (f (some a)))
    (hnone : Loses config s q (f none)) : Carries config s u q (x >>= f) := by
  apply hx.bind
  · rintro (_ | a) ha
    · nomatch ha
    · exact hsome a
  · rintro (_ | a) ha
    · exact hnone
    · exact absurd rfl ha

theorem Carries.map {φ : α → β} (hx : Carries config s u Any x) : Carries config s u q (φ <$> x) :=
  hx.bindAny fun _ => Carries.pure _

theorem not_certain_none : ¬Certain (none : Option α) := nofun

/-- A value that is not known is not known after a further step either. -/
theorem Loses.unknown : Loses config s Certain (Pure.pure none : Analysis (Option α)) :=
  Loses.pure not_certain_none

end Rules

section Reading

variable {name : String}

theorem run_lookup (name : String) (config : Config) (s : State) :
    resolve? name config s = (.ok (s.scopes.resolve? name), s) := rfl

/-- What is done with the symbol of a name. -/
theorem resolve_carries {p : α → Prop} {f : Symbol → Analysis α} (h : s.scopes.Refines u.scopes)
    (hf : ∀ x y, x.Refines y → ∀ a t, f x config s = (.ok a, t) →
      t = s ∧ (p a → f y config u = (.ok a, u))) :
    Carries config s u p (resolve name >>= f) := by
  intro a t hrun
  obtain ⟨x, s', hx, hrest⟩ := run_bind_eq_ok.1 hrun
  obtain ⟨hx, rfl⟩ := resolve_eq_ok hx
  obtain ⟨y, hy, hxy⟩ := h.resolve? hx
  have hresolve : resolve name config u = (.ok y, u) := by
    rw [resolve, run_bind, run_lookup, hy]
    rfl
  obtain ⟨ht, hkept⟩ := hf x y hxy a t hrest
  refine ⟨ht, fun ha => ?_⟩
  rw [run_bind, hresolve]
  exact hkept ha

theorem nameValue_carries (h : s.scopes.Refines u.scopes) (name : String) :
    Carries config s u Certain (nameValue name) := by
  refine resolve_carries h fun x y hxy v t => ?_
  rw [hxy.binding, hxy.kind]
  -- A variable keeps the value that is known of it.
  have hvalue : Certain x.value → y.value = x.value := fun hknown => by
    obtain ⟨v, hv⟩ := Option.isSome_iff_exists.1 hknown
    rw [hv, hxy.value v hv]
  generalize x.binding = binding
  generalize x.kind = kind
  cases binding <;> cases kind <;> rintro ⟨⟩ <;>
    first
    | exact ⟨rfl, fun _ => rfl⟩
    | exact ⟨rfl, fun hknown => by rw [hvalue hknown]; rfl⟩

theorem nameType_carries (h : s.scopes.Refines u.scopes) (name : String) :
    Carries config s u Any (nameType name) := by
  refine resolve_carries h fun x y hxy t s' => ?_
  rw [hxy.binding, hxy.type]
  generalize x.binding = binding
  generalize x.type = type
  cases binding <;> cases type <;> rintro ⟨⟩ <;> exact ⟨rfl, fun _ => rfl⟩

theorem functionValue_carries (f : String) (v : Value) :
    Carries config s u Certain (functionValue f (some v)) := by
  unfold functionValue
  split
  · exact Carries.pure _
  · split
    · exact Carries.fail _
    · split
      · exact Carries.pure _
      · exact Carries.fail _

theorem indexValue_carries (e : Expr) (v : Value) :
    Carries config s u Any (indexValue e (some v)) := by
  unfold indexValue
  split
  · exact Carries.pure _
  · exact Carries.fail _
  · exact Carries.fail _

theorem widthValue_carries (e : Expr) (v : Value) :
    Carries config s u Any (widthValue e (some v)) := by
  unfold widthValue
  split
  · exact Carries.ite (Carries.fail _) (Carries.ite (Carries.pure _) (Carries.fail _))
  · exact Carries.fail _
  · exact Carries.fail _

theorem checkWidth_carries (kind : SizedKind) (n : Nat) :
    Carries config s u Any (checkWidth kind n) := by
  cases kind <;>
    first
    | exact Carries.pure _
    | exact Carries.ite (Carries.fail _) (Carries.pure _)
    | exact Carries.ite (Carries.pure _) (Carries.fail _)

theorem unaryType_carries (op : UnaryOp) (t : ClassicalType) :
    Carries config s u Any (unaryType op t) := by
  cases op with
  | not => exact Carries.pure _
  | neg => exact Carries.ite (Carries.fail _) (Carries.pure _)
  | bitNot => exact Carries.pure _

theorem itemsType_carries (t : ClassicalType) (items : List IndexItem) :
    Carries config s u Any (itemsType t items) := by
  induction items generalizing t with
  | nil => exact Carries.pure _
  | cons item rest ih =>
    unfold itemsType
    split
    · exact ih _
    · exact Carries.fail _

/-- Nothing is known of a part of what is not known. -/
theorem select_none (isArray single : Bool) (positions : List Nat) :
    select isArray single positions none = none := rfl

/-- The values of a list are known if each of them is. -/
theorem mapM_id_eq_some {xs : List (Option α)} {vs : List α} :
    xs.mapM id = some vs ↔ xs = vs.map some := by
  induction xs generalizing vs with
  | nil => cases vs <;> simp
  | cons x xs ih =>
    cases x with
    | none => cases vs <;> simp
    | some x =>
      have hstep : (some x :: xs).mapM id = (xs.mapM id).map (x :: ·) := by
        rw [List.mapM_cons]
        cases xs.mapM id <;> rfl
      rw [hstep, Option.map_eq_some_iff]
      constructor
      · rintro ⟨ws, hws, rfl⟩
        rw [ih.1 hws, List.map_cons]
      · intro h
        cases vs with
        | nil => nomatch h
        | cons v vs =>
          cases h
          exact ⟨vs, ih.2 rfl, rfl⟩

theorem mapM_id_of_not_certain {xs : List (Option α)} (h : ¬∀ x ∈ xs, Certain x) :
    xs.mapM id = none := by
  cases hvs : xs.mapM id with
  | none => rfl
  | some vs =>
    rw [mapM_id_eq_some.1 hvs] at h
    refine absurd (fun x hx => ?_) h
    obtain ⟨v, -, rfl⟩ := List.mem_map.1 hx
    rfl

end Reading

section Evaluating

variable {calls : Calls}

theorem foldItems_none {t : ClassicalType} {items : List IndexItem} {s' : State} {v : Option Value}
    (h : foldItems calls t none items config s = (.ok v, s')) : v = none := by
  induction items generalizing t s with
  | nil =>
    cases h
    rfl
  | cons item rest ih =>
    rw [foldItems] at h
    rcases hwidth : t.width? with - | n
    · rw [hwidth] at h
      nomatch h
    · rw [hwidth] at h
      obtain ⟨positions, u, -, h⟩ := run_bind_eq_ok.1 h
      rw [select_none] at h
      rcases htype : selectedType? t (isSingle item) positions.length with - | t'
      · rw [htype] at h
        nomatch h
      · rw [htype] at h
        exact ih h

mutual

/-- A value that is known stays the same when more is known. -/
theorem fold_carries (h : s.scopes.Refines u.scopes) : ∀ e : Expr,
    s.scopes.Passive e.callees e.measures → Carries config s u Certain (fold calls e)
  | .int _, _ => Carries.ite (Carries.pure _) (Carries.fail _)
  | .float _, _ | .imaginary _, _ | .bool _, _ | .duration _ _, _ | .constant _, _ => Carries.pure _
  | .bits digits, _ => by
    simp only [fold]
    split
    · exact Carries.pure _
    · exact Carries.fail _
  | .name n, _ => nameValue_carries h n
  | .unary op e, hq => by
    simp only [fold]
    exact (fold_carries h e hq).bindCertain (fun v => (Carries.orFail _ _).map) Loses.unknown
  | .binary l op r, hq => by
    obtain ⟨hl, hr⟩ := Scopes.passive_append.1 hq
    simp only [fold]
    apply (fold_carries h l hl).bindCertain
    · intro left
      split
      · exact Carries.pure _
      · exact (fold_carries h r hr).bindCertain (fun v => (Carries.orFail _ _).map) Loses.unknown
    -- Without a left operand the right one is looked at, but there is no value.
    · have hundecided : decided? op none = none := by cases op <;> rfl
      rw [hundecided]
      exact Loses.bind (fold_carries h r hr) fun _ => Loses.unknown
  | .call f args, hq => by
    obtain ⟨hf, hargs⟩ := Scopes.passive_cons.1 hq
    have hfunction : Carries config s u Certain (foldArgument calls f args >>= functionValue f) :=
      (foldArgument_carries h f args hargs).bindCertain (functionValue_carries f) Loses.unknown
    intro v t hrun
    rw [fold, run_bind, run_lookup] at hrun ⊢
    have hs : (s.scopes.resolve? f).bind Symbol.subroutine? = none := hf
    have hu : (u.scopes.resolve? f).bind Symbol.subroutine? = none := (h.subroutine? f).trans hf
    simp only [hs, hu] at hrun ⊢
    by_cases hmath : (MathFunction.ofName? f).isSome = true
    · rw [if_pos hmath] at hrun ⊢
      exact hfunction v t hrun
    · rw [if_neg hmath] at hrun
      split at hrun <;> nomatch hrun
  | .index base items, hq => by
    obtain ⟨hbase, hitems⟩ := Scopes.passive_append.1 hq
    simp only [fold]
    apply (infer_carries h base hbase).bindAny
    intro t
    apply (fold_carries h base hbase).bindCertain
    · exact fun v => foldItems_carries h t (some v) items hitems
    · intro v s' hrun
      have hnone := foldItems_none hrun
      exact ⟨(foldItems_carries h t none items hitems v s' hrun).1, by rw [hnone]; nofun⟩
  | .cast type e, hq => by
    obtain ⟨htype, he⟩ := Scopes.passive_append.1 hq
    simp only [fold]
    apply (resolveType_carries h type htype).bindAny
    intro t
    exact (fold_carries h e he).bindCertain (fun v => (Carries.orFail _ _).map) Loses.unknown
  | .array items, hq => by
    simp only [fold]
    apply (foldAll_carries h items hq).bind
    · exact fun vs _ => Carries.pure _
    · intro vs hvs
      rw [mapM_id_of_not_certain hvs]
      exact Loses.unknown
  | .measure _, _ => Carries.fail _
  | .paren e, hq => fold_carries h e hq

theorem foldAll_carries (h : s.scopes.Refines u.scopes) : ∀ es : List Expr,
    s.scopes.Passive (exprsCallees es) (exprsMeasure es) →
      Carries config s u (fun vs => ∀ v ∈ vs, Certain v) (foldAll calls es)
  | [], _ => Carries.pure _
  | e :: es, hq => by
    obtain ⟨he, hes⟩ := Scopes.passive_append.1 hq
    simp only [foldAll]
    apply (fold_carries h e he).bindCertain
    · intro v
      apply (foldAll_carries h es hes).bind
      · exact fun vs _ => Carries.pure _
      · exact fun vs hvs => Loses.pure fun hall => hvs (List.forall_mem_cons.1 hall).2
    · refine Loses.bind (foldAll_carries h es hes) fun vs => Loses.pure fun hall => ?_
      exact not_certain_none (List.forall_mem_cons.1 hall).1

theorem foldArgument_carries (h : s.scopes.Refines u.scopes) (f : String) : ∀ es : List Expr,
    s.scopes.Passive (exprsCallees es) (exprsMeasure es) →
      Carries config s u Certain (foldArgument calls f es)
  | [], _ => Carries.fail _
  | [e], hq => fold_carries h e (Scopes.passive_append.1 hq).1
  | _ :: _ :: _, _ => Carries.fail _

theorem foldItems_carries (h : s.scopes.Refines u.scopes) :
    ∀ (t : ClassicalType) (v : Option Value) (items : List IndexItem),
      s.scopes.Passive (itemsCallees items) (itemsMeasure items) →
        Carries config s u Certain (foldItems calls t v items)
  | _, _, [], _ => Carries.pure _
  | t, v, item :: rest, hq => by
    obtain ⟨hitem, hrest⟩ := Scopes.passive_append.1 hq
    simp only [foldItems]
    split
    · exact Carries.fail _
    · apply (itemPositions_carries h _ item hitem).bindAny
      intro positions
      split
      · exact foldItems_carries h _ _ rest hrest
      · exact Carries.fail _

theorem itemPositions_carries (h : s.scopes.Refines u.scopes) (n : Nat) : ∀ item : IndexItem,
    s.scopes.Passive item.callees item.measures → Carries config s u Any (itemPositions calls n item)
  | .single e, hq => by
    simp only [itemPositions]
    refine (fold_carries h e hq).bindCertain (fun v => ?_) (Loses.fail _)
    apply (indexValue_carries e v).bindAny
    intro i
    exact (Carries.orFail _ _).bindAny fun p => Carries.pure _
  | .set items, hq => setPositions_carries h n items hq
  | .range r, hq => rangePositions_carries h n r hq

theorem setPositions_carries (h : s.scopes.Refines u.scopes) (n : Nat) : ∀ es : List Expr,
    s.scopes.Passive (exprsCallees es) (exprsMeasure es) →
      Carries config s u Any (setPositions calls n es)
  | [], _ => Carries.pure _
  | e :: es, hq => by
    obtain ⟨he, hes⟩ := Scopes.passive_append.1 hq
    simp only [setPositions]
    refine (fold_carries h e he).bindCertain (fun v => ?_) (Loses.fail _)
    apply (indexValue_carries e v).bindAny
    intro i
    apply (Carries.orFail _ _).bindAny
    intro p
    exact (setPositions_carries h n es hes).bindAny fun ps => Carries.pure _

theorem rangePositions_carries (h : s.scopes.Refines u.scopes) (n : Nat) : ∀ r : RangeExpr,
    s.scopes.Passive r.callees r.measures → Carries config s u Any (rangePositions calls n r)
  | ⟨start, step, stop⟩, hq => by
    obtain ⟨hends, hstop⟩ := Scopes.passive_append.1 hq
    obtain ⟨hstart, hstep⟩ := Scopes.passive_append.1 hends
    simp only [rangePositions]
    apply (rangePart_carries h start hstart).bindAny
    intro a
    apply (rangePart_carries h step hstep).bindAny
    intro b
    apply (rangePart_carries h stop hstop).bindAny
    intro c
    exact Carries.orFail _ _

theorem rangePart_carries (h : s.scopes.Refines u.scopes) : ∀ e : Option Expr,
    s.scopes.Passive (optionCallees e) (optionMeasures e) → Carries config s u Any (rangePart calls e)
  | none, _ => Carries.pure _
  | some e, hq => by
    simp only [rangePart]
    refine (fold_carries h e hq).bindCertain (fun v => ?_) (Loses.fail _)
    exact (indexValue_carries e v).bindAny fun i => Carries.pure _

/-- The type of an expression is the same when more is known. -/
theorem infer_carries (h : s.scopes.Refines u.scopes) : ∀ e : Expr,
    s.scopes.Passive e.callees e.measures → Carries config s u Any (infer calls e)
  | .int _, _ | .float _, _ | .constant _, _ | .imaginary _, _ | .bool _, _ | .bits _, _
  | .duration _ _, _ => Carries.pure _
  | .name n, _ => nameType_carries h n
  | .unary op e, hq => by
    simp only [infer]
    exact (infer_carries h e hq).bindAny fun t => unaryType_carries op t
  | .binary l op r, hq => by
    obtain ⟨hl, hr⟩ := Scopes.passive_append.1 hq
    simp only [infer]
    apply (infer_carries h l hl).bindAny
    intro t
    exact (infer_carries h r hr).bindAny fun u => Carries.orFail _ _
  | .call f args, hq => by
    obtain ⟨hf, hargs⟩ := Scopes.passive_cons.1 hq
    have htype : Carries config s u Any
        (inferAll calls args >>= fun _ => Pure.pure ClassicalType.defaultFloat) :=
      (inferAll_carries h args hargs).bindAny fun _ => Carries.pure _
    intro t s' hrun
    rw [infer, run_bind, run_lookup] at hrun ⊢
    cases hx : s.scopes.resolve? f with
    | some x =>
      have hx' : x.subroutine? = none := by
        unfold Scopes.subroutine? at hf
        rwa [hx] at hf
      simp only [hx, hx'] at hrun
      nomatch hrun
    | none =>
      simp only [hx, h.resolve?_isNone hx] at hrun ⊢
      by_cases hmath : (MathFunction.ofName? f).isSome = true
      · rw [if_pos hmath] at hrun ⊢
        exact htype t s' hrun
      · rw [if_neg hmath] at hrun
        nomatch hrun
  | .index base items, hq => by
    obtain ⟨hbase, -⟩ := Scopes.passive_append.1 hq
    simp only [infer]
    exact (infer_carries h base hbase).bindAny fun t => itemsType_carries t items
  | .cast type _, hq => resolveType_carries h type (Scopes.passive_append.1 hq).1
  | .array items, hq => by
    simp only [infer]
    exact (inferFirst_carries h items hq).bindAny fun t => Carries.pure _
  | .measure _, hq => absurd hq.2 nofun
  | .paren e, hq => infer_carries h e hq

theorem inferAll_carries (h : s.scopes.Refines u.scopes) : ∀ es : List Expr,
    s.scopes.Passive (exprsCallees es) (exprsMeasure es) → Carries config s u Any (inferAll calls es)
  | [], _ => Carries.pure _
  | e :: es, hq => by
    obtain ⟨he, hes⟩ := Scopes.passive_append.1 hq
    simp only [inferAll]
    exact (infer_carries h e he).bindAny fun _ => inferAll_carries h es hes

theorem inferFirst_carries (h : s.scopes.Refines u.scopes) : ∀ es : List Expr,
    s.scopes.Passive (exprsCallees es) (exprsMeasure es) → Carries config s u Any (inferFirst calls es)
  | [], _ => Carries.pure _
  | e :: _, hq => infer_carries h e (Scopes.passive_append.1 hq).1

theorem resolveType_carries (h : s.scopes.Refines u.scopes) : ∀ t : TypeExpr,
    s.scopes.Passive t.callees t.measures → Carries config s u Any (resolveType calls t)
  | .bool, _ | .duration, _ | .stretch, _ | .sized _ none, _ => Carries.pure _
  | .sized kind (some e), hq => by
    simp only [resolveType]
    refine (fold_carries h e hq).bindCertain (fun v => ?_) (Loses.fail _)
    apply (widthValue_carries e v).bindAny
    intro n
    exact (checkWidth_carries kind n).bindAny fun _ => Carries.pure _
  | .array element dims, hq => by
    obtain ⟨helement, hdims⟩ := Scopes.passive_append.1 hq
    simp only [resolveType]
    apply (resolveType_carries h element helement).bindAny
    intro t
    apply Carries.ite (Carries.fail _)
    exact (resolveWidths_carries h dims hdims).bindAny fun _ => Carries.pure _

theorem resolveWidths_carries (h : s.scopes.Refines u.scopes) : ∀ es : List Expr,
    s.scopes.Passive (exprsCallees es) (exprsMeasure es) →
      Carries config s u Any (resolveWidths calls es)
  | [], _ => Carries.pure _
  | e :: es, hq => by
    obtain ⟨he, hes⟩ := Scopes.passive_append.1 hq
    simp only [resolveWidths]
    refine (fold_carries h e he).bindCertain (fun v => ?_) (Loses.fail _)
    apply (widthValue_carries e v).bindAny
    intro n
    exact (resolveWidths_carries h es hes).bindAny fun _ => Carries.pure _

end

end Evaluating

end Analysis
end OpenQasm
