import Mathlib.Data.List.Forall2
import OpenQasm.Proofs.WrittenValues

/-!
The value of an expression in a state, by the values of its parts. The same evaluation serves while the
program is analyzed, where some variables have no value, and for a run of it, where they have got one.
-/
namespace OpenQasm

namespace Analysis

/-- The value that an expression has in a state. -/
def Gives (calls : Calls) (config : Config) (s : State) (e : Expr) (v : Value) : Prop :=
  fold calls e config s = (.ok (some v), s)

/-- An expression without a value that is known. -/
def Undetermined (calls : Calls) (config : Config) (s : State) (e : Expr) : Prop :=
  fold calls e config s = (.ok none, s)

/-- The type that an expression has in a state. -/
def HasType (calls : Calls) (config : Config) (s : State) (e : Expr) (t : ClassicalType) : Prop :=
  infer calls e config s = (.ok t, s)

/-- An expression whose evaluation changes nothing. -/
def Still (calls : Calls) (config : Config) (s : State) (e : Expr) : Prop :=
  ∀ v t, fold calls e config s = (.ok v, t) → t = s

section Values

variable {calls : Calls} {config : Config} {s t : State} {e l r base : Expr} {v w : Value}

theorem Gives.unique (h : Gives calls config s e v) (h' : Gives calls config s e w) : w = v := by
  cases h.symm.trans h'
  rfl

/-- The result of an operation that is defined on known values only. -/
theorem operation_eq_ok {ε : Type} {problem : ε → Problem} {result : Except ε Value} :
    (some <$> orFail problem result : Analysis (Option Value)) config s = (.ok (some v), t) ↔
      result = .ok v ∧ t = s := by
  cases result with
  | ok w =>
    constructor
    · intro h
      cases h
      exact ⟨rfl, rfl⟩
    · rintro ⟨h, rfl⟩
      cases h
      rfl
  | error fault => exact ⟨nofun, fun h => nomatch h.1⟩

theorem gives_unary {op : UnaryOp} :
    Gives calls config s (.unary op e) v ↔
      ∃ a, Gives calls config s e a ∧ Value.evalUnary op a = .ok v := by
  unfold Gives
  rw [fold, run_bind_eq_ok]
  constructor
  · rintro ⟨a, t, ha, h⟩
    cases a with
    | none => nomatch h
    | some a =>
      obtain ⟨hresult, rfl⟩ := operation_eq_ok.1 h
      exact ⟨a, ha, hresult⟩
  · rintro ⟨a, ha, h⟩
    exact ⟨some a, s, ha, operation_eq_ok.2 ⟨h, rfl⟩⟩

/-- A left operand that decides the result makes the right one irrelevant. -/
theorem gives_binary {op : BinaryOp} (hl : Still calls config s l) :
    Gives calls config s (.binary l op r) v ↔
      ∃ a, Gives calls config s l a ∧ ((∃ b, decided? op (some a) = some b ∧ v = .bool b) ∨
        decided? op (some a) = none ∧
          ∃ b, Gives calls config s r b ∧ Value.evalBinary op a b = .ok v) := by
  unfold Gives
  rw [fold, run_bind_eq_ok]
  constructor
  · rintro ⟨left, t, hleft, h⟩
    cases hl left t hleft
    cases hdecided : decided? op left with
    | some b =>
      rw [hdecided] at h
      cases h
      cases left with
      | none => cases op <;> nomatch hdecided
      | some a => exact ⟨a, hleft, Or.inl ⟨b, hdecided, rfl⟩⟩
    | none =>
      rw [hdecided] at h
      obtain ⟨right, t, hright, h⟩ := run_bind_eq_ok.1 h
      cases left with
      | none => nomatch h
      | some a =>
        cases right with
        | none => nomatch h
        | some b =>
          obtain ⟨hresult, rfl⟩ := operation_eq_ok.1 h
          exact ⟨a, hleft, Or.inr ⟨hdecided, b, hright, hresult⟩⟩
  · rintro ⟨a, ha, ⟨b, hdecided, rfl⟩ | ⟨hdecided, b, hb, h⟩⟩
    · refine ⟨some a, s, ha, ?_⟩
      rw [hdecided]
      rfl
    · refine ⟨some a, s, ha, ?_⟩
      rw [hdecided]
      exact run_bind_eq_ok.2 ⟨some b, s, hb, operation_eq_ok.2 ⟨h, rfl⟩⟩

theorem gives_index {type : ClassicalType} {items : List IndexItem}
    (htype : HasType calls config s base type) (hbase : Still calls config s base) :
    Gives calls config s (.index base items) v ↔
      ∃ b, Gives calls config s base b ∧
        foldItems calls type (some b) items config s = (.ok (some v), s) := by
  unfold Gives
  rw [fold, run_bind, htype]
  dsimp only
  rw [run_bind_eq_ok]
  constructor
  · rintro ⟨b, t, hb, h⟩
    cases hbase b t hb
    cases b with
    | none => nomatch foldItems_none h
    | some b => exact ⟨b, hb, h⟩
  · rintro ⟨b, hb, h⟩
    exact ⟨some b, s, hb, h⟩

theorem gives_cast {type : TypeExpr} {t : ClassicalType}
    (htype : resolveType calls type config s = (.ok t, s)) :
    Gives calls config s (.cast type e) v ↔
      ∃ a, Gives calls config s e a ∧ Value.cast t a = .ok v := by
  unfold Gives
  rw [fold, run_bind, htype]
  dsimp only
  rw [run_bind_eq_ok]
  constructor
  · rintro ⟨a, u, ha, h⟩
    cases a with
    | none => nomatch h
    | some a =>
      obtain ⟨hresult, rfl⟩ := operation_eq_ok.1 h
      exact ⟨a, ha, hresult⟩
  · rintro ⟨a, ha, h⟩
    exact ⟨some a, s, ha, operation_eq_ok.2 ⟨h, rfl⟩⟩

theorem foldAll_still {es : List Expr} {xs : List (Option Value)}
    (hes : ∀ e ∈ es, Still calls config s e) (h : foldAll calls es config s = (.ok xs, t)) :
    t = s := by
  induction es generalizing xs t with
  | nil =>
    cases h
    rfl
  | cons e es ih =>
    obtain ⟨he, hes⟩ := List.forall_mem_cons.1 hes
    rw [foldAll] at h
    obtain ⟨x, u, hx, h⟩ := run_bind_eq_ok.1 h
    cases he x u hx
    obtain ⟨xs, u, hxs, h⟩ := run_bind_eq_ok.1 h
    cases h
    exact ih hes hxs

theorem foldAll_gives {es : List Expr} {vs : List Value} (hes : ∀ e ∈ es, Still calls config s e) :
    foldAll calls es config s = (.ok (vs.map some), s) ↔
      List.Forall₂ (Gives calls config s) es vs := by
  induction es generalizing vs with
  | nil =>
    rw [List.forall₂_nil_left_iff]
    constructor
    · intro h
      cases vs with
      | nil => rfl
      | cons v vs => nomatch h
    · rintro rfl
      rfl
  | cons e es ih =>
    obtain ⟨he, hes⟩ := List.forall_mem_cons.1 hes
    rw [foldAll, run_bind_eq_ok]
    constructor
    · rintro ⟨x, u, hx, h⟩
      cases he x u hx
      obtain ⟨xs, u, hxs, h⟩ := run_bind_eq_ok.1 h
      cases foldAll_still hes hxs
      cases vs with
      | nil => nomatch h
      | cons v vs =>
        cases h
        exact .cons hx ((ih hes).1 hxs)
    · rintro (_ | ⟨hv, hvs⟩)
      exact ⟨_, s, hv, run_bind_eq_ok.2 ⟨_, s, (ih hes).2 hvs, rfl⟩⟩

theorem gives_array {es : List Expr} (hes : ∀ e ∈ es, Still calls config s e) :
    Gives calls config s (.array es) v ↔
      ∃ vs, v = .array vs ∧ List.Forall₂ (Gives calls config s) es vs := by
  unfold Gives
  rw [fold, run_bind_eq_ok]
  constructor
  · rintro ⟨xs, u, hxs, h⟩
    cases foldAll_still hes hxs
    cases hvs : xs.mapM id with
    | none =>
      rw [hvs] at h
      nomatch h
    | some vs =>
      rw [hvs] at h
      cases h
      rw [mapM_id_eq_some.1 hvs] at hxs
      exact ⟨vs, rfl, (foldAll_gives hes).1 hxs⟩
  · rintro ⟨vs, rfl, hvs⟩
    refine ⟨vs.map some, s, (foldAll_gives hes).2 hvs, ?_⟩
    rw [mapM_id_eq_some.2 rfl]
    rfl

theorem functionValue_eq_ok {f : String} {a : Value} :
    functionValue f (some a) config s = (.ok (some v), t) ↔
      t = s ∧ ∃ x y, a.real? = some x ∧ MathFunction.valueOf? f x = some y ∧ v = .float y := by
  rw [functionValue]
  cases hx : a.real? with
  | none => exact ⟨nofun, fun h => nomatch h.2⟩
  | some x =>
    cases hy : MathFunction.valueOf? f x with
    | none =>
      simp only [hy]
      exact ⟨nofun, fun ⟨_, _, _, hx, hy', _⟩ => by cases hx; nomatch hy.symm.trans hy'⟩
    | some y =>
      simp only [hy]
      constructor
      · intro h
        cases h
        exact ⟨rfl, x, y, rfl, hy, rfl⟩
      · rintro ⟨rfl, _, _, ⟨⟩, hy', rfl⟩
        cases hy.symm.trans hy'
        rfl

/-- A name that does not stand for a subroutine can stand for a function of one argument. -/
theorem gives_call {f : String} {args : List Expr} (hf : s.scopes.subroutine? f = none) :
    Gives calls config s (.call f args) v ↔
      (MathFunction.ofName? f).isSome = true ∧ ∃ e a x y, args = [e] ∧ Gives calls config s e a ∧
        a.real? = some x ∧ MathFunction.valueOf? f x = some y ∧ v = .float y := by
  have hsymbol : (s.scopes.resolve? f).bind Symbol.subroutine? = none := hf
  unfold Gives
  rw [fold, run_bind, run_lookup]
  simp only [hsymbol]
  by_cases hmath : (MathFunction.ofName? f).isSome = true
  · rw [if_pos hmath, run_bind_eq_ok]
    constructor
    · rintro ⟨a, t, ha, h⟩
      cases a with
      | none => nomatch h
      | some a =>
        obtain ⟨rfl, x, y, hx, hy, hv⟩ := functionValue_eq_ok.1 h
        match args, ha with
        | [e], ha => exact ⟨hmath, e, a, x, y, rfl, ha, hx, hy, hv⟩
    · rintro ⟨-, e, a, x, y, rfl, ha, hx, hy, hv⟩
      exact ⟨some a, s, ha, functionValue_eq_ok.2 ⟨rfl, x, y, hx, hy, hv⟩⟩
  · rw [if_neg hmath]
    constructor
    · intro h
      split at h <;> nomatch h
    · exact fun h => absurd h.1 hmath

end Values

end Analysis
end OpenQasm
