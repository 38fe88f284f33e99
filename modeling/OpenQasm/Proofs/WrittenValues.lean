import OpenQasm.Proofs.DoubleLaws
import OpenQasm.Proofs.KnownValues
import OpenQasm.Proofs.Reanalysis

/-!
What is written into the flat program and read there again: values as literals, positions in indices, and
types with their widths. Types and positions denote what they denoted. A value does if it is one that a
literal can stand for, which the least integer is not.
-/
namespace OpenQasm

open Analysis

/-- The literal of a value has this value in every state. -/
def Value.ReadsBack (v : Value) : Prop :=
  ∀ calls config s, fold calls v.toExpr config s = (.ok (some v), s)

namespace Value

theorem readsBack_bool (b : Bool) : (bool b).ReadsBack := fun _ _ _ => rfl

theorem readsBack_duration (x : Float) (u : TimeUnit) : (duration x u).ReadsBack := fun _ _ _ => rfl

theorem readsBack_int {n : Int64} (hn : n ≠ Int64.minValue) : (int n).ReadsBack :=
  fun _ _ _ => fold_intExpr hn

/-- A negative number is the negation of its absolute value. -/
theorem readsBack_float (x : Float) : (float x).ReadsBack := by
  intro calls config s
  rw [toExpr, floatExpr]
  split
  · rw [fold, run_bind, fold]
    exact congrArg (fun y => (Except.ok (some (float y)), s)) (Double.neg_neg x)
  · rw [fold]
    rfl

theorem foldAll_toExprs {vs : List Value} (h : ∀ v ∈ vs, v.ReadsBack) (calls : Calls) (config : Config)
    (s : State) : foldAll calls (toExprs vs) config s = (.ok (vs.map some), s) := by
  induction vs with
  | nil => rfl
  | cons v vs ih =>
    obtain ⟨hv, hvs⟩ := List.forall_mem_cons.1 h
    rw [toExprs, foldAll, run_bind, hv]
    dsimp only
    rw [run_bind, ih hvs]
    rfl

theorem readsBack_array {vs : List Value} (h : ∀ v ∈ vs, v.ReadsBack) : (array vs).ReadsBack := by
  intro calls config s
  rw [toExpr, fold, run_bind, foldAll_toExprs h]
  dsimp only
  rw [mapM_id_eq_some.2 rfl]
  rfl

/-- The least integer is written as a literal that is refused. -/
theorem not_readsBack_least : ¬(int Int64.minValue).ReadsBack := by
  intro h
  have hrun := h ⟨fun _ _ => pure none, fun _ _ => pure .bool, fun _ _ _ => pure []⟩ .default .initial
  rw [toExpr, fold_intExpr_least] at hrun
  nomatch hrun

end Value

namespace ClassicalType

/-- A type whose widths and dimensions can be written. -/
def Writable : ClassicalType → Prop
  | sized kind n => 0 < n ∧ n < Bound.size ∧ ∀ config s, checkWidth kind n config s = (.ok n, s)
  | array element dims =>
    element.Writable ∧ element.isArray = false ∧ ∀ d ∈ dims, 0 < d ∧ d < Bound.size
  | _ => True

end ClassicalType

namespace Analysis

variable {calls : Calls} {config : Config} {s t : State}

section Types

theorem widthValue_eq_ok {e : Expr} {v : Option Value} {n : Nat}
    (h : widthValue e v config s = (.ok n, t)) : 0 < n ∧ n < Bound.size := by
  rcases v with - | v
  · nomatch h
  cases v with
  | int i =>
    simp only [widthValue] at h
    by_cases hpositive : i ≤ 0
    · rw [if_pos hpositive] at h
      nomatch h
    · rw [if_neg hpositive] at h
      by_cases hsize : i.toInt < Bound.size
      · rw [if_pos hsize] at h
        cases h
        rw [Int64.le_iff_toInt_le, Int64.toInt_zero] at hpositive
        omega
      · rw [if_neg hsize] at h
        nomatch h
  | _ => nomatch h

/-- A width is read again as itself. -/
theorem widthValue_position {n : Nat} (e : Expr) (hn : 0 < n) (hsize : n < Bound.size) {i : Int64}
    (hi : i.toInt = n) (config : Config) (s : State) :
    widthValue e (some (.int i)) config s = (.ok n, s) := by
  have hpositive : ¬i ≤ 0 := by
    rw [Int64.le_iff_toInt_le, Int64.toInt_zero]
    omega
  have hsmall : i.toInt < Bound.size := by omega
  simp only [widthValue]
  rw [if_neg hpositive, if_pos hsmall, hi]
  rfl

theorem fold_width (calls : Calls) (config : Config) (s : State) {n : Nat} (hn : 0 < n)
    (hsize : n < Bound.size) :
    ∃ i : Int64, fold calls (ClassicalType.intExpr n) config s = (.ok (some (.int i)), s) ∧
      ∀ e, widthValue e (some (.int i)) config s = (.ok n, s) := by
  have hbound : n < Bound.integer := by
    unfold Bound.size at hsize
    unfold Bound.integer
    omega
  obtain ⟨i, hi, hfold⟩ := fold_positionExpr calls config s hbound
  exact ⟨i, hfold, fun e => widthValue_position e hn hsize hi config s⟩

theorem checkWidth_cases (kind : SizedKind) (n : Nat) :
    checkWidth kind n = pure n ∨ ∃ p, checkWidth kind n = fail p := by
  cases kind with
  | int | uint => exact (ite_eq_or_eq _ _ _).symm.imp id fun h => ⟨_, h⟩
  | float | complex => exact (ite_eq_or_eq _ _ _).imp id fun h => ⟨_, h⟩
  | angle | bit => exact Or.inl rfl

/-- A width that is allowed for a kind is allowed wherever it is written. -/
theorem checkWidth_eq_ok {kind : SizedKind} {n m : Nat}
    (h : checkWidth kind n config s = (.ok m, t)) :
    m = n ∧ ∀ config s, checkWidth kind n config s = (.ok n, s) := by
  rcases checkWidth_cases kind n with hallowed | ⟨p, hrefused⟩
  · rw [hallowed] at h ⊢
    cases h
    exact ⟨rfl, fun _ _ => rfl⟩
  · rw [hrefused] at h
    nomatch h

theorem resolveWidths_eq_ok {es : List Expr} {ns : List Nat}
    (h : resolveWidths calls es config s = (.ok ns, t)) : ∀ n ∈ ns, 0 < n ∧ n < Bound.size := by
  induction es generalizing ns s with
  | nil =>
    cases h
    exact fun _ hn => by cases hn
  | cons e es ih =>
    rw [resolveWidths] at h
    obtain ⟨v, s₁, -, h⟩ := run_bind_eq_ok.1 h
    obtain ⟨n, s₂, hwidth, h⟩ := run_bind_eq_ok.1 h
    obtain ⟨ns, s₃, hwidths, h⟩ := run_bind_eq_ok.1 h
    cases h
    exact List.forall_mem_cons.2 ⟨widthValue_eq_ok hwidth, ih hwidths⟩

theorem writable_default (kind : SizedKind) : (ClassicalType.sized kind (defaultWidth kind)).Writable := by
  cases kind <;> exact ⟨by decide, by decide, fun _ _ => rfl⟩

/-- Every type that a text denotes can be written. -/
theorem resolveType_writable : ∀ {type : TypeExpr} {u : ClassicalType} {s t : State},
    resolveType calls type config s = (.ok u, t) → u.Writable
  | .bool, _, _, _, h => by cases h; trivial
  | .duration, _, _, _, h => by cases h; trivial
  | .stretch, _, _, _, h => by cases h; trivial
  | .sized kind none, _, _, _, h => by
    cases h
    exact writable_default kind
  | .sized kind (some e), _, _, _, h => by
    rw [resolveType] at h
    obtain ⟨v, s₁, -, h⟩ := run_bind_eq_ok.1 h
    obtain ⟨n, s₂, hwidth, h⟩ := run_bind_eq_ok.1 h
    obtain ⟨m, s₃, hcheck, h⟩ := run_bind_eq_ok.1 h
    cases h
    obtain ⟨rfl, hallowed⟩ := checkWidth_eq_ok hcheck
    obtain ⟨hpositive, hsize⟩ := widthValue_eq_ok hwidth
    exact ⟨hpositive, hsize, hallowed⟩
  | .array element dims, _, _, _, h => by
    rw [resolveType] at h
    obtain ⟨v, s₁, helement, h⟩ := run_bind_eq_ok.1 h
    by_cases hnested : v.isArray = true
    · rw [if_pos hnested] at h
      nomatch h
    · rw [if_neg hnested] at h
      obtain ⟨ns, s₂, hdims, h⟩ := run_bind_eq_ok.1 h
      cases h
      exact ⟨resolveType_writable helement, Bool.eq_false_iff.2 hnested, resolveWidths_eq_ok hdims⟩

theorem resolveWidths_written {dims : List Nat} (h : ∀ d ∈ dims, 0 < d ∧ d < Bound.size)
    (calls : Calls) (config : Config) (s : State) :
    resolveWidths calls (dims.map ClassicalType.intExpr) config s = (.ok dims, s) := by
  induction dims with
  | nil => rfl
  | cons d ds ih =>
    obtain ⟨⟨hpositive, hsize⟩, hds⟩ := List.forall_mem_cons.1 h
    obtain ⟨i, hfold, hwidth⟩ := fold_width calls config s hpositive hsize
    rw [List.map_cons, resolveWidths, run_bind, hfold]
    dsimp only
    rw [run_bind, hwidth]
    dsimp only
    rw [run_bind, ih hds]
    rfl

/-- A type is read again as itself. -/
theorem resolveType_toExpr {u : ClassicalType} (h : u.Writable) (calls : Calls) (config : Config)
    (s : State) : resolveType calls u.toExpr config s = (.ok u, s) := by
  induction u with
  | bool => rfl
  | duration => rfl
  | stretch => rfl
  | sized kind n =>
    obtain ⟨hpositive, hsize, hcheck⟩ := h
    obtain ⟨i, hfold, hwidth⟩ := fold_width calls config s hpositive hsize
    rw [ClassicalType.toExpr, resolveType, run_bind, hfold]
    dsimp only
    rw [run_bind, hwidth]
    dsimp only
    rw [run_bind, hcheck]
    rfl
  | array element dims ih =>
    obtain ⟨helement, hplain, hdims⟩ := h
    rw [ClassicalType.toExpr, resolveType, run_bind, ih helement]
    dsimp only
    rw [hplain, if_neg Bool.false_ne_true, run_bind, resolveWidths_written hdims]
    rfl

end Types

end Analysis

namespace Index

theorem normalize_lt {i : Int} {n p : Nat} (h : normalize i n = .ok p) : p < n := by
  unfold normalize at h
  dsimp only at h
  generalize (if i < 0 then i + n else i) = position at h
  split at h
  · next hwithin =>
    cases h
    omega
  · nomatch h

/-- A progression does not leave the interval between its ends. -/
theorem progression_between {first step final x : Int} (hstep : step ≠ 0)
    (hx : x ∈ progression first step final) : min first final ≤ x ∧ x ≤ max first final := by
  obtain ⟨k, hk, rfl⟩ := List.mem_map.1 hx
  rw [List.mem_range, progressionLength] at hk
  rcases Int.lt_or_lt_of_ne hstep with hdown | hup
  · rw [if_neg (Int.lt_asymm hdown), if_pos hdown] at hk
    split at hk
    · have hk : (k : Int) ≤ (first - final) / -step := by
        have hnonneg : 0 ≤ (first - final) / -step := Int.ediv_nonneg (by omega) (by omega)
        omega
      have hmul : (k : Int) * -step ≤ first - final :=
        (Int.le_ediv_iff_mul_le (Int.neg_pos_of_neg hdown)).1 hk
      have hsign : 0 ≤ (k : Int) * -step := Int.mul_nonneg (Int.natCast_nonneg k) (by omega)
      rw [Int.mul_neg] at hmul hsign
      omega
    · nomatch hk
  · rw [if_pos hup] at hk
    split at hk
    · have hk : (k : Int) ≤ (final - first) / step := by
        have hnonneg : 0 ≤ (final - first) / step := Int.ediv_nonneg (by omega) (by omega)
        omega
      have hmul : (k : Int) * step ≤ final - first := (Int.le_ediv_iff_mul_le hup).1 hk
      have hsign : 0 ≤ (k : Int) * step := Int.mul_nonneg (Int.natCast_nonneg k) (by omega)
      omega
    · nomatch hk

theorem rangePositions_lt {start step stop : Option Int} {n : Nat} {ps : List Nat}
    (h : rangePositions start step stop n = .ok ps) : ∀ p ∈ ps, p < n := by
  unfold rangePositions at h
  dsimp only at h
  split at h
  · nomatch h
  · next hstep =>
    rcases hfirst : normalize (start.getD (if 0 < step.getD 1 then 0 else (n : Int) - 1)) n with e | a
    · rw [hfirst] at h
      nomatch h
    rw [hfirst] at h
    rcases hfinal : normalize (stop.getD (if 0 < step.getD 1 then (n : Int) - 1 else 0)) n with e | b
    · rw [hfinal] at h
      nomatch h
    rw [hfinal] at h
    cases h
    intro p hp
    obtain ⟨x, hx, rfl⟩ := List.mem_map.1 hp
    have hbetween := progression_between hstep hx
    have ha := normalize_lt hfirst
    have hb := normalize_lt hfinal
    omega

end Index

namespace Analysis

section Positions

variable {calls : Calls} {config : Config} {s t : State} {n : Nat} {ps : List Nat}

theorem orFail_eq_ok {α ε : Type} {problem : ε → Problem} {r : Except ε α} {a : α}
    (h : orFail problem r config s = (.ok a, t)) : r = .ok a ∧ t = s := by
  cases r with
  | ok b =>
    cases h
    exact ⟨rfl, rfl⟩
  | error e => nomatch h

theorem setPositions_lt {es : List Expr} (h : setPositions calls n es config s = (.ok ps, t)) :
    ∀ p ∈ ps, p < n := by
  induction es generalizing s ps with
  | nil =>
    cases h
    exact fun _ hp => by cases hp
  | cons e es ih =>
    rw [setPositions] at h
    obtain ⟨v, s₁, -, h⟩ := run_bind_eq_ok.1 h
    obtain ⟨i, s₂, -, h⟩ := run_bind_eq_ok.1 h
    obtain ⟨p, s₃, hp, h⟩ := run_bind_eq_ok.1 h
    obtain ⟨ps, s₄, hps, h⟩ := run_bind_eq_ok.1 h
    cases h
    exact List.forall_mem_cons.2 ⟨Index.normalize_lt (orFail_eq_ok hp).1, ih hps⟩

/-- The positions that an item names lie in the sequence. -/
theorem itemPositions_lt {item : IndexItem}
    (h : itemPositions calls n item config s = (.ok ps, t)) : ∀ p ∈ ps, p < n := by
  cases item with
  | single e =>
    rw [itemPositions] at h
    obtain ⟨v, s₁, -, h⟩ := run_bind_eq_ok.1 h
    obtain ⟨i, s₂, -, h⟩ := run_bind_eq_ok.1 h
    obtain ⟨p, s₃, hp, h⟩ := run_bind_eq_ok.1 h
    cases h
    exact List.forall_mem_singleton.2 (Index.normalize_lt (orFail_eq_ok hp).1)
  | set es =>
    rw [itemPositions] at h
    exact setPositions_lt h
  | range r =>
    obtain ⟨start, step, stop⟩ := r
    rw [itemPositions, rangePositions] at h
    obtain ⟨a, s₁, -, h⟩ := run_bind_eq_ok.1 h
    obtain ⟨b, s₂, -, h⟩ := run_bind_eq_ok.1 h
    obtain ⟨c, s₃, -, h⟩ := run_bind_eq_ok.1 h
    exact Index.rangePositions_lt (orFail_eq_ok h).1

/-- A single item names one position. -/
theorem itemPositions_isSingle {item : IndexItem}
    (h : itemPositions calls n item config s = (.ok ps, t)) (hsingle : isSingle item = true) :
    ∃ p, ps = [p] := by
  cases item with
  | single e =>
    rw [itemPositions] at h
    obtain ⟨v, s₁, -, h⟩ := run_bind_eq_ok.1 h
    obtain ⟨i, s₂, -, h⟩ := run_bind_eq_ok.1 h
    obtain ⟨p, s₃, -, h⟩ := run_bind_eq_ok.1 h
    cases h
    exact ⟨p, rfl⟩
  | set es => nomatch hsingle
  | range r => nomatch hsingle

theorem setPositions_written (h : ∀ p ∈ ps, p < n ∧ p < Bound.integer) (calls : Calls)
    (config : Config) (s : State) :
    setPositions calls n (ps.map positionExpr) config s = (.ok ps, s) := by
  induction ps with
  | nil => rfl
  | cons p ps ih =>
    obtain ⟨⟨hn, hsmall⟩, hps⟩ := List.forall_mem_cons.1 h
    obtain ⟨i, hi, hfold⟩ := fold_positionExpr calls config s hsmall
    rw [List.map_cons, setPositions, run_bind, hfold]
    dsimp only
    rw [indexValue, pure_bind, hi, Index.normalize_within hn, run_bind]
    dsimp only [orFail]
    rw [run_pure]
    dsimp only
    rw [run_bind, ih hps]
    rfl

theorem isSingle_literalItem {single : Bool} (hone : single = true → ∃ p, ps = [p]) :
    isSingle (literalItem single ps) = single := by
  cases single with
  | false => rfl
  | true =>
    obtain ⟨p, rfl⟩ := hone rfl
    rfl

/-- Positions that are written out are read again as themselves. -/
theorem itemPositions_literalItem {single : Bool} (hone : single = true → ∃ p, ps = [p])
    (h : ∀ p ∈ ps, p < n ∧ p < Bound.integer) (calls : Calls) (config : Config) (s : State) :
    itemPositions calls n (literalItem single ps) config s = (.ok ps, s) := by
  cases single with
  | false => exact setPositions_written h calls config s
  | true =>
    obtain ⟨p, rfl⟩ := hone rfl
    obtain ⟨hn, hsmall⟩ := h p List.mem_cons_self
    obtain ⟨i, hi, hfold⟩ := fold_positionExpr calls config s hsmall
    rw [literalItem, itemPositions_single n hfold hi, Index.normalize_within hn]

end Positions

end Analysis
end OpenQasm
