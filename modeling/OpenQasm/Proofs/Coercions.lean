import Mathlib.Data.Int.ModEq
import OpenQasm.Proofs.LowBits

/-!
Conversion to a type as a retraction: what comes out is a value of the type, integers change by multiples of the
power of two of their width, and a value of the type is left as it is. So it makes no difference how often a value is
converted on its way to the place where it is stored. Angles are the exception, since a whole turn is divided out in
floating-point arithmetic.
-/
namespace OpenQasm

namespace Word

variable {n : Nat} {v w : Int64}

/-- The last bits are the remainder by the power of two. -/
theorem toInt_emod (hn : n ≤ 64) (v : Int64) : v.toInt % 2 ^ n = (low n v).toNat := by
  have hdvd : (2 : Int) ^ n ∣ (2 ^ 64 : Nat) := by
    push_cast
    exact pow_dvd_pow 2 hn
  calc v.toInt % 2 ^ n
      = (v.toBitVec.toNat : Int).bmod (2 ^ 64) % 2 ^ n := by rw [← Int64.toInt_toBitVec, BitVec.toInt_eq_toNat_bmod]
    _ = (v.toBitVec.toNat : Int).bmod (2 ^ 64) % (2 ^ 64 : Nat) % 2 ^ n := (Int.emod_emod_of_dvd _ hdvd).symm
    _ = (v.toBitVec.toNat : Int) % (2 ^ 64 : Nat) % 2 ^ n := by rw [Int.bmod_emod]
    _ = (v.toBitVec.toNat : Int) % 2 ^ n := Int.emod_emod_of_dvd _ hdvd
    _ = (low n v).toNat := by
      rw [low, BitVec.toNat_setWidth]
      push_cast
      rfl

theorem toInt_modEq_of_low (hn : n ≤ 64) (h : low n v = low n w) : v.toInt ≡ w.toInt [ZMOD 2 ^ n] := by
  rw [Int.ModEq, toInt_emod hn, toInt_emod hn, h]

theorem wrapSigned_modEq (hpos : 0 < n) (v : Int64) : (wrapSigned v n).toInt ≡ v.toInt [ZMOD 2 ^ n] := by
  -- From 64 bits on there is no wrapping, also where the type is wider than a word.
  by_cases hwide : n ≥ 64
  · rw [wrapSigned, if_pos hwide]
  · have hn : n ≤ 64 := by omega
    apply toInt_modEq_of_low hn
    rw [wrapSigned_eq hpos hn, low_ofSigned hn]

theorem wrapUnsigned_modEq (n : Nat) (v : Int64) : (wrapUnsigned v n).toInt ≡ v.toInt [ZMOD 2 ^ n] := by
  by_cases hwide : n ≥ 64
  · rw [wrapUnsigned, if_pos hwide]
  · have hn : n ≤ 64 := by omega
    apply toInt_modEq_of_low hn
    rw [wrapUnsigned_eq hn, low_ofUnsigned hn]

theorem wrapUnsigned_of_inhabits (h : n < 64 → 0 ≤ v.toInt ∧ v.toInt < 2 ^ n) : wrapUnsigned v n = v := by
  by_cases hwide : n ≥ 64
  · rw [wrapUnsigned, if_pos hwide]
  · obtain ⟨hlow, hhigh⟩ := h (Nat.not_le.1 hwide)
    exact wrapUnsigned_of_range hlow hhigh

end Word

namespace ClassicalType

/-- Types without angles, whose integers have at least one bit and whose arrays have dimensions. -/
def Stable : ClassicalType → Prop
  | sized .int n | sized .uint n | sized .bit n => 0 < n
  | sized .angle _ => False
  | array element dims => element.Stable ∧ dims ≠ []
  | _ => True

theorem Stable.positive {t : ClassicalType} (h : t.Stable) : t.Positive := by
  induction t with
  | sized kind n => cases kind <;> first | exact h | trivial
  | array element dims ih => exact ih h.1
  | bool | duration | stretch => trivial

/-- An integer is congruent to the number that a value stands for. -/
def CongruentInteger (n : Nat) (v w : Value) : Prop :=
  ∃ i j, v.int? = some i ∧ w = .int j ∧ j.toInt ≡ i.toInt [ZMOD 2 ^ n]

/-- Arrays of some dimensions whose elements are related one by one. -/
def CongruentArray (related : Value → Value → Prop) : List Nat → Value → Value → Prop
  | [], v, w => related v w
  | _ :: ds, .array vs, .array ws => List.Forall₂ (CongruentArray related ds) vs ws
  | _ :: _, _, _ => False

/-- A value of a type has the integers of another value up to multiples of the power of two of their width. -/
def Congruent : ClassicalType → Value → Value → Prop
  | sized .int n, v, w | sized .uint n, v, w | sized .bit n, v, w => CongruentInteger n v w
  | array element dims, v, w => CongruentArray element.Congruent dims v w
  | _, _, _ => True

end ClassicalType

namespace Value

variable {t element : ClassicalType} {kind : SizedKind} {n : Nat} {v w : Value}
  {vs : List Value} {convert : Value → Except ConversionFault Value}

section Elements

/-- Elements that are left as they are make an array that is. -/
theorem coerceItems_of_forall (h : ∀ v ∈ vs, convert v = .ok v) : coerceItems convert vs = .ok vs := by
  induction vs with
  | nil => rfl
  | cons v vs ih =>
    obtain ⟨hv, hvs⟩ := List.forall_mem_cons.1 h
    rw [coerceItems, hv, ih hvs]
    rfl

theorem coerceArray_congruent {related : Value → Value → Prop}
    (hconvert : ∀ v w, convert v = .ok w → related v w) {dims : List Nat} {v w : Value}
    (h : coerceArray element convert dims v = .ok w) : ClassicalType.CongruentArray related dims v w := by
  induction dims generalizing v w with
  | nil => cases v <;> nomatch h
  | cons d ds ih =>
    obtain ⟨vs, ws, rfl, rfl, -, hitems⟩ := coerceArray_cons_eq_ok h
    -- The items of the last dimension are elements, those of the others are arrays of the rest.
    refine (coerceItems_forall₂ hitems).imp fun x y hxy => ?_
    cases ds with
    | nil => exact hconvert x y hxy
    | cons d' ds' => exact ih hxy

theorem coerceArray_of_inhabits {inhabits : Value → Prop} (hconvert : ∀ w, inhabits w → convert w = .ok w)
    {dims : List Nat} {w : Value} (hdims : dims ≠ []) (h : ClassicalType.InhabitsArray inhabits dims w) :
    coerceArray element convert dims w = .ok w := by
  induction dims generalizing w with
  | nil => exact absurd rfl hdims
  | cons d ds ih =>
    cases w with
    | array items =>
      obtain ⟨hlength, hitems⟩ := h
      have hkept : coerceItems (if ds.isEmpty then convert else coerceArray element convert ds) items = .ok items := by
        refine coerceItems_of_forall fun x hx => ?_
        cases ds with
        | nil => exact hconvert x (hitems x hx)
        | cons d' ds' => exact ih (List.cons_ne_nil d' ds') (hitems x hx)
      rw [coerceArray, if_pos hlength, hkept]
      rfl
    | _ => exact h.elim

end Elements

section Scalars

theorem integral_eq_ok {i : Int64} (h : integral v = .ok i) : v.int? = some i := by
  rw [integral] at h
  split at h
  · next hi =>
    cases h
    exact hi
  · cases h

theorem coerceScalar_congruent (hn : kind = .int → 0 < n) (h : coerceScalar kind n v = .ok w) :
    (ClassicalType.sized kind n).Congruent v w := by
  unfold coerceScalar at h
  cases kind with
  | int =>
    rcases hi : integral v with e | i <;> rw [hi] at h <;> cases h
    exact ⟨i, _, integral_eq_ok hi, rfl, Word.wrapSigned_modEq (hn rfl) i⟩
  | uint =>
    rcases hi : integral v with e | i <;> rw [hi] at h <;> cases h
    exact ⟨i, _, integral_eq_ok hi, rfl, Word.wrapUnsigned_modEq n i⟩
  | bit =>
    rcases hi : integral v with e | i <;> rw [hi] at h <;> cases h
    exact ⟨i, _, integral_eq_ok hi, rfl, Word.wrapUnsigned_modEq n i⟩
  | float | angle | complex => trivial

/-- Numbers in the range of their width are not changed by the wrapping to it. -/
theorem coerceScalar_of_inhabits (ht : (ClassicalType.sized kind n).Stable)
    (h : ClassicalType.InhabitsSized kind n w) : coerceScalar kind n w = .ok w := by
  cases kind with
  | int =>
    cases w with
    | int i =>
      show Except.ok (int (Word.wrapSigned i n)) = .ok (int i)
      rw [Word.wrapSigned_of_range ht h.1 h.2]
    | _ => exact h.elim
  | uint =>
    cases w with
    | int i =>
      show Except.ok (int (Word.wrapUnsigned i n)) = .ok (int i)
      rw [Word.wrapUnsigned_of_inhabits h]
    | _ => exact h.elim
  | bit =>
    cases w with
    | int i =>
      show Except.ok (int (Word.wrapUnsigned i n)) = .ok (int i)
      rw [Word.wrapUnsigned_of_inhabits h]
    | _ => exact h.elim
  | float =>
    cases w with
    | float x => rfl
    | _ => exact h.elim
  | complex =>
    cases w with
    | complex z => rfl
    | _ => exact h.elim
  | angle => exact ht.elim

end Scalars

section Types

theorem coerce_congruent (ht : t.Positive) (h : coerce t v = .ok w) : t.Congruent v w := by
  induction t generalizing v w with
  | sized kind n => exact coerceScalar_congruent ht.width h
  | array element dims ih => exact coerceArray_congruent (fun _ _ => ih ht) h
  | bool | duration | stretch => trivial

/-- A value of a type is what it is converted to. -/
theorem coerce_of_inhabits (ht : t.Stable) (h : t.Inhabits w) : coerce t w = .ok w := by
  induction t generalizing w with
  | bool =>
    cases w with
    | bool b => rfl
    | _ => exact h.elim
  | sized kind n => exact coerceScalar_of_inhabits ht h
  | duration =>
    cases w with
    | duration x u => rfl
    | _ => exact h.elim
  | stretch =>
    cases w with
    | duration x u => rfl
    | _ => exact h.elim
  | array element dims ih => exact coerceArray_of_inhabits (fun _ => ih ht.1) ht.2 h

/-- What a value is converted to is a value of the type, has the same integers up to their width, and is not changed
by another conversion. -/
theorem coerce_retracts (ht : t.Stable) (h : coerce t v = .ok w) :
    t.Inhabits w ∧ t.Congruent v w ∧ coerce t w = .ok w := by
  have hinhabits : t.Inhabits w := coerce_inhabits ht.positive h
  exact ⟨hinhabits, coerce_congruent ht.positive h, coerce_of_inhabits ht hinhabits⟩

theorem coerce_retracts_pairs :
    coerce (.array (.sized .int 8) [1, 2]) (.array [.array [int 300, bool true]]) =
      .ok (.array [.array [int 44, int 1]]) ∧
    coerce (.array (.sized .int 8) [1, 2]) (.array [.array [int 44, int 1]]) =
      .ok (.array [.array [int 44, int 1]]) := by
  have hpositive : 0 < 8 := by decide
  have hstable : (ClassicalType.array (.sized .int 8) [1, 2]).Stable := ⟨hpositive, nofun⟩
  have hconverted : coerce (.array (.sized .int 8) [1, 2]) (.array [.array [int 300, bool true]]) =
    .ok (.array [.array [int 44, int 1]]) := rfl
  obtain ⟨-, -, hkept⟩ := coerce_retracts hstable hconverted
  exact ⟨hconverted, hkept⟩

end Types

end Value

end OpenQasm
