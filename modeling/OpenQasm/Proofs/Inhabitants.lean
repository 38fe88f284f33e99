import Mathlib.Algebra.Order.Ring.Int
import Mathlib.Data.List.Forall2
import Mathlib.Tactic.Positivity
import OpenQasm.Proofs.WrittenValues

/-!
The values of a type: numbers in the range of their width, and arrays of the declared lengths throughout.
A conversion to a type makes a value of it, and so does the replacement of an element by a value of the
type of the element.
-/
namespace OpenQasm

namespace Word

/-- A shift by a number of places smaller than the size of a word is not reduced. -/
theorem shift_amount {k : Nat} (hk : k < 64) :
    ((Int64.ofNat k).toBitVec.smod 64).toNat = k := by
  have hbits : (Int64.ofNat k).toBitVec = BitVec.ofNat 64 k := Int64.toBitVec_ofNat'
  rw [hbits]
  have hall : ∀ j : Fin 64, ((BitVec.ofNat 64 j).smod 64).toNat = j := by decide +kernel
  exact hall ⟨k, hk⟩

theorem toInt_shiftRight (v : Int64) {k : Nat} (hk : k < 64) :
    (v >>> Int64.ofNat k).toInt = v.toInt / (2 ^ k : Nat) := by
  rw [← Int64.toInt_toBitVec, Int64.toBitVec_shiftRight, BitVec.sshiftRight_eq',
    BitVec.toInt_sshiftRight, shift_amount hk, Int.shiftRight_eq_div_pow, Int64.toInt_toBitVec]

/-- A shift to the left multiplies a number, unless the product has more bits than a word. -/
theorem toInt_shiftLeft {v : Int64} {k : Nat} (hk : k < 64) (hlow : -2 ^ 63 ≤ v.toInt * 2 ^ k)
    (hhigh : v.toInt * 2 ^ k < 2 ^ 63) : (v <<< Int64.ofNat k).toInt = v.toInt * 2 ^ k := by
  have hnat : (v <<< Int64.ofNat k).toInt = ((v.toBitVec.toNat : Int) * 2 ^ k).bmod (2 ^ 64) := by
    rw [← Int64.toInt_toBitVec, Int64.toBitVec_shiftLeft, BitVec.shiftLeft_eq', shift_amount hk,
      BitVec.toInt_shiftLeft, Nat.shiftLeft_eq]
    push_cast
    rfl
  calc (v <<< Int64.ofNat k).toInt
      = ((v.toBitVec.toNat : Int).bmod (2 ^ 64) * 2 ^ k).bmod (2 ^ 64) := by rw [hnat, Int.bmod_mul_bmod]
    _ = (v.toInt * 2 ^ k).bmod (2 ^ 64) := by rw [← Int64.toInt_toBitVec, BitVec.toInt_eq_toNat_bmod]
    _ = v.toInt * 2 ^ k := Int.bmod_eq_of_le (by omega) (by omega)

/-- The low bits read as a signed number are one of that many bits. -/
theorem wrapSigned_range (v : Int64) {n : Nat} (hn : 0 < n) :
    -2 ^ (n - 1) ≤ (wrapSigned v n).toInt ∧ (wrapSigned v n).toInt < 2 ^ (n - 1) := by
  have bounds (w : Int64) : -2 ^ 63 ≤ w.toInt ∧ w.toInt < 2 ^ 63 := ⟨w.le_toInt, w.toInt_lt⟩
  unfold wrapSigned
  split
  -- Every word is one of 64 bits, so that a wider type bounds nothing more.
  · next hwide =>
    have hpow : (2 : Int) ^ 63 ≤ 2 ^ (n - 1) := pow_le_pow_right₀ (by decide) (by omega)
    obtain ⟨hle, hlt⟩ := bounds v
    omega
  -- The bits above are shifted out, and the shift back divides by the same power.
  · next hnarrow =>
    have hk : 64 - n < 64 := by omega
    obtain ⟨hle, hlt⟩ := bounds (v <<< Int64.ofNat (64 - n))
    have hsplit : (2 : Int) ^ 63 = 2 ^ (n - 1) * (2 ^ (64 - n) : Nat) := by
      rw [Nat.cast_pow, Nat.cast_ofNat, ← pow_add]
      congr 1
      omega
    have hpositive : (0 : Int) < (2 ^ (64 - n) : Nat) := by positivity
    dsimp only
    rw [toInt_shiftRight _ hk]
    constructor
    · rw [Int.le_ediv_iff_mul_le hpositive, Int.neg_mul, ← hsplit]
      exact hle
    · rw [Int.ediv_lt_iff_lt_mul hpositive, ← hsplit]
      exact hlt

/-- A number of so many bits is what its low bits are read as. -/
theorem wrapSigned_of_range {v : Int64} {n : Nat} (hn : 0 < n) (hlow : -2 ^ (n - 1) ≤ v.toInt)
    (hhigh : v.toInt < 2 ^ (n - 1)) : wrapSigned v n = v := by
  unfold wrapSigned
  split
  · rfl
  · next hnarrow =>
    have hk : 64 - n < 64 := by omega
    have hpositive : (0 : Int) < 2 ^ (64 - n) := by positivity
    have hsplit : (2 : Int) ^ 63 = 2 ^ (n - 1) * 2 ^ (64 - n) := by
      rw [← pow_add]
      congr 1
      omega
    -- Shifted to the left, the number is still one of 64 bits.
    have hleft : (v <<< Int64.ofNat (64 - n)).toInt = v.toInt * 2 ^ (64 - n) := by
      refine toInt_shiftLeft hk ?_ ?_
      · rw [hsplit, ← Int.neg_mul]
        exact Int.mul_le_mul_of_nonneg_right hlow hpositive.le
      · rw [hsplit]
        exact Int.mul_lt_mul_of_pos_right hhigh hpositive
    rw [← Int64.toInt_inj, toInt_shiftRight _ hk, hleft, Nat.cast_pow, Nat.cast_ofNat,
      Int.mul_ediv_cancel _ hpositive.ne']

/-- The mask of the low bits. -/
theorem toNat_mask {n : Nat} (hn : n < 64) :
    (((1 : Int64) <<< Int64.ofNat n) - 1).toBitVec.toNat = 2 ^ n - 1 := by
  have hpow : 2 ^ n ≤ 2 ^ 63 := Nat.pow_le_pow_right (by decide) (by omega)
  have hpositive : 0 < 2 ^ n := by positivity
  rw [Int64.toBitVec_sub, Int64.toBitVec_shiftLeft, BitVec.shiftLeft_eq', shift_amount hn]
  have hone : (BitVec.ofNat 64 1 <<< n).toNat = 2 ^ n := by
    rw [BitVec.toNat_shiftLeft, Nat.shiftLeft_eq, BitVec.toNat_ofNat]
    omega
  have hbit : ((1 : Int64).toBitVec <<< n).toNat = 2 ^ n := hone
  have hsmall : ((1 : Int64).toBitVec).toNat = 1 := rfl
  rw [BitVec.toNat_sub, hbit, hsmall]
  omega

theorem wrapUnsigned_of_range {v : Int64} {n : Nat} (hlow : 0 ≤ v.toInt) (hhigh : v.toInt < 2 ^ n) :
    wrapUnsigned v n = v := by
  unfold wrapUnsigned
  split
  · rfl
  · next hnarrow =>
    have hnat : v.toInt = v.toBitVec.toNat := by
      rw [← Int64.toInt_toBitVec, BitVec.toInt_eq_toNat_cond] at hlow ⊢
      have hlt := v.toBitVec.isLt
      split at hlow <;> omega
    have hsmall : v.toBitVec.toNat < 2 ^ n := by
      rw [hnat] at hhigh
      exact_mod_cast hhigh
    rw [← Int64.toBitVec_inj, Int64.toBitVec_and]
    apply BitVec.eq_of_toNat_eq
    rw [BitVec.toNat_and, toNat_mask (by omega), Nat.and_two_pow_sub_one_eq_mod, Nat.mod_eq_of_lt hsmall]

/-- The low bits read as an unsigned number are one of that many bits. -/
theorem wrapUnsigned_range (v : Int64) {n : Nat} (hn : n < 64) :
    0 ≤ (wrapUnsigned v n).toInt ∧ (wrapUnsigned v n).toInt < 2 ^ n := by
  have hpow : 2 ^ n ≤ 2 ^ 63 := Nat.pow_le_pow_right (by decide) (by omega)
  have hpositive : 0 < 2 ^ n := by positivity
  rw [wrapUnsigned, if_neg (Nat.not_le.2 hn)]
  -- The bits under a mask make no greater number.
  have hle : (v &&& ((1 <<< Int64.ofNat n) - 1)).toBitVec.toNat ≤ 2 ^ n - 1 := by
    rw [Int64.toBitVec_and, BitVec.toNat_and, toNat_mask hn]
    exact Nat.and_le_right
  -- The sign bit is not under the mask, so that the signed reading is the unsigned one.
  have hint : (v &&& ((1 <<< Int64.ofNat n) - 1)).toInt =
      ((v &&& ((1 <<< Int64.ofNat n) - 1)).toBitVec.toNat : Int) := by
    rw [← Int64.toInt_toBitVec, BitVec.toInt_eq_toNat_cond, if_pos (by omega)]
  have hcast : ((2 ^ n : Nat) : Int) = 2 ^ n := by push_cast; rfl
  omega

end Word

namespace ClassicalType

/-- The values of a type with a width. -/
def InhabitsSized : SizedKind → Nat → Value → Prop
  | .int, n, .int w => -2 ^ (n - 1) ≤ w.toInt ∧ w.toInt < 2 ^ (n - 1)
  | .uint, n, .int w | .bit, n, .int w => n < 64 → 0 ≤ w.toInt ∧ w.toInt < 2 ^ n
  | .float, _, .float _ | .angle, _, .float _ | .complex, _, .complex _ => True
  | _, _, _ => False

/-- The arrays of some dimensions whose elements have a property. -/
def InhabitsArray (element : Value → Prop) : List Nat → Value → Prop
  | [], v => element v
  | d :: ds, .array items => items.length = d ∧ ∀ v ∈ items, InhabitsArray element ds v
  | _ :: _, _ => False

/-- The values of a type. Words of 64 bits stand for the unsigned numbers of 64 bits and more. -/
def Inhabits : ClassicalType → Value → Prop
  | bool, .bool _ | duration, .duration _ _ | stretch, .duration _ _ => True
  | sized kind n, v => InhabitsSized kind n v
  | array element dims, v => InhabitsArray element.Inhabits dims v
  | _, _ => False

/-- A type whose signed numbers have at least one bit. -/
def Positive : ClassicalType → Prop
  | sized .int n => 0 < n
  | array element _ => element.Positive
  | _ => True

theorem Positive.width {kind : SizedKind} {n : Nat} (h : (sized kind n).Positive) : kind = .int → 0 < n := by
  rintro rfl
  exact h

theorem Writable.positive {t : ClassicalType} (h : t.Writable) : t.Positive := by
  induction t with
  | sized kind n => cases kind <;> first | exact h.1 | trivial
  | array element dims ih => exact ih h.1
  | bool | duration | stretch => trivial

theorem inhabits_arrayOf {element : ClassicalType} {dims : List Nat} {v : Value} :
    (arrayOf element dims).Inhabits v ↔ InhabitsArray element.Inhabits dims v := by
  cases dims with
  | nil => exact Iff.rfl
  | cons d ds => exact Iff.rfl

theorem Writable.arrayOf {element : ClassicalType} {dims : List Nat}
    (h : (array element dims).Writable) : (arrayOf element dims.tail).Writable := by
  obtain ⟨helement, hplain, hdims⟩ := h
  rcases hds : dims.tail with - | ⟨d, ds⟩
  · exact helement
  · refine ⟨helement, hplain, fun k hk => hdims k ?_⟩
    rw [← hds] at hk
    exact List.mem_of_mem_tail hk

/-- A part of a value that is an element has a type that can be written. -/
theorem Writable.indexed {t u : ClassicalType} (h : t.Writable) (hu : t.indexed? = some u) :
    u.Writable := by
  cases t with
  | sized kind n =>
    have hbit : (sized .bit 1).Writable := Analysis.writable_default .bit
    cases kind <;> first | (cases hu; exact hbit) | nomatch hu
  | array element dims =>
    cases hu
    exact h.arrayOf
  | bool => nomatch hu
  | duration => nomatch hu
  | stretch => nomatch hu

end ClassicalType

namespace Value

section Conversion

variable {t : ClassicalType} {v w : Value}

theorem coerceScalar_inhabits {kind : SizedKind} {n : Nat} (hn : kind = .int → 0 < n)
    (h : coerceScalar kind n v = .ok w) : ClassicalType.InhabitsSized kind n w := by
  have hunsigned (m : Int64) : n < 64 →
      0 ≤ (Word.wrapUnsigned m n).toInt ∧ (Word.wrapUnsigned m n).toInt < 2 ^ n :=
    Word.wrapUnsigned_range m
  unfold coerceScalar at h
  cases kind with
  | int =>
    rcases hm : integral v with e | m <;> rw [hm] at h <;> cases h
    exact Word.wrapSigned_range m (hn rfl)
  | uint =>
    rcases hm : integral v with e | m <;> rw [hm] at h <;> cases h
    exact hunsigned m
  | bit =>
    rcases hm : integral v with e | m <;> rw [hm] at h <;> cases h
    exact hunsigned m
  | float =>
    dsimp only at h
    split at h <;> cases h
    trivial
  | complex =>
    dsimp only at h
    split at h <;> cases h
    trivial
  | angle =>
    dsimp only [coerceAngle] at h
    split at h
    · nomatch h
    · split at h <;> cases h
      trivial

/-- The elements of a converted array are the converted elements. -/
theorem coerceItems_forall₂ {convert : Value → Except ConversionFault Value} {vs ws : List Value}
    (h : coerceItems convert vs = .ok ws) :
    List.Forall₂ (fun v w => convert v = .ok w) vs ws := by
  induction vs generalizing ws with
  | nil =>
    cases h
    exact .nil
  | cons v vs ih =>
    rcases hv : convert v with e | w
    · rw [coerceItems, hv] at h
      nomatch h
    rcases hvs : coerceItems convert vs with e | rest
    · rw [coerceItems, hv, hvs] at h
      nomatch h
    rw [coerceItems, hv, hvs] at h
    cases h
    exact .cons hv (ih hvs)

/-- The conversion of an array is that of its elements, arrays of the other dimensions, where it has the length. -/
theorem coerceArray_cons_eq_ok {element : ClassicalType} {convert : Value → Except ConversionFault Value} {d : Nat}
    {ds : List Nat} (h : coerceArray element convert (d :: ds) v = .ok w) :
    ∃ vs ws, v = array vs ∧ w = array ws ∧ vs.length = d ∧
      coerceItems (if ds.isEmpty then convert else coerceArray element convert ds) vs = .ok ws := by
  cases v with
  | array vs =>
    rw [coerceArray] at h
    split at h
    · next hlength =>
      rcases hitems : coerceItems (if ds.isEmpty then convert else coerceArray element convert ds) vs with e | ws
      · rw [hitems] at h
        nomatch h
      · rw [hitems] at h
        cases h
        exact ⟨vs, ws, rfl, rfl, hlength, hitems⟩
    · nomatch h
  | _ => nomatch h

/-- The elements are converted on the innermost level, and on the others the lengths are compared. -/
theorem coerceArray_inhabits {element : ClassicalType}
    {convert : Value → Except ConversionFault Value} {inhabits : Value → Prop}
    (hconvert : ∀ v w, convert v = .ok w → inhabits w) {dims : List Nat} {v w : Value}
    (h : coerceArray element convert dims v = .ok w) :
    ClassicalType.InhabitsArray inhabits dims w := by
  induction dims generalizing v w with
  | nil => cases v <;> nomatch h
  | cons d ds ih =>
    obtain ⟨vs, ws, rfl, rfl, hlength, hitems⟩ := coerceArray_cons_eq_ok h
    have hconverted := coerceItems_forall₂ hitems
    have hparts : List.Forall₂ (fun x y => ClassicalType.InhabitsArray inhabits ds x ∧ True) ws vs := by
      refine (hconverted.imp fun y x hy => ⟨?_, trivial⟩).flip
      -- The innermost level is the one that `convert` is applied on.
      cases ds with
      | nil => exact hconvert y x hy
      | cons d' ds' => exact ih hy
    exact ⟨hconverted.length_eq.symm.trans hlength, ((List.forall₂_and_left _ _).1 hparts).1⟩

/-- A converted value is one of the type. -/
theorem coerce_inhabits (ht : t.Positive) (h : coerce t v = .ok w) : t.Inhabits w := by
  induction t generalizing v w with
  | bool =>
    rw [coerce] at h
    split at h <;> cases h
    trivial
  | sized kind n => exact coerceScalar_inhabits ht.width h
  | duration =>
    cases v <;> cases h
    trivial
  | stretch =>
    cases v <;> cases h
    trivial
  | array element dims ih => exact coerceArray_inhabits (fun _ _ => ih ht) h

end Conversion

section Replacement

variable {t u : ClassicalType} {c v new : Value} {p : Nat} {ps : List Nat}

/-- Where elements are values of their type, an array is one of its type. -/
theorem inhabits_array_cases {items : List Value} (ht : t.Writable) (hc : t.Inhabits (array items)) :
    ∃ element d ds, t = .array element (d :: ds) ∧ items.length = d ∧
      ∀ x ∈ items, (ClassicalType.arrayOf element ds).Inhabits x := by
  cases t with
  | array element dims =>
    cases dims with
    | nil =>
      -- The type of the elements is no array, so that an array is not one of them.
      obtain ⟨-, hplain, -⟩ := ht
      have hnone : element.Inhabits (array items) := hc
      cases element with
      | array _ _ => nomatch hplain
      | sized kind n => cases kind <;> exact hnone.elim
      | bool => exact hnone.elim
      | duration => exact hnone.elim
      | stretch => exact hnone.elim
    | cons d ds =>
      obtain ⟨hlength, hitems⟩ := hc
      exact ⟨element, d, ds, rfl, hlength, fun x hx =>
        ClassicalType.inhabits_arrayOf.2 (hitems x hx)⟩
  | sized kind n => cases kind <;> exact hc.elim
  | bool => exact hc.elim
  | duration => exact hc.elim
  | stretch => exact hc.elim

/-- The replacement of an element, where what is done to the element is known. -/
theorem replaceAt_cons_inhabits (ht : t.Writable) (hu : t.indexed? = some u) (hc : t.Inhabits c)
    (hinner : ∀ old inner, u.Inhabits old → replaceAt ps old v = some inner → u.Inhabits inner)
    (h : replaceAt (p :: ps) c v = some new) : t.Inhabits new := by
  cases c with
  | array items =>
    obtain ⟨element, d, ds, rfl, hlength, hitems⟩ := inhabits_array_cases ht hc
    obtain ⟨old, hold, h⟩ := Option.bind_eq_some_iff.1 h
    obtain ⟨inner, hreplaced, h⟩ := Option.bind_eq_some_iff.1 h
    cases h
    cases hu
    have hnew := hinner old inner (hitems old (List.mem_of_getElem? hold)) hreplaced
    -- The other elements are elements of the array before.
    refine ⟨List.length_set.trans hlength, fun x hx => ?_⟩
    rcases List.mem_or_eq_of_mem_set hx with hx | rfl
    · exact ClassicalType.inhabits_arrayOf.1 (hitems x hx)
    · exact ClassicalType.inhabits_arrayOf.1 hnew
  | _ => nomatch h

end Replacement

end Value

namespace Analysis

/-- The element that indices lead to has a type that can be written, and it may be replaced by any value
of that type. -/
theorem elementPath_inhabits {calls : Calls} {name : String} {config : Config} {items : List IndexItem}
    {t u : ClassicalType} {path : List (List Nat)} {s s' : State} (ht : t.Writable)
    (h : elementPath calls name t items config s = (.ok (path, u), s')) :
    u.Writable ∧ ∀ c v new, t.Inhabits c → u.Inhabits v →
      Value.replaceAt path.flatten c v = some new → t.Inhabits new := by
  induction items generalizing t path s with
  | nil =>
    cases h
    refine ⟨ht, fun c v new _ hv hnew => ?_⟩
    cases hnew
    exact hv
  | cons item rest ih =>
    cases item with
    | single e =>
      rw [elementPath] at h
      obtain ⟨positions, s₁, hpositions, h⟩ := run_bind_eq_ok.1 h
      obtain ⟨p, rfl⟩ := itemPositions_isSingle hpositions rfl
      rcases hinner : t.indexed? with - | w
      · rw [hinner] at h
        nomatch h
      rw [hinner] at h
      obtain ⟨⟨path, u⟩, s₂, hrest, h⟩ := run_bind_eq_ok.1 h
      cases h
      obtain ⟨hu, hreplace⟩ := ih (ht.indexed hinner) hrest
      refine ⟨hu, fun c v new hc hv hnew => ?_⟩
      exact Value.replaceAt_cons_inhabits ht hinner hc
        (fun old inner hold => hreplace old v inner hold hv) hnew
    | set es => nomatch h
    | range r => nomatch h

end Analysis
end OpenQasm
