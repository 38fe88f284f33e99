import Mathlib
import OpenQasm.Proofs.WholeNumbers

/-!
Signs and magnitudes of doubles. A number other than a NaN is its magnitude or its magnitude with the sign
changed, and its text is that of the magnitude with or without a minus sign. A number of 64 bits is rounded
to a double below `2 ^ 63` only if it is below `2 ^ 63` itself.
-/
namespace OpenQasm.Double

open Float.Model Float.Model.UnpackedFloat

section Signs

variable {x : Float}

/-- The sign of a number that is given by its bits. -/
def signOf (b : BitVec 64) : Sign := Sign.ofBitVec (@unpackSign Format.binary64 b)

/-- The bits with another sign. -/
def withSign (sign : Sign) (b : BitVec 64) : BitVec 64 :=
  packComponents Format.binary64 sign (@unpackExponent Format.binary64 b) (@unpackMantissa Format.binary64 b)

theorem withSign_signOf (b : BitVec 64) : withSign (signOf b) b = b :=
  @packComponents_unpackSign_unpackExponent_unpackMantissa Format.binary64 b

theorem withSign_withSign (sign sign' : Sign) (b : BitVec 64) :
    withSign sign (withSign sign' b) = withSign sign b := by
  simp only [withSign, unpackExponent_packComponents, unpackMantissa_packComponents]

theorem signOf_withSign (sign : Sign) (b : BitVec 64) : signOf (withSign sign b) = sign := by
  simp only [signOf, withSign, unpackSign_packComponents, Sign.ofBitVec_toBitVec]

theorem unpack_withSign_positive (b : BitVec 64) :
    UnpackedFloat.unpack Format.binary64 (withSign .positive b) =
      (UnpackedFloat.unpack Format.binary64 b).abs := by
  simp only [withSign, UnpackedFloat.unpack, unpackExponent_packComponents, unpackMantissa_packComponents,
    unpackSign_packComponents, Sign.ofBitVec_toBitVec]
  split
  · split <;> rfl
  · split
    · split <;> rfl
    · rfl

theorem unpack_withSign_neg (b : BitVec 64) :
    UnpackedFloat.unpack Format.binary64 (withSign (-signOf b) b) =
      (UnpackedFloat.unpack Format.binary64 b).neg := by
  simp only [withSign, UnpackedFloat.unpack, unpackExponent_packComponents, unpackMantissa_packComponents,
    unpackSign_packComponents, Sign.ofBitVec_toBitVec]
  split
  · split <;> rfl
  · split
    · split <;> rfl
    · rfl

theorem isNaNBits_withSign (sign : Sign) (b : BitVec 64) :
    @isNaNBits Format.binary64 (withSign sign b) = @isNaNBits Format.binary64 b := by
  simp only [isNaNBits, withSign, unpackExponent_packComponents, unpackMantissa_packComponents]

theorem pack_unpack_withSign {b : BitVec 64} (h : @isNaNBits Format.binary64 b = false) (sign : Sign) :
    UnpackedFloat.pack Format.binary64 (UnpackedFloat.unpack Format.binary64 (withSign sign b)) =
      withSign sign b := by
  rw [pack_unpack, isNaNBits_withSign, h]
  rfl


theorem isNaNBits_toBits (h : x.isNaN = false) : @isNaNBits Format.binary64 x.toBits.toBitVec = false := by
  have hvalid : Format.binary64.Valid x.toBits.toBitVec := x.toModel.valid
  by_contra hbits
  obtain ⟨hexponent, hmantissa⟩ := of_decide_eq_true (Bool.eq_true_of_not_eq_false hbits)
  have hnan : x.isNaN = true :=
    (isNaN_unpack_iff_of_valid hvalid).2 (hvalid.eq_packedNaN hexponent hmantissa)
  nomatch h.symm.trans hnan

theorem toBits_abs (h : x.isNaN = false) : x.abs.toBits.toBitVec = withSign .positive x.toBits.toBitVec := by
  have habs : x.abs.toBits.toBitVec =
      UnpackedFloat.pack Format.binary64 (UnpackedFloat.unpack Format.binary64 x.toBits.toBitVec).abs := rfl
  rw [habs, ← unpack_withSign_positive, pack_unpack_withSign (isNaNBits_toBits h)]

theorem toBits_neg (h : x.isNaN = false) :
    (-x).toBits.toBitVec = withSign (-signOf x.toBits.toBitVec) x.toBits.toBitVec := by
  have hneg : (-x).toBits.toBitVec =
      UnpackedFloat.pack Format.binary64 (UnpackedFloat.unpack Format.binary64 x.toBits.toBitVec).neg := rfl
  rw [hneg, ← unpack_withSign_neg, pack_unpack_withSign (isNaNBits_toBits h)]

theorem eq_of_toBits {x y : Float} (h : x.toBits.toBitVec = y.toBits.toBitVec) : x = y := by
  obtain ⟨⟨⟨b⟩, hb⟩⟩ := x
  obtain ⟨⟨⟨c⟩, hc⟩⟩ := y
  cases h
  rfl

/-- Below the sign the bits stay. -/
theorem toNat_withSign_mod (sign : Sign) (b : BitVec 64) :
    (withSign sign b).toNat % 2 ^ 63 = b.toNat % 2 ^ 63 := by
  have hlow : ∀ sign', (withSign sign b).setWidth 63 = (withSign sign' b).setWidth 63 := by
    intro sign'
    ext i hi
    simp only [withSign, packComponents, BitVec.getElem_setWidth, BitVec.getLsbD_append]
    split
    · rfl
    · have hexponent : i - 52 < 11 := by omega
      rw [if_pos hexponent, if_pos hexponent]
  have h := congrArg BitVec.toNat (hlow (signOf b))
  rwa [withSign_signOf, BitVec.toNat_setWidth, BitVec.toNat_setWidth] at h

theorem toNat_withSign_div (sign : Sign) (b : BitVec 64) :
    (withSign sign b).toNat / 2 ^ 63 = sign.toBitVec.toNat := by
  have hsign : @unpackSign Format.binary64 (withSign sign b) = sign.toBitVec :=
    unpackSign_packComponents _ _ _
  have hhigh : (@unpackSign Format.binary64 (withSign sign b)).toNat = (withSign sign b).toNat / 2 ^ 63 := by
    have hlt := (withSign sign b).isLt
    rw [unpackSign_def, BitVec.extractLsb'_toNat, Nat.shiftRight_eq_div_pow]
    show (withSign sign b).toNat / 2 ^ 63 % 2 ^ 1 = _
    omega
  rw [← hhigh, hsign]

theorem isSigned_iff (x : Float) : isSigned x = true ↔ signOf x.toBits.toBitVec = .negative := by
  have hsign := toNat_withSign_div (signOf x.toBits.toBitVec) x.toBits.toBitVec
  rw [withSign_signOf] at hsign
  have hshift : (x.toBits >>> 63).toNat = x.toBits.toBitVec.toNat / 2 ^ 63 := by
    rw [UInt64.toNat_shiftRight, Nat.shiftRight_eq_div_pow]
    rfl
  have hone : (x.toBits >>> 63 = 1) ↔ x.toBits.toBitVec.toNat / 2 ^ 63 = 1 := by
    rw [← UInt64.toNat_inj, hshift]
    rfl
  rw [isSigned, decide_eq_true_iff, hone, hsign]
  cases signOf x.toBits.toBitVec with
  | positive => simp [Sign.toBitVec]
  | negative => simp [Sign.toBitVec]

theorem unpack_abs_eq (h : x.isNaN = false) : x.abs.toModel.unpack = x.toModel.unpack.abs := by
  have habs : x.abs.toModel.unpack = UnpackedFloat.unpack Format.binary64 x.abs.toBits.toBitVec := rfl
  rw [habs, toBits_abs h, unpack_withSign_positive]
  rfl

theorem isNaN_abs (h : x.isNaN = false) : x.abs.isNaN = false := by
  have hnan : x.toModel.unpack.abs.isNaN = x.toModel.unpack.isNaN := by cases x.toModel.unpack <;> rfl
  exact (congrArg UnpackedFloat.isNaN (unpack_abs_eq h)).trans (hnan.trans h)

theorem isInf_abs (h : x.isNaN = false) : x.abs.isInf = x.isInf := by
  have hinf : x.toModel.unpack.abs.isInf = x.toModel.unpack.isInf := by cases x.toModel.unpack <;> rfl
  exact (congrArg UnpackedFloat.isInf (unpack_abs_eq h)).trans hinf

theorem isSigned_abs (h : x.isNaN = false) : isSigned x.abs = false := by
  refine Bool.eq_false_iff.2 fun hsigned => ?_
  have hnegative := (isSigned_iff x.abs).1 hsigned
  rw [toBits_abs h, signOf_withSign] at hnegative
  nomatch hnegative

theorem isNaN_of_abs_lt {y : Float} (h : x.abs < y) : x.isNaN = false := by
  have hlt : (x.abs.toModel.unpack.compare y.toModel.unpack == some .lt) = true := of_decide_eq_true h
  cases hx : x.toModel.unpack with
  | notANumber =>
    have habs : x.abs.toModel.unpack = .notANumber := by
      show UnpackedFloat.unpack Format.binary64 (UnpackedFloat.pack Format.binary64 x.toModel.unpack.abs) = _
      rw [hx]
      exact unpack_packedNaN
    rw [habs] at hlt
    nomatch hlt
  | _ => exact congrArg UnpackedFloat.isNaN hx

theorem isNaN_of_isFinite (h : x.isFinite = true) : x.isNaN = false := by
  cases hx : x.toModel.unpack with
  | notANumber =>
    have hfinite : x.isFinite = false := congrArg UnpackedFloat.isFinite hx
    nomatch h.symm.trans hfinite
  | _ => exact congrArg UnpackedFloat.isNaN hx

/-- A number without a minus sign is its own magnitude. -/
theorem abs_eq_self (h : x.isNaN = false) (hsign : isSigned x = false) : x.abs = x := by
  have hpositive : signOf x.toBits.toBitVec = .positive := by
    cases hs : signOf x.toBits.toBitVec with
    | positive => rfl
    | negative => nomatch hsign.symm.trans ((isSigned_iff x).2 hs)
  refine eq_of_toBits ?_
  rw [toBits_abs h, ← hpositive, withSign_signOf]

/-- A number with a minus sign is its magnitude with the sign changed. -/
theorem neg_abs (h : x.isNaN = false) (hsign : isSigned x = true) : -x.abs = x := by
  have hnegative := (isSigned_iff x).1 hsign
  refine eq_of_toBits ?_
  rw [toBits_neg (isNaN_abs h), toBits_abs h, signOf_withSign, withSign_withSign]
  show withSign .negative _ = _
  rw [← hnegative, withSign_signOf]

theorem ofFloat_abs (h : x.isNaN = false) : Dyadic.ofFloat x.abs = Dyadic.ofFloat x := by
  have hlow : x.abs.toBits.toNat % 2 ^ 63 = x.toBits.toNat % 2 ^ 63 := by
    have hbits := toNat_withSign_mod .positive x.toBits.toBitVec
    rwa [← toBits_abs h] at hbits
  have hfraction : x.abs.toBits.toNat % Nat.pow 2 52 = x.toBits.toNat % Nat.pow 2 52 := by
    show x.abs.toBits.toNat % 2 ^ 52 = x.toBits.toNat % 2 ^ 52
    omega
  have hfield : x.abs.toBits.toNat / Nat.pow 2 52 % Nat.pow 2 11 =
      x.toBits.toNat / Nat.pow 2 52 % Nat.pow 2 11 := by
    show x.abs.toBits.toNat / 2 ^ 52 % 2 ^ 11 = x.toBits.toNat / 2 ^ 52 % 2 ^ 11
    omega
  unfold Dyadic.ofFloat Dyadic.ofBits
  rw [hfraction, hfield]


/-- A minus sign is written before the text of the magnitude. -/
theorem plain_signed (h : x.isNaN = false) (hsign : isSigned x = true) :
    Decimal.plain x = "-" ++ Decimal.plain x.abs := by
  have hminus : x.toBits >>> 63 = 1 := of_decide_eq_true hsign
  have hplus : ¬x.abs.toBits >>> 63 = 1 := of_decide_eq_false (isSigned_abs h)
  unfold Decimal.plain Decimal.Layout.text
  rw [h, isNaN_abs h, isInf_abs h, ofFloat_abs h]
  dsimp only
  rw [if_pos hminus, if_neg hplus, if_neg Bool.false_ne_true, if_neg Bool.false_ne_true, String.ofList_append]
  rfl

end Signs

section Words

theorem roundToNearestEven_le (k : Nat) (a : Accuracy) :
    k ≤ Accuracy.roundToNearestEven k a ∧ Accuracy.roundToNearestEven k a ≤ k + 1 := by
  unfold Accuracy.roundToNearestEven
  split <;> omega

theorem targetExponent_eq {m bits : Nat} {e : Int} (hbits : m.log2 = bits) (he : 52 ≤ bits + e) :
    Format.binary64.targetExponent (totalExponent m e) = bits + e - 52 := by
  rw [totalExponent, hbits]
  show max ((bits : Int) + 1 + e - 53) (-1074) = _
  omega

theorem roundWithAccuracy_eq {sign : Sign} {m : Nat} {e e₁ e₂ : Int} {a : Accuracy}
    {em₁ em₂ : ExtendedMantissa} (hfirst : shiftToTargetExponent Format.binary64 m e a = (em₁, e₁))
    (hsecond : shiftToTargetExponent Format.binary64 em₁.roundedMantissa e₁ .exact = (em₂, e₂))
    (hpos : 0 < em₂.mantissa) :
    roundWithAccuracy Format.binary64 sign m e a = .finite sign em₂.mantissa e₂ hpos := by
  unfold roundWithAccuracy
  rw [hfirst]
  dsimp only
  rw [hsecond]
  exact dif_neg hpos.ne'

/-- A mantissa that rounding has carried into one more bit is shifted once more. -/
theorem shiftToTargetExponent_carried {m : Nat} (hlow : 2 ^ 52 ≤ m) (hhigh : m ≤ 2 ^ 53) :
    ∃ m' e', shiftToTargetExponent Format.binary64 m 11 .exact = (⟨m', false, false⟩, e') ∧
      11 ≤ e' ∧ e' ≤ 12 ∧ 2 ^ 52 ≤ m' ∧ m' < 2 ^ 53 := by
  rcases Nat.lt_or_ge m (2 ^ 53) with hm | hm
  · have hlog : m.log2 = 52 := (Nat.log2_eq_iff (by omega)).2 ⟨hlow, hm⟩
    have htarget : Format.binary64.targetExponent (totalExponent m 11) = 11 :=
      targetExponent_eq hlog (by omega)
    refine ⟨m, 11, ?_, by omega, by omega, hlow, hm⟩
    rw [shiftToTargetExponent, htarget]
    rfl
  · obtain rfl : m = 2 ^ 53 := Nat.le_antisymm hhigh hm
    exact ⟨2 ^ 52, 12, rfl, by omega, by omega, Nat.le_refl _, by omega⟩

/-- A number of 64 bits whose first one is set is rounded to a full mantissa with a large exponent. -/
theorem round_large {n : Nat} (hlow : 2 ^ 63 ≤ n) (hhigh : n < 2 ^ 64) :
    ∃ m e, ∃ hpos : 0 < m,
      UnpackedFloat.round Format.binary64 .positive n 0 = .finite .positive m e hpos ∧
        11 ≤ e ∧ e ≤ 12 ∧ 2 ^ 52 ≤ m ∧ m < 2 ^ 53 := by
  have hlog : n.log2 = 63 := (Nat.log2_eq_iff (by omega)).2 ⟨hlow, hhigh⟩
  have htarget : Format.binary64.targetExponent (totalExponent n 0) = 11 :=
    targetExponent_eq hlog (by omega)
  have hround : UnpackedFloat.round Format.binary64 .positive n 0 =
      roundWithAccuracy Format.binary64 .positive n 0 .exact := by
    unfold UnpackedFloat.round decreaseExponent
    rw [htarget]
    rfl
  let em := ExtendedMantissa.ofMantissaAndAccuracy n .exact >>> 11
  have hfirst : shiftToTargetExponent Format.binary64 n 0 .exact = (em, 11) := by
    rw [shiftToTargetExponent, htarget]
    rfl
  have hmantissa : em.mantissa = n / 2 ^ 11 := by
    rw [shiftRight_mantissa, Nat.shiftRight_eq_div_pow]
    rfl
  have hrounded : em.mantissa ≤ em.roundedMantissa ∧ em.roundedMantissa ≤ em.mantissa + 1 :=
    roundToNearestEven_le em.mantissa em.accuracy
  obtain ⟨m, e, hsecond, he, he', hm, hm'⟩ : ∃ m e, shiftToTargetExponent Format.binary64
      em.roundedMantissa 11 .exact = (⟨m, false, false⟩, e) ∧ 11 ≤ e ∧ e ≤ 12 ∧ 2 ^ 52 ≤ m ∧ m < 2 ^ 53 :=
    shiftToTargetExponent_carried (by omega) (by omega)
  have hpos : 0 < m := by omega
  exact ⟨m, e, hpos, hround.trans (roundWithAccuracy_eq hfirst hsecond hpos), he, he', hm, hm'⟩

theorem unpack_toFloat (n : UInt64) (hn : 0 < n.toNat) : n.toFloat.toModel.unpack =
    UnpackedFloat.unpack Format.binary64 (UnpackedFloat.pack Format.binary64
      (UnpackedFloat.round Format.binary64 .positive n.toNat 0)) := by
  have hcompare : compare (n.toNat : Int) 0 = .gt := Int.compare_eq_gt.2 (by omega)
  have hnormalize : UnpackedFloat.normalize Format.binary64 (n.toNat : Int) 0 .positive =
      UnpackedFloat.round Format.binary64 .positive n.toNat 0 := by
    rw [UnpackedFloat.normalize, hcompare]
    rfl
  rw [← hnormalize]
  rfl

/-- The double nearest to a number of 64 bits is below `2 ^ 63` only if the number is. -/
theorem toNat_lt_of_toFloat_lt {n : UInt64} (h : n.toFloat < 9223372036854775808.0) :
    n.toNat < 2 ^ 63 := by
  by_contra hlarge
  have hlow : 2 ^ 63 ≤ n.toNat := Nat.le_of_not_lt hlarge
  obtain ⟨m, e, hpos, hround, he, he', hm, hm'⟩ := round_large hlow n.toNat_lt
  have hfits : Fits m e := Or.inl ⟨hm, hm', by omega, by omega⟩
  have hunpack : n.toFloat.toModel.unpack = .finite .positive m e hpos := by
    rw [unpack_toFloat n (by omega), hround, unpack_pack hfits]
  have hbound : (9223372036854775808.0 : Float).toModel.unpack =
      .finite .positive (2 ^ 52) 11 (by decide) := rfl
  have hlt : (n.toFloat.toModel.unpack.compare
      (9223372036854775808.0 : Float).toModel.unpack == some .lt) = true := of_decide_eq_true h
  rw [hunpack, hbound] at hlt
  have hcompare : (compare e 11).then (compare m (2 ^ 52)) = .lt := Option.some.inj (eq_of_beq hlt)
  rcases Ordering.then_eq_lt.1 hcompare with hexponent | ⟨-, hmantissa⟩
  · have hless := Int.compare_eq_lt.1 hexponent
    omega
  · have hless := Nat.compare_eq_lt.1 hmantissa
    omega

end Words

end OpenQasm.Double
