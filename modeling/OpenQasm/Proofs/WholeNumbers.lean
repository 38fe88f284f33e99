import Mathlib
import OpenQasm.Double

/-!
Doubles that are whole numbers. What is asked of the exponent of a power is answered by the number that it
is: whether it is zero or negative, and its magnitude as a count.
-/
namespace OpenQasm.Double

open Float.Model Float.Model.UnpackedFloat

section Magnitudes

/-- The finite numbers that 64 bits can hold: with a full mantissa, or with the least exponent. -/
def Fits (mantissa : Nat) (exponent : Int) : Prop :=
  (2 ^ 52 ≤ mantissa ∧ mantissa < 2 ^ 53 ∧ -1074 ≤ exponent ∧ exponent ≤ 971) ∨
    (mantissa < 2 ^ 52 ∧ exponent = -1074)

/-- A mantissa with the leading bit that is not written. -/
theorem toNat_lead (fraction : BitVec 52) :
    (1#1 ++ fraction).toNat = 2 ^ 52 + fraction.toNat := by
  have hor := Nat.two_pow_add_eq_or_of_lt fraction.isLt 1
  rw [BitVec.toNat_append, Nat.shiftLeft_eq, Nat.mul_comm]
  exact hor.symm

theorem fits_of_unpack {b : BitVec 64} {sign : Sign} {mantissa : Nat} {exponent : Int}
    {hpos : 0 < mantissa}
    (h : UnpackedFloat.unpack Format.binary64 b = .finite sign mantissa exponent hpos) : Fits mantissa exponent := by
  unfold UnpackedFloat.unpack at h
  extract_lets fraction field value signBit sign' at h
  have hfraction : fraction.toNat < 2 ^ 52 := fraction.isLt
  have hfield : field.toNat < 2 ^ 11 := field.isLt
  have hbias : (Format.binary64.exponentBias : Int) = 1023 := rfl
  have hvalue : value = field.toNat - 1075 := by
    show (field.toNat : Int) - (Format.binary64.exponentBias + 52) = _
    omega
  split at h
  · split at h <;> cases h
  · next hlast =>
    have hlast : field.toNat ≠ 2047 := fun h => hlast (BitVec.eq_of_toNat_eq h)
    split at h
    -- The least exponent: there is no bit beside those of the fraction.
    · next hzero =>
      have hzero : field.toNat = 0 := congrArg BitVec.toNat hzero
      split at h
      · cases h
      · injection h with _ hm he
        exact Or.inr ⟨by omega, by omega⟩
    -- Any other one has a leading bit that is not written.
    · next hzero =>
      have hzero : field.toNat ≠ 0 := fun h => hzero (BitVec.eq_of_toNat_eq h)
      have hlead := toNat_lead fraction
      injection h with _ hm he
      exact Or.inl ⟨by omega, by omega, by omega, by omega⟩

section Fields

variable (sign : Sign) {field : BitVec 11} {fraction : BitVec 52}

theorem sign_of_packComponents (field : BitVec 11) (fraction : BitVec 52) :
    Sign.ofBitVec (unpackSign (packComponents Format.binary64 sign field fraction)) = sign := by
  have hsign : unpackSign (packComponents Format.binary64 sign field fraction) = sign.toBitVec := by
    ext i hi
    obtain rfl : i = 0 := by omega
    have hbit : (packComponents Format.binary64 sign field fraction).getLsbD 63 =
        sign.toBitVec.getLsbD 0 := by
      simp only [packComponents, BitVec.getLsbD_append]
      rfl
    simpa [unpackSign] using hbit
  rw [hsign]
  cases sign
  · rfl
  · rfl

/-- A field of the exponent that is neither all zeros nor all ones stands for a full mantissa. -/
theorem unpack_full (hones : field ≠ -1#11) (hzeros : field ≠ 0#11) :
    UnpackedFloat.unpack Format.binary64 (packComponents Format.binary64 sign field fraction) =
      .finite sign (1#1 ++ fraction).toNat (field.toNat - 1075) (by rw [toNat_lead]; omega) := by
  simp only [UnpackedFloat.unpack, unpackExponent_packComponents, unpackMantissa_packComponents,
    sign_of_packComponents, if_neg hones, if_neg hzeros]
  rfl

/-- The field of zeros stands for the least exponent. -/
theorem unpack_least (hfraction : fraction ≠ 0#52) :
    UnpackedFloat.unpack Format.binary64 (packComponents Format.binary64 sign 0#11 fraction) =
      .finite sign fraction.toNat (-1074)
        (by simpa [BitVec.toNat_pos, BitVec.pos_iff_ne_zero] using hfraction) := by
  have hones : (0#11 : BitVec 11) ≠ -1#11 := by decide
  simp only [UnpackedFloat.unpack, unpackExponent_packComponents, unpackMantissa_packComponents,
    sign_of_packComponents, if_neg hones, if_true, dif_neg hfraction]
  rfl

end Fields

/-- A number that the bits can hold is read back from them. -/
theorem unpack_pack {sign : Sign} {mantissa : Nat} {exponent : Int} {hpos : 0 < mantissa}
    (h : Fits mantissa exponent) :
    UnpackedFloat.unpack Format.binary64
        (UnpackedFloat.pack Format.binary64 (.finite sign mantissa exponent hpos)) =
      .finite sign mantissa exponent hpos := by
  have hbias : (Format.binary64.exponentBias : Int) = 1023 := rfl
  unfold UnpackedFloat.pack
  extract_lets bits biased
  have hbiased : biased = (exponent + Format.binary64.exponentBias + 52).toNat := rfl
  obtain ⟨hlow, hhigh, hleast, hmost⟩ | ⟨hsmall, rfl⟩ := h
  · have hfull : bits + 1 = Format.binary64.mantissaBits :=
      congrArg (· + 1) ((Nat.log2_eq_iff (by omega)).2 ⟨hlow, hhigh⟩)
    have hroom : ¬2 ^ Format.binary64.exponentBits ≤ biased + 1 := by
      show ¬2048 ≤ biased + 1
      omega
    have hfield : (BitVec.ofNat 11 biased).toNat = biased := by
      rw [BitVec.toNat_ofNat]
      omega
    have hones : BitVec.ofNat 11 biased ≠ -1#11 := by
      intro h
      have hones : biased = 2047 := hfield.symm.trans (congrArg BitVec.toNat h)
      omega
    have hzeros : BitVec.ofNat 11 biased ≠ 0#11 := by
      intro h
      have hzeros : biased = 0 := hfield.symm.trans (congrArg BitVec.toNat h)
      omega
    -- The leading bit is not written and comes back.
    have hlead : (1#1 ++ BitVec.ofNat 52 mantissa).toNat = mantissa := by
      rw [toNat_lead, BitVec.toNat_ofNat]
      omega
    rw [if_neg hroom, if_pos hfull]
    refine (unpack_full sign hones hzeros).trans ?_
    simp only [hlead, hfield, finite.injEq, true_and]
    omega
  · have hpart : bits + 1 ≠ Format.binary64.mantissaBits := by
      have hbits : bits < 52 := (Nat.log2_lt hpos.ne').2 hsmall
      show bits + 1 ≠ 53
      omega
    have hroom : ¬2 ^ Format.binary64.exponentBits ≤ biased + 1 := by
      show ¬2048 ≤ biased + 1
      omega
    have hvalue : (BitVec.ofNat 52 mantissa).toNat = mantissa := by
      rw [BitVec.toNat_ofNat]
      omega
    have hfraction : BitVec.ofNat 52 mantissa ≠ 0#52 := by
      intro h
      have hzero : mantissa = 0 := hvalue.symm.trans (congrArg BitVec.toNat h)
      omega
    rw [if_neg hroom, if_neg hpart]
    refine (unpack_least sign hfraction).trans ?_
    simp only [hvalue]

/-- Without the sign the other parts of a finite number stay. -/
theorem unpack_abs {m : Float.Model} {sign : Sign} {mantissa : Nat} {exponent : Int}
    {hpos : 0 < mantissa} (h : m.unpack = .finite sign mantissa exponent hpos) :
    m.abs.unpack = .finite .positive mantissa exponent hpos := by
  have hfits : Fits mantissa exponent := fits_of_unpack h
  have habs : m.unpack.abs = .finite .positive mantissa exponent hpos := by rw [h]; rfl
  show UnpackedFloat.unpack _ (UnpackedFloat.pack _ m.unpack.abs) = _
  rw [habs]
  exact unpack_pack hfits

theorem unpack_abs_zero {m : Float.Model} {sign : Sign} (h : m.unpack = .zero sign) :
    m.abs.unpack = .zero .positive := by
  have habs : m.unpack.abs = .zero .positive := by rw [h]; rfl
  have hones : (0#11 : BitVec 11) ≠ -1#11 := by decide
  show UnpackedFloat.unpack _ (UnpackedFloat.pack _ m.unpack.abs) = _
  rw [habs, UnpackedFloat.pack, packedZero]
  simp only [UnpackedFloat.unpack, unpackExponent_packComponents, unpackMantissa_packComponents,
    sign_of_packComponents, if_neg hones, BitVec.ofNat_eq_ofNat, if_true, dite_true]

theorem shiftRight_mantissa (em : ExtendedMantissa) (k : Nat) :
    (em >>> k).mantissa = em.mantissa >>> k := by
  show (k.repeat ExtendedMantissa.shiftRightOne em).mantissa = em.mantissa >>> k
  induction k with
  | zero => rfl
  | succ k ih =>
    show (k.repeat ExtendedMantissa.shiftRightOne em).mantissa / 2 = em.mantissa >>> (k + 1)
    rw [ih, Nat.shiftRight_succ]

/-- A finite number is cut to a whole one by shifting its mantissa. -/
theorem roundToInt_eq (sign : Sign) (mantissa : Nat) (exponent : Int) :
    roundToInt sign mantissa exponent =
      sign.apply (mantissa <<< exponent.toNat / 1 <<< (-exponent).toNat : Nat) := by
  have hdown : (0 - (exponent - (exponent.toNat : Nat))).toNat = (-exponent).toNat := by omega
  simp only [roundToInt, decreaseExponent, shiftToExponent, shiftRight_mantissa, hdown,
    ExtendedMantissa.ofMantissaAndAccuracy, Int.sub_zero, Nat.shiftRight_eq_div_pow,
    Nat.shiftLeft_eq, Nat.one_mul]

end Magnitudes

section Whole

variable {x : Float} {n : Int}

/-- A whole double is a zero, or its digits before the point are all it has. -/
theorem whole?_eq_some (h : whole? x = some n) :
    (n = 0 ∧ ∃ sign, x.toModel.unpack = .zero sign) ∨
      ∃ sign mantissa exponent, ∃ hpos : 0 < mantissa, ∃ size : Nat,
        x.toModel.unpack = .finite sign mantissa exponent hpos ∧ 0 < size ∧
          size = mantissa <<< exponent.toNat / 1 <<< (-exponent).toNat ∧ n = sign.apply size := by
  unfold whole? at h
  split at h
  · next sign hzero =>
    cases h
    exact Or.inl ⟨rfl, sign, hzero⟩
  · next sign mantissa exponent hpos hfinite =>
    extract_lets scaled unit at h
    split at h
    · next hfraction =>
      cases h
      have hscaled : 0 < scaled := by
        show 0 < mantissa <<< exponent.toNat
        rw [Nat.shiftLeft_eq]
        positivity
      have hunit : 0 < unit := by
        show 0 < 1 <<< (-exponent).toNat
        rw [Nat.shiftLeft_eq]
        positivity
      have hsize : 0 < scaled / unit :=
        Nat.div_pos (Nat.le_of_dvd hscaled (Nat.dvd_of_mod_eq_zero hfraction)) hunit
      exact Or.inr ⟨sign, mantissa, exponent, hpos, scaled / unit, hfinite, hsize, rfl, rfl⟩
    · cases h
  · cases h

/-- A whole number stands to zero as the integer does. -/
theorem compare_zero_of_whole (h : whole? x = some n) :
    x.toModel.unpack.compare (.zero .positive) = some (compare n 0) := by
  obtain ⟨rfl, sign, hzero⟩ | ⟨sign, mantissa, exponent, hpos, size, hfinite, hsize, -, rfl⟩ :=
    whole?_eq_some h
  · rw [hzero]
    rfl
  · rw [hfinite]
    cases sign with
    | negative =>
      have hnegative : -(size : Int) < 0 := by omega
      exact congrArg some (Int.compare_eq_lt.2 hnegative).symm
    | positive =>
      have hpositive : (0 : Int) < size := by omega
      exact congrArg some (Int.compare_eq_gt.2 hpositive).symm

theorem beq_zero_of_whole (h : whole? x = some n) : (x == 0.0) = true ↔ n = 0 := by
  have hbeq : (x == 0.0) = (x.toModel.unpack.compare (.zero .positive) == some .eq) := rfl
  rw [hbeq, compare_zero_of_whole h, beq_iff_eq, Option.some_inj, Int.compare_eq_eq]

theorem lt_zero_of_whole (h : whole? x = some n) : x < 0.0 ↔ n < 0 := by
  have hlt : x < 0.0 ↔ (x.toModel.unpack.compare (.zero .positive) == some .lt) = true :=
    decide_eq_true_iff
  rw [hlt, compare_zero_of_whole h, beq_iff_eq, Option.some_inj, Int.compare_eq_lt]

/-- The magnitude of a whole number is counted exactly, as far as a word goes. -/
theorem abs_toNat_of_whole (h : whole? x = some n) (hn : n.natAbs < 2 ^ 64) :
    x.abs.toUInt64.toNat = n.natAbs := by
  have hclamp : ∀ k : Nat, k < 2 ^ 64 → (UInt64.ofNatClamp k).toNat = k := by
    intro k hk
    have hk : k < UInt64.size := hk
    rw [UInt64.ofNatClamp, dif_pos hk]
    rfl
  show (UInt64.ofNatClamp (UnpackedFloat.toInt 0 (UInt64.size - 1) x.toModel.abs.unpack).toNat).toNat = _
  obtain ⟨rfl, sign, hzero⟩ | ⟨sign, mantissa, exponent, hpos, size, hfinite, -, hsize, rfl⟩ :=
    whole?_eq_some h
  · rw [unpack_abs_zero hzero]
    rfl
  · have hsigned : (sign.apply size).natAbs = size := by cases sign <;> simp [Sign.apply]
    rw [hsigned] at hn ⊢
    rw [unpack_abs hfinite, UnpackedFloat.toInt, roundToInt_eq, ← hsize]
    exact hclamp size hn

end Whole

end OpenQasm.Double
