import OpenQasm.Proofs.SignedNumbers

/-!
Laws that hold of all doubles, those that are not numbers included: changing the sign twice changes nothing,
products commute, and a product by one is the other factor. A double is its unpacked form, so each law is one
on that form; a product by one is rounded, and what is rounded away are the zeros that the mantissa of one
brings along.
-/
namespace OpenQasm.Double

open Float.Model Float.Model.UnpackedFloat

section Forms

variable {x y : Float}

/-- The bits of a number are those of its unpacked form. -/
theorem pack_unpack_self (x : Float) :
    UnpackedFloat.pack Format.binary64 x.toModel.unpack = x.toBits.toBitVec := by
  refine (@pack_unpack Format.binary64 x.toBits.toBitVec (by decide)).trans ?_
  split
  · next hbits =>
    -- Of the bits that stand for no number only one pattern is in use.
    obtain ⟨hexponent, hmantissa⟩ := of_decide_eq_true hbits
    exact (x.toModel.valid.eq_packedNaN hexponent hmantissa).symm
  · rfl

theorem eq_of_pack (h : y.toBits.toBitVec = UnpackedFloat.pack Format.binary64 x.toModel.unpack) : y = x :=
  eq_of_toBits (h.trans (pack_unpack_self x))

theorem eq_of_unpack (h : x.toModel.unpack = y.toModel.unpack) : x = y :=
  eq_of_pack ((pack_unpack_self x).symm.trans (congrArg _ h))

theorem unpack_neg_eq (x : Float) : (-x).toModel.unpack = x.toModel.unpack.neg := by
  cases hnan : x.isNaN with
  | false =>
    have hneg : (-x).toModel.unpack = UnpackedFloat.unpack Format.binary64 (-x).toBits.toBitVec := rfl
    rw [hneg, toBits_neg hnan, unpack_withSign_neg]
    rfl
  | true =>
    have hform : x.toModel.unpack = .notANumber := isNaN_iff.1 hnan
    show UnpackedFloat.unpack Format.binary64 (UnpackedFloat.pack Format.binary64 x.toModel.unpack.neg) = _
    rw [hform]
    exact unpack_packedNaN

end Forms

theorem neg_neg (x : Float) : -(-x) = x := by
  have hsign (sign : Sign) : -(-sign) = sign := by cases sign <;> rfl
  have hform : x.toModel.unpack.neg.neg = x.toModel.unpack := by
    cases x.toModel.unpack <;> simp only [UnpackedFloat.neg, hsign]
  refine eq_of_unpack ?_
  rw [unpack_neg_eq, unpack_neg_eq, hform]

theorem mul_comm (x y : Float) : x * y = y * x := by
  have hsign (s t : Sign) : s * t = t * s := by cases s <;> cases t <;> rfl
  have hforms (a b : UnpackedFloat) :
      UnpackedFloat.mul Format.binary64 a b = UnpackedFloat.mul Format.binary64 b a := by
    cases a <;> cases b <;>
      simp only [UnpackedFloat.mul, hsign, Nat.mul_comm, Int.add_comm]
  exact eq_of_toBits (congrArg (UnpackedFloat.pack Format.binary64) (hforms x.toModel.unpack y.toModel.unpack))

section One

/-- Zeros at the end of a mantissa are shifted out and leave no trace. -/
theorem shiftRight_zeros (m k : Nat) :
    ExtendedMantissa.ofMantissaAndAccuracy (m * 2 ^ k) .exact >>> k = ⟨m, false, false⟩ := by
  show k.repeat ExtendedMantissa.shiftRightOne ⟨m * 2 ^ k, false, false⟩ = _
  induction k generalizing m with
  | zero => rw [Nat.pow_zero, Nat.mul_one]; rfl
  | succ k ih =>
    have hpow : m * 2 ^ (k + 1) = m * 2 * 2 ^ k := by ring
    rw [Nat.repeat, hpow, ih]
    simp [ExtendedMantissa.shiftRightOne]

/-- The exponent that a number which the bits can hold is rounded to is its own. -/
theorem targetExponent_of_fits {m : Nat} {e : Int} (hpos : 0 < m) (h : Fits m e) (k : Nat) :
    Format.binary64.targetExponent (totalExponent (m * 2 ^ k) (e - k)) = e := by
  have hlog : (m * 2 ^ k).log2 = m.log2 + k := by
    rw [Nat.log2_eq_iff (by positivity)]
    have hself := (Nat.log2_eq_iff hpos.ne').1 rfl
    constructor
    · rw [Nat.pow_add]
      exact Nat.mul_le_mul_right _ hself.1
    · rw [Nat.add_right_comm, Nat.pow_add]
      exact Nat.mul_lt_mul_of_pos_right hself.2 (Nat.two_pow_pos k)
  have htarget : Format.binary64.targetExponent (totalExponent (m * 2 ^ k) (e - k)) =
      max ((m.log2 : Int) + 1 + e - 53) (-1074) := by
    show max (((m * 2 ^ k).log2 : Int) + 1 + (e - k) - 53) (-1074) = _
    rw [hlog]
    omega
  rw [htarget]
  obtain ⟨hlow, hhigh, hleast, -⟩ | ⟨hsmall, rfl⟩ := h
  · have hfull : m.log2 = 52 := (Nat.log2_eq_iff hpos.ne').2 ⟨hlow, hhigh⟩
    omega
  · have hshort : m.log2 < 52 := (Nat.log2_lt hpos.ne').2 hsmall
    omega

/-- A number that the bits can hold is not changed by rounding, whatever zeros its mantissa ends in. -/
theorem roundWithAccuracy_of_fits {m : Nat} {e : Int} (sign : Sign) (hpos : 0 < m) (h : Fits m e) (k : Nat) :
    roundWithAccuracy Format.binary64 sign (m * 2 ^ k) (e - k) .exact = .finite sign m e hpos := by
  have hshift (k : Nat) :
      shiftToTargetExponent Format.binary64 (m * 2 ^ k) (e - k) .exact = (⟨m, false, false⟩, e) := by
    have hamount : (e - (e - k)).toNat = k := by omega
    rw [shiftToTargetExponent, targetExponent_of_fits hpos h k]
    show (ExtendedMantissa.ofMantissaAndAccuracy (m * 2 ^ k) .exact >>> (e - (e - k)).toNat,
      e - k + ((e - (e - k)).toNat : Int)) = _
    rw [hamount, shiftRight_zeros]
    congr 1
    omega
  have hagain := hshift 0
  rw [Nat.pow_zero, Nat.mul_one, Int.natCast_zero, Int.sub_zero] at hagain
  exact roundWithAccuracy_eq (hshift k) hagain hpos

theorem one_mul (x : Float) : 1.0 * x = x := by
  have hone : (1.0 : Float).toModel.unpack = .finite .positive (2 ^ 52) (-52) (by decide) := rfl
  have hsign (sign : Sign) : Sign.positive * sign = sign := by cases sign <;> rfl
  have hform : UnpackedFloat.mul Format.binary64 (1.0 : Float).toModel.unpack x.toModel.unpack =
      x.toModel.unpack := by
    rw [hone]
    cases hx : x.toModel.unpack with
    | notANumber => rfl
    | infinity sign => exact congrArg UnpackedFloat.infinity (hsign sign)
    | zero sign => exact congrArg UnpackedFloat.zero (hsign sign)
    | finite sign m e hpos =>
      show roundWithAccuracy Format.binary64 (.positive * sign) (2 ^ 52 * m) (-52 + e) .exact = _
      rw [hsign, Nat.mul_comm, Int.add_comm]
      exact roundWithAccuracy_of_fits sign hpos (fits_of_unpack hx) 52
  exact eq_of_pack (congrArg (UnpackedFloat.pack Format.binary64) hform)

theorem eq_one_of_beq {x : Float} (h : (x == 1.0) = true) : x = 1.0 := by
  have hbeq : x.toModel.unpack.beq (1.0 : Float).toModel.unpack = true := h
  obtain ⟨-, -, heq | ⟨-, hzero⟩ | ⟨-, hzero⟩⟩ := (beq_iff_ne_notANumber_and_eq _ _).1 hbeq
  · exact eq_of_unpack heq
  · nomatch hzero
  · nomatch hzero

end One

end OpenQasm.Double
