import OpenQasm.Proofs.WrappedArithmetic

/-!
Unsigned numbers as operands. Their words are compared, divided and shifted to the right as signed numbers, which
is exact as long as the highest bit of a word is clear, so for all numbers of less than 64 bits. A shift takes the
number of places modulo 64, also where a word is shifted by as many places or more.
-/
namespace OpenQasm

variable {n a b k : Nat}

namespace Word

theorem ofNat_eq (k : Nat) : ofNat k = Int64.ofNat k := by
  rw [← Int64.toBitVec_inj, toBitVec_ofNat, Int64.toBitVec_ofNat']

/-- Numbers with a clear highest bit are read as they are. -/
theorem toInt_ofNat (ha : a < 2 ^ 63) : (ofNat a).toInt = a := by
  rw [ofNat_eq, Int64.toInt_ofNat_of_lt ha]

/-- The word of a number with the highest bit is the one of a negative number. -/
theorem toInt_ofNat_neg (hlow : 2 ^ 63 ≤ a) (ha : a < 2 ^ 64) : (ofNat a).toInt < 0 := by
  rw [← Int64.toInt_toBitVec, toBitVec_ofNat, BitVec.toInt_ofNat', Int.bmod_def]
  omega

theorem ofNat_inj (ha : a < 2 ^ 64) (hb : b < 2 ^ 64) : ofNat a = ofNat b ↔ a = b := by
  rw [← Int64.toBitVec_inj, toBitVec_ofNat, toBitVec_ofNat, ← BitVec.toNat_inj, BitVec.toNat_ofNat,
    BitVec.toNat_ofNat, Nat.mod_eq_of_lt ha, Nat.mod_eq_of_lt hb]

theorem low_ofNat (hn : n ≤ 64) (a : Nat) : low n (ofNat a) = BitVec.ofNat n a := by
  rw [low, toBitVec_ofNat, BitVec.setWidth_ofNat_of_le hn]

theorem ofNat_div (ha : a < 2 ^ 63) (hb : b < 2 ^ 63) : ofNat a / ofNat b = ofNat (a / b) := by
  have hle : a / b ≤ a := Nat.div_le_self a b
  rw [← Int64.toInt_inj, Int64.toInt_div, toInt_ofNat ha, toInt_ofNat hb, toInt_ofNat (by omega), ← Int.ofNat_tdiv]
  generalize a / b = c at hle ⊢
  exact Int.bmod_eq_of_le (by omega) (by omega)

theorem ofNat_mod (ha : a < 2 ^ 63) (hb : b < 2 ^ 63) : ofNat a % ofNat b = ofNat (a % b) := by
  have hle : a % b ≤ a := Nat.mod_le a b
  rw [← Int64.toInt_inj, Int64.toInt_mod, toInt_ofNat ha, toInt_ofNat hb, toInt_ofNat (by omega), Int.ofNat_tmod]

theorem ofNat_shiftRight (ha : a < 2 ^ 63) (hk : k < 64) : ofNat a >>> ofNat k = ofNat (a / 2 ^ k) := by
  have hle : a / 2 ^ k ≤ a := Nat.div_le_self a (2 ^ k)
  rw [← Int64.toInt_inj, ofNat_eq k, toInt_shiftRight _ hk, toInt_ofNat ha, toInt_ofNat (by omega), Int.natCast_ediv]

/-- A shift to the left by less places than a word has is a multiplication by a power of two. -/
theorem shiftLeft_eq_mul_pow (v : Int64) (hk : k < 64) : v <<< ofNat k = v * pow (ofNat 2) k := by
  rw [← Int64.toBitVec_inj, ofNat_eq k, Int64.toBitVec_shiftLeft, BitVec.shiftLeft_eq', shift_amount hk,
    Int64.toBitVec_mul, toBitVec_pow, toBitVec_ofNat]
  apply BitVec.eq_of_toNat_eq
  have htwo : (2#64).toNat = 2 := rfl
  rw [BitVec.toNat_shiftLeft, BitVec.toNat_mul, BitVec.toNat_pow, Nat.shiftLeft_eq, htwo, Nat.mul_mod_mod]

theorem low_mul_pow (hn : n ≤ 64) (a k : Nat) :
    low n (ofNat a * pow (ofNat 2) k) = BitVec.ofNat n (a * 2 ^ k) := by
  rw [low_mul hn, low_pow hn, low_ofNat hn, low_ofNat hn, BitVec.ofNat_mul]
  congr 1
  apply BitVec.eq_of_toNat_eq
  rw [BitVec.toNat_pow, BitVec.toNat_ofNat, BitVec.toNat_ofNat, Nat.pow_mod, Nat.mod_mod, ← Nat.pow_mod]

/-- A word is shifted by a number of places that is reduced modulo its size. -/
theorem shift_amount_mod (hk : k < 2 ^ 63) : (ofNat k).toBitVec.smod 64 = (ofNat (k % 64)).toBitVec.smod 64 := by
  have hsize : (64 : BitVec 64).toInt = 64 := by decide
  apply BitVec.eq_of_toInt_eq
  rw [BitVec.toInt_smod, BitVec.toInt_smod, Int64.toInt_toBitVec, Int64.toInt_toBitVec, toInt_ofNat hk,
    toInt_ofNat (by omega), hsize, Int.fmod_eq_emod_of_nonneg _ (by decide), Int.fmod_eq_emod_of_nonneg _ (by decide)]
  omega

theorem shiftLeft_mod (v : Int64) (hk : k < 2 ^ 63) : v <<< ofNat k = v <<< ofNat (k % 64) := by
  rw [← Int64.toBitVec_inj, Int64.toBitVec_shiftLeft, Int64.toBitVec_shiftLeft, shift_amount_mod hk]

theorem shiftRight_mod (v : Int64) (hk : k < 2 ^ 63) : v >>> ofNat k = v >>> ofNat (k % 64) := by
  rw [← Int64.toBitVec_inj, Int64.toBitVec_shiftRight, Int64.toBitVec_shiftRight, shift_amount_mod hk]

end Word

namespace Value

open Word

/-- An unsigned number as it is stored. -/
def unsigned (a : Nat) : Value := .int (ofNat a)

/-- An operation has a result that is stored, in an unsigned type of `n` bits, as the number `c`. -/
def StoresUnsigned (n : Nat) (op : BinaryOp) (l r : Value) (c : Nat) : Prop :=
  ∃ v, evalBinary op l r = .ok v ∧ coerce (.sized .uint n) v = .ok (unsigned c)

theorem coerce_unsigned (hpos : 0 < n) (hn : n ≤ 64) {v : Int64} (hv : low n v = BitVec.ofNat n a) :
    coerce (.sized .uint n) (.int v) = .ok (unsigned (a % 2 ^ n)) := by
  have hstored : stored .uint (BitVec.ofNat n a) = ofNat (a % 2 ^ n) := by
    show ofUnsigned (BitVec.ofNat n a) = ofNat (a % 2 ^ n)
    rw [ofUnsigned, BitVec.toNat_ofNat]
  rw [coerce_int (Or.inr (Or.inl rfl)) hpos hn, hv, hstored, unsigned]

/-- A number in the range of the type is stored as it is. -/
theorem coerce_unsigned_of_lt (hpos : 0 < n) (hn : n ≤ 64) (ha : a < 2 ^ n) :
    coerce (.sized .uint n) (unsigned a) = .ok (unsigned a) := by
  rw [unsigned, coerce_unsigned hpos hn (low_ofNat hn a), Nat.mod_eq_of_lt ha, unsigned]

theorem equal_unsigned (ha : a < 2 ^ 64) (hb : b < 2 ^ 64) :
    evalBinary .eq (unsigned a) (unsigned b) = .ok (.bool (decide (a = b))) := by
  have hequal : (ofNat a == ofNat b) = decide (a = b) := by
    rw [beq_eq_decide, decide_eq_decide]
    exact ofNat_inj ha hb
  show Except.ok (bool ((ofNat a == ofNat b) == true)) = _
  rw [hequal, beq_true]

/-- The words of numbers with a clear highest bit have the order of the numbers. -/
theorem compare?_unsigned (ha : a < 2 ^ 63) (hb : b < 2 ^ 63) :
    compare? (unsigned a) (unsigned b) = some (some (compare a b)) := by
  have hlt : ofNat a < ofNat b ↔ a < b := by
    rw [Int64.lt_iff_toInt_lt, toInt_ofNat ha, toInt_ofNat hb, Int.ofNat_lt]
  have heq : ofNat a = ofNat b ↔ a = b := ofNat_inj (by omega) (by omega)
  -- Integers are compared as words, before any conversion to real numbers.
  show some (some (if ofNat a < ofNat b then Ordering.lt else if ofNat a = ofNat b then .eq else .gt)) = _
  simp only [hlt, heq, Nat.compare_eq_ite_lt]
  split
  · rfl
  · split <;> split <;> first | rfl | omega

theorem compare_unsigned (ha : a < 2 ^ 63) (hb : b < 2 ^ 63) :
    evalBinary .lt (unsigned a) (unsigned b) = .ok (.bool (decide (a < b))) ∧
      evalBinary .ltEq (unsigned a) (unsigned b) = .ok (.bool (decide (a ≤ b))) ∧
      evalBinary .gt (unsigned a) (unsigned b) = .ok (.bool (decide (b < a))) ∧
      evalBinary .gtEq (unsigned a) (unsigned b) = .ok (.bool (decide (b ≤ a))) := by
  have hlt : (compare a b).isLT = decide (a < b) := by
    rw [Bool.eq_iff_iff, decide_eq_true_eq, Ordering.isLT_iff_eq_lt, Nat.compare_eq_lt]
  have hle : (compare a b).isLE = decide (a ≤ b) := by
    rw [Bool.eq_iff_iff, decide_eq_true_eq, Nat.isLE_compare]
  have hgt : (compare a b).isGT = decide (b < a) := by
    rw [Bool.eq_iff_iff, decide_eq_true_eq, Ordering.isGT_iff_eq_gt, Nat.compare_eq_gt]
  have hge : (compare a b).isGE = decide (b ≤ a) := by
    rw [Bool.eq_iff_iff, decide_eq_true_eq, Nat.isGE_compare]
  have hcompare := compare?_unsigned ha hb
  simp only [evalBinary, hcompare, satisfies, hlt, hle, hgt, hge, and_self]

theorem quotient_unsigned (hpos : 0 < n) (hn : n ≤ 64) (hrange : a < 2 ^ n) (ha : a < 2 ^ 63) (hb : b < 2 ^ 63)
    (hne : b ≠ 0) :
    StoresUnsigned n .div (unsigned a) (unsigned b) (a / b) ∧
      StoresUnsigned n .mod (unsigned a) (unsigned b) (a % b) := by
  have hdivisor : ofNat b ≠ 0 := fun h => hne ((ofNat_inj (by omega) (by decide)).1 h)
  constructor
  · have hdiv : evalBinary .div (unsigned a) (unsigned b) = .ok (unsigned (a / b)) := by
      show intOperation .div (ofNat a) (ofNat b) = _
      rw [intOperation, if_neg hdivisor, ofNat_div ha hb, unsigned]
    exact ⟨_, hdiv, coerce_unsigned_of_lt hpos hn ((Nat.div_le_self a b).trans_lt hrange)⟩
  · have hmod : evalBinary .mod (unsigned a) (unsigned b) = .ok (unsigned (a % b)) := by
      show intOperation .mod (ofNat a) (ofNat b) = _
      rw [intOperation, if_neg hdivisor, ofNat_mod ha hb, unsigned]
    exact ⟨_, hmod, coerce_unsigned_of_lt hpos hn ((Nat.mod_le a b).trans_lt hrange)⟩

/-- Up to which number of places a word can be shifted. -/
theorem shift_amount_small (hk : k < 2 ^ 64) :
    (0 ≤ ofNat k ∧ (ofNat k).toInt < Bound.size) ↔ k < 2 ^ 32 := by
  have hzero : (0 : Int64).toInt = 0 := rfl
  have hsize : Bound.size = 2 ^ 32 := rfl
  rw [Int64.le_iff_toInt_le, hzero, hsize]
  -- An amount with the highest bit is a negative one, so it is refused like all that are too large.
  by_cases hclear : k < 2 ^ 63
  · rw [toInt_ofNat hclear]
    omega
  · have hnegative := toInt_ofNat_neg (Nat.not_lt.1 hclear) hk
    omega

theorem evalBinary_shiftLeft (hk : k < 2 ^ 64) (a : Nat) :
    evalBinary .shiftLeft (unsigned a) (unsigned k) =
      if k < 2 ^ 32 then .ok (.int (ofNat a <<< ofNat k))
      else .error (.binary .shiftLeft (unsigned a) (unsigned k)) := by
  show intOperation .shiftLeft (ofNat a) (ofNat k) = _
  rw [intOperation]
  simp only [shift_amount_small hk]
  rfl

theorem evalBinary_shiftRight (hk : k < 2 ^ 64) (a : Nat) :
    evalBinary .shiftRight (unsigned a) (unsigned k) =
      if k < 2 ^ 32 then .ok (.int (ofNat a >>> ofNat k))
      else .error (.binary .shiftRight (unsigned a) (unsigned k)) := by
  show intOperation .shiftRight (ofNat a) (ofNat k) = _
  rw [intOperation]
  simp only [shift_amount_small hk]
  rfl

theorem shiftLeft_unsigned (hpos : 0 < n) (hn : n ≤ 64) (hk : k < 64) (a : Nat) :
    StoresUnsigned n .shiftLeft (unsigned a) (unsigned k) (a * 2 ^ k % 2 ^ n) := by
  have hshift : evalBinary .shiftLeft (unsigned a) (unsigned k) = .ok (.int (ofNat a * pow (ofNat 2) k)) := by
    rw [evalBinary_shiftLeft (by omega), if_pos (by omega), shiftLeft_eq_mul_pow _ hk]
  exact ⟨_, hshift, coerce_unsigned hpos hn (low_mul_pow hn a k)⟩

theorem shiftRight_unsigned (hpos : 0 < n) (hn : n ≤ 64) (hrange : a < 2 ^ n) (ha : a < 2 ^ 63) (hk : k < 64) :
    StoresUnsigned n .shiftRight (unsigned a) (unsigned k) (a / 2 ^ k) := by
  have hshift : evalBinary .shiftRight (unsigned a) (unsigned k) = .ok (unsigned (a / 2 ^ k)) := by
    rw [evalBinary_shiftRight (by omega), if_pos (by omega), ofNat_shiftRight ha hk, unsigned]
  exact ⟨_, hshift, coerce_unsigned_of_lt hpos hn ((Nat.div_le_self a _).trans_lt hrange)⟩

/-- A product with a power of two wraps, whatever the exponent. -/
theorem product_unsigned (hpos : 0 < n) (hn : n ≤ 64) (hk : k < 2 ^ 32) (a : Nat) :
    ∃ p, evalBinary .pow (unsigned 2) (unsigned k) = .ok p ∧
      StoresUnsigned n .mul (unsigned a) p (a * 2 ^ k % 2 ^ n) :=
  ⟨_, evalBinary_pow (toInt_ofNat (by omega)) hk, _, rfl, coerce_unsigned hpos hn (low_mul_pow hn a k)⟩

/-- Unsigned numbers of at most 64 bits. Whether they are equal is exact. Those with a clear highest bit of 64 are
compared, divided and shifted to the right exactly. A shift by less than 64 places to the left is the product with
the power of two. More places, up to 32 bits, are taken modulo 64, where the product would still be exact; for
others there is no shift. -/
theorem unsigned_exact (hpos : 0 < n) (hn : n ≤ 64) (ha : a < 2 ^ n) (hb : b < 2 ^ n) (hk : k < 2 ^ 64) :
    evalBinary .eq (unsigned a) (unsigned b) = .ok (.bool (decide (a = b))) ∧
    (a < 2 ^ 63 → b < 2 ^ 63 →
      (evalBinary .lt (unsigned a) (unsigned b) = .ok (.bool (decide (a < b))) ∧
        evalBinary .ltEq (unsigned a) (unsigned b) = .ok (.bool (decide (a ≤ b))) ∧
        evalBinary .gt (unsigned a) (unsigned b) = .ok (.bool (decide (b < a))) ∧
        evalBinary .gtEq (unsigned a) (unsigned b) = .ok (.bool (decide (b ≤ a)))) ∧
      (b ≠ 0 → StoresUnsigned n .div (unsigned a) (unsigned b) (a / b) ∧
        StoresUnsigned n .mod (unsigned a) (unsigned b) (a % b))) ∧
    (k < 64 → (a < 2 ^ 63 → StoresUnsigned n .shiftRight (unsigned a) (unsigned k) (a / 2 ^ k)) ∧
      StoresUnsigned n .shiftLeft (unsigned a) (unsigned k) (a * 2 ^ k % 2 ^ n)) ∧
    (k < 2 ^ 32 →
      (∃ p, evalBinary .pow (unsigned 2) (unsigned k) = .ok p ∧
        StoresUnsigned n .mul (unsigned a) p (a * 2 ^ k % 2 ^ n)) ∧
      ∀ op, op = .shiftLeft ∨ op = .shiftRight →
        evalBinary op (unsigned a) (unsigned k) = evalBinary op (unsigned a) (unsigned (k % 64))) ∧
    (2 ^ 32 ≤ k → ∀ op, op = .shiftLeft ∨ op = .shiftRight →
      evalBinary op (unsigned a) (unsigned k) = .error (.binary op (unsigned a) (unsigned k))) := by
  have hwide : 2 ^ n ≤ 2 ^ 64 := Nat.pow_le_pow_right (by decide) hn
  refine ⟨equal_unsigned (by omega) (by omega), fun ha' hb' => ⟨compare_unsigned ha' hb', fun hne => ?_⟩,
    fun hk' => ⟨fun ha' => ?_, shiftLeft_unsigned hpos hn hk' a⟩,
    fun hk' => ⟨product_unsigned hpos hn hk' a, ?_⟩, fun hk' => ?_⟩
  · exact quotient_unsigned hpos hn ha ha' hb' hne
  · exact shiftRight_unsigned hpos hn ha ha' hk'
  · have hreduced : k % 64 < 2 ^ 32 := by omega
    rintro op (rfl | rfl)
    · rw [evalBinary_shiftLeft hk, evalBinary_shiftLeft (by omega), if_pos hk', if_pos hreduced,
        shiftLeft_mod _ (by omega)]
    · rw [evalBinary_shiftRight hk, evalBinary_shiftRight (by omega), if_pos hk', if_pos hreduced,
        shiftRight_mod _ (by omega)]
  · rintro op (rfl | rfl)
    · rw [evalBinary_shiftLeft hk, if_neg (by omega)]
    · rw [evalBinary_shiftRight hk, if_neg (by omega)]

theorem unsigned_exact_byte : 200 < 2 ^ 8 ∧ StoresUnsigned 8 .div (unsigned 200) (unsigned 7) 28 ∧
    StoresUnsigned 8 .shiftRight (unsigned 200) (unsigned 3) 25 ∧
    StoresUnsigned 8 .shiftLeft (unsigned 200) (unsigned 3) 64 := by
  have hrange : 200 < 2 ^ 8 := by decide
  have hdivisor : 7 < 2 ^ 8 := by decide
  have hamount : 3 < 2 ^ 64 := by decide
  obtain ⟨-, hclear, hshifts, -, -⟩ := unsigned_exact (by decide) (by decide) hrange hdivisor hamount
  obtain ⟨-, hquotient⟩ := hclear (by decide) (by decide)
  obtain ⟨hright, hleft⟩ := hshifts (by decide)
  exact ⟨hrange, (hquotient (by decide)).1, hright (by decide), hleft⟩

/-- All numbers with the highest bit of 64 come before all others. -/
theorem high_bit_first (hlow : 2 ^ 63 ≤ a) (ha : a < 2 ^ 64) (hb : b < 2 ^ 63) :
    evalBinary .lt (unsigned a) (unsigned b) = .ok (.bool true) := by
  have hlt : ofNat a < ofNat b := by
    rw [Int64.lt_iff_toInt_lt, toInt_ofNat hb]
    exact (toInt_ofNat_neg hlow ha).trans_le (Int.natCast_nonneg b)
  have hcompare : compare? (unsigned a) (unsigned b) = some (some .lt) := by
    show some (some (if ofNat a < ofNat b then Ordering.lt else _)) = _
    rw [if_pos hlt]
  simp only [evalBinary, hcompare, satisfies, Ordering.isLT_lt]

/-- The least number with the highest bit is compared, halved and shifted as a negative one, and a shift by the
number of places of a word changes nothing, where the product with the power is zero. -/
theorem high_bit_is_sign :
    evalBinary .lt (unsigned (2 ^ 63)) (unsigned 1) = .ok (.bool true) ∧
    StoresUnsigned 64 .div (unsigned (2 ^ 63)) (unsigned 2) (2 ^ 64 - 2 ^ 62) ∧
    ¬StoresUnsigned 64 .div (unsigned (2 ^ 63)) (unsigned 2) (2 ^ 63 / 2) ∧
    StoresUnsigned 64 .shiftRight (unsigned (2 ^ 63)) (unsigned 1) (2 ^ 64 - 2 ^ 62) ∧
    ¬StoresUnsigned 64 .shiftRight (unsigned (2 ^ 63)) (unsigned 1) (2 ^ 63 / 2) ∧
    StoresUnsigned 8 .shiftLeft (unsigned 1) (unsigned 64) 1 ∧
    ¬StoresUnsigned 8 .shiftLeft (unsigned 1) (unsigned 64) (1 * 2 ^ 64 % 2 ^ 8) := by
  have hdivided : coerce (.sized .uint 64) (.int (ofNat (2 ^ 63) / ofNat 2)) = .ok (unsigned (2 ^ 64 - 2 ^ 62)) := rfl
  have hshifted : coerce (.sized .uint 64) (.int (ofNat (2 ^ 63) >>> ofNat 1)) = .ok (unsigned (2 ^ 64 - 2 ^ 62)) := rfl
  have hkept : coerce (.sized .uint 8) (.int (ofNat 1 <<< ofNat 64)) = .ok (unsigned 1) := rfl
  refine ⟨high_bit_first (by decide) (by decide) (by decide), ⟨_, rfl, hdivided⟩, ?_, ⟨_, rfl, hshifted⟩, ?_,
    ⟨_, rfl, hkept⟩, ?_⟩
  · rintro ⟨v, hv, hc⟩
    cases hv
    exact absurd (int.inj (Except.ok.inj (hdivided.symm.trans hc))) (by decide)
  · rintro ⟨v, hv, hc⟩
    cases hv
    exact absurd (int.inj (Except.ok.inj (hshifted.symm.trans hc))) (by decide)
  · rintro ⟨v, hv, hc⟩
    cases hv
    exact absurd (int.inj (Except.ok.inj (hkept.symm.trans hc))) (by decide)

end Value

end OpenQasm
