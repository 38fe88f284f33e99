import Mathlib.Data.BitVec
import OpenQasm.Proofs.Inhabitants

/-!
The last bits of a word, and the words in which numbers of so many bits are kept. To wrap a word is to take its
last bits and to keep them as a number of their width. Ring operations and bitwise operations on words act on
the last bits alone.
-/
namespace OpenQasm.Word

variable {n : Nat} {v w : Int64}

/-- The last `n` bits of a word. -/
def low (n : Nat) (v : Int64) : BitVec n := v.toBitVec.setWidth n

/-- The word in which a signed number of `n` bits is kept. -/
def ofSigned (x : BitVec n) : Int64 := Int64.ofInt x.toInt

/-- The word in which an unsigned number of `n` bits is kept; one of 64 bits is kept as a pattern. -/
def ofUnsigned (x : BitVec n) : Int64 := ofNat x.toNat

theorem toBitVec_ofSigned (x : BitVec n) : (ofSigned x).toBitVec = x.signExtend 64 := rfl

theorem toBitVec_ofNat (m : Nat) : (ofNat m).toBitVec = BitVec.ofNat 64 m := rfl

theorem toBitVec_ofUnsigned (x : BitVec n) : (ofUnsigned x).toBitVec = x.setWidth 64 := by
  apply BitVec.eq_of_toNat_eq
  rw [ofUnsigned, toBitVec_ofNat, BitVec.toNat_ofNat, BitVec.toNat_setWidth]

section Wrapping

theorem low_ofSigned (hn : n ≤ 64) (x : BitVec n) : low n (ofSigned x) = x := by
  apply BitVec.eq_of_getLsbD_eq
  intro i hi
  have hword : i < 64 := by omega
  rw [low, toBitVec_ofSigned, BitVec.getLsbD_setWidth, BitVec.getLsbD_signExtend]
  simp only [hi, hword, decide_true, Bool.true_and, if_true]

theorem low_ofUnsigned (hn : n ≤ 64) (x : BitVec n) : low n (ofUnsigned x) = x := by
  rw [low, toBitVec_ofUnsigned, BitVec.setWidth_setWidth_of_le x hn, BitVec.setWidth_eq]

/-- Shifted to the left and back, the last bits are extended by their sign. -/
theorem wrapSigned_eq (hpos : 0 < n) (hn : n ≤ 64) (v : Int64) : wrapSigned v n = ofSigned (low n v) := by
  rw [← Int64.toBitVec_inj, toBitVec_ofSigned, low, wrapSigned]
  split
  · next hwide =>
    obtain rfl : n = 64 := Nat.le_antisymm hn hwide
    rw [BitVec.setWidth_eq, BitVec.signExtend_eq]
  · next hnarrow =>
    have hk : 64 - n < 64 := by omega
    dsimp only
    rw [Int64.toBitVec_shiftRight, Int64.toBitVec_shiftLeft, BitVec.sshiftRight_eq', BitVec.shiftLeft_eq',
      shift_amount hk]
    -- The bit of place `i` goes to place `i + (64 - n)` and back; above the last bits stands the highest of them.
    apply BitVec.eq_of_getLsbD_eq
    intro i hi
    have hmsb : (v.toBitVec <<< (64 - n)).msb = (v.toBitVec.setWidth n).msb := by
      rw [BitVec.msb_eq_getLsbD_last, BitVec.msb_eq_getLsbD_last, BitVec.getLsbD_shiftLeft, BitVec.getLsbD_setWidth]
      have hplace : 64 - 1 - (64 - n) = n - 1 := by omega
      have hlast : ¬64 - 1 < 64 - n := by omega
      have hinside : n - 1 < n := by omega
      simp [hplace, hlast, hinside]
    rw [BitVec.getLsbD_sshiftRight, BitVec.getLsbD_signExtend, hmsb]
    by_cases hin : i < n
    · have hshifted : 64 - n + i < 64 := by omega
      have hback : 64 - n + i - (64 - n) = i := by omega
      have habove : ¬64 - n + i < 64 - n := by omega
      simp [hi, hin, hshifted, hback, habove]
    · have hpast : ¬64 - n + i < 64 := by omega
      simp [hi, hin, hpast]

/-- Under the mask the last bits are kept and all others are zero. -/
theorem wrapUnsigned_eq (hn : n ≤ 64) (v : Int64) : wrapUnsigned v n = ofUnsigned (low n v) := by
  rw [← Int64.toBitVec_inj, toBitVec_ofUnsigned, low, wrapUnsigned]
  split
  · next hwide =>
    obtain rfl : n = 64 := Nat.le_antisymm hn hwide
    rw [BitVec.setWidth_eq, BitVec.setWidth_eq]
  · next hnarrow =>
    apply BitVec.eq_of_toNat_eq
    have hlt : v.toBitVec.toNat % 2 ^ n < 2 ^ 64 :=
      calc v.toBitVec.toNat % 2 ^ n
          ≤ v.toBitVec.toNat := Nat.mod_le _ _
        _ < 2 ^ 64 := v.toBitVec.isLt
    rw [Int64.toBitVec_and, BitVec.toNat_and, toNat_mask (by omega), Nat.and_two_pow_sub_one_eq_mod,
      BitVec.toNat_setWidth, BitVec.toNat_setWidth, Nat.mod_eq_of_lt hlt]

end Wrapping

section Operations

/-- Taking the last bits is a homomorphism of rings. -/
def lowHom {m : Nat} (hn : n ≤ m) : BitVec m →+* BitVec n where
  toFun x := x.setWidth n
  map_zero' := BitVec.setWidth_zero n m
  map_one' := by
    apply BitVec.eq_of_toNat_eq
    rw [BitVec.toNat_setWidth]
    exact Nat.mod_mod_of_dvd 1 (Nat.pow_dvd_pow 2 hn)
  map_add' x y := BitVec.setWidth_add x y hn
  map_mul' x y := BitVec.setWidth_mul x y hn

theorem low_eq (hn : n ≤ 64) (v : Int64) : low n v = lowHom hn v.toBitVec := rfl

theorem low_neg (hn : n ≤ 64) (v : Int64) : low n (-v) = -low n v := by
  rw [low_eq hn, Int64.toBitVec_neg, map_neg, ← low_eq]

theorem low_add (hn : n ≤ 64) (v w : Int64) : low n (v + w) = low n v + low n w := by
  rw [low_eq hn, Int64.toBitVec_add, map_add, ← low_eq, ← low_eq]

theorem low_sub (hn : n ≤ 64) (v w : Int64) : low n (v - w) = low n v - low n w := by
  rw [low_eq hn, Int64.toBitVec_sub, map_sub, ← low_eq, ← low_eq]

theorem low_mul (hn : n ≤ 64) (v w : Int64) : low n (v * w) = low n v * low n w := by
  rw [low_eq hn, Int64.toBitVec_mul, map_mul, ← low_eq, ← low_eq]

theorem low_not (hn : n ≤ 64) (v : Int64) : low n (~~~v) = ~~~low n v := by
  rw [low, Int64.toBitVec_not, BitVec.setWidth_not hn]
  rfl

theorem low_and (v w : Int64) : low n (v &&& w) = low n v &&& low n w := by
  rw [low, Int64.toBitVec_and, BitVec.setWidth_and]
  rfl

theorem low_or (v w : Int64) : low n (v ||| w) = low n v ||| low n w := by
  rw [low, Int64.toBitVec_or, BitVec.setWidth_or]
  rfl

theorem low_xor (v w : Int64) : low n (v ^^^ w) = low n v ^^^ low n w := by
  rw [low, Int64.toBitVec_xor, BitVec.setWidth_xor]
  rfl

/-- The power by squaring is the power. -/
theorem toBitVec_pow (a : Int64) (k : Nat) : (pow a k).toBitVec = a.toBitVec ^ k := by
  -- Each round squares the base and halves the exponent; an odd one takes the base once more.
  induction k using Nat.strongRecOn generalizing a with
  | _ k ih =>
    rw [pow]
    by_cases hk : k = 0
    · subst hk
      rfl
    · rw [if_neg hk]
      have hhalf : (pow (a * a) (k / 2)).toBitVec = (a.toBitVec * a.toBitVec) ^ (k / 2) := by
        rw [ih (k / 2) (by omega), Int64.toBitVec_mul]
      have hsquare : (a.toBitVec * a.toBitVec) ^ (k / 2) = a.toBitVec ^ (2 * (k / 2)) := by
        rw [← sq, ← pow_mul]
      by_cases hodd : k % 2 = 1
      · have hsplit : k = 2 * (k / 2) + 1 := by omega
        simp only [if_pos hodd, Int64.toBitVec_mul, hhalf, hsquare]
        conv_rhs => rw [hsplit, pow_succ, mul_comm]
      · have hsplit : 2 * (k / 2) = k := by omega
        simp only [if_neg hodd, hhalf, hsquare, hsplit]

theorem low_pow (hn : n ≤ 64) (v : Int64) (k : Nat) : low n (pow v k) = low n v ^ k := by
  rw [low_eq hn, toBitVec_pow, map_pow, ← low_eq]

end Operations

end OpenQasm.Word
