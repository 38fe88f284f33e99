import OpenQasm.Proofs.Inhabitants

/-!
Bits that are gathered from a word. The bits at some positions, read as a binary number whose first digit
is the first of them, are what is left when they are put together one by one from the last on.
-/
namespace OpenQasm.Word

variable {v acc w : Int64} {k i : Nat} {ps : List Nat}

/-- The word whose last bits are those of another word at some positions; the first position gives the
highest of them. -/
def gathered (v : Int64) (ps : List Nat) : Int64 :=
  Int64.ofBitVec ((BitVec.ofBoolListBE (ps.map v.toBitVec.getLsbD)).setWidth 64)

theorem getLsbD_gathered (hi : i < 64) :
    (gathered v ps).toBitVec.getLsbD i = (ps.reverse[i]?).any v.toBitVec.getLsbD := by
  rw [gathered, Int64.toBitVec_ofBitVec, BitVec.getLsbD_setWidth, BitVec.getLsbD_ofBoolListBE,
    decide_eq_true hi, Bool.true_and, List.length_map]
  by_cases hlength : i < ps.length
  -- Counted from the last one, the digit is that of the position there in the reversed list.
  · rw [List.getElem?_reverse hlength, List.getD_eq_getElem?_getD, List.getElem?_map, decide_eq_true hlength,
      Bool.true_and]
    have hlast : ps.length - 1 - i < ps.length := by omega
    rw [List.getElem?_eq_getElem hlast]
    rfl
  · have hpast : ps.reverse[i]? = none := by
      rw [List.getElem?_eq_none_iff, List.length_reverse]
      exact Nat.le_of_not_lt hlength
    rw [hpast, decide_eq_false hlength]
    rfl

/-- Gathered bits are a number of as many bits. -/
theorem gathered_range (hlength : ps.length < 64) :
    0 ≤ (gathered v ps).toInt ∧ (gathered v ps).toInt < 2 ^ ps.length := by
  have hmap : (ps.map v.toBitVec.getLsbD).length = ps.length := List.length_map ..
  have hbits : (gathered v ps).toBitVec.toNat < 2 ^ ps.length :=
    calc (gathered v ps).toBitVec.toNat
        = (BitVec.ofBoolListBE (ps.map v.toBitVec.getLsbD)).toNat % 2 ^ 64 := by
          rw [gathered, Int64.toBitVec_ofBitVec, BitVec.toNat_setWidth]
      _ ≤ (BitVec.ofBoolListBE (ps.map v.toBitVec.getLsbD)).toNat := Nat.mod_le _ _
      _ < 2 ^ ps.length := hmap ▸ (BitVec.ofBoolListBE (ps.map v.toBitVec.getLsbD)).isLt
  -- Fewer than 64 bits leave the sign of the word alone.
  have hhalf : 2 ^ ps.length ≤ 2 ^ 63 := Nat.pow_le_pow_right (by decide) (by omega)
  have hvalue : (gathered v ps).toInt = (gathered v ps).toBitVec.toNat := by
    rw [← Int64.toInt_toBitVec, BitVec.toInt_eq_toNat_cond, if_pos (by omega)]
  have hcast : ((2 ^ ps.length : Nat) : Int) = 2 ^ ps.length := by
    push_cast
    rfl
  omega

theorem getLsbD_bit {p : Nat} (hp : p < 64) :
    (bit v p).toBitVec.getLsbD i = (decide (i = 0) && v.toBitVec.getLsbD p) := by
  rw [bit, Int64.toBitVec_and, Int64.toBitVec_shiftRight, BitVec.sshiftRight_eq', shift_amount hp,
    BitVec.getLsbD_and]
  have hone : (1 : Int64).toBitVec = 1#64 := rfl
  rw [hone, BitVec.getLsbD_one]
  rcases Nat.eq_zero_or_pos i with rfl | hi
  · rw [BitVec.getLsbD_sshiftRight, Nat.add_zero, if_pos hp]
    simp
  · simp [Nat.pos_iff_ne_zero.1 hi]

/-- One bit is put to the place `k`. -/
theorem getLsbD_placed {p : Nat} (hp : p < 64) (hk : k < 64) (hi : i < 64) :
    (acc ||| (bit v p <<< Int64.ofNat k)).toBitVec.getLsbD i =
      (acc.toBitVec.getLsbD i || decide (i = k) && v.toBitVec.getLsbD p) := by
  rw [Int64.toBitVec_or, Int64.toBitVec_shiftLeft, BitVec.shiftLeft_eq', shift_amount hk, BitVec.getLsbD_or,
    BitVec.getLsbD_shiftLeft, getLsbD_bit hp]
  rcases Nat.lt_trichotomy i k with hlt | rfl | hgt
  · simp [hlt, Nat.ne_of_lt hlt]
  · simp [hi]
  · have hplace : i - k ≠ 0 := by omega
    simp [hplace, Nat.ne_of_gt hgt]

/-- The bits go to consecutive places, as long as there are positions and places for them. -/
theorem gatherFrom_eq_some (v acc : Int64) (hps : ∀ p ∈ ps, p < 64) (hk : k + ps.length ≤ 64) :
    ∃ w, gatherFrom v k ps acc = some w ∧ ∀ i < 64, w.toBitVec.getLsbD i =
      (acc.toBitVec.getLsbD i || decide (k ≤ i) && (ps[i - k]?).any v.toBitVec.getLsbD) := by
  -- The invariant says of each place what stands there, so it tells what a bit that is added changes.
  induction ps generalizing k acc with
  | nil => exact ⟨acc, rfl, fun i _ => by simp⟩
  | cons p ps ih =>
    obtain ⟨hp, hps⟩ := List.forall_mem_cons.1 hps
    rw [List.length_cons] at hk
    have hk64 : k < 64 := by omega
    obtain ⟨w, hw, hbits⟩ := ih (k := k + 1) (acc ||| (bit v p <<< Int64.ofNat k)) hps (by omega)
    refine ⟨w, ?_, fun i hi => ?_⟩
    · rw [gatherFrom, if_pos ⟨hp, hk64⟩]
      exact hw
    rw [hbits i hi, getLsbD_placed hp hk64 hi]
    -- Below the place the word is kept, at it stands the bit, and above it are the others.
    rcases Nat.lt_trichotomy i k with hlt | rfl | hgt
    · have hbelow : ¬k ≤ i ∧ ¬k + 1 ≤ i ∧ i ≠ k := by omega
      simp [hbelow]
    · simp
    · have habove : k ≤ i ∧ k + 1 ≤ i ∧ i ≠ k := by omega
      have hplace : i - k = i - (k + 1) + 1 := by omega
      simp [habove, hplace]

theorem gatherFrom_eq_none (h : ¬(k + ps.length ≤ 64 ∧ ∀ p ∈ ps, p < 64)) (hk : k ≤ 64) :
    gatherFrom v k ps acc = none := by
  induction ps generalizing k acc with
  | nil => exact absurd ⟨hk, nofun⟩ h
  | cons p ps ih =>
    rw [gatherFrom]
    by_cases hroom : p < 64 ∧ k < 64
    · rw [if_pos hroom]
      refine ih (fun hrest => h ⟨?_, List.forall_mem_cons.2 ⟨hroom.1, hrest.2⟩⟩) (by omega)
      rw [List.length_cons]
      omega
    · rw [if_neg hroom]

/-- Bits are extracted if there are at most 64, each of them in the word. -/
theorem extractBits_eq (v : Int64) (ps : List Nat) :
    extractBits v ps = if ps.length ≤ 64 ∧ ∀ p ∈ ps, p < 64 then some (gathered v ps) else none := by
  rw [extractBits]
  by_cases h : ps.length ≤ 64 ∧ ∀ p ∈ ps, p < 64
  · have hlength : 0 + ps.reverse.length ≤ 64 := by
      rw [List.length_reverse]
      omega
    obtain ⟨w, hw, hbits⟩ := gatherFrom_eq_some v 0
      (fun p hp => h.2 p (List.mem_reverse.1 hp)) hlength
    rw [if_pos h, hw]
    refine congrArg some (Int64.toBitVec_inj.1 (BitVec.eq_of_getLsbD_eq fun i hi => ?_))
    calc w.toBitVec.getLsbD i
        = ((0 : Int64).toBitVec.getLsbD i ||
            decide (0 ≤ i) && (ps.reverse[i - 0]?).any v.toBitVec.getLsbD) := hbits i hi
      _ = (ps.reverse[i]?).any v.toBitVec.getLsbD := by simp
      _ = (gathered v ps).toBitVec.getLsbD i := (getLsbD_gathered hi).symm
  · rw [if_neg h]
    refine gatherFrom_eq_none (fun hrest => h ⟨?_, fun p hp => hrest.2 p (List.mem_reverse.2 hp)⟩) (by omega)
    have hlength := hrest.1
    rw [List.length_reverse] at hlength
    omega

end OpenQasm.Word
