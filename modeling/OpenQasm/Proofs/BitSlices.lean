import OpenQasm.Proofs.GatheredBits
import OpenQasm.Proofs.LowBits

/-!
Slices of words. The bits at some positions are written from the last position on, as they are read, so that the bit
which is written to a position is the one that is read there, unless the position comes again. Where no position is
repeated, reading and writing a slice obey the laws of a lens, the sign included; which positions there are decides
alone whether a slice can be read and written at all.
-/
namespace OpenQasm.Word

variable {v bits acc : Int64} {k i p : Nat} {ps : List Nat}

section Writing

/-- The bit of place `k`, which is zero past the word. -/
theorem getLsbD_chosen (bits : Int64) (k i : Nat) : (if k < 64 then bit bits k else 0).toBitVec.getLsbD i =
    (decide (i = 0) && bits.toBitVec.getLsbD k) := by
  by_cases hk : k < 64
  · rw [if_pos hk, getLsbD_bit hk]
  · have hzero : (0 : Int64).toBitVec = 0#64 := rfl
    rw [if_neg hk, hzero, BitVec.getLsbD_zero, BitVec.getLsbD_of_ge _ _ (Nat.le_of_not_lt hk), Bool.and_false]

/-- The bit at a position is cleared, and another one is put there. -/
theorem getLsbD_written (acc : Int64) {b : Int64} {x : Bool}
    (hb : ∀ j, b.toBitVec.getLsbD j = (decide (j = 0) && x)) (hp : p < 64) (hi : i < 64) :
    ((acc &&& ~~~(1 <<< Int64.ofNat p)) ||| (b <<< Int64.ofNat p)).toBitVec.getLsbD i =
      if i = p then x else acc.toBitVec.getLsbD i := by
  have hone : (1 : Int64).toBitVec = 1#64 := rfl
  rw [Int64.toBitVec_or, Int64.toBitVec_and, Int64.toBitVec_not, Int64.toBitVec_shiftLeft, Int64.toBitVec_shiftLeft,
    BitVec.shiftLeft_eq', BitVec.shiftLeft_eq', shift_amount hp, hone, BitVec.getLsbD_or, BitVec.getLsbD_and,
    BitVec.getLsbD_not, BitVec.getLsbD_shiftLeft, BitVec.getLsbD_shiftLeft, BitVec.getLsbD_one, hb]
  rcases Nat.lt_trichotomy i p with hlt | rfl | hgt
  · simp [hlt, hi, Nat.ne_of_lt hlt]
  · simp [hi]
  · have hplace : i - p ≠ 0 := by omega
    simp [hplace, hi, Nat.ne_of_gt hgt]

/-- A position that comes later in the list overwrites an earlier one, so it is only known what is read at positions
that come once. -/
theorem scatterFrom_eq_some (bits acc : Int64) (hps : ∀ p ∈ ps, p < 64) : ∃ w, scatterFrom bits k ps acc = some w ∧
    (∀ i < 64, i ∉ ps → w.toBitVec.getLsbD i = acc.toBitVec.getLsbD i) ∧
      (ps.Nodup → ∀ j p, ps[j]? = some p → w.toBitVec.getLsbD p = bits.toBitVec.getLsbD (k + j)) := by
  induction ps generalizing k acc with
  | nil => exact ⟨acc, rfl, fun _ _ _ => rfl, fun _ j p hj => nomatch hj⟩
  | cons q ps ih =>
    obtain ⟨hq, hps⟩ := List.forall_mem_cons.1 hps
    have hfirst (i : Nat) (hi : i < 64) := getLsbD_written acc (getLsbD_chosen bits k) hq hi
    obtain ⟨w, hw, hkept, hread⟩ := ih (k := k + 1)
      ((acc &&& ~~~(1 <<< Int64.ofNat q)) ||| ((if k < 64 then bit bits k else 0) <<< Int64.ofNat q)) hps
    refine ⟨w, ?_, fun i hi hmem => ?_, fun hnodup j p hj => ?_⟩
    · rw [scatterFrom, if_pos hq]
      exact hw
    · obtain ⟨hne, hmem⟩ := not_or.1 (mt List.mem_cons.2 hmem)
      rw [hkept i hi hmem, hfirst i hi, if_neg hne]
    · obtain ⟨hnew, hnodup⟩ := List.nodup_cons.1 hnodup
      cases j with
      | zero =>
        cases hj
        rw [hkept q hq hnew, hfirst q hq, if_pos rfl, Nat.add_zero]
      | succ j =>
        rw [hread hnodup j p hj]
        congr 1
        omega

theorem scatterFrom_eq_none (h : ∃ p ∈ ps, 64 ≤ p) : scatterFrom bits k ps acc = none := by
  induction ps generalizing k acc with
  | nil =>
    obtain ⟨p, hp, -⟩ := h
    cases hp
  | cons q ps ih =>
    rw [scatterFrom]
    by_cases hq : q < 64
    · rw [if_pos hq]
      refine ih ?_
      obtain ⟨p, hmem, hp⟩ := h
      rcases List.mem_cons.1 hmem with rfl | hmem
      · exact absurd hq (Nat.not_lt_of_le hp)
      · exact ⟨p, hmem, hp⟩
    · exact if_neg hq

theorem setBits_eq_some (v bits : Int64) (hps : ∀ p ∈ ps, p < 64) : ∃ w, setBits v ps bits = some w ∧
    (∀ i ∉ ps, w.toBitVec.getLsbD i = v.toBitVec.getLsbD i) ∧
      (ps.Nodup → ∀ j p, ps.reverse[j]? = some p → w.toBitVec.getLsbD p = bits.toBitVec.getLsbD j) := by
  obtain ⟨w, hw, hkept, hread⟩ := scatterFrom_eq_some (k := 0) bits v fun p hp => hps p (List.mem_reverse.1 hp)
  refine ⟨w, hw, fun i hi => ?_, fun hnodup j p hj => ?_⟩
  · by_cases hword : i < 64
    · exact hkept i hword fun hmem => hi (List.mem_reverse.1 hmem)
    · have hpast := Nat.le_of_not_lt hword
      rw [BitVec.getLsbD_of_ge _ _ hpast, BitVec.getLsbD_of_ge _ _ hpast]
  · rw [hread (List.nodup_reverse.2 hnodup) j p hj, Nat.zero_add]

/-- Bits are written wherever all positions are in the word, however many there are. -/
theorem setBits_eq_none_iff : setBits v ps bits = none ↔ ∃ p ∈ ps, 64 ≤ p := by
  constructor
  · intro hnone
    by_contra hword
    obtain ⟨w, hw, -⟩ := setBits_eq_some v bits fun p hp => Nat.lt_of_not_le fun hle => hword ⟨p, hp, hle⟩
    cases hnone.symm.trans hw
  · rintro ⟨p, hmem, hp⟩
    exact scatterFrom_eq_none ⟨p, List.mem_reverse.2 hmem, hp⟩

theorem extractBits_eq_none_iff : extractBits v ps = none ↔ (∃ p ∈ ps, 64 ≤ p) ∨ 64 < ps.length := by
  rw [extractBits_eq]
  split
  · next hword =>
    refine iff_of_false nofun ?_
    rintro (⟨p, hmem, hp⟩ | hlength)
    · exact Nat.not_lt_of_le hp (hword.2 p hmem)
    · exact Nat.not_lt_of_le hword.1 hlength
  · next hword =>
    refine iff_of_true rfl ?_
    by_contra hnone
    obtain ⟨hpositions, hlength⟩ := not_or.1 hnone
    exact hword ⟨Nat.le_of_not_lt hlength, fun p hp => Nat.lt_of_not_le fun hle => hpositions ⟨p, hp, hle⟩⟩

end Writing

section Lenses

theorem eq_of_getLsbD {v w : Int64} (h : ∀ i < 64, v.toBitVec.getLsbD i = w.toBitVec.getLsbD i) : v = w :=
  Int64.toBitVec_inj.1 (BitVec.eq_of_getLsbD_eq h)

theorem length_le_of_nodup (hnodup : ps.Nodup) (hps : ∀ p ∈ ps, p < 64) : ps.length ≤ 64 := by
  have hsub : ps ⊆ List.range 64 := fun p hp => List.mem_range.2 (hps p hp)
  calc ps.length ≤ (List.range 64).length := (hnodup.subperm hsub).length_le
    _ = 64 := List.length_range

theorem exists_reverse_getElem? (h : p ∈ ps) : ∃ j < ps.length, ps.reverse[j]? = some p := by
  obtain ⟨j, hj⟩ := List.mem_iff_getElem?.1 (List.mem_reverse.2 h)
  have hlength := (List.getElem?_eq_some_iff.1 hj).1
  exact ⟨j, by rwa [List.length_reverse] at hlength, hj⟩

/-- What is read where bits have been written is as many of them as there are positions. -/
theorem gathered_of_written {w : Int64}
    (hread : ∀ j p, ps.reverse[j]? = some p → w.toBitVec.getLsbD p = bits.toBitVec.getLsbD j) :
    gathered w ps = ofUnsigned (low ps.length bits) := by
  refine eq_of_getLsbD fun i hi => ?_
  rw [getLsbD_gathered hi, toBitVec_ofUnsigned, low, BitVec.getLsbD_setWidth, BitVec.getLsbD_setWidth]
  cases hp : ps.reverse[i]? with
  | none =>
    have hpast : ¬i < ps.length := by
      rw [List.getElem?_eq_none_iff, List.length_reverse] at hp
      exact Nat.not_lt_of_le hp
    simp [hpast]
  | some p =>
    have hinside : i < ps.length := by
      have hlength := (List.getElem?_eq_some_iff.1 hp).1
      rwa [List.length_reverse] at hlength
    simp [hread i p hp, hi, hinside]

/-- The slices of words are lenses. Positions in the word that are all different can be read and written. What has been
written is read again, cut to as many bits; writing what is read changes nothing; of two writes the second one counts;
and the other bits stay as they are. Any positions can be written that are in the word, and read if they are at
most 64. -/
theorem slices_form_lenses (v bits bits' : Int64) (ps : List Nat) :
    (ps.Nodup → (∀ p ∈ ps, p < 64) →
      ∃ w, setBits v ps bits = some w ∧ extractBits w ps = some (ofUnsigned (low ps.length bits)) ∧
        (∃ old, extractBits v ps = some old ∧ setBits v ps old = some v) ∧
        (setBits w ps bits').isSome ∧ setBits w ps bits' = setBits v ps bits' ∧
        ∀ i ∉ ps, w.toBitVec.getLsbD i = v.toBitVec.getLsbD i) ∧
    (setBits v ps bits = none ↔ ∃ p ∈ ps, 64 ≤ p) ∧
    (extractBits v ps = none ↔ (∃ p ∈ ps, 64 ≤ p) ∨ 64 < ps.length) := by
  refine ⟨fun hnodup hps => ?_, setBits_eq_none_iff, extractBits_eq_none_iff⟩
  have hlength := length_le_of_nodup hnodup hps
  have hextract (x : Int64) : extractBits x ps = some (gathered x ps) := by
    rw [extractBits_eq, if_pos ⟨hlength, hps⟩]
  obtain ⟨w, hw, hkept, hread⟩ := setBits_eq_some v bits hps
  have hback : setBits v ps (gathered v ps) = some v := by
    obtain ⟨x, hx, hkept, hread⟩ := setBits_eq_some v (gathered v ps) hps
    rw [hx]
    refine congrArg some (eq_of_getLsbD fun i hi => ?_)
    by_cases hmem : i ∈ ps
    · obtain ⟨j, hj, hi'⟩ := exists_reverse_getElem? hmem
      rw [hread hnodup j i hi', getLsbD_gathered (Nat.lt_of_lt_of_le hj hlength), hi']
      rfl
    · exact hkept i hmem
  have htwice : setBits w ps bits' = setBits v ps bits' := by
    obtain ⟨x, hx, hxkept, hxread⟩ := setBits_eq_some w bits' hps
    obtain ⟨y, hy, hykept, hyread⟩ := setBits_eq_some v bits' hps
    rw [hx, hy]
    refine congrArg some (eq_of_getLsbD fun i _ => ?_)
    by_cases hmem : i ∈ ps
    · obtain ⟨j, -, hi⟩ := exists_reverse_getElem? hmem
      rw [hxread hnodup j i hi, hyread hnodup j i hi]
    · rw [hxkept i hmem, hykept i hmem, hkept i hmem]
  refine ⟨w, hw, ?_, ⟨gathered v ps, hextract v, hback⟩, ?_, htwice, hkept⟩
  · rw [hextract w, gathered_of_written (hread hnodup)]
  · obtain ⟨x, hx, -⟩ := setBits_eq_some w bits' hps
    rw [hx]
    rfl

/-- Three bits of a word, its sign among them. -/
theorem slices_form_lenses_sign : [63, 0, 5].Nodup ∧ (∀ p ∈ [63, 0, 5], p < 64) ∧
    setBits 33 [63, 0, 5] 28 = some Int64.minValue ∧ extractBits Int64.minValue [63, 0, 5] = some 4 := by
  have hnodup : [63, 0, 5].Nodup := by decide
  have hps : ∀ p ∈ [63, 0, 5], p < 64 := by decide
  obtain ⟨w, hw, hread, -⟩ := (slices_form_lenses 33 28 0 [63, 0, 5]).1 hnodup hps
  have hwritten : setBits 33 [63, 0, 5] 28 = some Int64.minValue := by decide
  obtain rfl : w = Int64.minValue := Option.some.inj (hw.symm.trans hwritten)
  exact ⟨hnodup, hps, hw, hread⟩

end Lenses

end OpenQasm.Word
