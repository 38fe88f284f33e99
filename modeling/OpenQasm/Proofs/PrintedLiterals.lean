import OpenQasm.Grammar.Program
import OpenQasm.Syntax.Print

/-!
Literals in printed programs. The underscores of a bit string are dropped when it is read; the digits that
are left are printed and read again as they are, unless there are none. Durations are printed as other
numbers are, with an exponent if they are very small or very large, but no duration is read that has one.
-/
namespace OpenQasm

namespace Grammar.Nested

variable {text digits : String}

theorem isBit_of_bitDigits? (h : bitDigits? text = some digits) :
    ∀ c ∈ digits.toList, c = '0' ∨ c = '1' := by
  unfold bitDigits? at h
  dsimp only at h
  split at h
  · next hall =>
    cases h
    intro c hc
    rw [String.toList_ofList] at hc
    obtain ⟨hmem, hunderscore⟩ := List.mem_filter.1 hc
    have hbit := List.all_eq_true.1 (Bool.and_eq_true_iff.1 hall).2 c hmem
    simp only [Bool.or_eq_true, decide_eq_true_eq] at hbit hunderscore
    exact hbit.resolve_right hunderscore
  · nomatch h

/-- What is printed for a bit string is one, and the same, if it has digits. -/
theorem bitDigits?_digits (h : bitDigits? text = some digits) :
    bitDigits? digits = if digits.toList = [] then none else some digits := by
  have hbits := isBit_of_bitDigits? h
  have hkept : digits.toList.filter (· ≠ '_') = digits.toList := by
    refine List.filter_eq_self.2 fun c hc => ?_
    rcases hbits c hc with rfl | rfl <;> rfl
  have hall : digits.toList.all (fun c => c = '0' || c = '1' || c = '_') = true := by
    refine List.all_eq_true.2 fun c hc => ?_
    rcases hbits c hc with rfl | rfl <;> rfl
  unfold bitDigits?
  dsimp only
  rw [hkept, hall, String.ofList_toList, Bool.and_true]
  by_cases hnone : digits.toList = []
  · simp [hnone]
  · simp [hnone]

end Grammar.Nested

/-- A bit string of an underscore and a short duration are read without an error. What is printed for them
is not. -/
theorem literals_misprinted :
    let p := Program.parse "bit b = \"_\";\n"
    let q := Program.parse "duration d = 0.00001s;\n"
    (p.2 = [] ∧ p.1.text = "bit b = \"\";\n" ∧ (Program.parse p.1.text).2.length = 1) ∧
      q.2 = [] ∧ q.1.text = "duration d = 1e-5s;\n" ∧ (Program.parse q.1.text).2.length = 1 := by
  decide +kernel

end OpenQasm
