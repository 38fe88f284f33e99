import OpenQasm.Analysis.Program
import OpenQasm.Proofs.Evaluation
import OpenQasm.Proofs.SourceCharacters

/-!
An element of a register that lies past the end of a word is not known, even when the number that the
register holds is. Its expression in the flat program indexes the literal of the number, and a literal has
the width of an integer and not that of the register. So the source of the flat program is rejected.
-/
namespace OpenQasm

namespace Word

theorem extractBits_past (v : Int64) {p : Nat} (hp : 64 ≤ p) : extractBits v [p] = none :=
  if_neg fun h => absurd h.1 (Nat.not_lt.2 hp)

theorem toInt_toInt64 {m : UInt64} (hm : m.toNat < Bound.integer) : m.toInt64.toInt = m.toNat := by
  have hint := BitVec.toInt_eq_toNat_cond m.toInt64.toBitVec
  have hbits : m.toInt64.toBitVec.toNat = m.toNat := rfl
  have hhalf : 2 * m.toNat < 2 ^ 64 := by
    unfold Bound.integer at hm
    omega
  rw [hbits, if_pos hhalf] at hint
  exact hint

theorem magnitude_toNat (n : Int64) : (magnitude n).toNat = n.toInt.natAbs := by
  have hmod : n.toInt.natAbs % 2 ^ 64 = n.toInt.natAbs := by
    have hle := n.le_toInt
    have hlt := n.toInt_lt
    omega
  exact UInt64.toNat_ofNat'.trans hmod

theorem magnitude_lt {n : Int64} (hn : n ≠ Int64.minValue) : (magnitude n).toNat < Bound.integer := by
  have hle := n.le_toInt
  have hlt := n.toInt_lt
  have hne : n.toInt ≠ -2 ^ 63 := fun h => hn (Int64.toInt_inj.1 h)
  rw [magnitude_toNat]
  unfold Bound.integer
  omega

end Word

namespace Index

theorem normalize_within {p length : Nat} (hp : p < length) : normalize p length = .ok p := by
  have hpositive : ¬(p : Int) < 0 := by omega
  simp [normalize, hpositive, hp]

theorem normalize_past {p length : Nat} (hp : length ≤ p) :
    normalize p length = .error (.outOfRange p length) := by
  have hpositive : ¬(p : Int) < 0 := by omega
  have hpast : ¬p < length := by omega
  simp [normalize, hpositive, hpast]

end Index

namespace Analysis

variable {calls : Calls} {config : Config} {s : State}

theorem run_resolve {name : String} {x : Symbol} (hx : s.scopes.resolve? name = some x) :
    resolve name config s = (.ok x, s) := by
  have hget : resolve? name config s = (.ok (some x), s) := by rw [← hx]; rfl
  rw [resolve, run_bind, hget]
  rfl

section Literals

/-- Literals of integers have the default width. -/
theorem infer_intExpr (n : Int64) :
    infer calls (Value.intExpr n) config s = (.ok .defaultInt, s) := by
  unfold Value.intExpr
  split
  · rw [infer, run_bind, infer, run_pure]
    rfl
  · rw [infer]
    rfl

/-- An integer is read again as itself, but for the least one. -/
theorem fold_intExpr {n : Int64} (hn : n ≠ Int64.minValue) :
    fold calls (Value.intExpr n) config s = (.ok (some (.int n)), s) := by
  have hsmall := Word.magnitude_lt hn
  have hvalue := Word.toInt_toInt64 hsmall
  rw [Word.magnitude_toNat] at hvalue
  unfold Value.intExpr
  -- The literal of a negative number is read as the negation of its magnitude.
  split
  · next hnegative =>
    have hn : -(Word.magnitude n).toInt64 = n := by
      rw [Int64.lt_iff_toInt_lt, Int64.toInt_zero] at hnegative
      have habs : -(n.toInt.natAbs : Int) = n.toInt := by omega
      rw [← Int64.toInt_inj, Int64.toInt_neg, hvalue, habs]
      exact n.toInt_bmod
    rw [fold, run_bind, fold, if_pos hsmall, run_pure]
    exact congrArg (fun m => (Except.ok (some (Value.int m)), s)) hn
  · next hpositive =>
    have hn : (Word.magnitude n).toInt64 = n := by
      rw [Int64.lt_iff_toInt_lt, Int64.toInt_zero] at hpositive
      rw [← Int64.toInt_inj, hvalue]
      omega
    rw [fold, if_pos hsmall, hn]
    rfl

/-- The least integer has no literal. -/
theorem fold_intExpr_least :
    fold calls (Value.intExpr Int64.minValue) config s =
      (.error (.statement ⟨.integerTooLarge Bound.integer, s.span⟩), s) := by
  rw [Value.intExpr, if_pos (by decide), fold, run_bind, fold, if_neg (by decide), run_fail]
  rfl

/-- A position is read again as itself. -/
theorem fold_positionExpr (calls : Calls) (config : Config) (s : State) {p : Nat}
    (hp : p < Bound.integer) :
    ∃ i : Int64, i.toInt = p ∧
      fold calls (positionExpr p) config s = (.ok (some (.int i)), s) := by
  have hmod : p % 2 ^ 64 = p := Nat.mod_eq_of_lt (Nat.lt_trans hp (by decide))
  have hnat : p.toUInt64.toNat = p := UInt64.toNat_ofNat'.trans hmod
  have hsmall : p.toUInt64.toNat < Bound.integer := by rw [hnat]; exact hp
  refine ⟨p.toUInt64.toInt64, ?_, ?_⟩
  · rw [Word.toInt_toInt64 hsmall, hnat]
  · rw [positionExpr, fold, if_pos hsmall]
    rfl

theorem itemPositions_single (length : Nat) {e : Expr} {i : Int64} {p : Nat}
    (he : fold calls e config s = (.ok (some (.int i)), s)) (hi : i.toInt = p) :
    itemPositions calls length (.single e) config s =
      match Index.normalize p length with
      | .ok p => (.ok [p], s)
      | .error fault => (.error (.statement ⟨.index fault, s.span⟩), s) := by
  rw [itemPositions, run_bind, he]
  simp only [indexValue, pure_bind, hi]
  cases Index.normalize p length with
  | ok p => rfl
  | error fault => rfl

/-- No literal of an integer has an element past its default width. -/
theorem fold_literal_index_past (calls : Calls) (config : Config) (s : State) (n : Int64) {p : Nat}
    (hpast : ClassicalType.defaultIntWidth ≤ p) (hp : p < Bound.integer) :
    ∃ d, fold calls (.index (Value.intExpr n) [.single (positionExpr p)]) config s =
      (.error (.statement d), s) := by
  rw [fold, run_bind, infer_intExpr]
  dsimp only
  rw [run_bind]
  by_cases hn : n = Int64.minValue
  · rw [hn, fold_intExpr_least]
    exact ⟨_, rfl⟩
  · obtain ⟨i, hi, hfold⟩ := fold_positionExpr calls config s hp
    rw [fold_intExpr hn]
    dsimp only
    have hposition := itemPositions_single ClassicalType.defaultIntWidth hfold hi
    rw [Index.normalize_past hpast] at hposition
    simp only [foldItems, ClassicalType.defaultInt, ClassicalType.width?, run_bind, hposition]
    exact ⟨_, rfl⟩

end Literals

section Register

variable {name : String} {x : Symbol} {n i : Int64} {v : View} {width p : Nat} {e : Expr}

theorem fold_register (hx : s.scopes.resolve? name = some x) (hkind : x.kind = .classicalRegister)
    (hbinding : x.binding = .clbits v) :
    fold calls (.name name) config s = (.ok x.value, s) := by
  rw [fold, nameValue, run_bind, run_resolve hx]
  simp only [hbinding, hkind, run_pure]

theorem infer_register (hx : s.scopes.resolve? name = some x) (hbinding : x.binding = .clbits v)
    (htype : x.type = some (.sized .bit width)) :
    infer calls (.name name) config s = (.ok (.sized .bit width), s) := by
  rw [infer, nameType, run_bind, run_resolve hx]
  simp only [hbinding, htype, run_pure]

/-- An element of a register is not known when it lies past the end of a word. -/
theorem fold_register_index_past (hx : s.scopes.resolve? name = some x)
    (hkind : x.kind = .classicalRegister) (hbinding : x.binding = .clbits v)
    (htype : x.type = some (.sized .bit width)) (hvalue : x.value = some (.int n))
    (hposition : itemPositions calls width (.single e) config s = (.ok [p], s)) (hpast : 64 ≤ p) :
    fold calls (.index (.name name) [.single e]) config s = (.ok none, s) := by
  rw [fold, run_bind, infer_register hx hbinding htype]
  dsimp only
  rw [run_bind, fold_register hx hkind hbinding, hvalue]
  simp only [foldItems, ClassicalType.width?, run_bind, hposition, isSingle, ClassicalType.isArray,
    select, Word.extractBits_past n hpast, selectedType?, ClassicalType.indexed?, if_true]
  rfl

/-- The element is rewritten to one of the number that the register holds. -/
theorem residualize_index_past (hx : s.scopes.resolve? name = some x)
    (hkind : x.kind = .classicalRegister) (hbinding : x.binding = .clbits v)
    (htype : x.type = some (.sized .bit width)) (hvalue : x.value = some (.int n))
    (hposition : itemPositions calls width (.single e) config s = (.ok [p], s)) (hpast : 64 ≤ p) :
    residualize calls (.index (.name name) [.single e]) config s =
      (.ok (.index (Value.intExpr n) [.single (positionExpr p)]), s) := by
  have hpure : callsSubroutine s.scopes (.name name) = false := rfl
  have hunknown : foldLiteral? calls (.index (.name name) [.single e]) config s = (.ok none, s) := by
    rw [foldLiteral?, run_get, callsSubroutine, hpure, if_neg Bool.false_ne_true, run_bind,
      fold_register_index_past hx hkind hbinding htype hvalue hposition hpast]
    rfl
  have hknown : foldLiteral? calls (.name name) config s = (.ok (some (Value.intExpr n)), s) := by
    rw [foldLiteral?, run_get, hpure, if_neg Bool.false_ne_true, run_bind,
      fold_register hx hkind hbinding, hvalue]
    rfl
  rw [residualize, run_bind, hunknown]
  dsimp only
  rw [run_bind, infer_register hx hbinding htype]
  simp only [ClassicalType.width?, Option.getD_some, literalItems, run_bind, hposition, run_pure,
    residualize, hknown]
  rfl

/-- The rewritten element is one that no state of an analysis has a value for. -/
theorem residual_index_past_rejected (hx : s.scopes.resolve? name = some x)
    (hkind : x.kind = .classicalRegister) (hbinding : x.binding = .clbits v)
    (htype : x.type = some (.sized .bit width)) (hvalue : x.value = some (.int n))
    (he : fold calls e config s = (.ok (some (.int i)), s)) (hi : i.toInt = p) (hpast : 64 ≤ p)
    (hp : p < width) (calls' : Calls) (config' : Config) (t : State) :
    ∃ r d, residualize calls (.index (.name name) [.single e]) config s = (.ok r, s) ∧
      fold calls' r config' t = (.error (.statement d), t) := by
  have hposition : itemPositions calls width (.single e) config s = (.ok [p], s) := by
    rw [itemPositions_single width he hi, Index.normalize_within hp]
  have hsmall : p < Bound.integer := by
    have hlt := i.toInt_lt
    unfold Bound.integer
    omega
  obtain ⟨d, hd⟩ := fold_literal_index_past calls' config' t n (Nat.le_trans (by decide) hpast) hsmall
  exact ⟨_, d, residualize_index_past hx hkind hbinding htype hvalue hposition hpast, hd⟩

end Register

/-- Nothing is wrong with a source that asks for such an element, but the source of its flat program is
rejected. -/
theorem reanalysis_reports_index :
    let source := "bit[100] b = 5;\nif (b[70] == 1) { b = 0; }\n"
    (ofSource .default source).diagnostics.length = 0 ∧
      (ofSource .default (ofSource .default source).source).diagnostics.map Diagnostic.kind =
        [.outOfRangeIndex] := by
  intro source
  have hwritten : (ofSource .default source).source =
      "OPENQASM 3.0;\ninclude \"stdgates.inc\";\nbit[100] b;\nb = 5;\nif (5[70] == 1) \x7b\n    b = 0;\n\x7d\n" := by
    rw [ofSource_ofList]
    decide +kernel
  rw [hwritten, ofSource_ofList, ofSource_ofList]
  decide +kernel

end Analysis
end OpenQasm
