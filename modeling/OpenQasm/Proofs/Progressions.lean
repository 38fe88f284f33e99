import OpenQasm.Proofs.Selections

/-!
The values of a range. The indices of a sequence are passed in turn, each one a step behind the one before,
until the end of the range has been passed; the rounds of a loop are counted first, by one division, and listed
afterwards. Both give the arithmetic progression from the start of the range as far as its end.
-/
namespace OpenQasm

open Analysis

namespace Index

variable {start step stop i : Int} {n k : Nat} {is js : List Int}

/-- A range that goes in steps of `step` has not passed its end at `i`. -/
def Reaches (step stop i : Int) : Prop := (0 < step ∧ i ≤ stop) ∨ (step < 0 ∧ stop ≤ i)

instance (step stop i : Int) : Decidable (Reaches step stop i) := inferInstanceAs (Decidable (_ ∨ _))

/-- The indices that are passed in turn from `i`, until the end of the range has been passed. -/
inductive Walks (step stop : Int) : Int → List Int → Prop
  | done {i : Int} : ¬Reaches step stop i → Walks step stop i []
  | next {i : Int} {is : List Int} : Reaches step stop i → Walks step stop (i + step) is → Walks step stop i (i :: is)

/-- The values `start`, `start + step`, … that lie between `start` and `stop`, in order. -/
structure Enumerates (start step stop : Int) (is : List Int) : Prop where
  walks : Walks step stop start is
  exact : ∀ k : Nat, is[k]? = if Reaches step stop (start + k * step) then some (start + k * step) else none
  between : ∀ i ∈ is, min start stop ≤ i ∧ i ≤ max start stop
  ascends : 0 < step → is.Pairwise (· < ·)
  descends : step < 0 → is.Pairwise (· > ·)
  nothing : (0 < step ∧ stop < start) ∨ (step < 0 ∧ start < stop) → is = []

theorem lt_progressionLength_iff (start step stop : Int) (k : Nat) :
    k < progressionLength start step stop ↔ Reaches step stop (start + k * step) := by
  unfold progressionLength Reaches
  rcases Int.lt_trichotomy step 0 with hdown | hzero | hup
  · rw [if_neg (Int.lt_asymm hdown), if_pos hdown]
    have hmul : (k : Int) ≤ (start - stop) / -step ↔ (k : Int) * -step ≤ start - stop :=
      Int.le_ediv_iff_mul_le (by omega)
    rw [Int.mul_neg] at hmul
    split
    · have hnonneg : 0 ≤ (start - stop) / -step := Int.ediv_nonneg (by omega) (by omega)
      omega
    · have hsign : 0 ≤ (k : Int) * -step := Int.mul_nonneg (Int.natCast_nonneg k) (by omega)
      rw [Int.mul_neg] at hsign
      omega
  · rw [if_neg (by omega), if_neg (by omega)]
    omega
  · rw [if_pos hup]
    have hmul : (k : Int) ≤ (stop - start) / step ↔ (k : Int) * step ≤ stop - start := Int.le_ediv_iff_mul_le hup
    split
    · have hnonneg : 0 ≤ (stop - start) / step := Int.ediv_nonneg (by omega) (by omega)
      omega
    · have hsign : 0 ≤ (k : Int) * step := Int.mul_nonneg (Int.natCast_nonneg k) (by omega)
      omega

theorem length_progression (start step stop : Int) :
    (progression start step stop).length = progressionLength start step stop := by
  rw [progression, List.length_map, List.length_range]

theorem getElem?_progression (start step stop : Int) (k : Nat) :
    (progression start step stop)[k]? =
      if Reaches step stop (start + k * step) then some (start + k * step) else none := by
  rw [progression, List.getElem?_map]
  by_cases hk : k < progressionLength start step stop
  · rw [List.getElem?_range hk, if_pos ((lt_progressionLength_iff start step stop k).1 hk)]
    rfl
  · rw [List.getElem?_eq_none (by rw [List.length_range]; omega),
      if_neg fun h => hk ((lt_progressionLength_iff start step stop k).2 h)]
    rfl

theorem progression_done (h : ¬Reaches step stop start) : progression start step stop = [] := by
  have hlength : ¬0 < progressionLength start step stop := by
    rw [lt_progressionLength_iff]
    simpa using h
  rw [progression, Nat.eq_zero_of_not_pos hlength]
  rfl

theorem progression_next (h : Reaches step stop start) :
    progression start step stop = start :: progression (start + step) step stop := by
  apply List.ext_getElem?
  intro k
  cases k with
  | zero =>
    rw [getElem?_progression, List.getElem?_cons_zero, Int.natCast_zero, Int.zero_mul, Int.add_zero, if_pos h]
  | succ k =>
    have hnext : start + (k + 1 : Nat) * step = start + step + k * step := by
      rw [Int.natCast_succ, Int.add_mul, Int.one_mul]
      omega
    rw [getElem?_progression, List.getElem?_cons_succ, getElem?_progression, hnext]

/-- The indices that are passed in turn are those of the progression, which is listed at once. -/
theorem walks_iff : Walks step stop i is ↔ is = progression i step stop := by
  constructor
  · intro h
    induction h with
    | done h => exact (progression_done h).symm
    | next h _ ih => rw [progression_next h, ← ih]
  · rintro rfl
    -- The induction is on the number of indices that are left.
    generalize hn : (progression i step stop).length = n
    induction n generalizing i with
    | zero =>
      by_cases h : Reaches step stop i
      · rw [progression_next h] at hn
        nomatch hn
      · rw [progression_done h]
        exact .done h
    | succ n ih =>
      by_cases h : Reaches step stop i
      · rw [progression_next h] at hn ⊢
        exact .next h (ih (Nat.succ.inj hn))
      · rw [progression_done h] at hn
        nomatch hn

theorem pairwise_progression {r : Int → Int → Prop} (h : ∀ j k : Nat, j < k → r (start + j * step) (start + k * step)) :
    (progression start step stop).Pairwise r := by
  rw [progression, List.pairwise_map]
  exact List.pairwise_lt_range.imp fun hlt => h _ _ hlt

theorem progression_enumerates (hstep : step ≠ 0) : Enumerates start step stop (progression start step stop) where
  walks := walks_iff.2 rfl
  exact := getElem?_progression start step stop
  between i hi := progression_between hstep hi
  ascends hup := pairwise_progression fun j k hlt => by
    have hmul : (j : Int) * step < k * step := Int.mul_lt_mul_of_pos_right (by omega) hup
    omega
  descends hdown := pairwise_progression fun j k hlt => by
    have hmul : (k : Int) * step < j * step := Int.mul_lt_mul_of_neg_right (by omega) hdown
    omega
  nothing hwrong := progression_done fun h => by
    unfold Reaches at h
    omega

theorem Enumerates.eq_progression (h : Enumerates start step stop is) : is = progression start step stop :=
  walks_iff.1 h.walks

/-- An index as it is counted from the front. -/
def counted (n : Nat) (i : Int) : Int := if i < 0 then i + n else i

/-- An index is one of a sequence of `n` elements. -/
def Lands (n : Nat) (i : Int) : Prop := 0 ≤ counted n i ∧ counted n i < n

instance (n : Nat) (i : Int) : Decidable (Lands n i) := inferInstanceAs (Decidable (_ ∧ _))

theorem normalize_lands (h : Lands n i) : normalize i n = .ok (counted n i).toNat := if_pos h

theorem normalize_outside (h : ¬Lands n i) : normalize i n = .error (.outOfRange i n) := if_neg h

variable {a d b : Option Int}

theorem rangePositions_ends (hstep : d.getD 1 ≠ 0) :
    rangePositions a d b n = (do
      let first ← normalize (Choice.first a (d.getD 1) n) n
      let final ← normalize (Choice.final (d.getD 1) b n) n
      return (progression first (d.getD 1) final).map Int.toNat) := if_neg hstep

/-- The positions of a range whose ends lie in the sequence. -/
theorem rangePositions_inside (hstep : d.getD 1 ≠ 0) (hfirst : Lands n (Choice.first a (d.getD 1) n))
    (hfinal : Lands n (Choice.final (d.getD 1) b n)) :
    ∃ ps, rangePositions a d b n = .ok ps ∧ (∀ p ∈ ps, p < n) ∧
      Enumerates (counted n (Choice.first a (d.getD 1) n)) (d.getD 1) (counted n (Choice.final (d.getD 1) b n))
        (ps.map Int.ofNat) := by
  set first := counted n (Choice.first a (d.getD 1) n)
  set final := counted n (Choice.final (d.getD 1) b n)
  have hrun : rangePositions a d b n = .ok ((progression first (d.getD 1) final).map Int.toNat) := by
    rw [rangePositions_ends hstep, normalize_lands hfirst, normalize_lands hfinal]
    show Except.ok ((progression first.toNat (d.getD 1) final.toNat).map Int.toNat) = _
    rw [Int.toNat_of_nonneg hfirst.1, Int.toNat_of_nonneg hfinal.1]
  -- Both ends are positions, so that nothing between them is cut off at zero.
  have hback : ((progression first (d.getD 1) final).map Int.toNat).map Int.ofNat = progression first (d.getD 1) final := by
    rw [List.map_map]
    refine (List.map_congr_left fun i hi => ?_).trans (List.map_id _)
    have hbetween := progression_between hstep hi
    have hlow : 0 ≤ first := hfirst.1
    have hlow' : 0 ≤ final := hfinal.1
    exact Int.toNat_of_nonneg (by omega)
  refine ⟨_, hrun, rangePositions_lt hrun, ?_⟩
  rw [hback]
  exact progression_enumerates hstep

/-- A range is refused for an end that lies outside of the sequence, and for nothing else. -/
theorem rangePositions_error_iff (hstep : d.getD 1 ≠ 0) :
    (∃ e, rangePositions a d b n = .error e) ↔
      ¬Lands n (Choice.first a (d.getD 1) n) ∨ ¬Lands n (Choice.final (d.getD 1) b n) := by
  constructor
  · rintro ⟨e, he⟩
    by_contra hinside
    rw [not_or, not_not, not_not] at hinside
    obtain ⟨ps, hrun, -⟩ := rangePositions_inside hstep hinside.1 hinside.2
    rw [hrun] at he
    nomatch he
  · intro houtside
    rw [rangePositions_ends hstep]
    by_cases hfirst : Lands n (Choice.first a (d.getD 1) n)
    · rw [normalize_lands hfirst, normalize_outside (houtside.resolve_left (not_not_intro hfirst))]
      exact ⟨_, rfl⟩
    · rw [normalize_outside hfirst]
      exact ⟨_, rfl⟩

end Index

namespace Analysis

section Rounds

variable {calls : Calls} {config : Config} {s t u : State}

/-- The ends and the step of a range are known, evaluated one after another; a step that is left out is one. -/
inductive KnownRange (calls : Calls) (config : Config) (s t : State) : RangeExpr → Int64 → Int64 → Int64 → Prop
  | unit {start stop : Expr} {a b : Int64} {u : State} :
    fold calls start config s = (.ok (some (.int a)), u) →
    fold calls stop config u = (.ok (some (.int b)), t) → KnownRange calls config s t ⟨some start, none, some stop⟩ a 1 b
  | stepped {start step stop : Expr} {a d b : Int64} {u v : State} :
    fold calls start config s = (.ok (some (.int a)), u) →
    fold calls stop config u = (.ok (some (.int b)), v) →
    fold calls step config v = (.ok (some (.int d)), t) →
    KnownRange calls config s t ⟨some start, some step, some stop⟩ a d b

theorem loopBound_known {e : Expr} {a : Int64} (h : fold calls e config s = (.ok (some (.int a)), t)) :
    loopBound calls e config s = (.ok a.toInt, t) := by
  rw [loopBound, run_bind, h]
  rfl

/-- Between two words lie words only. -/
theorem toInt_ofInt_between {a b : Int64} {i : Int} (h : min a.toInt b.toInt ≤ i ∧ i ≤ max a.toInt b.toInt) :
    (Int64.ofInt i).toInt = i := by
  have ha := a.le_toInt
  have hb := b.le_toInt
  have ha' := a.toInt_lt
  have hb' := b.toInt_lt
  exact Int64.toInt_ofInt_of_le (by omega) (by omega)

/-- The values of a loop over a range that is known and has no more of them than are allowed. -/
theorem rangeValues_known {r : RangeExpr} {a d b : Int64} (h : KnownRange calls config s t r a d b)
    (hstep : d.toInt ≠ 0)
    (hlimit : (Index.progression a.toInt d.toInt b.toInt).length ≤ config.maxLoopIterations) :
    rangeValues calls r config s =
      (.ok ((Index.progression a.toInt d.toInt b.toInt).map fun i => .int (Int64.ofInt i)), t) := by
  have hcount : ¬roundCount a.toInt d.toInt b.toInt > config.maxLoopIterations := by
    rw [roundCount, ← Index.length_progression]
    omega
  -- What follows after the three bounds.
  have hrest : (if d.toInt = 0 then failConstruct .zeroLoopStep
      else do
        let limit := (← read).maxLoopIterations
        if roundCount a.toInt d.toInt b.toInt > limit then
          failConstruct (.loopLimit (roundCount a.toInt d.toInt b.toInt) limit)
        else return (Index.progression a.toInt d.toInt b.toInt).map fun i => .int (Int64.ofInt i) :
        Analysis (List Value)) config t =
      (.ok ((Index.progression a.toInt d.toInt b.toInt).map fun i => .int (Int64.ofInt i)), t) := by
    rw [if_neg hstep, run_read, if_neg hcount]
    rfl
  cases h with
  | unit hstart hstop =>
    rw [rangeValues]
    dsimp only
    rw [run_bind, loopBound_known hstart]
    dsimp only
    rw [run_bind, loopBound_known hstop]
    exact hrest
  | stepped hstart hstop hd =>
    rw [rangeValues]
    dsimp only
    rw [run_bind, loopBound_known hstart]
    dsimp only
    rw [run_bind, loopBound_known hstop]
    dsimp only
    rw [run_bind, loopBound_known hd]
    exact hrest

/-- The values of a loop over a known range are those of the progression; none gets lost as a word. -/
theorem rangeValues_enumerates {r : RangeExpr} {a d b : Int64} {is : List Int}
    (h : KnownRange calls config s t r a d b) (hstep : d ≠ 0)
    (his : Index.Enumerates a.toInt d.toInt b.toInt is) (hlimit : is.length ≤ config.maxLoopIterations) :
    ∃ ns : List Int64, rangeValues calls r config s = (.ok (ns.map .int), t) ∧ ns.map Int64.toInt = is := by
  have hne : d.toInt ≠ 0 := fun hzero => hstep (Int64.toInt_inj.1 hzero)
  cases his.eq_progression
  refine ⟨(Index.progression a.toInt d.toInt b.toInt).map Int64.ofInt, ?_, ?_⟩
  · rw [rangeValues_known h hne hlimit, List.map_map]
    rfl
  · rw [List.map_map]
    refine (List.map_congr_left fun i hi => ?_).trans (List.map_id _)
    exact toInt_ofInt_between (his.between i hi)

/-- The positions that a range selects and the rounds of a loop are one and the same progression. A range of
positions is refused exactly where one of its ends, or the end that stands for a missing one, lies outside of
the sequence, and the values of a loop over words are all there; on ends that lie in the sequence and are not
counted from behind, both list the same numbers. -/
theorem ranges_enumerate_progressions :
    (∀ (a d b : Option Int) (n : Nat), d ≠ some 0 →
      let first := Choice.first a (d.getD 1) n
      let final := Choice.final (d.getD 1) b n
      ((∃ e, Index.rangePositions a d b n = .error e) ↔ ¬Index.Lands n first ∨ ¬Index.Lands n final) ∧
      (Index.Lands n first → Index.Lands n final →
        ∃ ps, Index.rangePositions a d b n = .ok ps ∧ (∀ p ∈ ps, p < n) ∧
          Index.Enumerates (Index.counted n first) (d.getD 1) (Index.counted n final) (ps.map Int.ofNat))) ∧
    (∀ (calls : Calls) (config : Config) (s t : State) (r : RangeExpr) (a d b : Int64),
      KnownRange calls config s t r a d b → d ≠ 0 →
      ∃ is, Index.Enumerates a.toInt d.toInt b.toInt is ∧
        (is.length ≤ config.maxLoopIterations →
          ∃ ns : List Int64, rangeValues calls r config s = (.ok (ns.map .int), t) ∧ ns.map Int64.toInt = is)) ∧
    (∀ (calls : Calls) (config : Config) (s t : State) (r : RangeExpr) (a d b : Int64) (n : Nat),
      KnownRange calls config s t r a d b → d ≠ 0 →
      (0 ≤ a.toInt ∧ a.toInt < n) → (0 ≤ b.toInt ∧ b.toInt < n) →
      ∃ ps, Index.rangePositions (some a.toInt) (some d.toInt) (some b.toInt) n = .ok ps ∧
        (ps.length ≤ config.maxLoopIterations →
          ∃ ns : List Int64, rangeValues calls r config s = (.ok (ns.map .int), t) ∧
            ns.map Int64.toInt = ps.map Int.ofNat)) := by
  have hword {d : Int64} (hd : d ≠ 0) : d.toInt ≠ 0 := fun hzero => hd (Int64.toInt_inj.1 hzero)
  refine ⟨fun a d b n hd => ?_, fun calls config s t r a d b hknown hd => ?_,
    fun calls config s t r a d b n hknown hd ha hb => ?_⟩
  · have hstep : d.getD 1 ≠ 0 := by
      cases d with
      | none => exact one_ne_zero
      | some d => exact fun hzero => hd (congrArg some hzero)
    exact ⟨Index.rangePositions_error_iff hstep, Index.rangePositions_inside hstep⟩
  · have his : Index.Enumerates a.toInt d.toInt b.toInt _ := Index.progression_enumerates (hword hd)
    exact ⟨_, his, rangeValues_enumerates hknown hd his⟩
  · have hcounted {i : Int} (hi : 0 ≤ i) : Index.counted n i = i := if_neg (Int.not_lt.2 hi)
    have hlands {i : Int} (hi : 0 ≤ i ∧ i < n) : Index.Lands n i := by
      rw [Index.Lands, hcounted hi.1]
      exact hi
    obtain ⟨ps, hps, -, his⟩ := Index.rangePositions_inside (a := some a.toInt) (d := some d.toInt)
      (b := some b.toInt) (hword hd) (hlands ha) (hlands hb)
    have hsame : Index.Enumerates a.toInt d.toInt b.toInt (ps.map Int.ofNat) := by
      have hboth := his
      rw [show Choice.first (some a.toInt) _ n = a.toInt from rfl,
        show Choice.final _ (some b.toInt) n = b.toInt from rfl, hcounted ha.1, hcounted hb.1] at hboth
      exact hboth
    refine ⟨ps, hps, fun hlimit => ?_⟩
    exact rangeValues_enumerates hknown hd hsame (by rwa [List.length_map])

/-- The range from five down to zero in steps of two, over six positions and as the rounds of a loop. -/
theorem odd_positions_descending :
    Index.rangePositions (some 5) (some (-2)) (some 0) 6 = .ok [5, 3, 1] ∧
    rangeValues (.nested 0) ⟨some (.int 5), some (.unary .neg (.int 2)), some (.int 0)⟩ .default .initial =
      (.ok [.int 5, .int 3, .int 1], .initial) := by
  obtain ⟨-, -, hagree⟩ := ranges_enumerate_progressions
  have hknown : KnownRange (.nested 0) .default .initial .initial
      ⟨some (.int 5), some (.unary .neg (.int 2)), some (.int 0)⟩ 5 (-2) 0 := .stepped rfl rfl rfl
  obtain ⟨ps, hps, hsame⟩ := hagree (.nested 0) .default .initial .initial _ 5 (-2) 0 6 hknown (by decide)
    (by decide) (by decide)
  have hps' : ps = [5, 3, 1] := by
    have hlisted : Index.rangePositions (some 5) (some (-2)) (some 0) 6 = .ok [5, 3, 1] := by decide
    exact Except.ok.inj (hps.symm.trans hlisted)
  obtain ⟨ns, hns, htoInt⟩ := hsame (by rw [hps']; decide)
  have hns' : ns = [5, 3, 1] := by
    apply (List.map_inj_right fun _ _ => Int64.toInt_inj.1).1
    rw [htoInt, hps']
    decide
  rw [← hps', hns, hns']
  exact ⟨hps, rfl⟩

end Rounds

end Analysis

end OpenQasm
