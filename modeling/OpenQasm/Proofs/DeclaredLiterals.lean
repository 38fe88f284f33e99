import OpenQasm.Proofs.ControlFlow
import OpenQasm.Proofs.FailedDeclarations
import OpenQasm.Proofs.Inhabitants

/-!
Integers that are declared with a literal as their value. The literal is checked against the range of the
declared width before it is evaluated, and it is kept as it is where both are passed. Evaluation has a range of
its own: without its sign, a literal has to be a signed number of 64 bits.
-/
namespace OpenQasm

open Analysis

/-- An integer literal in any number of parentheses: whether it has a sign, and its size. -/
inductive IntegerLiteral : Bool → UInt64 → Expr → Prop
  | digits (m : UInt64) : IntegerLiteral false m (.int m)
  | negated {m : UInt64} {e : Expr} : IntegerLiteral false m e → IntegerLiteral true m (.unary .neg e)
  | paren {negative : Bool} {m : UInt64} {e : Expr} :
    IntegerLiteral negative m e → IntegerLiteral negative m (.paren e)

namespace IntegerLiteral

/-- The number that a literal denotes. -/
def value (negative : Bool) (m : UInt64) : Int := if negative then -m.toNat else m.toNat

/-- The word of a literal. -/
def word (negative : Bool) (m : UInt64) : Int64 := if negative then -m.toInt64 else m.toInt64

variable {negative : Bool} {m : UInt64} {e : Expr} {calls : Calls} {config : Config} {s : State}

theorem toInt_word (negative : Bool) (hm : m.toNat < Bound.integer) : (word negative m).toInt = value negative m := by
  have hword := Word.toInt_toInt64 hm
  unfold Bound.integer at hm
  cases negative with
  | false => exact hword
  | true =>
    show (-m.toInt64).toInt = -(m.toNat : Int)
    rw [Int64.toInt_neg, hword]
    exact Int.bmod_eq_of_le (by omega) (by omega)

theorem unparen (h : IntegerLiteral negative m e) : IntegerLiteral negative m e.unparen := by
  induction h with
  | digits m => exact .digits m
  | negated h => exact .negated h
  | paren _ ih => exact ih

theorem unparen_digits (h : IntegerLiteral false m e) : e.unparen = .int m := by
  generalize hnegative : false = negative at h
  induction h with
  | digits m => rfl
  | negated => cases hnegative
  | paren _ ih => exact ih hnegative

theorem integerLiteral?_eq (h : IntegerLiteral negative m e) :
    ClassicalType.integerLiteral? e = some (negative, m) := by
  induction h with
  | digits m => rfl
  | negated h =>
    unfold ClassicalType.integerLiteral?
    rw [Expr.unparen]
    · dsimp only
      rw [h.unparen_digits]
    · exact nofun
  | paren _ ih => exact ih

theorem infer_eq (h : IntegerLiteral negative m e) : infer calls e config s = (.ok .defaultInt, s) := by
  induction h with
  | digits m => rw [infer]; rfl
  | negated _ ih =>
    rw [infer, run_bind, ih]
    rfl
  | paren _ ih => rwa [infer]

/-- A literal is evaluated before its sign is taken into account. -/
theorem fold_eq (h : IntegerLiteral negative m e) : fold calls e config s =
    if m.toNat < Bound.integer then (.ok (some (.int (word negative m))), s)
    else (.error (.statement ⟨.integerTooLarge m.toNat, s.span⟩), s) := by
  induction h with
  | digits m =>
    rw [fold]
    split <;> rfl
  | @negated m _ _ ih =>
    rw [fold, run_bind, ih]
    by_cases hm : m.toNat < Bound.integer
    · rw [if_pos hm, if_pos hm]
      rfl
    · rw [if_neg hm, if_neg hm]
  | paren _ ih => rwa [fold]

/-- A literal is no measurement and no call. -/
theorem rightValue_eq (h : IntegerLiteral negative m e) : rightValue calls e config s =
    if m.toNat < Bound.integer then (.ok (.known (.int (word negative m))), s)
    else (.error (.statement ⟨.integerTooLarge m.toNat, s.span⟩), s) := by
  have hplain : rightValue calls e = plainValue calls e.unparen := by
    unfold rightValue
    have hbare := h.unparen
    split
    · next hmeasure => rw [hmeasure] at hbare; nomatch hbare
    · next hcall => rw [hcall] at hbare; nomatch hbare
    · rfl
  rw [hplain, plainValue, run_bind, h.unparen.fold_eq]
  by_cases hm : m.toNat < Bound.integer
  · rw [if_pos hm, if_pos hm]
    rfl
  · rw [if_neg hm, if_neg hm]

theorem checkInitializer_eq (h : IntegerLiteral negative m e) (t : ClassicalType) :
    checkInitializer calls t e = checkScalar calls t e.unparen := by
  induction h with
  | digits m => rw [checkInitializer, Expr.unparen] <;> exact nofun
  | negated h => rw [checkInitializer, Expr.unparen] <;> exact nofun
  | paren _ ih => rw [checkInitializer, ih, Expr.unparen]

/-- A literal is checked by its range alone. -/
theorem checkInitializer_run (h : IntegerLiteral negative m e) {t : ClassicalType}
    (ht : ClassicalType.checkAssignable t .defaultInt = .ok ()) : checkInitializer calls t e config s =
      if ClassicalType.literalFits t negative m.toNat then (.ok (), s)
      else (.error (.statement ⟨.type (.literal negative m t), s.span⟩), s) := by
  have hcheck : ClassicalType.checkLiteral t e.unparen =
      if ClassicalType.literalFits t negative m.toNat then .ok () else .error (.literal negative m t) := by
    rw [ClassicalType.checkLiteral, h.unparen.integerLiteral?_eq]
  rw [h.checkInitializer_eq, checkScalar, run_bind, h.unparen.infer_eq]
  dsimp only
  rw [ht, hcheck]
  by_cases hfits : ClassicalType.literalFits t negative m.toNat = true
  · rw [if_pos hfits, if_pos hfits]
    rfl
  · rw [if_neg hfits, if_neg hfits]
    rfl

end IntegerLiteral

namespace ClassicalType

/-- The numbers of a type of integers or bits. -/
def HoldsInteger : SizedKind → Nat → Int → Prop
  | .int, n, i => -2 ^ (n - 1) ≤ i ∧ i ≤ 2 ^ (n - 1) - 1
  | .uint, n, i | .bit, n, i => 0 ≤ i ∧ i ≤ 2 ^ n - 1
  | _, _, _ => False

instance (kind : SizedKind) (n : Nat) (i : Int) : Decidable (HoldsInteger kind n i) :=
  match kind with
  | .int => inferInstanceAs (Decidable (-2 ^ (n - 1) ≤ i ∧ i ≤ 2 ^ (n - 1) - 1))
  | .uint | .bit => inferInstanceAs (Decidable (0 ≤ i ∧ i ≤ 2 ^ n - 1))
  | .float | .angle | .complex => inferInstanceAs (Decidable False)

/-- Types that integer literals are checked for. -/
def IsInteger (kind : SizedKind) : Prop := kind = .int ∨ kind = .uint ∨ kind = .bit

variable {kind : SizedKind} {n : Nat} {negative : Bool} {m : UInt64}

theorem checkAssignable_defaultInt (hkind : IsInteger kind) :
    checkAssignable (.sized kind n) .defaultInt = .ok () := by
  unfold checkAssignable
  split
  · rfl
  · rcases hkind with rfl | rfl | rfl <;> rfl

theorem literalFits_int (hn : 0 < n) (hn64 : n ≤ 64) :
    literalFits (.sized .int n) negative m.toNat = true ↔
      HoldsInteger .int n (IntegerLiteral.value negative m) := by
  have hmin : min n 64 - 1 = n - 1 := by omega
  -- The check counts in natural numbers, with one more of them below zero than above.
  have hhalf : (2 : Int) ^ (n - 1) = (2 ^ (n - 1) : Nat) := by push_cast; rfl
  have hpositive : 0 < 2 ^ (n - 1) := Nat.two_pow_pos _
  cases negative with
  | true =>
    show decide (m.toNat ≤ 2 ^ (min n 64 - 1)) = true ↔
      (-2 ^ (n - 1) ≤ -(m.toNat : Int) ∧ -(m.toNat : Int) ≤ 2 ^ (n - 1) - 1)
    rw [decide_eq_true_eq, hmin, hhalf]
    omega
  | false =>
    show decide (m.toNat ≤ 2 ^ (min n 64 - 1) - 1) = true ↔
      (-2 ^ (n - 1) ≤ (m.toNat : Int) ∧ (m.toNat : Int) ≤ 2 ^ (n - 1) - 1)
    rw [decide_eq_true_eq, hmin, hhalf]
    omega

theorem literalFits_uint (hn64 : n ≤ 64) : literalFits (.sized .uint n) negative m.toNat = true ↔
    HoldsInteger .uint n (IntegerLiteral.value negative m) ∧ negative = false := by
  have hpow : (2 : Int) ^ n = (2 ^ n : Nat) := by push_cast; rfl
  -- Every literal has 64 bits, so none is too great for a type of as many.
  have hwide : n ≥ 64 → m.toNat < 2 ^ n := fun h => by
    rw [Nat.le_antisymm hn64 h]
    exact m.toNat_lt
  have hfits : (n ≥ 64 ∨ m.toNat < 2 ^ n) ↔ m.toNat < 2 ^ n := ⟨fun h => h.elim hwide id, Or.inr⟩
  cases negative with
  | true => exact ⟨nofun, fun h => nomatch h.2⟩
  | false =>
    show (decide (n ≥ 64) || decide (m.toNat < 2 ^ n)) = true ↔
      (0 ≤ (m.toNat : Int) ∧ (m.toNat : Int) ≤ 2 ^ n - 1) ∧ false = false
    rw [Bool.or_eq_true, decide_eq_true_eq, decide_eq_true_eq, hfits, hpow, and_iff_left rfl]
    omega

/-- The check of literals follows the range of the type, but takes no sign where there are no negative
numbers. -/
theorem literalFits_iff (negative : Bool) (m : UInt64) (hkind : IsInteger kind) (hn : 0 < n) (hn64 : n ≤ 64) :
    literalFits (.sized kind n) negative m.toNat = true ↔
      HoldsInteger kind n (IntegerLiteral.value negative m) ∧ (negative = true → kind = .int) := by
  have hsign (hne : kind ≠ .int) : (negative = true → kind = .int) ↔ negative = false := by
    cases negative <;> simp [hne]
  rcases hkind with rfl | rfl | rfl
  · rw [literalFits_int hn hn64, and_iff_left fun _ => rfl]
  · rw [literalFits_uint hn64, hsign nofun]
  · rw [hsign nofun]
    exact literalFits_uint hn64

/-- A number that a type holds is stored as it is. -/
theorem coerce_of_holdsInteger {i : Int64} (hn : 0 < n) (h : HoldsInteger kind n i.toInt) :
    Value.coerce (.sized kind n) (.int i) = .ok (.int i) := by
  have hunsigned (hrange : 0 ≤ i.toInt ∧ i.toInt ≤ 2 ^ n - 1) : Word.wrapUnsigned i n = i :=
    Word.wrapUnsigned_of_range hrange.1 (by omega)
  cases kind with
  | int =>
    obtain ⟨hlow, hhigh⟩ := h
    have hsigned : Word.wrapSigned i n = i := Word.wrapSigned_of_range hn hlow (by omega)
    exact congrArg (fun w => Except.ok (Value.int w)) hsigned
  | uint | bit => exact congrArg (fun w => Except.ok (Value.int w)) (hunsigned h)
  | float | angle | complex => nomatch h

end ClassicalType

namespace Analysis

section Declaring

variable {calls : Calls} {config : Config} {s t : State} {name : String} {y : Symbol} {v w : Value}
  {type : ClassicalType}

/-- A variable that is followed, or one that has a name in the flat program. -/
def Stored (y : Symbol) : Prop := y.kind = .classicalVariable ∧ y.emitName = none ∨ y.emitName.isSome = true

theorem runtimeName_eq {emitName : String} (hy : s.scopes.resolve? name = some y) (hname : y.emitName = some emitName) :
    runtimeName name config s = (.ok emitName, s) := by
  rw [runtimeName, run_bind, run_resolve hy]
  dsimp only
  rw [hname]
  rfl

/-- A known value is kept by the symbol that it is written to, unless a branch was entered since. -/
theorem write_known (config : Config) (hy : s.scopes.resolve? name = some y) (hstored : Stored y)
    (hfloor : s.runtimeFloor.any (y.scope < ·) = false) (shown : Expr) (v : Value) :
    ∃ t, write name none shown (some v) config s = (.ok (), t) ∧ t.diagnostics = s.diagnostics ∧
      t.scopes = s.scopes.modify name fun y => { y with value := some v } := by
  have hbranched : branchedSince y.scope config s = (.ok false, s) := by
    rw [← hfloor]
    rfl
  rw [write, run_bind, run_resolve hy]
  dsimp only
  rw [run_bind, hbranched]
  dsimp only
  rcases hname : y.emitName with - | emitName
  · rcases hstored with ⟨hkind, -⟩ | hsome
    · rw [hkind]
      exact ⟨_, rfl, rfl, rfl⟩
    · rw [hname] at hsome
      nomatch hsome
  · rw [Option.isSome_some, Bool.or_true, Bool.true_or, Bool.true_or, if_pos rfl, run_bind,
      runtimeName_eq hy hname]
    exact ⟨_, rfl, rfl, rfl⟩

theorem declaredType_eq (hy : s.scopes.resolve? name = some y) (htype : y.type = some type) :
    declaredType name config s = (.ok type, s) := by
  rw [declaredType, run_bind, run_resolve hy]
  dsimp only
  rw [htype]
  rfl

/-- A known value is converted to the declared type and kept. -/
theorem store_known (calls : Calls) (config : Config) (hy : s.scopes.resolve? name = some y)
    (htype : y.type = some type) (hstored : Stored y) (hfloor : s.runtimeFloor.any (y.scope < ·) = false) (hv : Value.coerce type v = .ok w) :
    ∃ t, store calls name (.known v) config s = (.ok (), t) ∧ t.diagnostics = s.diagnostics ∧
      t.scopes.resolve? name = some { y with value := some w } := by
  obtain ⟨t, hwrite, hdiagnostics, hscopes⟩ := write_known config hy hstored hfloor w.toExpr w
  refine ⟨t, ?_, hdiagnostics, ?_⟩
  · rw [store, run_bind, declaredType_eq hy htype]
    dsimp only
    rw [run_bind, coerceTo, hv]
    exact hwrite
  · rw [hscopes, Scopes.resolve?_modify (keepsKey_value (some w)), hy]
    rfl

/-- A name that is free is declared as a variable in the current scope. -/
theorem declareLocal_free {kind : SizedKind} {n : Nat} (config : Config) (hfree : s.scopes.here? name = none)
    (hroom : kind = .bit → ∃ r, s.registers.allocate name n .classical = .ok r) :
    ∃ t y, declareLocal name (.sized kind n) config s = (.ok (), t) ∧ t.scopes = s.scopes.push y ∧
      t.diagnostics = s.diagnostics ∧ t.runtimeFloor = s.runtimeFloor ∧ y.name = name ∧
      y.type = some (.sized kind n) ∧ Stored y := by
  have hensure : ensureFree name config s = (.ok (), s) := by
    rw [ensureFree, run_get, hfree]
    rfl
  unfold declareLocal
  rw [run_bind, hensure]
  dsimp only
  by_cases hbit : kind = .bit
  · obtain ⟨⟨id, v, registers⟩, hr⟩ := hroom hbit
    subst hbit
    dsimp only
    rw [run_bind, allocate, run_get, hr]
    have hrun := declare_free config (s := { s with registers })
      (x := { ({ name, kind := .classicalRegister, span := s.span : Symbol}).withType (.sized .bit n) with
        mutable := true, binding := .clbits v, emitName := some (registers.nameOf id) }) hfree
    exact ⟨_, _, hrun, rfl, rfl, rfl, rfl, rfl, Or.inr rfl⟩
  · have hrun := declare_free config (s := s)
      (x := { ({ name, kind := .classicalVariable, span := s.span : Symbol}).withType (.sized kind n) with
        mutable := true }) hfree
    cases kind with
    | bit => exact absurd rfl hbit
    | _ => exact ⟨_, _, hrun, rfl, rfl, rfl, rfl, rfl, Or.inl ⟨rfl, rfl⟩⟩

end Declaring

section Literals

variable {calls : Calls} {config : Config} {s : State} {name : String} {kind : SizedKind} {n : Nat}
  {negative : Bool} {m : UInt64} {e : Expr} {span : Span}

/-- What a literal has to be in order to be the value of a declared integer. -/
def Accepted (kind : SizedKind) (n : Nat) (negative : Bool) (m : UInt64) : Prop :=
  ClassicalType.HoldsInteger kind n (IntegerLiteral.value negative m) ∧ (negative = true → kind = .int) ∧
    m.toNat < Bound.integer

theorem checkWidth_integer (hkind : ClassicalType.IsInteger kind) (hn64 : n ≤ 64) (config : Config) (s : State) :
    checkWidth kind n config s = (.ok n, s) := by
  have hwidth : ¬n > 64 := Nat.not_lt.2 hn64
  rcases hkind with rfl | rfl | rfl
  · rw [checkWidth, if_neg hwidth]
    rfl
  · rw [checkWidth, if_neg hwidth]
    rfl
  · rfl

theorem resolveType_integer (hkind : ClassicalType.IsInteger kind) (hn : 0 < n) (hn64 : n ≤ 64) (calls : Calls)
    (config : Config) (s : State) :
    resolveType calls (.sized kind (some (ClassicalType.intExpr n))) config s = (.ok (.sized kind n), s) :=
  resolveType_toExpr (u := .sized kind n)
    ⟨hn, Nat.lt_of_le_of_lt hn64 (by decide), fun config s => checkWidth_integer hkind hn64 config s⟩ calls config s

/-- The check and the evaluation of a literal that is to be stored. -/
theorem initialValue_literal (hkind : ClassicalType.IsInteger kind) (hn : 0 < n) (hn64 : n ≤ 64)
    (he : IntegerLiteral negative m e) (calls : Calls) (config : Config) (s : State) :
    Accepted kind n negative m ∧
        initialValue calls (.sized kind n) (some e) config s =
          (.ok (some (.known (.int (IntegerLiteral.word negative m)))), s) ∨
      ¬Accepted kind n negative m ∧
        ∃ p, initialValue calls (.sized kind n) (some e) config s = (.error (.statement ⟨p, s.span⟩), s) := by
  have hfits := ClassicalType.literalFits_iff negative m hkind hn hn64
  -- The range of the type comes first, then the range of the evaluation, which knows nothing of the sign.
  rw [initialValue, run_bind, he.checkInitializer_run (ClassicalType.checkAssignable_defaultInt hkind)]
  by_cases hcheck : ClassicalType.literalFits (.sized kind n) negative m.toNat = true
  · obtain ⟨hholds, hsign⟩ := hfits.1 hcheck
    rw [if_pos hcheck]
    dsimp only
    rw [run_bind, he.rightValue_eq]
    by_cases hm : m.toNat < Bound.integer
    · rw [if_pos hm]
      exact Or.inl ⟨⟨hholds, hsign, hm⟩, rfl⟩
    · rw [if_neg hm]
      exact Or.inr ⟨fun h => hm h.2.2, _, rfl⟩
  · rw [if_neg hcheck]
    exact Or.inr ⟨fun h => hcheck (hfits.2 ⟨h.1, h.2.1⟩), _, rfl⟩

/-- The declaration of an integer with a value. -/
def integerDeclaration (kind : SizedKind) (n : Nat) (name : String) (e : Expr) : ClassicalDecl :=
  ⟨.sized kind (some (ClassicalType.intExpr n)), name, some e, false, none⟩

/-- A literal that is accepted is kept, and one that is refused leaves everything as it was. -/
theorem declareClassical_literal (hkind : ClassicalType.IsInteger kind) (hn : 0 < n) (hn64 : n ≤ 64)
    (he : IntegerLiteral negative m e) (hfree : s.scopes.here? name = none)
    (hroom : kind = .bit → ∃ r, s.registers.allocate name n .classical = .ok r)
    (hfloor : ∀ floor ∈ s.runtimeFloor, floor ≤ s.scopes.depth) (calls : Calls) (config : Config) :
    (Accepted kind n negative m ∧ ∃ t y i, declareClassical calls (integerDeclaration kind n name e) config s = (.ok (), t) ∧
        t.diagnostics = s.diagnostics ∧ t.scopes.resolve? name = some y ∧ y.type = some (.sized kind n) ∧
        y.value = some (.int i) ∧ i.toInt = IntegerLiteral.value negative m) ∨
      ¬Accepted kind n negative m ∧ ∃ p,
        declareClassical calls (integerDeclaration kind n name e) config s = (.error (.statement ⟨p, s.span⟩), s) := by
  have htype := resolveType_integer hkind hn hn64 calls config s
  -- The value is checked and evaluated before the name is declared, so a literal that is refused leaves no name.
  rw [declareClassical, run_bind, integerDeclaration, htype]
  dsimp only
  rw [if_neg Bool.false_ne_true, run_bind]
  rcases initialValue_literal hkind hn hn64 he calls config s with
    ⟨haccepted, hinit⟩ | ⟨hrefused, p, hinit⟩
  · have hholds := haccepted.1
    have hword := IntegerLiteral.toInt_word negative haccepted.2.2
    have hcoerce : Value.coerce (.sized kind n) (.int (IntegerLiteral.word negative m)) =
        .ok (.int (IntegerLiteral.word negative m)) :=
      ClassicalType.coerce_of_holdsInteger hn (hword.symm ▸ hholds)
    -- The symbol that was declared is the one that is written to, and no branch has been entered since.
    obtain ⟨u, y, hdeclare, hscopes, hdiagnostics, hruntime, rfl, hy, hstored⟩ :=
      declareLocal_free config hfree hroom
    have hresolve : u.scopes.resolve? y.name = some { y with scope := s.scopes.depth } := by
      rw [hscopes]
      exact Scopes.resolve?_push_self s.scopes y
    have hinside : u.runtimeFloor.any (s.scopes.depth < ·) = false := by
      rw [hruntime]
      rcases hsome : s.runtimeFloor with - | floor
      · rfl
      · exact decide_eq_false (Nat.not_lt.2 (hfloor floor hsome))
    obtain ⟨t, hstore, hkept, hvalue⟩ :=
      store_known calls config hresolve hy hstored hinside hcoerce
    rw [hinit]
    dsimp only
    rw [run_bind, hdeclare]
    exact Or.inl ⟨haccepted, t, _, _, hstore, hkept.trans hdiagnostics, hvalue, hy, rfl, hword⟩
  · rw [hinit]
    exact Or.inr ⟨hrefused, p, rfl⟩

theorem statement_classical (d : ClassicalDecl) : statement calls ⟨.classical d, span⟩ config s =
    match declareClassical calls d config { s with span } with
    | (.ok _, t) => (.ok .normal, { t with span := s.span })
    | (.error failure, t) => recover failure config { t with span := s.span, output := s.output } := by
  rw [statement, settled_run, perform, thenNext, run_bind]
  rcases declareClassical calls d config { s with span } with ⟨failure | u, t⟩ <;> rfl

/-- Integers are declared with a literal as their value without a report just where the literal is one of their
type, has a sign only if the type has negative numbers, and is a signed number of 64 bits without the sign. What is
kept is the number that the literal denotes. -/
theorem literal_declared (hkind : ClassicalType.IsInteger kind) (hn : 0 < n) (hn64 : n ≤ 64)
    (he : IntegerLiteral negative m e) (hfree : s.scopes.here? name = none)
    (hroom : kind = .bit → ∃ r, s.registers.allocate name n .classical = .ok r)
    (hfloor : ∀ floor ∈ s.runtimeFloor, floor ≤ s.scopes.depth) (calls : Calls) (config : Config) (span : Span) :
    ∃ t, statement calls ⟨.classical (integerDeclaration kind n name e), span⟩ config s = (.ok .normal, t) ∧
      (t.diagnostics = s.diagnostics ↔ Accepted kind n negative m) ∧
      (t.diagnostics = s.diagnostics → ∃ y i, t.scopes.resolve? name = some y ∧ y.type = some (.sized kind n) ∧
        y.value = some (.int i) ∧ i.toInt = IntegerLiteral.value negative m) := by
  rw [statement_classical]
  have hfree' : { s with span }.scopes.here? name = none := hfree
  rcases declareClassical_literal hkind hn hn64 he hfree' hroom hfloor calls config with
    ⟨haccepted, t, y, i, hrun, hdiagnostics, hkept⟩ | ⟨hrefused, p, hrun⟩
  · rw [hrun]
    exact ⟨_, rfl, iff_of_true hdiagnostics haccepted, fun _ => ⟨y, i, hkept⟩⟩
  · rw [hrun]
    have hreported (d : Diagnostic) : ¬d :: s.diagnostics = s.diagnostics := List.cons_ne_self d s.diagnostics
    exact ⟨_, rfl, iff_of_false (hreported _) hrefused, fun h => (hreported _ h).elim⟩

theorem literal_declared_least : ∃ t, statement (.nested 0)
      ⟨.classical (integerDeclaration .int 8 "v" (.paren (.unary .neg (.int 128)))), .none⟩ .default .initial =
        (.ok .normal, t) ∧ t.diagnostics = [] ∧
      ∃ y i, t.scopes.resolve? "v" = some y ∧ y.value = some (.int i) ∧ i.toInt = -128 := by
  have hliteral : IntegerLiteral true 128 (.paren (.unary .neg (.int 128))) := .paren (.negated (.digits 128))
  have hkind : ClassicalType.IsInteger .int := Or.inl rfl
  have hn : 0 < 8 := by decide
  have hfree : State.initial.scopes.here? "v" = none := by decide +kernel
  obtain ⟨t, hrun, hiff, hkept⟩ :=
    literal_declared hkind hn (by decide) hliteral hfree nofun nofun (.nested 0) .default .none
  have haccepted : Accepted .int 8 true 128 := ⟨by decide, by decide, by decide⟩
  have hsilent := hiff.2 haccepted
  obtain ⟨y, i, hy, -, hvalue, hi⟩ := hkept hsilent
  exact ⟨t, hrun, hsilent, y, i, hy, hvalue, hi⟩

/-- The greatest number of 64 bits and the least signed one are refused, though their types hold them. -/
theorem extreme_literals_refused :
    (ClassicalType.HoldsInteger .uint 64 (IntegerLiteral.value false 18446744073709551615) ∧
      (statement (.nested 0) ⟨.classical (integerDeclaration .uint 64 "v" (.int 18446744073709551615)), .none⟩
        .default .initial).2.diagnostics ≠ []) ∧
    ClassicalType.HoldsInteger .int 64 (IntegerLiteral.value true 9223372036854775808) ∧
      (statement (.nested 0)
        ⟨.classical (integerDeclaration .int 64 "v" (.unary .neg (.int 9223372036854775808))), .none⟩
        .default .initial).2.diagnostics ≠ [] := by
  have hrefused (kind : SizedKind) (negative : Bool) (m : UInt64) (e : Expr) (hkind : ClassicalType.IsInteger kind)
      (he : IntegerLiteral negative m e) (hm : ¬m.toNat < Bound.integer) (hbit : kind ≠ .bit) :
      (statement (.nested 0) ⟨.classical (integerDeclaration kind 64 "v" e), .none⟩ .default .initial).2.diagnostics ≠
        [] := by
    rw [statement_classical]
    have hn : 0 < 64 := by decide
    have hfree : State.initial.scopes.here? "v" = none := by decide +kernel
    rcases declareClassical_literal hkind hn (by decide) he hfree (fun h => absurd h hbit) nofun (.nested 0) .default
      with ⟨h, -⟩ | ⟨-, p, hrun⟩
    · exact absurd h.2.2 hm
    · have hspan : ({ State.initial with span := .none } : State) = .initial := rfl
      rw [hspan, hrun]
      exact List.cons_ne_nil _ _
  exact ⟨⟨by decide, hrefused .uint false _ _ (Or.inr (Or.inl rfl)) (.digits _) (by decide) nofun⟩,
    by decide, hrefused .int true _ _ (Or.inl rfl) (.negated (.digits _)) (by decide) nofun⟩

end Literals

end Analysis

end OpenQasm
