import OpenQasm.Proofs.Levels
import OpenQasm.Proofs.Rollback

/-!
What may become of the symbols around a body. The body of a definition sees few of them and cannot write
to any. A branch that is decided when the program runs may write to all of them, but what it writes is not
known afterwards: no value from inside is ever taken for one that holds outside.
-/
namespace OpenQasm

open Analysis

/-- How a symbol may have changed. What is known of its value is never anything new: it can only be lost,
in a branch. A symbol that has a name in the flat program keeps it. -/
structure Symbol.Kept (branched : Prop) (x y : Symbol) : Prop where
  same : y = { x with value := y.value, emitName := y.emitName }
  value : y.value = x.value ∨ y.value = none ∧ (branched ∨ x.crossesBodies = true)
  naming : y.emitName = x.emitName ∨
    x.emitName = none ∧
      (x.value = none ∨ (∃ p, x.binding = .param p) ∨ branched ∨ x.crossesBodies = true)

namespace Symbol.Kept

variable {branched : Prop} {x y z : Symbol}

theorem refl (x : Symbol) : Kept branched x x := ⟨rfl, Or.inl rfl, Or.inl rfl⟩

theorem key (h : Kept branched x y) : y.key = x.key := by
  rw [h.same]
  rfl

theorem crossesBodies (h : Kept branched x y) : y.crossesBodies = x.crossesBodies :=
  crossesBodies_eq h.key

theorem trans (h : Kept branched x y) (h' : Kept branched y z) : Kept branched x z where
  same := by
    rw [h'.same, h.same]
  value := by
    rcases h'.value with hvalue | ⟨hnone, hfree⟩
    · rw [hvalue]
      exact h.value
    · exact Or.inr ⟨hnone, h.crossesBodies ▸ hfree⟩
  naming := by
    have hbinding : y.binding = x.binding := congrArg (·.2.2) h.key
    rcases h.naming with hname | ⟨hname, hcause⟩
    · rcases h'.naming with hname' | ⟨hname', hcause⟩
      · exact Or.inl (hname'.trans hname)
      · refine Or.inr ⟨hname.symm.trans hname', ?_⟩
        rw [hbinding, h.crossesBodies] at hcause
        rcases hcause with hnone | hcause
        · rcases h.value with hvalue | ⟨-, hfree⟩
          · exact Or.inl (hvalue.symm.trans hnone)
          · exact Or.inr (Or.inr hfree)
        · exact Or.inr hcause
    · exact Or.inr ⟨hname, hcause⟩

/-- What is not known stays so. -/
theorem value_none (h : Kept branched x y) (hx : x.value = none) : y.value = none := by
  rcases h.value with hvalue | ⟨hnone, -⟩
  · exact hvalue.trans hx
  · exact hnone

theorem emitName_eq (h : Kept branched x y) {emitName : String} (hx : x.emitName = some emitName) :
    y.emitName = some emitName := by
  rcases h.naming with hname | ⟨hnone, -⟩
  · exact hname.trans hx
  · nomatch hnone.symm.trans hx

/-- A variable whose value is known keeps it, and gets no name, while expressions are evaluated. -/
theorem unnamed {v : Value} (h : Kept False x y)
    (hkind : x.kind = .classicalVariable) (hbinding : x.binding = .none) (hvalue : x.value = some v)
    (hname : x.emitName = none) : y.value = some v ∧ y.emitName = none := by
  have hcrosses : x.crossesBodies = false := by simp [Symbol.crossesBodies, hkind]
  constructor
  · rcases h.value with heq | ⟨-, hfree | hfree⟩
    · exact heq.trans hvalue
    · exact hfree.elim
    · cases hcrosses.symm.trans hfree
  · rcases h.naming with heq | ⟨-, hnone | ⟨p, hparam⟩ | hfree | hfree⟩
    · exact heq.trans hname
    · cases hvalue.symm.trans hnone
    · cases hbinding.symm.trans hparam
    · exact hfree.elim
    · cases hcrosses.symm.trans hfree

end Symbol.Kept

namespace Analysis

/-- A state since the time when the scopes were as before. The levels below `floor` are those outside; they
are seen if they are around a branch, and hidden if they are around a definition. -/
structure Guarded (branched : Prop) (floor : Nat) (before : Scopes) (s : State) : Prop where
  numbered : s.scopes.Numbered
  inside : floor ≤ s.scopes.depth
  branch : branched → ∃ f, s.runtimeFloor = some f ∧ floor ≤ f
  kept : ∀ k < floor, ∀ name x, before.at? k name = some x →
    ∃ y, s.scopes.at? k name = some y ∧ x.Kept branched y
  seen : ∀ name x, s.scopes.resolve? name = some x → x.scope < floor →
    x.crossesBodies = true ∨
      branched ∧ ∃ y, before.resolve? name = some y ∧ y.scope = x.scope

namespace Guarded

variable {branched : Prop} {floor : Nat} {before : Scopes} {s t : State} {name : String} {x : Symbol}

theorem congr (h : Guarded branched floor before s) (hscopes : t.scopes = s.scopes)
    (hfloor : t.runtimeFloor = s.runtimeFloor) : Guarded branched floor before t where
  numbered := hscopes ▸ h.numbered
  inside := hscopes ▸ h.inside
  branch := hfloor ▸ h.branch
  kept := hscopes ▸ h.kept
  seen := hscopes ▸ h.seen

/-- The levels outside may be looked at anew. -/
theorem refl (h : Guarded branched floor before s) : Guarded branched floor s.scopes s where
  numbered := h.numbered
  inside := h.inside
  branch := h.branch
  kept _ _ _ x hx := ⟨x, hx, Symbol.Kept.refl x⟩
  seen name x hx hlt := (h.seen name x hx hlt).imp_right fun hseen => ⟨hseen.1, x, hx, rfl⟩

/-- A symbol that is written or given a name inside is one from inside, or may change. -/
theorem modify (h : Guarded branched floor before s) {f : Symbol → Symbol} (hf : KeepsKey f)
    (hscope : ∀ y, (f y).scope = y.scope) (hx : s.scopes.resolve? name = some x)
    (hkept : x.scope < floor → x.Kept branched (f x)) :
    Guarded branched floor before { s with scopes := s.scopes.modify name f } := by
  have hsame := Scopes.same_modify hf s.scopes name
  have hnumbered := h.numbered.modify hf hscope name
  refine ⟨hnumbered, ?_, h.branch, fun k hk n y hy => ?_, fun n y hy hlt => ?_⟩
  · rw [hsame.grows.depth_eq]
    exact h.inside
  · obtain ⟨z, hz, hkept'⟩ := h.kept k hk n y hy
    dsimp only
    rw [h.numbered.at?_modify hf hx]
    by_cases hplace : k = x.scope ∧ n = name
    · obtain ⟨rfl, rfl⟩ := hplace
      rw [h.numbered.at?_of_resolve? hx] at hz
      cases hz
      exact ⟨f x, if_pos ⟨rfl, rfl⟩, hkept'.trans (hkept hk)⟩
    · exact ⟨z, (if_neg hplace).trans hz, hkept'⟩
  · obtain ⟨z, hz, hkey, hlevel⟩ := hsame.symm.resolve?_scope hnumbered h.numbered hy
    have hseen := h.seen n z hz (hlevel ▸ hlt)
    rwa [Symbol.crossesBodies_eq hkey, hlevel] at hseen

theorem enter (h : Guarded branched floor before s) (kind : ScopeKind) :
    Guarded branched floor before { s with scopes := s.scopes.enter kind } where
  numbered := h.numbered.enter kind
  inside := Nat.le_succ_of_le h.inside
  branch := h.branch
  kept k hk name x hx := by
    obtain ⟨y, hy, hkept⟩ := h.kept k hk name x hx
    exact ⟨y, (Scopes.at?_enter s.scopes kind k name).trans hy, hkept⟩
  seen name x hx hlt := by
    rcases hbody : kind.isBody with - | -
    · rw [Scopes.resolve?_enter_block hbody] at hx
      exact h.seen name x hx hlt
    · exact Or.inl (Scopes.resolve?_enter_body hbody hx).2

/-- Leaving the scope of a body that was entered before. -/
theorem exit (h : Guarded branched floor before s) {kind : ScopeKind}
    (hgrows : (s.scopes.enter kind).Grows t.scopes) (ht : Guarded branched floor before t) :
    Guarded branched floor before { t with scopes := t.scopes.exit } := by
  have hsame := hgrows.exit
  have hnumbered := ht.numbered.exit
  have hdepth : t.scopes.depth = s.scopes.depth + 1 := hgrows.depth_eq
  refine ⟨hnumbered, ?_, ht.branch, fun k hk name x hx => ?_, fun name x hx hlt => ?_⟩
  · rw [hsame.grows.depth_eq]
    exact h.inside
  · obtain ⟨y, hy, hkept⟩ := ht.kept k hk name x hx
    have hlt : k < t.scopes.depth := by
      have := h.inside
      omega
    exact ⟨y, (Scopes.at?_exit hlt name).trans hy, hkept⟩
  · obtain ⟨y, hy, hkey, hlevel⟩ := hsame.symm.resolve?_scope hnumbered h.numbered hx
    have hseen := h.seen name y hy (hlevel ▸ hlt)
    rwa [Symbol.crossesBodies_eq hkey, hlevel] at hseen

theorem push (h : Guarded branched floor before s) (x : Symbol) :
    Guarded branched floor before { s with scopes := s.scopes.push x } := by
  have hinside := h.inside
  refine ⟨h.numbered.push x, ?_, h.branch, fun k hk name y hy => ?_, fun name y hy hlt => ?_⟩
  · rw [(Scopes.grows_push s.scopes x).depth_eq]
    exact hinside
  · obtain ⟨z, hz, hkept⟩ := h.kept k hk name y hy
    have hk : ¬(k = s.scopes.depth ∧ x.name = name) := by
      rintro ⟨rfl, -⟩
      omega
    exact ⟨z, by rw [Scopes.at?_push, if_neg hk, hz], hkept⟩
  · dsimp only at hy
    rw [Scopes.resolve?_push_eq] at hy
    split at hy
    · cases hy
      exact absurd hlt (Nat.not_lt.2 hinside)
    · exact h.seen name y hy hlt

end Guarded

end Analysis

theorem Signal.fits_trivial (signal : Signal) (r : Registers) : signal.Fits .trivial r := by
  cases signal with
  | returned result =>
    cases result with
    | none => trivial
    | some v =>
      cases v with
      | measured qubits => exact fun _ _ => trivial
      | known _ => trivial
      | runtime _ => trivial
  | normal => trivial
  | breakLoop => trivial
  | continueLoop => trivial

/-- A name that stands for something that can be written to: it is not seen from elsewhere, or it is
declared in the current scope. -/
def Scopes.Near (s : Scopes) (name : String) : Prop :=
  (∃ x, s.resolve? name = some x ∧ x.crossesBodies = false) ∨ (s.here? name).isSome

theorem Scopes.Near.grows {s t : Scopes} {name : String} (h : s.Near name) (hgrows : s.Grows t) :
    t.Near name := by
  rcases hgrows.resolve? name with hhere | hkeys
  · exact Or.inr hhere
  · rcases h with ⟨x, hx, hcrosses⟩ | hhere
    · rw [hx] at hkeys
      obtain ⟨y, hy, hkey⟩ := Option.map_eq_some_iff.1 hkeys
      exact Or.inl ⟨y, hy, (Symbol.crossesBodies_eq hkey).trans hcrosses⟩
    · exact Or.inr (hgrows.here?_isSome hhere)

theorem Analysis.Guarded.near {branched : Prop} {floor : Nat} {before : Scopes} {s : State} {name : String}
    {x : Symbol} (h : Guarded branched floor before s) (hnear : s.scopes.Near name)
    (hx : s.scopes.resolve? name = some x) : x.scope < floor → branched := by
  intro hlt
  rcases hnear with ⟨y, hy, hcrosses⟩ | hhere
  · cases hy.symm.trans hx
    rcases h.seen name x hx hlt with hcrosses' | ⟨hbranched, -⟩
    · exact absurd (hcrosses.symm.trans hcrosses') Bool.false_ne_true
    · exact hbranched
  · obtain ⟨y, hy⟩ := Option.isSome_iff_exists.1 hhere
    cases (Scopes.resolve?_of_here? hy).symm.trans hx
    have hlevel := h.numbered _ _ _ (Scopes.at?_of_here? hy)
    have hinside := h.inside
    omega

/-- The invariant of what is done around and below a floor. -/
def StatementInvariant.guarded (branched : Prop) (floor : Nat) (before : Scopes) :
    StatementInvariant where
  toFacts := .trivial
  excuses _ := False
  core := Guarded branched floor before
  subroutine _ _ := True
  gate _ _ := True
  symbol _ _ := True
  writable name s := s.scopes.Near name
  writable_mono hframe h := h.grows hframe.scopes
  core_congr h hscopes _ _ hfloor := h.congr hscopes hfloor
  core_reserve _ h := h.congr rfl rfl
  core_allocate h _ _ := h.congr rfl rfl
  core_mark _ _ h := h.congr rfl rfl
  tallied_measured h := False.elim h
  target_reserve _ _ := ⟨⟩
  target_allocate _ _ := ⟨⟩
  target_writable _ _ _ _ := ⟨⟩
  core_name {s name x emitName} h _ hx hkind hnone hcause := by
    refine h.modify (keepsKey_emitName _) (fun _ => rfl) hx fun hlt =>
      ⟨rfl, Or.inl rfl, Or.inr ⟨hnone, ?_⟩⟩
    refine hcause.imp_right (Or.imp_right fun hnear => Or.inl ?_)
    exact h.near hnear hx hlt
  symbol_mono _ _ := ⟨⟩
  symbol_none _ _ := ⟨⟩
  symbol_param _ _ := ⟨⟩
  symbol_qubits _ _ _ _ := ⟨⟩
  symbol_clbits _ _ _ _ _ := ⟨⟩
  symbol_copy _ _ _ _ _ _ _ := ⟨⟩
  resolves_subroutine _ _ _ := ⟨⟩
  resolves_gate _ _ _ := ⟨⟩
  resolves_qubits _ _ _ := ⟨⟩
  resolves_clbits _ _ _ := ⟨⟩
  view_element _ _ _ _ := ⟨⟩
  written name s := ∀ x, s.scopes.resolve? name = some x → x.scope < floor → x.value = none
  writable_of_resolve {s name x} _ hx hkind _ := by
    refine Or.inl ⟨x, hx, ?_⟩
    rcases hkind with hkind | hkind <;> simp [Symbol.crossesBodies, hkind]
  core_value {s name x} value h hnear hx hfloor := by
    have hlost (hlt : x.scope < floor) : branched ∧ value = none := by
      have hbranched := h.near hnear hx hlt
      obtain ⟨f, hf, hle⟩ := h.branch hbranched
      exact ⟨hbranched, hfloor f hf (Nat.lt_of_lt_of_le hlt hle)⟩
    refine ⟨h.modify (keepsKey_value value) (fun _ => rfl) hx fun hlt => ?_, fun y hy hlt => ?_⟩
    · exact ⟨rfl, Or.inr ⟨(hlost hlt).2, Or.inl (hlost hlt).1⟩, Or.inl rfl⟩
    · dsimp only at hy
      rw [Scopes.resolve?_modify (keepsKey_value value), hx] at hy
      cases hy
      exact (hlost hlt).2
  core_forget {s} name h := by
    rcases hx : s.scopes.resolve? name with - | x
    · rw [Scopes.modify_of_none (keepsKey_value none) hx]
      exact ⟨h, fun x hx' => absurd (hx.symm.trans hx') nofun⟩
    · refine ⟨h.modify (keepsKey_value none) (fun _ => rfl) hx fun hlt => ?_, fun y hy _ => ?_⟩
      · refine ⟨rfl, Or.inr ⟨rfl, ?_⟩, Or.inl rfl⟩
        exact (h.seen name x hx hlt).symm.imp_left And.left
      · dsimp only at hy
        rw [Scopes.resolve?_modify (keepsKey_value none), hx] at hy
        cases hy
        rfl
  core_declare h _ _ hscopes := Scopes.eq_push_of_declare hscopes ▸ h.push _
  core_branch {s} h :=
    { h.congr (t := s) rfl rfl with branch := fun _ => ⟨_, rfl, h.inside⟩ }
  core_floor h h' :=
    { h'.congr rfl rfl with branch := h.branch }
  view_allocate _ _ := ⟨⟩
  place_declared _ _ := ⟨⟩

/-- An invariant where nothing is declared in the scopes that are open. -/
def WritingInvariant.staying (W : WritingInvariant) (scopes : Scopes) : WritingInvariant where
  toFacts := W.toFacts
  excuses := W.excuses
  core s := W.core s ∧ scopes.Same s.scopes
  subroutine := W.subroutine
  gate := W.gate
  symbol := W.symbol
  writable := W.writable
  writable_mono := W.writable_mono
  core_congr h hscopes hregisters hcalls hfloor :=
    ⟨W.core_congr h.1 hscopes hregisters hcalls hfloor, hscopes ▸ h.2⟩
  core_reserve name h := ⟨W.core_reserve name h.1, h.2⟩
  core_allocate h hsize hr := ⟨W.core_allocate h.1 hsize hr, h.2⟩
  core_mark q usage h := ⟨W.core_mark q usage h.1, h.2⟩
  tallied_measured htallied h := W.tallied_measured htallied h.1
  target_reserve name h := W.target_reserve name h.1
  target_allocate h hr := W.target_allocate h.1 hr
  target_writable h := W.target_writable h.1
  core_name h htarget hx hkind hnone hcause :=
    ⟨W.core_name h.1 htarget hx hkind hnone hcause,
      h.2.trans (Scopes.same_modify (keepsKey_emitName _) _ _)⟩
  symbol_mono := W.symbol_mono
  symbol_none := W.symbol_none
  symbol_param := W.symbol_param
  symbol_qubits := W.symbol_qubits
  symbol_clbits := W.symbol_clbits
  symbol_copy h := W.symbol_copy h.1
  resolves_subroutine h := W.resolves_subroutine h.1
  resolves_gate h := W.resolves_gate h.1
  resolves_qubits h := W.resolves_qubits h.1
  resolves_clbits h := W.resolves_clbits h.1
  view_element h := W.view_element h.1
  written := W.written
  writable_of_resolve h := W.writable_of_resolve h.1
  core_value value h hwritable hx hfloor := by
    obtain ⟨hcore, hwritten⟩ := W.core_value value h.1 hwritable hx hfloor
    exact ⟨⟨hcore, h.2.trans (Scopes.same_modify (keepsKey_value _) _ _)⟩, hwritten⟩
  core_forget name h := by
    obtain ⟨hcore, hwritten⟩ := W.core_forget name h.1
    exact ⟨⟨hcore, h.2.trans (Scopes.same_modify (keepsKey_value _) _ _)⟩, hwritten⟩

namespace Analysis

/-- A state since the time when the scopes were as before, where expressions have been evaluated only. -/
structure Evaluated (before : Scopes) (s : State) : Prop where
  numbered : s.scopes.Numbered
  stays : before.Same s.scopes
  kept : ∀ k name x, before.at? k name = some x →
    ∃ y, s.scopes.at? k name = some y ∧ x.Kept False y

theorem Evaluated.congr {before : Scopes} {s t : State} (h : Evaluated before s)
    (hscopes : t.scopes = s.scopes) : Evaluated before t where
  numbered := hscopes ▸ h.numbered
  stays := hscopes ▸ h.stays
  kept := hscopes ▸ h.kept

theorem Evaluated.refl {s : State} (h : s.scopes.Numbered) : Evaluated s.scopes s :=
  ⟨h, Scopes.Same.refl _, fun _ _ x hx => ⟨x, hx, Symbol.Kept.refl x⟩⟩

/-- A name stands for the same symbol as before. -/
theorem Evaluated.resolve? {before : Scopes} {s : State} (h : Evaluated before s)
    (hbefore : before.Numbered) {name : String} {x : Symbol} (hx : before.resolve? name = some x) :
    ∃ y, s.scopes.resolve? name = some y ∧ x.Kept False y := by
  obtain ⟨y, hy, hkept⟩ := h.kept x.scope name x (hbefore.at?_of_resolve? hx)
  exact ⟨y, h.stays.symm.resolve?_of_at? h.numbered hbefore hx hy, hkept⟩

end Analysis

/-- The invariant of the evaluation of expressions: a variable may get a name in the flat program, if its
value is not known. -/
def Invariant.evaluated (before : Scopes) : Invariant where
  toFacts := .trivial
  excuses _ := False
  core := Evaluated before
  subroutine _ _ := True
  gate _ _ := True
  symbol _ _ := True
  writable _ _ := False
  writable_mono _ h := h
  core_congr h hscopes _ _ _ := h.congr hscopes
  core_reserve _ h := h.congr rfl
  core_allocate h _ _ := h.congr rfl
  core_mark _ _ h := h.congr rfl
  tallied_measured h := False.elim h
  target_reserve _ _ := trivial
  target_allocate _ _ := trivial
  target_writable _ h _ _ := h.elim
  core_name {s name x emitName} h _ hx _ hnone hcause := by
    have hkey := keepsKey_emitName (some emitName)
    refine ⟨h.numbered.modify hkey (fun _ => rfl) name,
      h.stays.trans (Scopes.same_modify hkey _ _), fun k n y hy => ?_⟩
    obtain ⟨z, hz, hkept⟩ := h.kept k n y hy
    dsimp only
    rw [h.numbered.at?_modify hkey hx]
    by_cases hplace : k = x.scope ∧ n = name
    · obtain ⟨rfl, rfl⟩ := hplace
      rw [h.numbered.at?_of_resolve? hx] at hz
      cases hz
      refine ⟨{ x with emitName := some emitName }, if_pos ⟨rfl, rfl⟩, hkept.trans ?_⟩
      exact ⟨rfl, Or.inl rfl, Or.inr ⟨hnone, hcause.imp_right (Or.imp_right False.elim)⟩⟩
    · exact ⟨z, (if_neg hplace).trans hz, hkept⟩
  symbol_mono _ _ := trivial
  symbol_none _ _ := trivial
  symbol_param _ _ := trivial
  symbol_qubits _ _ _ _ := trivial
  symbol_clbits _ _ _ _ _ := trivial
  symbol_copy _ _ _ _ _ _ _ := trivial
  resolves_subroutine _ _ _ := trivial
  resolves_gate _ _ _ := trivial
  resolves_qubits _ _ _ := trivial
  resolves_clbits _ _ _ := trivial
  view_element _ _ _ _ := trivial

namespace Analysis

section Nesting

variable {branched : Prop} {floor : Nat} {before : Scopes} {calls : Calls}

/-- No call does more to the levels outside than what stands around it may do. -/
theorem pervasive_guarded (branched : Prop) (floor : Nat) (before : Scopes) :
    (StatementInvariant.guarded branched floor before).Pervasive where
  entered kind _ h := (h.enter kind).congr rfl rfl
  left _ h hgrows ht := (h.exit hgrows ht).congr rfl rfl
  measured _ _ := trivial
  view _ _ _ _ _ := trivial
  op _ _ _ _ := trivial
  defined _ _ _ _ := trivial

theorem Expands.staying {W : WritingInvariant} {J : Invariant} {name : String} {kind : ScopeKind}
    {pre : State → Prop} (h : Expands W.toInvariant J name kind pre) (scopes : Scopes) :
    Expands (W.staying scopes).toInvariant J name kind pre where
  excuses := h.excuses
  tallied := h.tallied
  flat := h.flat
  entered s hs := h.entered s hs.1
  left s t hs hframe ht := ⟨h.left s t hs.1 hframe ht, hs.2.trans hframe.scopes.exit⟩

/-- Calls declare nothing where they stand. -/
theorem nested_staying (branched : Prop) (floor : Nat) (before scopes : Scopes) (n : Nat) :
    CallsAgree ((StatementInvariant.guarded branched floor before).staying scopes).toInvariant
      (fun _ => 0) 0 (.nested n) (.nested n) := by
  induction n with
  | zero => exact nested_zero_agree _
  | succ n ih =>
    have hguarded := pervasive_guarded branched floor before
    exact nested_succ_agree ih (hguarded.nested n) (hguarded.block (hguarded.nested n))
      (fun name kind pre _ => (hguarded.expands name kind pre).staying scopes)
      (fun _ _ _ => trivial) (fun _ _ => trivial) (fun _ _ _ _ _ => trivial) fun _ _ _ _ => trivial

/-- From the body of a definition, nothing outside is seen that can be written to. -/
theorem expands_evaluated (name : String) {kind : ScopeKind} (hkind : kind.isBody = true)
    (pre : State → Prop) :
    Expands (.evaluated before)
      (StatementInvariant.guarded False (before.depth + 1) before).toInvariant name kind pre where
  excuses _ := id
  tallied := id
  flat _ _ h := h
  entered s hs _ _ := by
    refine ⟨hs.numbered.enter kind, ?_, False.elim, fun k _ name x hx => ?_, fun name x hx _ => ?_⟩
    · rw [← hs.stays.grows.depth_eq]
      exact Nat.le_refl _
    · obtain ⟨y, hy, hkept⟩ := hs.kept k name x hx
      exact ⟨y, (Scopes.at?_enter s.scopes kind k name).trans hy, hkept⟩
    · exact Or.inl (Scopes.resolve?_enter_body hkind hx).2
  left s t hs hframe ht := by
    have hsame := hframe.scopes.exit
    refine ⟨ht.numbered.exit, hs.stays.trans hsame, fun k name x hx => ?_⟩
    have hk : k ≤ before.depth := Scopes.le_depth_of_at? hx
    obtain ⟨y, hy, hkept⟩ := ht.kept k (Nat.lt_succ_of_le hk) name x hx
    exact ⟨y, (Scopes.at?_exit (Nat.lt_of_lt_of_le (Nat.lt_succ_of_le hk) ht.inside) name).trans hy,
      hkept⟩

theorem nested_evaluated (before : Scopes) (n : Nat) :
    CallsAgree (.evaluated before) (fun _ => 0) 0 (.nested n) (.nested n) := by
  induction n with
  | zero => exact nested_zero_agree _
  | succ n ih =>
    have hguarded := pervasive_guarded False (before.depth + 1) before
    exact nested_succ_agree ih (hguarded.nested n) (hguarded.block (hguarded.nested n))
      (fun name _ pre hkind => expands_evaluated name hkind pre)
      (fun _ _ _ => trivial) (fun _ _ => trivial) (fun _ _ _ _ _ => trivial) fun _ _ _ _ => trivial

end Nesting

end Analysis

end OpenQasm
