import OpenQasm.Proofs.Allocation

/-!
The names of the flat program that assignments go to. A symbol gets a name that was free, or the name of
another symbol if it cannot be written to; the latter is only so at the beginning of a body. The code in the
body does not see what is around it, so that names which are taken when the body is entered are not assigned to
there, unless they are handed in with a symbol that can be written to.
-/
namespace OpenQasm

namespace FlatStatement

mutual

/-- An assignment to a name, or to a part of what it stands for, is in a statement. -/
def Assigns (name : String) : FlatStatement → Prop
  | assign target _ => target.rootName? = some name
  | branch _ _ thenBody elseBody => BodyAssigns name thenBody ∨ BodyAssigns name elseBody
  | op _ | pragma _ => False

def BodyAssigns (name : String) : List FlatStatement → Prop
  | [] => False
  | s :: ss => s.Assigns name ∨ BodyAssigns name ss

end

/-- No assignment in a statement is to one of some names. -/
def Avoids (names : String → Prop) (f : FlatStatement) : Prop := ∀ m, f.Assigns m → ¬names m

theorem bodyAssigns_iff {name : String} {body : List FlatStatement} :
    BodyAssigns name body ↔ ∃ f ∈ body, f.Assigns name := by
  induction body with
  | nil => exact ⟨False.elim, fun ⟨_, h, _⟩ => nomatch h⟩
  | cons f fs ih => simp only [BodyAssigns, ih, List.mem_cons, or_and_right, exists_or, exists_eq_left]

theorem Avoids.branch {names : String → Prop} {thenBody elseBody : List FlatStatement} (condition : Expr)
    (clbits : List Nat) (hthen : ∀ f ∈ thenBody, f.Avoids names) (helse : ∀ f ∈ elseBody, f.Avoids names) :
    (FlatStatement.branch condition clbits thenBody elseBody).Avoids names := by
  intro m hm
  rw [Assigns, bodyAssigns_iff, bodyAssigns_iff] at hm
  rcases hm with ⟨f, hf, hm⟩ | ⟨f, hf, hm⟩
  · exact hthen f hf m hm
  · exact helse f hf m hm

theorem avoids_assign {names : String → Prop} {name : String} (items : Option (List IndexItem)) (value : Expr)
    (h : ¬names name) : (assign (Analysis.placeExpr name items) value).Avoids names := by
  intro m hm
  have hroot : (Analysis.placeExpr name items).rootName? = some name := by cases items <;> rfl
  cases hroot.symm.trans hm
  exact h

end FlatStatement

namespace Registers

variable {r r' : Registers} {name : String}

theorem not_taken_reserve (r : Registers) (name : String) : ¬r.Taken (r.reserve name).1 :=
  Bool.eq_false_iff.1 (freeName_free r.names name)

theorem taken_reserved (r : Registers) (name : String) : (r.reserve name).2.Taken (r.reserve name).1 :=
  taken_reserve_iff.2 (Or.inl rfl)

/-- A register gets a name that is free and taken afterwards. -/
theorem taken_allocate {size id : Nat} {kind : RegisterKind} {v : View}
    (h : r.allocate name size kind = .ok (id, v, r')) :
    ¬r.Taken (r'.nameOf id) ∧ r'.Taken (r'.nameOf id) := by
  rw [nameOf_allocate h]
  refine ⟨r.not_taken_reserve name, ?_⟩
  rw [Taken, (list_allocate h).2]
  exact r.taken_reserved name

end Registers

open Analysis

section Withholding

/-- Assignments go to names that are taken and not kept back. -/
def Facts.withholding (kept : String → Prop) : Facts :=
  { Facts.trivial with
    target := fun r m => r.Taken m ∧ ¬kept m
    target_mono := fun hextends h => ⟨hextends.taken h.1, h.2⟩
    flat_assign := fun _ _ _ => ⟨⟩ }

/-- No symbol has one of the names that are kept back, and none has a name that is free. -/
structure Analysis.Withheld (kept : String → Prop) (s : State) : Prop where
  taken : ∀ m, kept m → s.registers.Taken m
  symbols : ∀ x, s.scopes.Has x → x.Targeted (.withholding kept) s.registers

namespace Analysis.Withheld

variable {kept : String → Prop} {s t : State}

theorem congr (h : Withheld kept s) (hscopes : t.scopes = s.scopes) (hregisters : t.registers = s.registers) :
    Withheld kept t := by
  refine ⟨?_, ?_⟩
  · rw [hregisters]
    exact h.taken
  · rw [hscopes, hregisters]
    exact h.symbols

theorem registers {registers : Registers} (h : Withheld kept s) (hextends : s.registers.Extends registers) :
    Withheld kept { s with registers } :=
  ⟨fun m hm => hextends.taken (h.taken m hm),
    fun x hx m hm => (Facts.withholding kept).target_mono hextends (h.symbols x hx m hm)⟩

/-- A symbol may get a name that is taken for it, and its value may change. -/
theorem modify (h : Withheld kept s) {f : Symbol → Symbol}
    (hf : ∀ x, x.Targeted (.withholding kept) s.registers → (f x).Targeted (.withholding kept) s.registers)
    (name : String) : Withheld kept { s with scopes := s.scopes.modify name f } := by
  refine ⟨h.taken, fun y hy => ?_⟩
  rcases Scopes.has_modify hy with hy | ⟨x, hx, rfl⟩
  · exact h.symbols y hy
  · exact hf x (h.symbols x (Scopes.has_of_resolve? hx))

theorem declare (h : Withheld kept s) {x : Symbol} {scopes : Scopes}
    (hx : x.Targeted (.withholding kept) s.registers) (hscopes : s.scopes.declare x = .ok scopes) :
    Withheld kept { s with scopes } := by
  cases Scopes.eq_push_of_declare hscopes
  refine ⟨h.taken, fun y hy => ?_⟩
  rcases Scopes.has_push hy with rfl | hy
  · exact hx
  · exact h.symbols y hy

end Analysis.Withheld

/-- The invariant where the names that are kept back are given to no symbol. -/
def StatementInvariant.withholding (kept : String → Prop) : StatementInvariant where
  toFacts := .withholding kept
  excuses _ := False
  core := Withheld kept
  subroutine _ _ := True
  gate _ _ := True
  symbol r x := x.Targeted (.withholding kept) r
  writable _ _ := True
  writable_mono _ _ := ⟨⟩
  core_congr h hscopes hregisters _ _ := h.congr hscopes hregisters
  core_reserve name h := h.registers (Registers.extends_reserve _ name)
  core_allocate h _ hr := h.registers (Registers.extends_allocate hr)
  core_mark q usage h := h.registers (Registers.extends_mark _ q usage)
  tallied_measured h := False.elim h
  target_reserve {s} name h :=
    ⟨s.registers.taken_reserved name, fun hm => s.registers.not_taken_reserve name (h.taken _ hm)⟩
  target_allocate h hr :=
    ⟨(Registers.taken_allocate hr).2, fun hm => (Registers.taken_allocate hr).1 (h.taken _ hm)⟩
  target_writable h _ hx hm := h.symbols _ (Scopes.has_of_resolve? hx) _ hm
  core_name {_ name _ emitName} h htarget _ _ _ _ := by
    refine h.modify (f := fun y => { y with emitName := some emitName }) (fun _ _ => ?_) name
    rintro _ ⟨⟩
    exact htarget
  symbol_mono hextends h m hm := (Facts.withholding kept).target_mono hextends (h m hm)
  symbol_none _ h := h
  symbol_param _ h := h
  symbol_qubits _ _ _ h := h
  symbol_clbits _ _ h _ _ := h
  symbol_copy h hx _ _ _ hname _ := by
    have hsymbol := h.symbols _ (Scopes.has_of_resolve? hx)
    exact fun m hm => hsymbol m (hname.symm.trans hm)
  resolves_subroutine _ _ _ := ⟨⟩
  resolves_gate _ _ _ := ⟨⟩
  resolves_qubits _ _ _ := ⟨⟩
  resolves_clbits _ _ _ := ⟨⟩
  view_element _ _ _ _ := ⟨⟩
  written _ _ := True
  writable_of_resolve _ _ _ _ := ⟨⟩
  core_value {_ name _} value h _ _ _ :=
    ⟨h.modify (f := fun y => { y with value }) (fun _ hx => hx) name, ⟨⟩⟩
  core_forget name h := ⟨h.modify (f := fun y => { y with value := none }) (fun _ hx => hx) name, ⟨⟩⟩
  core_declare h hx _ hscopes := h.declare hx hscopes
  core_branch h := h.congr rfl rfl
  core_floor _ h := h.congr rfl rfl
  view_allocate _ _ := ⟨⟩
  place_declared _ _ := ⟨⟩

namespace Analysis

variable {kept : String → Prop} {s : State}

theorem Withheld.enter (h : Withheld kept s) (kind : ScopeKind) :
    Withheld kept { s with scopes := s.scopes.enter kind } :=
  ⟨h.taken, fun x hx => h.symbols x (Scopes.has_enter hx)⟩

theorem Withheld.exit (h : Withheld kept s) : Withheld kept { s with scopes := s.scopes.exit } :=
  ⟨h.taken, fun x hx => h.symbols x (Scopes.has_exit hx)⟩

/-- Symbols only ever get names that were free. -/
theorem pervasive_withholding (kept : String → Prop) : (StatementInvariant.withholding kept).Pervasive where
  entered kind _ h := (h.enter kind).congr rfl rfl
  left _ _ _ ht := ht.exit.congr rfl rfl
  measured _ _ := ⟨⟩
  view _ _ _ _ _ := ⟨⟩
  op _ _ _ _ := ⟨⟩
  defined _ hx _ _ := hx.targeted

end Analysis

end Withholding

section Locking

/-- Symbols with one of some names in the flat program are in bodies only, and neither they nor others of their
names can be written to. -/
def Scope.Locks (kept : String → Prop) (a : Scope) : Prop :=
  ∀ x ∈ a.symbols, ∀ m, x.emitName = some m → kept m →
    a.kind.isBody = true ∧ ∀ y ∈ a.symbols, y.name = x.name → y.mutable = false

/-- The scopes that are inside of `depth` others lock names, and the outermost of them is the one of a body. -/
def LockedIn (kept : String → Prop) (depth : Nat) : List Scope → Prop
  | [] => False
  | a :: outer =>
    a.Locks kept ∧ if outer.length = depth then a.kind.isBody = true else LockedIn kept depth outer

/-- Among the scopes that are seen, a name stands for something that can be written to or is in no body. -/
def WritableIn (name : String) : List Scope → Prop
  | [] => False
  | a :: outer =>
    (∃ x ∈ a.symbols, x.name = name ∧ (a.kind.isBody = true → x.mutable = true)) ∨
      a.kind.isBody = false ∧ WritableIn name outer

variable {kept : String → Prop} {depth : Nat} {inner inner' : List Scope} {name : String}

theorem Scope.locks_of_empty (kind : ScopeKind) : Scope.Locks kept ⟨kind, []⟩ := fun _ h => nomatch h

namespace LockedIn

theorem lt_length (h : LockedIn kept depth inner) : depth < inner.length := by
  induction inner with
  | nil => exact h.elim
  | cons a outer ih =>
    rw [List.length_cons]
    by_cases hlast : outer.length = depth
    · omega
    · have houter := ih ((if_neg hlast).mp h.2)
      omega

theorem enter (h : LockedIn kept depth inner) (kind : ScopeKind) :
    LockedIn kept depth (⟨kind, []⟩ :: inner) := by
  have hlt := h.lt_length
  refine ⟨Scope.locks_of_empty kind, ?_⟩
  rw [if_neg (by omega)]
  exact h

theorem exit (h : LockedIn kept depth inner) (hlt : depth + 1 < inner.length) :
    LockedIn kept depth inner.tail := by
  cases inner with
  | nil => exact h.elim
  | cons a outer =>
    rw [List.length_cons] at hlt
    have houter := h.2
    rwa [if_neg (by omega)] at houter

/-- What is declared in the current scope is locked if it has a kept name, which is so in bodies only. -/
theorem push {a : Scope} {outer : List Scope} (h : LockedIn kept depth (a :: outer)) {x : Symbol}
    (hfree : ∀ y ∈ a.symbols, y.name ≠ x.name)
    (hx : ∀ m, x.emitName = some m → kept m → a.kind.isBody = true ∧ x.mutable = false) :
    LockedIn kept depth ({ a with symbols := x :: a.symbols } :: outer) := by
  refine ⟨fun y hy m hm hkept => ?_, h.2⟩
  rcases List.mem_cons.1 hy with rfl | hy
  · obtain ⟨hbody, hmutable⟩ := hx m hm hkept
    refine ⟨hbody, List.forall_mem_cons.2 ⟨fun _ => hmutable, fun z hz hname => ?_⟩⟩
    exact absurd hname (hfree z hz)
  · obtain ⟨hbody, hsame⟩ := h.1 y hy m hm hkept
    exact ⟨hbody, List.forall_mem_cons.2 ⟨fun hname => absurd hname.symm (hfree y hy), hsame⟩⟩

/-- What is known about a symbol may change, and it may get a name that is not kept. -/
theorem modify (h : LockedIn kept depth inner) {f : Symbol → Symbol} (hname : ∀ x, (f x).name = x.name)
    (hmutable : ∀ x, (f x).mutable = x.mutable)
    (hemit : ∀ x m, (f x).emitName = some m → kept m → x.emitName = some m) (name : String) :
    LockedIn kept depth (Scopes.modifyInner name f inner).1 := by
  have hlocks {a : Scope} (ha : a.Locks kept) :
      Scope.Locks kept { a with symbols := Symbol.modifyIn name f a.symbols } := by
    -- Each symbol that is there now has the name of an old one, and can be written to like that one.
    have hold {y : Symbol} (hy : y ∈ Symbol.modifyIn name f a.symbols) : ∃ x ∈ a.symbols,
        y.name = x.name ∧ y.mutable = x.mutable ∧ ∀ m, y.emitName = some m → kept m → x.emitName = some m := by
      rcases Scopes.mem_modifyIn hy with hy | ⟨x, hx, rfl⟩
      · exact ⟨y, hy, rfl, rfl, fun _ hm _ => hm⟩
      · exact ⟨x, List.mem_of_find?_eq_some hx, hname x, hmutable x, hemit x⟩
    intro y hy m hm hkept
    obtain ⟨x, hx, hyname, -, hyemit⟩ := hold hy
    obtain ⟨hbody, hsame⟩ := ha x hx m (hyemit m hm hkept) hkept
    refine ⟨hbody, fun z hz hzname => ?_⟩
    obtain ⟨w, hw, hwname, hwmutable, -⟩ := hold hz
    exact hwmutable.trans (hsame w hw (hwname.symm.trans (hzname.trans hyname)))
  have hlength (inner : List Scope) : (Scopes.modifyInner name f inner).1.length = inner.length := by
    induction inner with
    | nil => rfl
    | cons a outer ih =>
      unfold Scopes.modifyInner
      split
      · rfl
      · split
        · rfl
        · exact congrArg Nat.succ ih
  induction inner with
  | nil => exact h.elim
  | cons a outer ih =>
    unfold Scopes.modifyInner
    split
    · exact ⟨hlocks h.1, h.2⟩
    · split
      · exact h
      · refine ⟨h.1, ?_⟩
        have houter := h.2
        rw [hlength]
        by_cases hlast : outer.length = depth
        · rwa [if_pos hlast] at houter ⊢
        · rw [if_neg hlast] at houter ⊢
          exact ih houter

end LockedIn

theorem WritableIn.persist (h : List.Forall₂ Scope.Within inner inner') (hwritable : WritableIn name inner) :
    WritableIn name inner' := by
  induction h with
  | nil => exact hwritable
  | cons hwithin _ ih =>
    unfold WritableIn at hwritable ⊢
    rw [← hwithin.kind]
    rcases hwritable with ⟨x, hx, hname, hmutable⟩ | ⟨hblock, houter⟩
    · obtain ⟨y, hy, hsame⟩ := List.mem_map.1 (hwithin.symbols (List.mem_map_of_mem hx))
      refine Or.inl ⟨y, hy, (congrArg Symbol.name hsame).trans hname, fun hbody => ?_⟩
      exact (congrArg Symbol.mutable hsame).trans (hmutable hbody)
    · exact Or.inr ⟨hblock, ih houter⟩

theorem writableIn_of_resolve {global : List Symbol} {x : Symbol} (h : LockedIn kept depth inner)
    (hx : Scopes.resolveIn global name inner = some x)
    (hkind : x.kind = .classicalVariable ∨ x.kind = .classicalRegister) (hmutable : x.mutable = true) :
    WritableIn name inner := by
  induction inner with
  | nil => exact h.elim
  | cons a outer ih =>
    unfold Scopes.resolveIn at hx
    split at hx
    · next y hy =>
      cases hx
      obtain ⟨hmem, hname⟩ := Scopes.mem_of_find? hy
      exact Or.inl ⟨x, hmem, hname, fun _ => hmutable⟩
    · next hnone =>
      rcases hbody : a.kind.isBody with - | -
      -- The outermost scope in question is the one of a body, so that the search has not ended yet.
      · rw [hbody, if_neg Bool.false_ne_true] at hx
        have houter := h.2
        by_cases hlast : outer.length = depth
        · rw [if_pos hlast, hbody] at houter
          cases houter
        · rw [if_neg hlast] at houter
          exact Or.inr ⟨hbody, ih houter hx⟩
      · rw [hbody, if_pos rfl] at hx
        have hcrosses := (Option.filter_eq_some_iff.1 hx).2
        rcases hkind with hkind | hkind <;> simp [Symbol.crossesBodies, hkind] at hcrosses

/-- A symbol that can be written to has no kept name. -/
theorem not_kept_of_writable {global : List Symbol} {x : Symbol} {m : String} (h : LockedIn kept depth inner)
    (hwritable : WritableIn name inner) (hx : Scopes.resolveIn global name inner = some x)
    (hm : x.emitName = some m) : ¬kept m := by
  intro hkept
  induction inner with
  | nil => exact h
  | cons a outer ih =>
    unfold Scopes.resolveIn at hx
    split at hx
    · next y hy =>
      cases hx
      obtain ⟨hmem, hxname⟩ := Scopes.mem_of_find? hy
      obtain ⟨hbody, hsame⟩ := h.1 x hmem m hm hkept
      rcases hwritable with ⟨z, hz, hname, hmutable⟩ | ⟨hblock, -⟩
      · have himmutable := hsame z hz (hname.trans hxname.symm)
        exact Bool.false_ne_true (himmutable.symm.trans (hmutable hbody))
      · exact Bool.false_ne_true (hblock.symm.trans hbody)
    · next hnone =>
      rcases hwritable with ⟨z, hz, hname, -⟩ | ⟨hblock, houter⟩
      · exact List.find?_eq_none.1 hnone z hz (beq_iff_eq.2 hname)
      · rw [hblock, if_neg Bool.false_ne_true] at hx
        have hlocked := h.2
        by_cases hlast : outer.length = depth
        · rw [if_pos hlast, hblock] at hlocked
          cases hlocked
        · rw [if_neg hlast] at hlocked
          exact ih hlocked houter hx

/-- No assignment goes to a name that is kept back. -/
def Facts.locking (kept : String → Prop) : Facts :=
  { Facts.trivial with
    target := fun _ m => ¬kept m
    target_mono := fun _ h => h
    flat := fun _ f => f.Avoids kept
    flat_mono := fun _ h => h
    flat_assign := fun items value h => FlatStatement.avoids_assign items value h
    flat_pragma := fun _ _ _ h => h.elim
    flat_gate := fun _ _ _ h => h.elim
    flat_measure := fun _ _ _ h => h.elim
    flat_measureOnly := fun _ _ h => h.elim
    flat_reset := fun _ _ h => h.elim
    flat_barrier := fun _ _ _ _ h => h.elim
    flat_branch := fun condition _ hthen helse => FlatStatement.Avoids.branch condition _ hthen helse }

/-- A body in `depth` scopes, where the names that are kept back cannot be written to. -/
structure Analysis.Locked (kept : String → Prop) (depth : Nat) (s : State) : Prop where
  taken : ∀ m, kept m → s.registers.Taken m
  scopes : LockedIn kept depth s.scopes.inner

namespace Analysis.Locked

variable {s t : State}

theorem congr (h : Locked kept depth s) (hscopes : t.scopes = s.scopes)
    (hregisters : t.registers = s.registers) : Locked kept depth t := by
  refine ⟨?_, ?_⟩
  · rw [hregisters]
    exact h.taken
  · rw [hscopes]
    exact h.scopes

theorem registers {registers : Registers} (h : Locked kept depth s)
    (hextends : s.registers.Extends registers) : Locked kept depth { s with registers } :=
  ⟨fun m hm => hextends.taken (h.taken m hm), h.scopes⟩

theorem modify (h : Locked kept depth s) {f : Symbol → Symbol} (hf : ∀ x, (f x).declared = x.declared)
    (hemit : ∀ x m, (f x).emitName = some m → kept m → x.emitName = some m) (name : String) :
    Locked kept depth { s with scopes := s.scopes.modify name f } := by
  refine ⟨h.taken, ?_⟩
  have hname (x : Symbol) : (f x).declared.name = x.declared.name := congrArg Symbol.name (hf x)
  have hmutable (x : Symbol) : (f x).declared.mutable = x.declared.mutable := congrArg Symbol.mutable (hf x)
  have hinner := h.scopes.modify (f := f) hname hmutable hemit name
  unfold Scopes.modify
  dsimp only
  split
  · exact hinner
  · split <;> exact h.scopes

theorem declare (h : Locked kept depth s) {x : Symbol} {scopes : Scopes}
    (hx : ∀ m, x.emitName = some m → kept m → x.mutable = false)
    (hplace : x.Targeted (.locking kept) s.registers ∨ s.scopes.InBody)
    (hscopes : s.scopes.declare x = .ok scopes) : Locked kept depth { s with scopes } := by
  refine ⟨h.taken, ?_⟩
  have hlocked := h.scopes
  rcases hs : s.scopes.inner with - | ⟨a, outer⟩
  · rw [hs] at hlocked
    exact hlocked.elim
  · rw [hs] at hlocked
    have hfree : s.scopes.here? x.name = none := by
      unfold Scopes.declare at hscopes
      split at hscopes
      · cases hscopes
      · assumption
    have hpush : scopes.inner =
        { a with symbols := { x with scope := s.scopes.depth } :: a.symbols } :: outer := by
      rw [Scopes.eq_push_of_declare hscopes]
      unfold Scopes.push
      rw [hs]
    dsimp only
    rw [hpush]
    refine hlocked.push (fun y hy hname => ?_) fun m hm hkept => ⟨?_, hx m hm hkept⟩
    · unfold Scopes.here? Scopes.current at hfree
      rw [hs] at hfree
      exact List.find?_eq_none.1 hfree y hy (beq_iff_eq.2 hname)
    · rcases hplace with htargeted | ⟨b, hb, hbody⟩
      · exact absurd hkept (htargeted m hm)
      · rw [hs] at hb
        cases hb
        exact hbody

end Analysis.Locked

/-- The invariant of a body where some names are not assigned to. -/
def StatementInvariant.locking (kept : String → Prop) (depth : Nat) : StatementInvariant where
  toFacts := .locking kept
  excuses _ := False
  core := Locked kept depth
  subroutine _ _ := True
  gate _ _ := True
  symbol _ x := ∀ m, x.emitName = some m → kept m → x.mutable = false
  writable name s := WritableIn name s.scopes.inner
  writable_mono hframe h := h.persist hframe.symbols
  core_congr h hscopes hregisters _ _ := h.congr hscopes hregisters
  core_reserve name h := h.registers (Registers.extends_reserve _ name)
  core_allocate h _ hr := h.registers (Registers.extends_allocate hr)
  core_mark q usage h := h.registers (Registers.extends_mark _ q usage)
  tallied_measured h := False.elim h
  target_reserve {s} name h hm := s.registers.not_taken_reserve name (h.taken _ hm)
  target_allocate h hr hm := (Registers.taken_allocate hr).1 (h.taken _ hm)
  target_writable h hwritable hx hm := not_kept_of_writable h.scopes hwritable hx hm
  core_name {_ name _ emitName} h htarget _ _ _ _ := by
    refine h.modify (Symbol.declared_emitName (some emitName)) (fun _ _ => ?_) name
    rintro ⟨⟩ hkept
    exact absurd hkept htarget
  symbol_mono _ h := h
  symbol_none _ h m hm hkept := absurd hkept (h m hm)
  symbol_param _ h m hm hkept := absurd hkept (h m hm)
  symbol_qubits _ _ _ h m hm hkept := absurd hkept (h m hm)
  symbol_clbits _ _ h _ _ m hm hkept := absurd hkept (h m hm)
  symbol_copy _ _ _ _ _ _ hmutable _ _ _ := hmutable
  resolves_subroutine _ _ _ := ⟨⟩
  resolves_gate _ _ _ := ⟨⟩
  resolves_qubits _ _ _ := ⟨⟩
  resolves_clbits _ _ _ := ⟨⟩
  view_element _ _ _ _ := ⟨⟩
  written _ _ := True
  writable_of_resolve h hx hkind hmutable := writableIn_of_resolve h.scopes hx hkind hmutable
  core_value {_ name _} value h _ _ _ :=
    ⟨h.modify (Symbol.declared_value value) (fun _ _ hm _ => hm) name, ⟨⟩⟩
  core_forget name h := ⟨h.modify (Symbol.declared_value none) (fun _ _ hm _ => hm) name, ⟨⟩⟩
  core_declare h hx hplace hscopes := h.declare hx hplace hscopes
  core_branch h := h.congr rfl rfl
  core_floor _ h := h.congr rfl rfl
  view_allocate _ _ := ⟨⟩
  place_declared _ _ := ⟨⟩

namespace Analysis

variable {s t : State}

theorem Locked.enter (h : Locked kept depth s) (kind : ScopeKind) :
    Locked kept depth { s with scopes := s.scopes.enter kind } := ⟨h.taken, h.scopes.enter kind⟩

/-- A scope inside of the body is left. -/
theorem Locked.exit (h : Locked kept depth s) {kind : ScopeKind}
    (hgrows : (s.scopes.enter kind).Grows t.scopes) (ht : Locked kept depth t) :
    Locked kept depth { t with scopes := t.scopes.exit } := by
  refine ⟨ht.taken, ht.scopes.exit ?_⟩
  have hlt := h.scopes.lt_length
  have hdepth : t.scopes.inner.length = s.scopes.inner.length + 1 := hgrows.depth_eq
  omega

/-- The names are not assigned to in the bodies either that are called from the one in question. -/
theorem pervasive_locking (kept : String → Prop) (depth : Nat) :
    (StatementInvariant.locking kept depth).Pervasive where
  entered kind _ h := (h.enter kind).congr rfl rfl
  left _ h hgrows ht := (h.exit hgrows ht).congr rfl rfl
  measured _ _ := ⟨⟩
  view _ _ _ _ _ := ⟨⟩
  op _ _ _ _ := ⟨⟩
  defined _ hx _ _ _ hm _ := nomatch hx.emitName.symm.trans hm

end Analysis

end Locking

end OpenQasm
