import Mathlib.Logic.Basic
import OpenQasm.Proofs.Agreement
import OpenQasm.Proofs.Levels

/-!
Scopes under any sequence of entering, leaving, declaring and changing what is known about a symbol. A name
stands for the symbol of the innermost scope that declares it, as far as the nearest body; what lies around
a body is not seen, apart from the constants and definitions of the global scope. A scope that is left
leaves nothing behind.
-/
namespace OpenQasm

/-- A change to what is known about symbols: their names and scopes stay. -/
structure Symbol.Update where
  apply : Symbol → Symbol
  name : ∀ x, (apply x).name = x.name
  scope : ∀ x, (apply x).scope = x.scope

namespace Scopes

variable {s : Scopes} {name : String} {x y : Symbol} {symbols global : List Symbol}
  {inner outer : List Scope} {a : Scope}

/-- No symbol has the name. -/
def Free (name : String) (symbols : List Symbol) : Prop := ∀ y ∈ symbols, y.name ≠ name

/-- A name that is declared once stands for the symbol that has it. -/
theorem find?_eq_some_iff (h : (symbols.map Symbol.name).Nodup) :
    Symbol.find? name symbols = some x ↔ x ∈ symbols ∧ x.name = name := by
  constructor
  · exact mem_of_find?
  rintro ⟨hmem, hname⟩
  induction symbols with
  | nil => nomatch hmem
  | cons y ys ih =>
    obtain ⟨hfirst, hrest⟩ := List.nodup_cons.1 h
    rw [find?_push]
    rcases List.mem_cons.1 hmem with rfl | hmem
    · rw [if_pos hname]
    · have hother : y.name ≠ name := fun hy =>
        hfirst (hy.trans hname.symm ▸ List.mem_map_of_mem hmem)
      rw [if_neg hother, ih hrest hmem]

theorem find?_eq_none_iff : Symbol.find? name symbols = none ↔ Free name symbols := by
  unfold Symbol.find? Free
  rw [List.find?_eq_none]
  exact forall₂_congr fun y _ => not_congr beq_iff_eq

section Sight

/-- A scope that is looked through for a name: a block that does not declare it. -/
def LooksThrough (name : String) (a : Scope) : Prop := a.kind = .block ∧ Free name a.symbols

/-- What a name stands for lexically, in scopes given from the innermost one on. -/
inductive Sees (global : List Symbol) (inner : List Scope) (name : String) (x : Symbol) : Prop
  /-- The innermost scope that declares it, with only blocks on the way. -/
  | local (near : List Scope) (a : Scope) (far : List Scope) : inner = near ++ a :: far →
      (∀ b ∈ near, LooksThrough name b) → x ∈ a.symbols → x.name = name → Sees global inner name x
  /-- From outside of all bodies, a global symbol. -/
  | global : (∀ b ∈ inner, LooksThrough name b) → x ∈ global → x.name = name →
      Sees global inner name x
  /-- From a body that does not declare it, a global constant or definition. -/
  | fromBody (near : List Scope) (a : Scope) (far : List Scope) : inner = near ++ a :: far →
      (∀ b ∈ near, LooksThrough name b) → a.kind ≠ .block → Free name a.symbols →
      x ∈ global → x.name = name →
      x.kind = .constant ∨ x.kind = .gateDefinition ∨ x.kind = .subroutineDefinition →
      Sees global inner name x

theorem crossesBodies_iff : x.crossesBodies = true ↔
    x.kind = .constant ∨ x.kind = .gateDefinition ∨ x.kind = .subroutineDefinition := by
  simp [Symbol.crossesBodies, or_assoc]

theorem sees_nil : Sees global [] name x ↔ x ∈ global ∧ x.name = name := by
  constructor
  · rintro (⟨near, a, far, hinner, -⟩ | ⟨-, hmem, hname⟩ | ⟨near, a, far, hinner, -⟩)
    · exact absurd hinner (by simp)
    · exact ⟨hmem, hname⟩
    · exact absurd hinner (by simp)
  · exact fun ⟨hmem, hname⟩ => .global (fun _ hb => nomatch hb) hmem hname

/-- A scope that declares the name ends the search. -/
theorem sees_cons_of_declares (hy : y ∈ a.symbols) (hname : y.name = name) :
    Sees global (a :: outer) name x ↔ x ∈ a.symbols ∧ x.name = name := by
  have hdeclares : ¬ Free name a.symbols := fun hfree => hfree y hy hname
  constructor
  · rintro (⟨near, b, far, hinner, hnear, hmem, hx⟩ | ⟨hall, -⟩ | ⟨near, b, far, hinner, hnear, -, hfree, -⟩)
    · cases near with
      | nil =>
        cases hinner
        exact ⟨hmem, hx⟩
      | cons c near =>
        cases hinner
        exact absurd (hnear a List.mem_cons_self).2 hdeclares
    · exact absurd (hall a List.mem_cons_self).2 hdeclares
    · cases near with
      | nil =>
        cases hinner
        exact absurd hfree hdeclares
      | cons c near =>
        cases hinner
        exact absurd (hnear a List.mem_cons_self).2 hdeclares
  · exact fun ⟨hmem, hx⟩ => .local [] a outer rfl (fun _ hb => nomatch hb) hmem hx

/-- A body that does not declare the name leaves only some global symbols. -/
theorem sees_cons_of_body (hbody : a.kind ≠ .block) (hfree : Free name a.symbols) :
    Sees global (a :: outer) name x ↔ x ∈ global ∧ x.name = name ∧ x.crossesBodies = true := by
  rw [crossesBodies_iff]
  constructor
  · rintro (⟨near, b, far, hinner, hnear, hmem, hx⟩ | ⟨hall, -⟩ |
      ⟨near, b, far, hinner, hnear, -, -, hmem, hx, hkind⟩)
    · cases near with
      | nil =>
        cases hinner
        exact absurd hx (hfree x hmem)
      | cons c near =>
        cases hinner
        exact absurd (hnear a List.mem_cons_self).1 hbody
    · exact absurd (hall a List.mem_cons_self).1 hbody
    · exact ⟨hmem, hx, hkind⟩
  · exact fun ⟨hmem, hx, hkind⟩ =>
      .fromBody [] a outer rfl (fun _ hb => nomatch hb) hbody hfree hmem hx hkind

/-- A block that does not declare the name is looked through. -/
theorem sees_cons_of_looksThrough (h : LooksThrough name a) :
    Sees global (a :: outer) name x ↔ Sees global outer name x := by
  constructor
  · rintro (⟨near, b, far, hinner, hnear, hmem, hx⟩ | ⟨hall, hmem, hx⟩ |
      ⟨near, b, far, hinner, hnear, hbody, hfree, hmem, hx, hkind⟩)
    · cases near with
      | nil =>
        cases hinner
        exact absurd hx (h.2 x hmem)
      | cons c near =>
        cases hinner
        exact .local near b far rfl (fun d hd => hnear d (List.mem_cons_of_mem _ hd)) hmem hx
    · exact .global (fun d hd => hall d (List.mem_cons_of_mem _ hd)) hmem hx
    · cases near with
      | nil =>
        cases hinner
        exact absurd h.1 hbody
      | cons c near =>
        cases hinner
        exact .fromBody near b far rfl (fun d hd => hnear d (List.mem_cons_of_mem _ hd)) hbody hfree
          hmem hx hkind
  · rintro (⟨near, b, far, rfl, hnear, hmem, hx⟩ | ⟨hall, hmem, hx⟩ |
      ⟨near, b, far, rfl, hnear, hbody, hfree, hmem, hx, hkind⟩)
    · exact .local (a :: near) b far rfl (List.forall_mem_cons.2 ⟨h, hnear⟩) hmem hx
    · exact .global (List.forall_mem_cons.2 ⟨h, hall⟩) hmem hx
    · exact .fromBody (a :: near) b far rfl (List.forall_mem_cons.2 ⟨h, hnear⟩) hbody hfree hmem hx
        hkind

theorem globalSymbol?_eq_some_iff (h : (global.map Symbol.name).Nodup) (fromBody : Bool) :
    globalSymbol? global fromBody name = some x ↔
      x ∈ global ∧ x.name = name ∧ (fromBody = true → x.crossesBodies = true) := by
  unfold globalSymbol?
  rw [Option.filter_eq_some_iff, find?_eq_some_iff h, and_assoc]
  cases fromBody <;> simp

/-- Where no scope declares a name twice, looking a name up finds what it stands for lexically. -/
theorem resolveIn_eq_some_iff (hglobal : (global.map Symbol.name).Nodup)
    (hinner : ∀ a ∈ inner, (a.symbols.map Symbol.name).Nodup) :
    resolveIn global name inner = some x ↔ Sees global inner name x := by
  induction inner with
  | nil =>
    rw [resolveIn, globalSymbol?_eq_some_iff hglobal, sees_nil]
    simp
  | cons a outer ih =>
    obtain ⟨hfirst, hrest⟩ := List.forall_mem_cons.1 hinner
    rw [resolveIn]
    rcases hfind : Symbol.find? name a.symbols with _ | y
    · have hfree : Free name a.symbols := find?_eq_none_iff.1 hfind
      dsimp only
      split
      · next hbody =>
        have hkind : a.kind ≠ .block := by simpa [ScopeKind.isBody] using hbody
        rw [globalSymbol?_eq_some_iff hglobal, sees_cons_of_body hkind hfree]
        simp
      · next hbody =>
        have hkind : a.kind = .block := by simpa [ScopeKind.isBody] using hbody
        rw [ih hrest, sees_cons_of_looksThrough ⟨hkind, hfree⟩]
    · obtain ⟨hmem, hname⟩ := mem_of_find? hfind
      rw [sees_cons_of_declares hmem hname, ← find?_eq_some_iff hfirst, hfind]

end Sight

section Levels

/-- The symbols of a level: the global scope is on level zero. -/
def level (s : Scopes) (k : Nat) : List Symbol := levelIn s.global k s.inner

theorem level_zero (s : Scopes) : s.level 0 = s.global := levelIn_zero s.global s.inner

theorem level_depth (s : Scopes) : s.level s.depth = s.current := by
  obtain ⟨global, inner⟩ := s
  cases inner with
  | nil => rfl
  | cons a outer => exact levelIn_cons_self global a outer

theorem level_enter (s : Scopes) (kind : ScopeKind) (k : Nat) : (s.enter kind).level k = s.level k := by
  unfold level enter
  rw [levelIn]
  split
  · next hk => rw [levelIn_of_lt (Nat.lt_of_lt_of_eq (Nat.lt_succ_self _) hk.symm)]
  · rfl

theorem level_exit (s : Scopes) (k : Nat) : s.exit.level k = s.level k ∨ s.exit.level k = [] := by
  obtain ⟨global, inner⟩ := s
  cases inner with
  | nil => exact Or.inl rfl
  | cons a outer =>
    rcases Nat.lt_or_ge outer.length k with hk | hk
    · exact Or.inr (levelIn_of_lt hk)
    · exact Or.inl (levelIn_cons_of_le hk a).symm

theorem level_push (s : Scopes) (x : Symbol) (k : Nat) :
    (s.push x).level k =
      if k = s.depth then { x with scope := s.depth } :: s.level k else s.level k := by
  obtain ⟨global, inner⟩ := s
  cases inner with
  | nil =>
    simp only [push, level, levelIn, depth, List.length_nil]
    by_cases hk : k = 0
    · simp [hk]
    · simp [hk]
  | cons a outer =>
    simp only [push, level, levelIn, depth, List.length_cons]
    by_cases hk : k = outer.length + 1
    · simp [hk]
    · simp [hk]

variable {f : Symbol → Symbol}

theorem levelIn_modifyInner_cases (name : String) (f : Symbol → Symbol) (global : List Symbol)
    (inner : List Scope) (k : Nat) :
    levelIn global k (modifyInner name f inner).1 = levelIn global k inner ∨
      levelIn global k (modifyInner name f inner).1 =
        Symbol.modifyIn name f (levelIn global k inner) := by
  have hlength (inner : List Scope) : (modifyInner name f inner).1.length = inner.length := by
    induction inner with
    | nil => rfl
    | cons a outer ih =>
      rw [modifyInner]
      split
      · rfl
      · split
        · rfl
        · rw [List.length_cons, List.length_cons, ih]
  induction inner with
  | nil => exact Or.inl rfl
  | cons a outer ih =>
    rw [modifyInner]
    split
    · rw [levelIn, levelIn]
      split
      · exact Or.inr rfl
      · exact Or.inl rfl
    · split
      · exact Or.inl rfl
      · dsimp only
        rw [levelIn, levelIn, hlength]
        split
        · exact Or.inl rfl
        · exact ih

theorem levelIn_modifyGlobal_cases (name : String) (f : Symbol → Symbol) (global : List Symbol)
    (inner : List Scope) (k : Nat) :
    levelIn (Symbol.modifyIn name f global) k inner = levelIn global k inner ∨
      levelIn (Symbol.modifyIn name f global) k inner =
        Symbol.modifyIn name f (levelIn global k inner) := by
  induction inner with
  | nil =>
    rw [levelIn, levelIn]
    split
    · exact Or.inr rfl
    · exact Or.inl rfl
  | cons a outer ih =>
    rw [levelIn, levelIn]
    split
    · exact Or.inl rfl
    · exact ih

/-- A change reaches at most the symbol of its name on a level. -/
theorem level_modify_cases (s : Scopes) (name : String) (f : Symbol → Symbol) (k : Nat) :
    (s.modify name f).level k = s.level k ∨
      (s.modify name f).level k = Symbol.modifyIn name f (s.level k) := by
  unfold modify
  dsimp only
  split
  · exact levelIn_modifyInner_cases name f s.global s.inner k
  · split
    · exact levelIn_modifyGlobal_cases name f s.global s.inner k
    · exact Or.inl rfl

/-- The symbols of every open scope are those of a level. -/
theorem exists_levelIn (global : List Symbol) (ha : a ∈ inner) :
    ∃ k ≤ inner.length, levelIn global k inner = a.symbols := by
  induction inner with
  | nil => nomatch ha
  | cons b outer ih =>
    rcases List.mem_cons.1 ha with rfl | ha
    · exact ⟨outer.length + 1, Nat.le_refl _, levelIn_cons_self global a outer⟩
    · obtain ⟨k, hk, hlevel⟩ := ih ha
      exact ⟨k, Nat.le_succ_of_le hk, by rw [levelIn_cons_of_le hk, hlevel]⟩

end Levels

section Listing

/-- A level declares each name once, and its symbols know the level. -/
structure Listed (k : Nat) (symbols : List Symbol) : Prop where
  names : (symbols.map Symbol.name).Nodup
  scope : ∀ x ∈ symbols, x.scope = k

theorem Listed.nil (k : Nat) : Listed k [] := ⟨List.nodup_nil, fun _ hx => nomatch hx⟩

theorem Listed.update {k : Nat} (h : Listed k symbols) (name : String) (u : Symbol.Update) :
    Listed k (Symbol.modifyIn name u.apply symbols) := by
  have hnames : (Symbol.modifyIn name u.apply symbols).map Symbol.name = symbols.map Symbol.name := by
    clear h
    induction symbols with
    | nil => rfl
    | cons y ys ih =>
      rw [Symbol.modifyIn]
      split
      · rw [List.map_cons, List.map_cons, u.name]
      · rw [List.map_cons, List.map_cons, ih]
  refine ⟨hnames ▸ h.names, fun x hx => ?_⟩
  rcases mem_modifyIn hx with hx | ⟨y, hy, rfl⟩
  · exact h.scope x hx
  · rw [u.scope]
    exact h.scope y (mem_of_find? hy).1

/-- All levels are listed. -/
def Lexical (s : Scopes) : Prop := ∀ k, Listed k (s.level k)

theorem lexical_empty : Lexical empty := by
  intro k
  unfold level empty
  rw [levelIn]
  split <;> exact Listed.nil k

theorem Lexical.enter (h : s.Lexical) (kind : ScopeKind) : (s.enter kind).Lexical := fun k =>
  (level_enter s kind k).symm ▸ h k

theorem Lexical.exit (h : s.Lexical) : s.exit.Lexical := by
  intro k
  rcases level_exit s k with hlevel | hlevel
  · exact hlevel ▸ h k
  · exact hlevel ▸ Listed.nil k

theorem Lexical.modify (h : s.Lexical) (name : String) (u : Symbol.Update) :
    (s.modify name u.apply).Lexical := by
  intro k
  rcases level_modify_cases s name u.apply k with hlevel | hlevel
  · exact hlevel ▸ h k
  · exact hlevel ▸ (h k).update name u

/-- A name that is free in the current scope may be declared there. -/
theorem Lexical.push (h : s.Lexical) (hfree : Free x.name s.current) : (s.push x).Lexical := by
  intro k
  rw [level_push]
  split
  · next hk =>
    subst hk
    rw [← level_depth] at hfree
    have hnew : x.name ∉ (s.level s.depth).map Symbol.name := fun hmem => by
      obtain ⟨y, hy, hname⟩ := List.mem_map.1 hmem
      exact hfree y hy hname
    exact ⟨List.nodup_cons.2 ⟨hnew, (h _).names⟩, List.forall_mem_cons.2 ⟨rfl, (h _).scope⟩⟩
  · exact h k

theorem Lexical.resolve?_eq_some_iff (h : s.Lexical) :
    s.resolve? name = some x ↔ Sees s.global s.inner name x := by
  refine resolveIn_eq_some_iff (level_zero s ▸ (h 0).names) fun a ha => ?_
  obtain ⟨k, -, hlevel⟩ := exists_levelIn s.global ha
  exact hlevel ▸ (h k).names

/-- A declaration clashes with the symbol of the current scope that has its name. -/
theorem Lexical.declare_eq_error_iff (h : s.Lexical) :
    s.declare x = .error y ↔ y ∈ s.current ∧ y.name = x.name := by
  have hnames : (s.current.map Symbol.name).Nodup := level_depth s ▸ (h s.depth).names
  rw [← find?_eq_some_iff hnames]
  unfold declare here?
  cases Symbol.find? x.name s.current <;> simp

theorem Lexical.declare (h : s.Lexical) {t : Scopes} (ht : s.declare x = .ok t) : t.Lexical := by
  unfold Scopes.declare at ht
  split at ht
  · nomatch ht
  · next hnone =>
    cases ht
    exact h.push (find?_eq_none_iff.1 hnone)

end Listing

end Scopes

namespace Analysis

/-- What happens to scopes. -/
inductive ScopeEvent
  | enter (kind : ScopeKind)
  | exit
  | declare (x : Symbol)
  | update (name : String) (u : Symbol.Update)

namespace ScopeEvent

def step : ScopeEvent → Analysis Unit
  | enter kind => modify fun s => { s with scopes := s.scopes.enter kind }
  | exit => modify fun s => { s with scopes := s.scopes.exit }
  | declare x => Analysis.declare x
  | update name u => modifySymbol name u.apply

/-- The state after events, whether they succeed or not. -/
def follow (config : Config) : List ScopeEvent → State → State
  | [], s => s
  | e :: es, s => follow config es (e.step config s).2

/-- Events of which each entrance has its exit; nothing is updated. -/
inductive WellNested : List ScopeEvent → Prop
  | nil : WellNested []
  | declare (x : Symbol) {es : List ScopeEvent} : WellNested es → WellNested (declare x :: es)
  | scope (kind : ScopeKind) {es fs : List ScopeEvent} : WellNested es → WellNested fs →
      WellNested (enter kind :: es ++ exit :: fs)

end ScopeEvent

open ScopeEvent

variable {config : Config} {s t : State} {x : Symbol}

theorem declare_run (config : Config) (s : State) (x : Symbol) :
    Analysis.declare x config s =
      match s.scopes.declare x with
      | .error first => (.error (.statement ⟨takenBy first, s.span⟩), s)
      | .ok scopes => (.ok (), { s with scopes }) := by
  rw [Analysis.declare, run_get]
  cases s.scopes.declare x <;> rfl

/-- A declaration fails exactly if its name is taken in the current scope, and then nothing changes. -/
theorem declare_run_eq_error {e : Failure} (h : s.scopes.Lexical) :
    Analysis.declare x config s = (.error e, t) ↔
      ∃ first ∈ s.scopes.current, first.name = x.name ∧
        e = .statement ⟨takenBy first, s.span⟩ ∧ t = s := by
  rw [declare_run]
  constructor
  · intro hrun
    split at hrun
    · next first hfirst =>
      obtain ⟨hmem, hname⟩ := h.declare_eq_error_iff.1 hfirst
      cases hrun
      exact ⟨first, hmem, hname, rfl, rfl⟩
    · nomatch hrun
  · rintro ⟨first, hmem, hname, rfl, rfl⟩
    rw [h.declare_eq_error_iff.2 ⟨hmem, hname⟩]

theorem lexical_step (h : s.scopes.Lexical) (e : ScopeEvent) : (e.step config s).2.scopes.Lexical := by
  cases e with
  | enter kind => exact h.enter kind
  | exit => exact h.exit
  | update name u => exact h.modify name u
  | declare x =>
    rw [step, declare_run]
    rcases hdeclared : s.scopes.declare x with first | scopes
    · exact h
    · exact h.declare hdeclared

theorem lexical_follow (h : s.scopes.Lexical) (es : List ScopeEvent) :
    (follow config es s).scopes.Lexical := by
  induction es generalizing s with
  | nil => exact h
  | cons e es ih => exact ih (lexical_step h e)

theorem follow_append (es fs : List ScopeEvent) (s : State) :
    follow config (es ++ fs) s = follow config fs (follow config es s) := by
  induction es generalizing s with
  | nil => rfl
  | cons e es ih => exact ih _

/-- Well-nested events inside a scope add to that scope and change nothing else. -/
theorem ScopeEvent.WellNested.follow {es : List ScopeEvent} (h : WellNested es) {a : Scope} {outer : List Scope}
    (hs : s.scopes.inner = a :: outer) :
    (ScopeEvent.follow config es s).scopes.global = s.scopes.global ∧
      ∃ b, (ScopeEvent.follow config es s).scopes.inner = b :: outer := by
  induction h generalizing s a outer with
  | nil => exact ⟨rfl, a, hs⟩
  | @declare x es _ ih =>
    have hstep : ((ScopeEvent.declare x).step config s).2.scopes.global = s.scopes.global ∧
        ∃ b, ((ScopeEvent.declare x).step config s).2.scopes.inner = b :: outer := by
      rw [step, declare_run]
      rcases hdeclared : s.scopes.declare x with first | scopes
      · exact ⟨rfl, a, hs⟩
      · cases Scopes.eq_push_of_declare hdeclared
        unfold Scopes.push
        rw [hs]
        exact ⟨rfl, _, rfl⟩
    obtain ⟨hglobal, b, hb⟩ := hstep
    rw [ScopeEvent.follow, ← hglobal]
    exact ih hb
  | @scope kind es fs _ _ ihInside ihAfter =>
    -- The exit takes away the scope that the entrance has put on top.
    rw [List.cons_append, ScopeEvent.follow, follow_append, ScopeEvent.follow]
    have hentered : ((ScopeEvent.enter kind).step config s).2.scopes.inner =
        ⟨kind, []⟩ :: s.scopes.inner := rfl
    obtain ⟨hglobal, b, hb⟩ := ihInside hentered
    have hleft : ((ScopeEvent.exit).step config
        (ScopeEvent.follow config es ((ScopeEvent.enter kind).step config s).2)).2.scopes.inner =
          a :: outer := by
      rw [← hs]
      exact congrArg List.tail hb
    obtain ⟨hglobal', hafter⟩ := ihAfter hleft
    exact ⟨hglobal'.trans hglobal, hafter⟩

/-- What happens in a scope of its own leaves nothing behind. -/
theorem ScopeEvent.WellNested.follow_scope {es : List ScopeEvent} (h : WellNested es) (kind : ScopeKind)
    (s : State) :
    (ScopeEvent.follow config (.enter kind :: es ++ [.exit]) s).scopes = s.scopes := by
  rw [List.cons_append, ScopeEvent.follow, follow_append]
  have hentered : ((ScopeEvent.enter kind).step config s).2.scopes.inner =
      ⟨kind, []⟩ :: s.scopes.inner := rfl
  obtain ⟨hglobal, b, hb⟩ := h.follow hentered
  exact congrArg₂ Scopes.mk hglobal (congrArg List.tail hb)

/-- Whatever was entered, left, declared and updated: a scope has each of its symbols once, with the number
of the scope; a name stands for what it means lexically; a declaration fails exactly if its name is taken in
the current scope, and then nothing has changed; and a scope that is entered and left again, without an
update in it, leaves the scopes exactly as they were. -/
theorem follow_scopes (config : Config) (events : List ScopeEvent) (s : State) :
    let t := ScopeEvent.follow config events { s with scopes := .empty }
    (∀ k, ((t.scopes.level k).map Symbol.name).Nodup ∧ ∀ x ∈ t.scopes.level k, x.scope = k) ∧
    (∀ name x, t.scopes.resolve? name = some x ↔
      Scopes.Sees t.scopes.global t.scopes.inner name x) ∧
    (∀ x e u, Analysis.declare x config t = (.error e, u) ↔
      ∃ first ∈ t.scopes.current, first.name = x.name ∧
        e = .statement ⟨takenBy first, t.span⟩ ∧ u = t) ∧
    ∀ kind inside, WellNested inside →
      (ScopeEvent.follow config (.enter kind :: inside ++ [.exit]) t).scopes = t.scopes := by
  intro t
  have h : t.scopes.Lexical := lexical_follow Scopes.lexical_empty events
  exact ⟨fun k => ⟨(h k).names, (h k).scope⟩, fun name x => h.resolve?_eq_some_iff,
    fun x e u => declare_run_eq_error h, fun kind inside hinside => hinside.follow_scope kind t⟩

-- The body of a subroutine that is called in a block sees a constant, but no variable.
example :
    let x : Symbol := ⟨"v", .classicalVariable, .none, .none, .none, true, 0, .none, .none, .none⟩
    let t := ScopeEvent.follow .default [.declare x, .declare { x with name := "n", kind := .constant },
      .enter .block, .declare { x with name := "w" }, .enter .subroutineBody] .initial
    ["n", "v", "w"].map (fun name => (t.scopes.resolve? name).isSome) = [true, false, false] := by
  decide

end Analysis

end OpenQasm
