import OpenQasm.Scope

/-!
Changes to scopes. What is known about a symbol may change, but not what it is; names are declared in the
current scope only; and what is declared in a scope is gone when it is left.
-/
namespace OpenQasm

/-- What a symbol is, apart from what is known about it. -/
def Symbol.key (x : Symbol) : String × SymbolKind × Binding := (x.name, x.kind, x.binding)

theorem Symbol.crossesBodies_eq {x y : Symbol} (h : y.key = x.key) :
    y.crossesBodies = x.crossesBodies := by
  have hkind : y.kind = x.kind := congrArg (·.2.1) h
  simp only [crossesBodies, hkind]

/-- What is declared in a scope. -/
def Scope.shape (s : Scope) : ScopeKind × List (String × SymbolKind × Binding) :=
  (s.kind, s.symbols.map Symbol.key)

/-- Changes to what is known about symbols. -/
def KeepsKey (f : Symbol → Symbol) : Prop := ∀ x, (f x).key = x.key

theorem KeepsKey.name {f : Symbol → Symbol} (hf : KeepsKey f) (x : Symbol) :
    (f x).name = x.name := congrArg Prod.fst (hf x)

theorem KeepsKey.kind {f : Symbol → Symbol} (hf : KeepsKey f) (x : Symbol) :
    (f x).kind = x.kind := congrArg (·.2.1) (hf x)

theorem keepsKey_value (value : Option Value) : KeepsKey fun x => { x with value := value } :=
  fun _ => rfl

theorem keepsKey_emitName (emitName : Option String) :
    KeepsKey fun x => { x with emitName := emitName } :=
  fun _ => rfl

theorem Symbol.map_modifyIn {β : Type} {f : Symbol → Symbol} {g : Symbol → β} (hf : ∀ x, g (f x) = g x)
    (name : String) (symbols : List Symbol) :
    (Symbol.modifyIn name f symbols).map g = symbols.map g := by
  induction symbols with
  | nil => rfl
  | cons x xs ih =>
    unfold Symbol.modifyIn
    split
    · rw [List.map_cons, List.map_cons, hf x]
    · rw [List.map_cons, List.map_cons, ih]

namespace Scopes

/-- The same symbols are declared. -/
structure Same (s t : Scopes) : Prop where
  global : s.global.map Symbol.key = t.global.map Symbol.key
  inner : s.inner.map Scope.shape = t.inner.map Scope.shape

/-- The same scopes are open, and only the current one may have got more symbols. -/
def Grows (s t : Scopes) : Prop :=
  match s.inner, t.inner with
  | [], [] => s.global.map Symbol.key <:+ t.global.map Symbol.key
  | a :: outer, b :: outer' =>
    s.global.map Symbol.key = t.global.map Symbol.key ∧ a.kind = b.kind ∧
      a.symbols.map Symbol.key <:+ b.symbols.map Symbol.key ∧
      outer.map Scope.shape = outer'.map Scope.shape
  | _, _ => False

variable {s t u : Scopes}

theorem Same.refl (s : Scopes) : Same s s := ⟨rfl, rfl⟩

theorem Same.symm (h : Same s t) : Same t s := ⟨h.global.symm, h.inner.symm⟩

theorem Same.trans (h : Same s t) (h' : Same t u) : Same s u :=
  ⟨h.global.trans h'.global, h.inner.trans h'.inner⟩

theorem Same.grows (h : Same s t) : Grows s t := by
  obtain ⟨global, inner⟩ := s
  obtain ⟨global', inner'⟩ := t
  obtain ⟨hglobal, hinner⟩ := h
  cases inner with
  | nil =>
    cases inner' with
    | nil => exact ⟨[], hglobal⟩
    | cons b outer' => nomatch hinner
  | cons a outer =>
    cases inner' with
    | nil => nomatch hinner
    | cons b outer' =>
      obtain ⟨hscope, houter⟩ := List.cons.inj hinner
      have hkeys : a.symbols.map Symbol.key = b.symbols.map Symbol.key := congrArg Prod.snd hscope
      exact ⟨hglobal, congrArg Prod.fst hscope, hkeys ▸ List.suffix_rfl, houter⟩

theorem Grows.refl (s : Scopes) : Grows s s := (Same.refl s).grows

theorem Grows.trans (h : Grows s t) (h' : Grows t u) : Grows s u := by
  obtain ⟨global, inner⟩ := s
  obtain ⟨global', inner'⟩ := t
  obtain ⟨global'', inner''⟩ := u
  -- All three have the same number of scopes; a different one contradicts one of the two.
  cases inner with
  | nil =>
    cases inner' with
    | nil =>
      cases inner'' with
      | nil => exact List.IsSuffix.trans h h'
      | cons => exact h'.elim
    | cons => exact h.elim
  | cons a outer =>
    cases inner' with
    | nil => exact h.elim
    | cons b outer' =>
      cases inner'' with
      | nil => exact h'.elim
      | cons c outer'' =>
        obtain ⟨hglobal, hkind, hkeys, houter⟩ := h
        obtain ⟨hglobal', hkind', hkeys', houter'⟩ := h'
        exact ⟨hglobal.trans hglobal', hkind.trans hkind', hkeys.trans hkeys',
          houter.trans houter'⟩

theorem Grows.depth_eq (h : Grows s t) : t.depth = s.depth := by
  obtain ⟨global, inner⟩ := s
  obtain ⟨global', inner'⟩ := t
  cases inner with
  | nil =>
    cases inner' with
    | nil => rfl
    | cons => exact h.elim
  | cons a outer =>
    cases inner' with
    | nil => exact h.elim
    | cons b outer' =>
      obtain ⟨-, -, -, houter⟩ := h
      have hlength := congrArg List.length houter
      rw [List.length_map, List.length_map] at hlength
      simp only [depth, List.length_cons, hlength]

/-- What is declared in a scope of its own is gone after it. -/
theorem Grows.exit {kind : ScopeKind} (h : Grows (s.enter kind) t) : Same s t.exit := by
  obtain ⟨global', inner'⟩ := t
  cases inner' with
  | nil => exact h.elim
  | cons b outer' =>
    obtain ⟨hglobal, -, -, houter⟩ := h
    exact ⟨hglobal, houter⟩

theorem grows_push (s : Scopes) (x : Symbol) : Grows s (s.push x) := by
  obtain ⟨global, inner⟩ := s
  cases inner with
  | nil => exact List.suffix_cons _ _
  | cons a outer => exact ⟨rfl, rfl, List.suffix_cons _ _, rfl⟩

theorem grows_declare {x : Symbol} (h : s.declare x = .ok t) : Grows s t := by
  unfold declare at h
  split at h
  · nomatch h
  · cases h
    exact grows_push s x

section Modify

variable {f : Symbol → Symbol}

theorem map_shape_modifyInner (hf : KeepsKey f) (name : String) (inner : List Scope) :
    (modifyInner name f inner).1.map Scope.shape = inner.map Scope.shape := by
  induction inner with
  | nil => rfl
  | cons a outer ih =>
    unfold modifyInner
    split
    · simp only [List.map_cons, Scope.shape, Symbol.map_modifyIn hf]
    · split
      · rfl
      · simp only [List.map_cons, ih]

/-- If no open scope has the name, only the global one may. -/
theorem modifyInner_of_not_found {name : String} {inner : List Scope}
    (h : (modifyInner name f inner).2 = false) :
    (modifyInner name f inner).1 = inner ∧
      ∃ fromBody, ∀ global, resolveIn global name inner = globalSymbol? global fromBody name := by
  induction inner with
  | nil => exact ⟨rfl, false, fun _ => rfl⟩
  | cons a outer ih =>
    unfold modifyInner at h ⊢
    unfold resolveIn
    split at h
    · nomatch h
    · next hnone =>
      rw [Option.not_isSome_iff_eq_none] at hnone
      rw [hnone]
      split at h
      -- The search does not go on around a body.
      · next hbody =>
        simp only [hbody, if_true, Option.isSome_none, Bool.false_eq_true, if_false]
        exact ⟨trivial, true, fun _ => rfl⟩
      · next hbody =>
        obtain ⟨hinner, fromBody, hresolve⟩ := ih h
        simp only [hbody, Option.isSome_none, Bool.false_eq_true, if_false, hinner]
        exact ⟨trivial, fromBody, hresolve⟩

theorem find?_modifyIn (hf : KeepsKey f) (name : String) (symbols : List Symbol) :
    Symbol.find? name (Symbol.modifyIn name f symbols) = (Symbol.find? name symbols).map f := by
  induction symbols with
  | nil => rfl
  | cons x xs ih =>
    rw [Symbol.modifyIn]
    unfold Symbol.find? at ih ⊢
    split
    · next hx => simp only [List.find?_cons, hf.name, hx, Option.map_some]
    · next hx => simp only [List.find?_cons, hx, ih]

theorem globalSymbol?_modifyIn (hf : KeepsKey f) (global : List Symbol) (fromBody : Bool)
    (name : String) :
    globalSymbol? (Symbol.modifyIn name f global) fromBody name =
      (globalSymbol? global fromBody name).map f := by
  unfold globalSymbol?
  rw [find?_modifyIn hf]
  cases Symbol.find? name global with
  | none => rfl
  | some x =>
    have hcrosses : (f x).crossesBodies = x.crossesBodies := Symbol.crossesBodies_eq (hf x)
    simp only [Option.map_some, Option.filter_some, hcrosses]
    split <;> rfl

theorem resolveIn_modifyInner (hf : KeepsKey f) (global : List Symbol) {name : String}
    {inner : List Scope} (h : (modifyInner name f inner).2 = true) :
    resolveIn global name (modifyInner name f inner).1 = (resolveIn global name inner).map f := by
  induction inner with
  | nil => nomatch h
  | cons a outer ih =>
    unfold modifyInner at h ⊢
    split at h
    · next hsome =>
      obtain ⟨x, hx⟩ := Option.isSome_iff_exists.1 hsome
      rw [if_pos hsome]
      simp only [resolveIn, find?_modifyIn hf, hx, Option.map_some]
    · next hnone =>
      rw [Option.not_isSome_iff_eq_none] at hnone
      split at h
      · nomatch h
      · next hbody =>
        simp only [hnone, hbody, resolveIn, Option.isSome_none, Bool.false_eq_true, if_false, ih h]

/-- The symbol that a name stands for is the one that changes. -/
theorem resolve?_modify (hf : KeepsKey f) (s : Scopes) (name : String) :
    (s.modify name f).resolve? name = (s.resolve? name).map f := by
  unfold modify
  dsimp only
  split
  · next hfound => exact resolveIn_modifyInner hf s.global hfound
  · next hfound =>
    obtain ⟨-, fromBody, hresolve⟩ := modifyInner_of_not_found (Bool.eq_false_iff.2 hfound)
    split
    · simp only [resolve?, hresolve, globalSymbol?_modifyIn hf]
    · next hnone =>
      rw [Option.not_isSome_iff_eq_none] at hnone
      rw [hnone, Option.map_none]

theorem same_modify (hf : KeepsKey f) (s : Scopes) (name : String) : Same s (s.modify name f) := by
  unfold modify
  dsimp only
  split
  · exact ⟨rfl, (map_shape_modifyInner hf name s.inner).symm⟩
  · split
    · exact ⟨(Symbol.map_modifyIn hf name s.global).symm, rfl⟩
    · exact Same.refl s

end Modify

section Lookup

/-- A symbol of the global scope or of one that is open. -/
def Has (s : Scopes) (x : Symbol) : Prop := x ∈ s.global ∨ ∃ scope ∈ s.inner, x ∈ scope.symbols

/-- What is declared somewhere. -/
def Declares (s : Scopes) (key : String × SymbolKind × Binding) : Prop :=
  key ∈ s.global.map Symbol.key ∨ ∃ shape ∈ s.inner.map Scope.shape, key ∈ shape.2

variable {name : String} {x : Symbol} {key : String × SymbolKind × Binding}

theorem map_key_find? (name : String) (symbols : List Symbol) :
    (Symbol.find? name symbols).map Symbol.key =
      (symbols.map Symbol.key).find? fun key => key.1 == name := by
  rw [List.find?_map]
  rfl

theorem mem_of_find? {symbols : List Symbol} (h : Symbol.find? name symbols = some x) :
    x ∈ symbols ∧ x.name = name :=
  ⟨List.mem_of_find?_eq_some h, by simpa using List.find?_some h⟩

theorem globalSymbol?_eq_some {global : List Symbol} {fromBody : Bool}
    (h : globalSymbol? global fromBody name = some x) :
    x ∈ global ∧ x.name = name ∧ (fromBody = true → x.crossesBodies = true) := by
  obtain ⟨hfind, hcrosses⟩ := Option.filter_eq_some_iff.1 h
  obtain ⟨hmem, hname⟩ := mem_of_find? hfind
  refine ⟨hmem, hname, fun hbody => ?_⟩
  rw [hbody] at hcrosses
  exact hcrosses

/-- A name stands for a symbol of that name that is declared in a scope or globally. -/
theorem resolveIn_eq_some {global : List Symbol} {inner : List Scope}
    (h : resolveIn global name inner = some x) :
    x.name = name ∧ Has ⟨global, inner⟩ x := by
  -- A body of a definition ends the search, and only symbols that are seen from there are left.
  induction inner with
  | nil =>
    obtain ⟨hmem, hname, -⟩ := globalSymbol?_eq_some h
    exact ⟨hname, Or.inl hmem⟩
  | cons a outer ih =>
    unfold resolveIn at h
    split at h
    · next hfind =>
      cases h
      obtain ⟨hmem, hname⟩ := mem_of_find? hfind
      exact ⟨hname, Or.inr ⟨a, List.mem_cons_self, hmem⟩⟩
    · split at h
      · obtain ⟨hmem, hname, -⟩ := globalSymbol?_eq_some h
        exact ⟨hname, Or.inl hmem⟩
      · obtain ⟨hname, hmem⟩ := ih h
        refine ⟨hname, hmem.imp_right ?_⟩
        rintro ⟨scope, hscope, hx⟩
        exact ⟨scope, List.mem_cons_of_mem _ hscope, hx⟩

theorem has_of_resolve? (h : s.resolve? name = some x) : s.Has x := (resolveIn_eq_some h).2

theorem Has.declares (h : s.Has x) : s.Declares x.key := by
  rcases h with hx | ⟨scope, hscope, hx⟩
  · exact Or.inl (List.mem_map_of_mem hx)
  · exact Or.inr ⟨scope.shape, List.mem_map_of_mem hscope, List.mem_map_of_mem hx⟩

theorem declares_of_resolve? (h : s.resolve? name = some x) : s.Declares x.key :=
  (has_of_resolve? h).declares

theorem Same.declares (h : Same s t) : t.Declares key ↔ s.Declares key := by
  unfold Declares
  rw [h.global, h.inner]

theorem declares_enter {kind : ScopeKind} (h : (s.enter kind).Declares key) : s.Declares key := by
  rcases h with h | ⟨shape, hshape, hkey⟩
  · exact Or.inl h
  · rcases List.mem_cons.1 hshape with rfl | hshape
    · nomatch hkey
    · exact Or.inr ⟨shape, hshape, hkey⟩

theorem declares_push (h : (s.push x).Declares key) : key = x.key ∨ s.Declares key := by
  obtain ⟨global, inner⟩ := s
  cases inner with
  | nil =>
    rcases h with h | h
    · exact (List.mem_cons.1 h).imp id Or.inl
    · exact Or.inr (Or.inr h)
  | cons a outer =>
    rcases h with h | ⟨shape, hshape, hkey⟩
    · exact Or.inr (Or.inl h)
    · rcases List.mem_cons.1 hshape with rfl | hshape
      · exact (List.mem_cons.1 hkey).imp id fun hkey => Or.inr ⟨a.shape, List.mem_cons_self, hkey⟩
      · exact Or.inr (Or.inr ⟨shape, List.mem_cons_of_mem _ hshape, hkey⟩)

theorem has_enter {kind : ScopeKind} (h : (s.enter kind).Has x) : s.Has x := by
  rcases h with h | ⟨scope, hscope, hx⟩
  · exact Or.inl h
  · rcases List.mem_cons.1 hscope with rfl | hscope
    · nomatch hx
    · exact Or.inr ⟨scope, hscope, hx⟩

theorem has_exit (h : s.exit.Has x) : s.Has x :=
  h.imp_right fun ⟨scope, hscope, hx⟩ => ⟨scope, List.mem_of_mem_tail hscope, hx⟩

theorem has_push {y : Symbol} (h : (s.push x).Has y) : y = { x with scope := s.depth } ∨ s.Has y := by
  obtain ⟨global, inner⟩ := s
  cases inner with
  | nil =>
    rcases h with h | ⟨scope, hscope, -⟩
    · exact (List.mem_cons.1 h).imp id Or.inl
    · nomatch hscope
  | cons a outer =>
    rcases h with h | ⟨scope, hscope, hy⟩
    · exact Or.inr (Or.inl h)
    · rcases List.mem_cons.1 hscope with rfl | hscope
      · exact (List.mem_cons.1 hy).imp id fun hy => Or.inr ⟨a, List.mem_cons_self, hy⟩
      · exact Or.inr (Or.inr ⟨scope, List.mem_cons_of_mem _ hscope, hy⟩)

theorem mem_modifyIn {f : Symbol → Symbol} {symbols : List Symbol} {y : Symbol}
    (h : y ∈ Symbol.modifyIn name f symbols) :
    y ∈ symbols ∨ ∃ x, Symbol.find? name symbols = some x ∧ y = f x := by
  induction symbols with
  | nil => nomatch h
  | cons x xs ih =>
    unfold Symbol.modifyIn at h
    unfold Symbol.find? at ih ⊢
    rw [List.find?_cons]
    split at h
    · next hx =>
      rw [hx]
      rcases List.mem_cons.1 h with rfl | h
      · exact Or.inr ⟨x, rfl, rfl⟩
      · exact Or.inl (List.mem_cons_of_mem _ h)
    · next hx =>
      rw [Bool.eq_false_iff.2 hx]
      rcases List.mem_cons.1 h with rfl | h
      · exact Or.inl List.mem_cons_self
      · exact (ih h).imp_left (List.mem_cons_of_mem _)

/-- Only the symbol that the name stands for changes. -/
theorem has_modifyInner {f : Symbol → Symbol} (global : List Symbol) {inner : List Scope} {y : Symbol}
    (hfound : (modifyInner name f inner).2 = true)
    (h : Has ⟨global, (modifyInner name f inner).1⟩ y) :
    Has ⟨global, inner⟩ y ∨ ∃ x, resolveIn global name inner = some x ∧ y = f x := by
  induction inner with
  | nil => nomatch hfound
  | cons a outer ih =>
    unfold modifyInner at hfound h
    unfold resolveIn
    split at hfound
    · next hsome =>
      rw [if_pos hsome] at h
      rcases h with h | ⟨scope, hscope, hy⟩
      · exact Or.inl (Or.inl h)
      · rcases List.mem_cons.1 hscope with rfl | hscope
        · rcases mem_modifyIn hy with hy | ⟨x, hx, rfl⟩
          · exact Or.inl (Or.inr ⟨a, List.mem_cons_self, hy⟩)
          · exact Or.inr ⟨x, by rw [hx], rfl⟩
        · exact Or.inl (Or.inr ⟨scope, List.mem_cons_of_mem _ hscope, hy⟩)
    -- The name is not in this scope: it was found further out, and this scope is as before.
    · next hnone =>
      split at hfound
      · nomatch hfound
      · next hbody =>
        rw [if_neg hnone, if_neg hbody] at h
        rw [Option.not_isSome_iff_eq_none] at hnone
        rw [hnone]
        simp only [hbody, Bool.false_eq_true, if_false]
        rcases h with h | ⟨scope, hscope, hy⟩
        · exact Or.inl (Or.inl h)
        · rcases List.mem_cons.1 hscope with rfl | hscope
          · exact Or.inl (Or.inr ⟨scope, List.mem_cons_self, hy⟩)
          · refine (ih hfound (Or.inr ⟨scope, hscope, hy⟩)).imp_left ?_
            exact Or.imp_right fun ⟨scope, hscope, hy⟩ => ⟨scope, List.mem_cons_of_mem _ hscope, hy⟩

theorem has_modify {f : Symbol → Symbol} {y : Symbol} (h : (s.modify name f).Has y) :
    s.Has y ∨ ∃ x, s.resolve? name = some x ∧ y = f x := by
  unfold modify at h
  dsimp only at h
  split at h
  · next hfound => exact has_modifyInner s.global hfound h
  · next hfound =>
    obtain ⟨-, fromBody, hresolve⟩ := modifyInner_of_not_found (Bool.eq_false_iff.2 hfound)
    split at h
    · next hsome =>
      rcases h with h | h
      · rcases mem_modifyIn h with h | ⟨x, hx, rfl⟩
        · exact Or.inl (Or.inl h)
        -- What the name stands for is the global symbol that was found, as it passes the filter.
        · obtain ⟨z, hz⟩ := Option.isSome_iff_exists.1 hsome
          have hfilter := hz
          rw [Scopes.resolve?, hresolve, globalSymbol?] at hfilter
          obtain ⟨hfind, -⟩ := Option.filter_eq_some_iff.1 hfilter
          rw [hx] at hfind
          exact Or.inr ⟨z, hz, congrArg f (Option.some.inj hfind)⟩
      · exact Or.inl (Or.inr h)
    · exact Or.inl h

theorem eq_push_of_declare (h : s.declare x = .ok t) : t = s.push x := by
  unfold declare at h
  split at h
  · nomatch h
  · exact (Except.ok.inj h).symm

theorem resolve?_push_self (s : Scopes) (x : Symbol) :
    (s.push x).resolve? x.name = some { x with scope := s.depth } := by
  obtain ⟨global, inner⟩ := s
  cases inner with
  | nil => simp [push, resolve?, resolveIn, globalSymbol?, Symbol.find?]
  | cons a outer => simp [push, resolve?, resolveIn, Symbol.find?]

/-- A declaration hides what the name stood for and nothing else. -/
theorem resolve?_push (s : Scopes) (x : Symbol) (name : String) :
    ((s.push x).resolve? name).map Symbol.key = some x.key ∨
      (s.push x).resolve? name = s.resolve? name := by
  obtain ⟨global, inner⟩ := s
  cases inner with
  | nil =>
    simp only [push, resolve?, resolveIn, globalSymbol?, Symbol.find?, List.find?_cons]
    split
    · exact Or.inl rfl
    · exact Or.inr rfl
  | cons a outer =>
    simp only [push, resolve?, resolveIn, Symbol.find?, List.find?_cons]
    by_cases hname : (x.name == name) = true
    · rw [hname]
      exact Or.inl rfl
    · rw [Bool.not_eq_true] at hname
      rw [hname]
      exact Or.inr rfl

theorem Same.globalSymbol? {global global' : List Symbol}
    (h : global.map Symbol.key = global'.map Symbol.key) (fromBody : Bool) (name : String) :
    (Scopes.globalSymbol? global fromBody name).map Symbol.key =
      (Scopes.globalSymbol? global' fromBody name).map Symbol.key := by
  have hfind := map_key_find? name global
  rw [h, ← map_key_find?] at hfind
  unfold Scopes.globalSymbol?
  rcases hx : Symbol.find? name global with _ | x
  · rw [hx] at hfind
    rw [Option.map_eq_none_iff.1 hfind.symm]
  · rw [hx] at hfind
    obtain ⟨y, hy, hkey⟩ := Option.map_eq_some_iff.1 hfind.symm
    have hcrosses : y.crossesBodies = x.crossesBodies := Symbol.crossesBodies_eq hkey
    rw [hy, Option.filter_some, Option.filter_some, hcrosses]
    split
    · exact congrArg some hkey.symm
    · rfl

/-- Names stand for the same where the same symbols are declared. -/
theorem Same.resolve? (h : Same s t) (name : String) :
    (s.resolve? name).map Symbol.key = (t.resolve? name).map Symbol.key := by
  obtain ⟨global, inner⟩ := s
  obtain ⟨global', inner'⟩ := t
  obtain ⟨hglobal, hinner⟩ := h
  dsimp only at hglobal hinner
  simp only [Scopes.resolve?]
  induction inner generalizing inner' with
  | nil =>
    cases inner' with
    | nil => exact Same.globalSymbol? hglobal false name
    | cons b outer' => nomatch hinner
  | cons a outer ih =>
    cases inner' with
    | nil => nomatch hinner
    | cons b outer' =>
      obtain ⟨hshape, houter⟩ := List.cons.inj hinner
      have hkind : a.kind = b.kind := congrArg Prod.fst hshape
      -- Both searches end in the same scope, as the names in it are the same.
      have hfind := map_key_find? name a.symbols
      rw [show a.symbols.map Symbol.key = b.symbols.map Symbol.key from congrArg Prod.snd hshape,
        ← map_key_find?] at hfind
      unfold resolveIn
      rw [hkind]
      rcases hx : Symbol.find? name a.symbols with _ | x
      · rw [hx] at hfind
        rw [Option.map_eq_none_iff.1 hfind.symm]
        dsimp only
        split
        · exact Same.globalSymbol? hglobal true name
        · exact ih outer' houter
      · rw [hx] at hfind
        obtain ⟨y, hy, hkey⟩ := Option.map_eq_some_iff.1 hfind.symm
        rw [hy]
        exact congrArg some hkey.symm

/-- From the body of a definition only some symbols of the global scope are seen. -/
theorem resolve?_enter_body {kind : ScopeKind} (hkind : kind.isBody = true)
    (h : (s.enter kind).resolve? name = some x) : x ∈ s.global ∧ x.crossesBodies = true := by
  simp only [Scopes.resolve?, enter, resolveIn, Symbol.find?, List.find?_nil, hkind, if_true] at h
  obtain ⟨hmem, -, hcrosses⟩ := globalSymbol?_eq_some h
  exact ⟨hmem, hcrosses rfl⟩

end Lookup

end Scopes

end OpenQasm
