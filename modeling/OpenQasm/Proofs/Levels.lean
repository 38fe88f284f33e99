import OpenQasm.Proofs.Scopes

/-!
Symbols by the level of their scope. A name may be declared on several levels, and it stands for the
symbol on the innermost one that is seen. The number that a symbol has for its scope is the level it is on,
so that comparing it with the level of a branch tells whether the symbol is from outside.
-/
namespace OpenQasm

namespace Scopes

/-- The symbols on a level, the global scope being on the lowest. -/
def levelIn (global : List Symbol) (k : Nat) : List Scope → List Symbol
  | [] => if k = 0 then global else []
  | scope :: outer => if k = outer.length + 1 then scope.symbols else levelIn global k outer

/-- The symbol that has a name on a level. -/
def at? (s : Scopes) (k : Nat) (name : String) : Option Symbol :=
  Symbol.find? name (levelIn s.global k s.inner)

/-- Every symbol has the number of its level. -/
def Numbered (s : Scopes) : Prop := ∀ k name x, s.at? k name = some x → x.scope = k

variable {s t : Scopes} {k : Nat} {name : String} {x : Symbol} {global : List Symbol}
  {inner : List Scope}

section Looking

theorem levelIn_zero (global : List Symbol) (inner : List Scope) :
    levelIn global 0 inner = global := by
  induction inner with
  | nil => rfl
  | cons a outer ih => exact ih

theorem levelIn_of_lt (h : inner.length < k) : levelIn global k inner = [] := by
  induction inner with
  | nil => exact if_neg (Nat.ne_of_gt h)
  | cons a outer ih =>
    rw [List.length_cons] at h
    rw [levelIn, if_neg (by omega)]
    exact ih (by omega)

theorem levelIn_cons_self (global : List Symbol) (a : Scope) (outer : List Scope) :
    levelIn global (outer.length + 1) (a :: outer) = a.symbols := if_pos rfl

theorem levelIn_cons_of_le {outer : List Scope} (h : k ≤ outer.length) (a : Scope) :
    levelIn global k (a :: outer) = levelIn global k outer :=
  if_neg (Nat.ne_of_lt (Nat.lt_succ_of_le h))

theorem le_depth_of_find?_levelIn (h : Symbol.find? name (levelIn global k inner) = some x) :
    k ≤ inner.length := by
  apply Nat.le_of_not_lt
  intro hlt
  rw [levelIn_of_lt hlt] at h
  nomatch h

theorem le_depth_of_at? (h : s.at? k name = some x) : k ≤ s.depth := le_depth_of_find?_levelIn h

theorem at?_enter (s : Scopes) (kind : ScopeKind) (k : Nat) (name : String) :
    (s.enter kind).at? k name = s.at? k name := by
  unfold at?
  rw [enter, levelIn]
  split
  · next hk => rw [levelIn_of_lt (Nat.lt_of_lt_of_eq (Nat.lt_succ_self _) hk.symm)]
  · rfl

theorem at?_exit (h : k < s.depth) (name : String) : s.exit.at? k name = s.at? k name := by
  obtain ⟨global, inner⟩ := s
  cases inner with
  | nil => rfl
  | cons a outer =>
    have hk : k ≠ outer.length + 1 := Nat.ne_of_lt h
    simp only [at?, exit, levelIn, List.tail_cons, if_neg hk]

theorem at?_of_exit (h : s.exit.at? k name = some x) : s.at? k name = some x := by
  obtain ⟨global, inner⟩ := s
  cases inner with
  | nil => exact h
  | cons a outer =>
    have hk : k ≤ outer.length := le_depth_of_at? h
    rw [← h, at?_exit (Nat.lt_succ_of_le hk)]

theorem find?_levelIn_zero {fromBody : Bool} (h : globalSymbol? global fromBody name = some x)
    (inner : List Scope) : Symbol.find? name (levelIn global 0 inner) = some x := by
  rw [levelIn_zero]
  exact (Option.filter_eq_some_iff.1 h).1

/-- What a name stands for is on some level. -/
theorem exists_at?_of_resolveIn (h : resolveIn global name inner = some x) :
    ∃ k ≤ inner.length, Symbol.find? name (levelIn global k inner) = some x := by
  induction inner with
  | nil => exact ⟨0, Nat.le_refl _, find?_levelIn_zero h []⟩
  | cons a outer ih =>
    unfold resolveIn at h
    split at h
    · next hfind => exact ⟨outer.length + 1, Nat.le_refl _, by rw [levelIn_cons_self, hfind, h]⟩
    · split at h
      · exact ⟨0, Nat.zero_le _, find?_levelIn_zero h _⟩
      · obtain ⟨k, hk, hfind⟩ := ih h
        refine ⟨k, Nat.le_succ_of_le hk, ?_⟩
        rw [levelIn_cons_of_le hk, hfind]

theorem Numbered.at?_of_resolve? (hs : Numbered s) (h : s.resolve? name = some x) :
    s.at? x.scope name = some x := by
  obtain ⟨k, -, hfind⟩ := exists_at?_of_resolveIn h
  have hat : s.at? k name = some x := hfind
  rw [hs k name x hat]
  exact hat

theorem resolve?_enter_block {kind : ScopeKind} (hkind : kind.isBody = false) (s : Scopes)
    (name : String) : (s.enter kind).resolve? name = s.resolve? name := by
  simp only [resolve?, enter, resolveIn, Symbol.find?, List.find?_nil, hkind, Bool.false_eq_true,
    if_false]

end Looking

section Changing

theorem find?_push (x : Symbol) (name : String) (symbols : List Symbol) :
    Symbol.find? name (x :: symbols) = if x.name = name then some x else Symbol.find? name symbols := by
  unfold Symbol.find?
  rw [List.find?_cons]
  by_cases hname : x.name = name
  · rw [if_pos hname, beq_iff_eq.2 hname]
  · rw [if_neg hname, beq_eq_false_iff_ne.2 hname]

theorem at?_push (s : Scopes) (x : Symbol) (k : Nat) (name : String) :
    (s.push x).at? k name =
      if k = s.depth ∧ x.name = name then some { x with scope := s.depth } else s.at? k name := by
  obtain ⟨global, inner⟩ := s
  cases inner with
  | nil =>
    simp only [push, at?, levelIn, depth, List.length_nil]
    by_cases hk : k = 0
    · simp [hk, find?_push]
    · simp [hk]
  | cons a outer =>
    simp only [push, at?, levelIn, depth, List.length_cons]
    by_cases hk : k = outer.length + 1
    · simp [hk, find?_push]
    · simp [hk]

theorem resolve?_push_eq (s : Scopes) (x : Symbol) (name : String) :
    (s.push x).resolve? name =
      if x.name = name then some { x with scope := s.depth } else s.resolve? name := by
  obtain ⟨global, inner⟩ := s
  cases inner with
  | nil =>
    simp only [push, resolve?, resolveIn, globalSymbol?, find?_push]
    split <;> rfl
  | cons a outer =>
    simp only [push, resolve?, resolveIn, find?_push]
    by_cases hname : x.name = name
    · rw [if_pos hname, if_pos hname]
    · rw [if_neg hname, if_neg hname]

variable {f : Symbol → Symbol}

theorem find?_modifyIn_of_ne (hf : KeepsKey f) {n : String} (hn : n ≠ name) (symbols : List Symbol) :
    Symbol.find? n (Symbol.modifyIn name f symbols) = Symbol.find? n symbols := by
  induction symbols with
  | nil => rfl
  | cons y ys ih =>
    rw [Symbol.modifyIn]
    split
    · next hy =>
      rw [find?_push, find?_push, hf.name]
      have hne : y.name ≠ n := fun h => hn (h.symm.trans (beq_iff_eq.1 hy))
      rw [if_neg hne, if_neg hne]
    · rw [find?_push, find?_push, ih]

/-- Other names stand for what they stood for. -/
theorem resolve?_modify_of_ne (hf : KeepsKey f) (s : Scopes) {n : String} (hn : n ≠ name) :
    (s.modify name f).resolve? n = s.resolve? n := by
  have hinner (inner : List Scope) :
      resolveIn s.global n (modifyInner name f inner).1 = resolveIn s.global n inner := by
    induction inner with
    | nil => rfl
    | cons a outer ih =>
      unfold modifyInner
      split
      · simp only [resolveIn, find?_modifyIn_of_ne hf hn]
      · split
        · rfl
        · simp only [resolveIn, ih]
  have hglobal (inner : List Scope) :
      resolveIn (Symbol.modifyIn name f s.global) n inner = resolveIn s.global n inner := by
    have hsymbol (fromBody : Bool) : globalSymbol? (Symbol.modifyIn name f s.global) fromBody n =
        globalSymbol? s.global fromBody n := by
      rw [globalSymbol?, globalSymbol?, find?_modifyIn_of_ne hf hn]
    induction inner with
    | nil => exact hsymbol false
    | cons a outer ih => simp only [resolveIn, hsymbol, ih]
  unfold modify
  dsimp only
  split
  · exact hinner s.inner
  · split
    · exact hglobal s.inner
    · rfl

/-- On the level where a name is found, its symbol is changed, and no other one is. -/
theorem find?_level_modifyIn (hf : KeepsKey f) {symbols : List Symbol}
    (h : Symbol.find? name symbols = some x) (n : String) :
    Symbol.find? n (Symbol.modifyIn name f symbols) =
      if n = name then some (f x) else Symbol.find? n symbols := by
  by_cases hn : n = name
  · rw [if_pos hn, hn, find?_modifyIn hf, h, Option.map_some]
  · rw [if_neg hn, find?_modifyIn_of_ne hf hn]

theorem levelIn_modifyInner (hf : KeepsKey f) (global : List Symbol)
    (h : (modifyInner name f inner).2 = true) :
    ∃ j x, resolveIn global name inner = some x ∧
      Symbol.find? name (levelIn global j inner) = some x ∧
      ∀ k n, Symbol.find? n (levelIn global k (modifyInner name f inner).1) =
        if k = j ∧ n = name then some (f x) else Symbol.find? n (levelIn global k inner) := by
  induction inner with
  | nil => cases h
  | cons a outer ih =>
    unfold modifyInner at h ⊢
    unfold resolveIn
    split at h
    · next hsome =>
      obtain ⟨x, hx⟩ := Option.isSome_iff_exists.1 hsome
      refine ⟨outer.length + 1, x, by rw [hx], by rw [levelIn_cons_self, hx], fun k n => ?_⟩
      rw [if_pos hsome]
      dsimp only
      rw [levelIn, levelIn]
      by_cases hk : k = outer.length + 1
      · rw [if_pos hk, if_pos hk, find?_level_modifyIn hf hx]
        simp [hk]
      · simp [hk]
    · next hnone =>
      have hfind := Option.not_isSome_iff_eq_none.1 hnone
      split at h
      · cases h
      -- The name was found further out, so that this level is as it was.
      · next hbody =>
        obtain ⟨j, x, hresolve, hlevel, hother⟩ := ih h
        have hlength : (modifyInner name f outer).1.length = outer.length := by
          have hshape := congrArg List.length (map_shape_modifyInner hf name outer)
          rwa [List.length_map, List.length_map] at hshape
        have hj : j ≤ outer.length := le_depth_of_find?_levelIn hlevel
        refine ⟨j, x, by rw [hfind, if_neg hbody, hresolve], ?_, fun k n => ?_⟩
        · rw [levelIn_cons_of_le hj, hlevel]
        · rw [if_neg hnone, if_neg hbody]
          dsimp only
          rw [levelIn, levelIn, hlength]
          by_cases hk : k = outer.length + 1
          · rw [if_pos hk, if_pos hk, if_neg (by omega)]
          · rw [if_neg hk, if_neg hk, hother]

theorem modify_of_none (hf : KeepsKey f) (h : s.resolve? name = none) : s.modify name f = s := by
  unfold modify
  dsimp only
  split
  · next hfound =>
    obtain ⟨-, x, hresolve, -⟩ := levelIn_modifyInner hf s.global hfound
    exact absurd (hresolve.symm.trans h) nofun
  · rw [h]
    rfl

/-- Only the symbol that the name stands for is changed. -/
theorem Numbered.at?_modify (hs : Numbered s) (hf : KeepsKey f) (h : s.resolve? name = some x)
    (k : Nat) (n : String) :
    (s.modify name f).at? k n = if k = x.scope ∧ n = name then some (f x) else s.at? k n := by
  unfold modify
  dsimp only
  split
  · next hfound =>
    obtain ⟨j, y, hresolve, hlevel, hother⟩ := levelIn_modifyInner hf s.global hfound
    have hxy : x = y := Option.some.inj (h.symm.trans hresolve)
    have hj : j = x.scope := (hs j name x (hxy ▸ hlevel)).symm
    rw [hj, ← hxy] at hother
    exact hother k n
  · next hfound =>
    obtain ⟨-, fromBody, hresolve⟩ := modifyInner_of_not_found (Bool.eq_false_iff.2 hfound)
    simp only [h, Option.isSome_some, if_true]
    -- Only the global scope changes, which is the lowest level.
    have hfind : Symbol.find? name s.global = some x := by
      rw [Scopes.resolve?, hresolve] at h
      exact (Option.filter_eq_some_iff.1 h).1
    have hother (global : List Symbol) (hk : k ≠ 0) :
        levelIn global k s.inner = levelIn s.global k s.inner := by
      induction s.inner with
      | nil => rw [levelIn, levelIn, if_neg hk, if_neg hk]
      | cons a outer ih => rw [levelIn, levelIn, ih]
    have hscope : x.scope = 0 := hs 0 name x (by rw [at?, levelIn_zero, hfind])
    unfold at?
    by_cases hk : k = 0
    · rw [hk, levelIn_zero, levelIn_zero, find?_level_modifyIn hf hfind, hscope]
      simp
    · rw [hother _ hk, if_neg (by omega)]

end Changing

section Numbering

theorem Numbered.enter (hs : Numbered s) (kind : ScopeKind) : Numbered (s.enter kind) := by
  intro k name x h
  rw [at?_enter] at h
  exact hs k name x h

theorem Numbered.exit (hs : Numbered s) : Numbered s.exit :=
  fun k name x h => hs k name x (at?_of_exit h)

theorem Numbered.push (hs : Numbered s) (x : Symbol) : Numbered (s.push x) := by
  intro k name y h
  rw [at?_push] at h
  split at h
  · next hk =>
    cases h
    exact hk.1.symm
  · exact hs k name y h

theorem Numbered.modify (hs : Numbered s) {f : Symbol → Symbol} (hf : KeepsKey f)
    (hscope : ∀ x, (f x).scope = x.scope) (name : String) : Numbered (s.modify name f) := by
  rcases h : s.resolve? name with - | x
  · rw [modify_of_none hf h]
    exact hs
  · intro k n y hy
    rw [hs.at?_modify hf h] at hy
    split at hy
    · next hk =>
      cases hy
      rw [hscope, hk.1]
    · exact hs k n y hy

theorem numbered_withBuiltins : Numbered withBuiltins := by
  intro k name x h
  have hk : k = 0 := Nat.le_zero.1 (le_depth_of_at? h)
  subst hk
  obtain ⟨hmem, -⟩ := mem_of_find? h
  obtain ⟨g, -, rfl⟩ := List.mem_map.1 (List.mem_reverse.1 hmem)
  rfl

end Numbering

section Same

theorem map_key_find?_eq {symbols symbols' : List Symbol}
    (h : symbols.map Symbol.key = symbols'.map Symbol.key) (name : String) :
    (Symbol.find? name symbols).map Symbol.key = (Symbol.find? name symbols').map Symbol.key := by
  rw [map_key_find?, map_key_find?, h]

theorem Same.find?_globalLevel {global global' : List Symbol} {fromBody : Bool}
    (h : global.map Symbol.key = global'.map Symbol.key) (inner inner' : List Scope)
    (hx : Scopes.globalSymbol? global fromBody name = some x) :
    ∃ y, Symbol.find? name (levelIn global 0 inner) = some x ∧
      Scopes.globalSymbol? global' fromBody name = some y ∧
      Symbol.find? name (levelIn global' 0 inner') = some y ∧ y.key = x.key := by
  have hkeys := Same.globalSymbol? h fromBody name
  rw [hx] at hkeys
  obtain ⟨y, hy, hkey⟩ := Option.map_eq_some_iff.1 hkeys.symm
  exact ⟨y, find?_levelIn_zero hx inner, hy, find?_levelIn_zero hy inner', hkey⟩

/-- Where the same symbols are declared, a name is found on the same level. -/
theorem Same.resolveIn_level {global global' : List Symbol} {inner inner' : List Scope}
    (hglobal : global.map Symbol.key = global'.map Symbol.key)
    (hinner : inner.map Scope.shape = inner'.map Scope.shape)
    (hx : resolveIn global name inner = some x) :
    ∃ k y, Symbol.find? name (levelIn global k inner) = some x ∧
      resolveIn global' name inner' = some y ∧
      Symbol.find? name (levelIn global' k inner') = some y ∧ y.key = x.key := by
  induction inner generalizing inner' with
  | nil =>
    cases inner' with
    | nil => exact ⟨0, Same.find?_globalLevel hglobal [] [] hx⟩
    | cons b outer' => nomatch hinner
  | cons a outer ih =>
    cases inner' with
    | nil => nomatch hinner
    | cons b outer' =>
      obtain ⟨hshape, houter⟩ := List.cons.inj hinner
      have hkind : a.kind = b.kind := congrArg Prod.fst hshape
      have hlength : outer.length = outer'.length := by
        have h := congrArg List.length houter
        rwa [List.length_map, List.length_map] at h
      have hfind := map_key_find?_eq (congrArg Prod.snd hshape) name
      unfold resolveIn at hx ⊢
      rw [← hkind]
      rcases ha : Symbol.find? name a.symbols with _ | z
      · rw [ha] at hx hfind
        rw [Option.map_eq_none_iff.1 hfind.symm]
        dsimp only at hx ⊢
        split at hx
        -- Out of a body, only the global scope is seen.
        · next hbody =>
          rw [if_pos hbody]
          exact ⟨0, Same.find?_globalLevel hglobal (a :: outer) (b :: outer') hx⟩
        · next hbody =>
          obtain ⟨k, y, hk, hy, hk', hkey⟩ := ih houter hx
          have hle : k ≤ outer.length := le_depth_of_find?_levelIn hk
          refine ⟨k, y, ?_, ?_, ?_, hkey⟩
          · rwa [levelIn_cons_of_le hle]
          · rwa [if_neg hbody]
          · rwa [levelIn_cons_of_le (hlength ▸ hle)]
      · rw [ha] at hx hfind
        cases hx
        obtain ⟨y, hy, hkey⟩ := Option.map_eq_some_iff.1 hfind.symm
        refine ⟨outer.length + 1, y, ?_, ?_, ?_, hkey⟩
        · rw [levelIn_cons_self, ha]
        · rw [hy]
        · rw [hlength, levelIn_cons_self, hy]

/-- A name stands for a symbol of the same scope where the same symbols are declared. -/
theorem Same.resolve?_scope (h : Same s t) (hs : Numbered s) (ht : Numbered t)
    (hx : s.resolve? name = some x) :
    ∃ y, t.resolve? name = some y ∧ y.key = x.key ∧ y.scope = x.scope := by
  obtain ⟨k, y, hk, hy, hk', hkey⟩ := Same.resolveIn_level h.global h.inner hx
  exact ⟨y, hy, hkey, (ht k name y hk').trans (hs k name x hk).symm⟩

/-- A name stands for the same as where the same symbols are declared, if it does so on the level. -/
theorem Same.resolve?_of_at? (h : Same s t) (hs : Numbered s) (ht : Numbered t) {y : Symbol}
    (hy : t.resolve? name = some y) (hx : s.at? y.scope name = some x) :
    s.resolve? name = some x := by
  obtain ⟨z, hz, -, hlevel⟩ := h.symm.resolve?_scope ht hs hy
  have hat := hs.at?_of_resolve? hz
  rw [hlevel, hx] at hat
  rw [hz, hat]

theorem resolve?_of_here? (h : s.here? name = some x) : s.resolve? name = some x := by
  obtain ⟨global, inner⟩ := s
  cases inner with
  | nil =>
    change Symbol.find? name global = some x at h
    simp [Scopes.resolve?, resolveIn, Scopes.globalSymbol?, h]
  | cons a outer =>
    change Symbol.find? name a.symbols = some x at h
    simp only [Scopes.resolve?, resolveIn, h]

theorem at?_of_here? (h : s.here? name = some x) : s.at? s.depth name = some x := by
  obtain ⟨global, inner⟩ := s
  cases inner with
  | nil => exact h
  | cons a outer =>
    rw [at?, depth, List.length_cons, levelIn_cons_self]
    exact h

theorem find?_eq_none_of_suffix {symbols symbols' : List Symbol}
    (h : symbols.map Symbol.key <:+ symbols'.map Symbol.key)
    (hnone : Symbol.find? name symbols' = none) : Symbol.find? name symbols = none := by
  rw [← Option.map_eq_none_iff, map_key_find?, List.find?_eq_none] at hnone ⊢
  exact fun key hkey => hnone key (h.subset hkey)

theorem Grows.current (h : Grows s t) :
    s.current.map Symbol.key <:+ t.current.map Symbol.key := by
  obtain ⟨global, inner⟩ := s
  obtain ⟨global', inner'⟩ := t
  cases inner with
  | nil =>
    cases inner' with
    | nil => exact h
    | cons b outer' => exact h.elim
  | cons a outer =>
    cases inner' with
    | nil => exact h.elim
    | cons b outer' => exact h.2.2.1

theorem Grows.here?_eq_none (h : Grows s t) (hnone : t.here? name = none) : s.here? name = none :=
  find?_eq_none_of_suffix h.current hnone

theorem Grows.here?_isSome (h : Grows s t) (hhere : (s.here? name).isSome) :
    (t.here? name).isSome := by
  rcases hnone : t.here? name with - | x
  · rw [h.here?_eq_none hnone] at hhere
    nomatch hhere
  · rfl

/-- More symbols in the current scope only hide others with their names. -/
theorem Grows.resolve? (h : Grows s t) (name : String) :
    (t.here? name).isSome ∨
      (t.resolve? name).map Symbol.key = (s.resolve? name).map Symbol.key := by
  rcases hhere : t.here? name with - | x
  · apply Or.inr
    -- As the name is not in the current scope, it was not there before either.
    have hnone := h.here?_eq_none hhere
    obtain ⟨global, inner⟩ := s
    obtain ⟨global', inner'⟩ := t
    cases inner with
    | nil =>
      cases inner' with
      | nil =>
        change Symbol.find? name global = none at hnone
        change Symbol.find? name global' = none at hhere
        simp only [Scopes.resolve?, resolveIn, Scopes.globalSymbol?, hhere, hnone]
      | cons b outer' => exact h.elim
    | cons a outer =>
      cases inner' with
      | nil => exact h.elim
      | cons b outer' =>
        obtain ⟨hglobal, hkind, -, houter⟩ := h
        change Symbol.find? name a.symbols = none at hnone
        change Symbol.find? name b.symbols = none at hhere
        simp only [Scopes.resolve?, resolveIn, hhere, hnone, hkind]
        split
        · exact (Same.globalSymbol? hglobal true name).symm
        · exact (Same.resolve? (s := ⟨global, outer⟩) (t := ⟨global', outer'⟩) ⟨hglobal, houter⟩ name).symm
  · exact Or.inl rfl

end Same

end Scopes

end OpenQasm
