import OpenQasm.Proofs.Allocation
import OpenQasm.Proofs.FailedDeclarations
import OpenQasm.Proofs.StoredSymbols

/-!
Names of the global scope. What such a name stands for is never replaced, so that the builtin gates are called
by their names, and registers by the names that they were declared by, in every state of an analysis.
-/
namespace OpenQasm

namespace Scopes

variable {s t : Scopes} {name : String} {key : String × SymbolKind × Binding}

/-- What a global name stands for. -/
def globalKey? (s : Scopes) (name : String) : Option (String × SymbolKind × Binding) :=
  (Symbol.find? name s.global).map Symbol.key

theorem Same.globalKey? (h : Same s t) (name : String) : t.globalKey? name = s.globalKey? name :=
  (map_key_find?_eq h.global name).symm

/-- A name that is taken is not declared again. -/
theorem globalKey?_declare {x : Symbol} (h : s.declare x = .ok t) (hkey : s.globalKey? name = some key) :
    t.globalKey? name = some key := by
  obtain ⟨global, inner⟩ := s
  cases inner with
  | cons a outer =>
    cases eq_push_of_declare h
    exact hkey
  | nil =>
    have hother : x.name ≠ name := by
      rintro rfl
      have hfree : Symbol.find? x.name global = none := by
        unfold declare here? at h
        dsimp only [current] at h
        split at h
        · cases h
        · next hnone => exact hnone
      rw [globalKey?, hfree] at hkey
      cases hkey
    cases eq_push_of_declare h
    show (Symbol.find? name ({ x with scope := 0 } :: global)).map Symbol.key = some key
    rw [find?_push, if_neg hother]
    exact hkey

theorem globalKey?_withBuiltins (b : Builtin) :
    withBuiltins.globalKey? b.name = some (b.name, .gateDefinition, .builtin b) := by
  cases b <;> rfl

theorem isGlobal_push (s : Scopes) (x : Symbol) : (s.push x).isGlobal = s.isGlobal := by
  obtain ⟨global, inner⟩ := s
  cases inner <;> rfl

/-- Outside of all blocks and bodies a name stands for what it stands for in the global scope. -/
theorem resolve?_of_isGlobal (h : s.isGlobal = true) (name : String) : s.resolve? name = s.here? name := by
  obtain ⟨global, inner⟩ := s
  cases inner with
  | cons a outer => nomatch h
  | nil =>
    show (Symbol.find? name global).filter (fun _ => true) = Symbol.find? name global
    cases Symbol.find? name global <;> rfl

theorem exists_of_globalKey? (h : s.isGlobal = true) (hkey : s.globalKey? name = some key) :
    ∃ x, s.resolve? name = some x ∧ x.key = key := by
  have hhere : s.here? name = Symbol.find? name s.global := by
    obtain ⟨global, inner⟩ := s
    cases inner with
    | cons a outer => nomatch h
    | nil => rfl
  rw [resolve?_of_isGlobal h, hhere]
  exact Option.map_eq_some_iff.1 hkey

end Scopes

namespace Analysis

variable {config : Config} {s t : State} {name : String} {key : String × SymbolKind × Binding}

theorem Transition.globalKey? (h : Transition config s t) (hkey : s.scopes.globalKey? name = some key) :
    t.scopes.globalKey? name = some key := by
  cases h with
  | place | report | mark | allocate | addVariable | enter | exit => exact hkey
  | declare hdeclared | keepGate _ _ hdeclared => exact Scopes.globalKey?_declare hdeclared hkey
  | nameSymbol emitName =>
    exact ((Scopes.same_modify (keepsKey_emitName emitName) s.scopes _).globalKey? name).trans hkey
  | @setValue _ value =>
    exact ((Scopes.same_modify (keepsKey_value value) s.scopes _).globalKey? name).trans hkey

theorem Transitions.globalKey? (h : Transitions config s t) (hkey : s.scopes.globalKey? name = some key) :
    t.scopes.globalKey? name = some key := by
  induction h with
  | refl => exact hkey
  | tail _ hstep ih => exact hstep.globalKey? ih

theorem Reachable.resolve_builtin (h : Reachable config s) (hglobal : s.scopes.isGlobal = true) (b : Builtin) :
    ∃ x, s.scopes.resolve? b.name = some x ∧ x.binding = .builtin b := by
  obtain ⟨x, hx, hkey⟩ := Scopes.exists_of_globalKey? hglobal
    (Transitions.globalKey? h (Scopes.globalKey?_withBuiltins b))
  exact ⟨x, hx, congrArg (fun k => k.2.2) hkey⟩

theorem Transition.ledger (h : Transition config s t) (hs : ∃ entries, Ledger entries s.registers) :
    ∃ entries, Ledger entries t.registers := by
  obtain ⟨entries, hs⟩ := hs
  cases h with
  | mark q usage => exact ⟨_, hs.usage q usage⟩
  | allocate hallocated => exact ⟨_, hs.register hallocated⟩
  | addVariable name => exact ⟨_, hs.name name⟩
  | _ => exact ⟨_, hs⟩

/-- In every state the registers agree with some record of what was asked for. -/
theorem Reachable.ledger (h : Reachable config s) : ∃ entries, Ledger entries s.registers := by
  induction h with
  | refl => exact ⟨[], Ledger.nil⟩
  | tail _ hstep ih => exact hstep.ledger ih

section Declared

variable {calls : Calls}

/-- Every register of qubits is in scope by the name that it has in the flat program. -/
def State.NamesQubits (s : State) : Prop :=
  ∀ id r, s.registers.list[id]? = some r → r.kind = .quantum →
    ∃ x, s.scopes.resolve? r.name = some x ∧ x.binding = .qubits (View.whole id r.size)

/-- What is known after declarations of qubits only: no register has another name than in the source. -/
structure State.OnlyQubits (s : State) : Prop where
  isGlobal : s.scopes.isGlobal = true
  taken : ∀ n, s.registers.names.contains n = true → (s.scopes.resolve? n).isSome = true
  named : s.NamesQubits

theorem onlyQubits_initial : State.initial.OnlyQubits where
  isGlobal := rfl
  taken n hn := nomatch (Ledger.nil.taken n).1 hn
  named _ _ hr := nomatch hr

/-- A literal is a size, or it is reported as none, and nothing else happens. -/
theorem resolveWidth_literal (n : UInt64) (config : Config) (s : State) :
    ∃ r, resolveWidth calls (.int n) config s = (r, s) := by
  have hfold : fold calls (.int n) config s = (.ok (some (.int n.toInt64)), s) ∨
      ∃ e, fold calls (.int n) config s = (.error e, s) := by
    rw [fold]
    split
    · exact Or.inl rfl
    · exact Or.inr ⟨_, rfl⟩
  rw [resolveWidth, run_bind]
  rcases hfold with h | ⟨e, h⟩
  · rw [h]
    dsimp only
    rw [widthValue]
    split
    · exact ⟨_, rfl⟩
    · split <;> exact ⟨_, rfl⟩
  · rw [h]
    exact ⟨_, rfl⟩

theorem declareQubits_eq_ok {n : UInt64}
    (h : declareQubits calls name (some (.int n)) config s = (.ok (), t)) :
    s.scopes.here? name = none ∧ ∃ size id v registers diagnostics halted,
      s.registers.allocate name size .quantum = .ok (id, v, registers) ∧
      t = { s with
        scopes := s.scopes.push
          { name, kind := .quantumRegister, span := s.span, size := some size, binding := .qubits v }
        registers, diagnostics, halted } := by
  rw [declareQubits, run_get] at h
  split at h
  · cases h
  obtain ⟨r, hsize⟩ := @resolveWidth_literal calls n config s
  dsimp only at h
  rw [run_bind, hsize] at h
  rcases r with e | size
  · cases h
  dsimp only at h
  rcases hfree : s.scopes.here? name with - | first
  · rw [ensureFree, bind_assoc, run_get, hfree] at h
    obtain ⟨diagnostics, halted, hdevice⟩ := checkDevice_run size config s
    rw [pure_bind, run_bind, hdevice] at h
    dsimp only at h
    rw [allocate, bind_assoc, run_get] at h
    dsimp only at h
    rcases hr : s.registers.allocate name size .quantum with fault | ⟨id, v, registers⟩
    · rw [hr] at h
      cases h
    · rw [hr] at h
      have hrun := declare_free config (s := { s with diagnostics, halted, registers })
        (x := { name, kind := .quantumRegister, span := s.span, size := some size, binding := .qubits v })
        hfree
      have ht := congrArg Prod.snd (hrun.symm.trans h)
      exact ⟨rfl, size, id, v, registers, diagnostics, halted, hr, ht.symm⟩
  · rw [ensureFree, bind_assoc, run_get, hfree] at h
    cases h

/-- A register gets the name that it is declared by, as only names that are declared are taken. -/
theorem State.OnlyQubits.declareQubits {n : UInt64} (hs : s.OnlyQubits)
    (h : declareQubits calls name (some (.int n)) config s = (.ok (), t)) : t.OnlyQubits := by
  obtain ⟨hfree, size, id, v, registers, diagnostics, halted, hallocated, rfl⟩ := declareQubits_eq_ok h
  have hname : Registers.freeName s.registers.names name = name := by
    refine if_neg fun htaken => ?_
    have hdeclared := hs.taken name htaken
    rw [Scopes.resolve?_of_isGlobal hs.isGlobal, hfree] at hdeclared
    cases hdeclared
  have hlist := Registers.list_eq_of_allocate hallocated
  have hnames := (Registers.list_allocate hallocated).2
  obtain ⟨rfl, rfl, -, -⟩ := Registers.allocate_eq_ok hallocated
  rw [hname] at hlist hnames
  refine ⟨(Scopes.isGlobal_push _ _).trans hs.isGlobal, fun m hm => ?_, fun i r hr hkind => ?_⟩
  · dsimp only at hm ⊢
    rw [Scopes.resolve?_push_eq]
    split
    · rfl
    · next hother =>
      rw [hnames, Std.TreeSet.contains_insert, Bool.or_eq_true, beq_iff_eq,
        Std.LawfulEqCmp.compare_eq_iff_eq] at hm
      exact hs.taken m (hm.resolve_left hother)
  · dsimp only at hr ⊢
    rw [Scopes.resolve?_push_eq]
    rw [hlist] at hr
    -- It is the new register or one that was there before, which then has another name.
    rcases Nat.lt_or_ge i s.registers.list.length with hi | hi
    · rw [List.getElem?_append_left hi] at hr
      obtain ⟨x, hx, hbinding⟩ := hs.named i r hr hkind
      have hother : name ≠ r.name := by
        rintro rfl
        rw [Scopes.resolve?_of_isGlobal hs.isGlobal, hfree] at hx
        cases hx
      rw [if_neg hother]
      exact ⟨x, hx, hbinding⟩
    · rw [List.getElem?_append_right hi, List.getElem?_singleton] at hr
      split at hr
      · next hlast =>
        cases hr
        obtain rfl : i = s.registers.list.length := by omega
        rw [if_pos rfl]
        exact ⟨_, rfl, rfl⟩
      · cases hr

/-- After declarations of qubits at the beginning of a program, all registers are in scope by their names. -/
theorem State.OnlyQubits.declarations {k : Nat} {ds : List (String × UInt64)} (hs : s.OnlyQubits)
    (hreachable : Reachable config s)
    (h : (ds.forM fun d => Analysis.declareQubits (.nested k) d.1 (some (.int d.2))) config s = (.ok (), t)) :
    t.OnlyQubits ∧ Reachable config t := by
  induction ds generalizing s with
  | nil =>
    cases h
    exact ⟨hs, hreachable⟩
  | cons d ds ih =>
    obtain ⟨_, u, hfirst, hrest⟩ := run_bind_eq_ok.1 h
    have hstep := (declareQubits_orderly (nested_orderly k) d.1 (some (.int d.2))).transitions
      hreachable.sound hfirst
    exact ih (hs.declareQubits hfirst) (hreachable.trans hstep) hrest

/-- What declarations of qubits at the beginning of a program lead to. -/
def afterDeclarations (config : Config) (ds : List (String × UInt64)) : Except Failure Unit × State :=
  (ds.forM fun d => declareQubits (.nested 0) d.1 (some (.int d.2))) config .initial

theorem afterDeclarations_onlyQubits {ds : List (String × UInt64)}
    (h : (afterDeclarations config ds).1.toOption.isSome = true) :
    (afterDeclarations config ds).2.OnlyQubits ∧ Reachable config (afterDeclarations config ds).2 :=
  onlyQubits_initial.declarations (.refl .initial) (Prod.ext (eq_ok_of_isSome () h) rfl)

end Declared

end Analysis
end OpenQasm
