import Mathlib.Data.List.Perm.Subperm
import OpenQasm.Proofs.OrderlyStatements
import OpenQasm.Proofs.SourceCharacters

/-!
The names in the first lines of a flat program. Registers and variables get names that are free, so they never
share one; the gates that are kept have other names than each other and than the builtin gates. The names of
gates are not taken into account for registers and variables.
-/
namespace OpenQasm

namespace Registers

variable {taken : Std.TreeSet String} {name : String}

/-- Only if all suffixes are taken, the last one is given although it is taken. -/
theorem freeSuffix_taken {k n : Nat} (h : taken.contains (freeSuffix taken name k n) = true) :
    ∀ j ≤ n, taken.contains (name ++ "_" ++ toString (k + j)) = true := by
  induction n generalizing k with
  | zero =>
    intro j hj
    rw [Nat.le_zero.1 hj]
    exact h
  | succ n ih =>
    unfold freeSuffix at h
    dsimp only at h
    split at h
    · next hcandidate =>
      intro j hj
      cases j with
      | zero => exact hcandidate
      | succ j =>
        have hrest := ih h j (Nat.le_of_succ_le_succ hj)
        rwa [Nat.add_assoc, Nat.add_comm 1 j] at hrest
    · next hcandidate => exact absurd h hcandidate

theorem toString_injective : Function.Injective (toString : Nat → String) := by
  intro i j h
  have hnumbers := congrArg (fun digits : String => Nat.ofDigitChars 10 digits.toList 0) h
  simpa using hnumbers

/-- There are more suffixes than names that are taken. -/
theorem freeName_free (taken : Std.TreeSet String) (name : String) :
    taken.contains (freeName taken name) = false := by
  unfold freeName
  split
  -- If the last suffix is taken, so are all of them, which are more than the names that are taken.
  · by_contra htaken
    have hall := freeSuffix_taken (Bool.not_eq_false _ ▸ htaken)
    let suffixed (j : Nat) : String := name ++ "_" ++ toString (1 + j)
    have hinjective : Function.Injective suffixed := by
      intro i j hij
      have hnumbers : toString (1 + i) = toString (1 + j) := (String.append_right_inj _).1 hij
      exact Nat.add_left_cancel (toString_injective hnumbers)
    have hnodup : ((List.range (taken.size + 1)).map suffixed).Nodup :=
      List.nodup_range.map hinjective
    have hsubset : (List.range (taken.size + 1)).map suffixed ⊆ taken.toList := by
      intro m hm
      obtain ⟨j, hj, rfl⟩ := List.mem_map.1 hm
      exact Std.TreeSet.mem_toList.2 (hall j (Nat.le_of_lt_succ (List.mem_range.1 hj)))
    have hlength := (List.subperm_of_subset hnodup hsubset).length_le
    rw [List.length_map, List.length_range, Std.TreeSet.length_toList] at hlength
    exact Nat.not_succ_le_self _ hlength
  · next hfree => exact Bool.eq_false_iff.2 hfree

theorem list_allocate {r r' : Registers} {size id : Nat} {kind : RegisterKind} {v : View}
    (h : r.allocate name size kind = .ok (id, v, r')) :
    r'.list.map Register.name = r.list.map Register.name ++ [freeName r.names name] ∧
      r'.names = r.names.insert (freeName r.names name) := by
  unfold allocate at h
  dsimp only at h
  split at h
  · cases kind <;> cases h <;> exact ⟨List.map_append, rfl⟩
  · nomatch h

end Registers

namespace Scopes

variable {s t : Scopes}

/-- The names of the global scope. -/
def globalNames (s : Scopes) : List String := s.global.map Symbol.name

theorem globalNames_push (s : Scopes) (x : Symbol) : s.globalNames ⊆ (s.push x).globalNames := by
  obtain ⟨global, inner⟩ := s
  cases inner with
  | nil => exact List.subset_cons_self _ _
  | cons a outer => exact List.Subset.refl _

theorem globalNames_modify {f : Symbol → Symbol} (hf : KeepsKey f) (s : Scopes) (name : String) :
    (s.modify name f).globalNames = s.globalNames := by
  have hkeys := congrArg (List.map Prod.fst) (same_modify hf s name).global
  rw [List.map_map, List.map_map] at hkeys
  exact hkeys.symm

/-- A name that is declared in the global scope is a new one there. -/
theorem globalNames_declare {x : Symbol} (hglobal : s.isGlobal = true) (h : s.declare x = .ok t) :
    x.name ∉ s.globalNames ∧ t.globalNames = x.name :: s.globalNames := by
  obtain ⟨global, inner⟩ := s
  cases List.isEmpty_iff.1 hglobal
  unfold declare at h
  split at h
  · cases h
  · next hfree =>
    cases h
    refine ⟨fun hname => ?_, rfl⟩
    obtain ⟨y, hy, hsame⟩ := List.mem_map.1 hname
    exact List.find?_eq_none.1 hfree y hy (beq_iff_eq.2 hsame)

end Scopes

namespace Analysis

variable {config : Config} {s t : State}

/-- The names of the registers and variables of the flat program. -/
def State.emittedNames (s : State) : List String :=
  s.registers.list.map Register.name ++ s.declarations.map Declaration.name

/-- The names of the gates that are kept and of those that every program knows. -/
def State.gateNames (s : State) : List String :=
  s.externalGates.map GateDefinition.name ++ Builtin.all.map Builtin.name

/-- The names of registers and variables are taken by one each, and so are the names of gates. -/
structure Distinct (s : State) : Prop where
  emitted : s.emittedNames.Nodup
  taken : ∀ m ∈ s.emittedNames, s.registers.names.contains m = true
  gates : s.gateNames.Nodup
  declared : s.gateNames ⊆ s.scopes.globalNames

theorem distinct_initial : Distinct .initial where
  emitted := List.nodup_nil
  taken _ hm := nomatch hm
  gates := by decide +kernel
  declared m hm := by
    obtain ⟨b, hb, rfl⟩ := List.mem_map.1 hm
    exact List.mem_map.2 ⟨_, List.mem_reverse.2 (List.mem_map_of_mem hb), rfl⟩

/-- What takes a free name is distinct from what has got a name before. -/
theorem Distinct.emits (h : Distinct s) (name : String)
    (hnames : t.registers.names = s.registers.names.insert (Registers.freeName s.registers.names name))
    (hemitted : t.emittedNames.Perm (Registers.freeName s.registers.names name :: s.emittedNames)) :
    t.emittedNames.Nodup ∧ ∀ m ∈ t.emittedNames, t.registers.names.contains m = true := by
  have hfree := Registers.freeName_free s.registers.names name
  have hnew : Registers.freeName s.registers.names name ∉ s.emittedNames := fun hm =>
    Bool.false_ne_true (hfree.symm.trans (h.taken _ hm))
  refine ⟨hemitted.nodup_iff.2 (List.nodup_cons.2 ⟨hnew, h.emitted⟩), fun m hm => ?_⟩
  rw [hnames, Std.TreeSet.contains_insert]
  rcases List.mem_cons.1 (hemitted.mem_iff.1 hm) with rfl | hm
  · simp
  · rw [h.taken m hm, Bool.or_true]

theorem Transition.distinct (h : Transition config s t) (hs : Distinct s) : Distinct t := by
  cases h with
  | place | report | enter | exit => exact ⟨hs.emitted, hs.taken, hs.gates, hs.declared⟩
  | declare hdeclared =>
    -- A symbol of an inner scope may have any name; only the global names count for gates.
    cases Scopes.eq_push_of_declare hdeclared
    exact ⟨hs.emitted, hs.taken, hs.gates, List.Subset.trans hs.declared (Scopes.globalNames_push _ _)⟩
  | keepGate hglobal hname hdeclared =>
    obtain ⟨hnew, hnames⟩ := Scopes.globalNames_declare hglobal hdeclared
    rw [hname] at hnew hnames
    refine ⟨hs.emitted, hs.taken, List.nodup_cons.2 ⟨fun h => hnew (hs.declared h), hs.gates⟩, ?_⟩
    dsimp only
    rw [hnames]
    exact List.cons_subset_cons _ hs.declared
  | nameSymbol emitName =>
    refine ⟨hs.emitted, hs.taken, hs.gates, ?_⟩
    dsimp only
    rw [Scopes.globalNames_modify (keepsKey_emitName emitName)]
    exact hs.declared
  | @setValue name value =>
    refine ⟨hs.emitted, hs.taken, hs.gates, ?_⟩
    dsimp only
    rw [Scopes.globalNames_modify (keepsKey_value value)]
    exact hs.declared
  | mark q usage =>
    obtain ⟨hlist, hnames⟩ := Registers.list_mark s.registers q usage
    have hemitted : ({ s with registers := (s.registers.mark q usage).2 } : State).emittedNames =
        s.emittedNames := by
      unfold State.emittedNames
      rw [hlist]
    refine ⟨hemitted ▸ hs.emitted, fun m hm => ?_, hs.gates, hs.declared⟩
    rw [hnames]
    exact hs.taken m (hemitted ▸ hm)
  | @allocate name size id kind v registers hallocated =>
    -- The list of registers grows at its end, before the names of the variables.
    obtain ⟨hlist, hnames⟩ := Registers.list_allocate hallocated
    obtain ⟨hnodup, htaken⟩ := hs.emits (t := { s with registers }) name hnames (by
      unfold State.emittedNames
      rw [hlist, List.append_assoc]
      exact List.perm_middle)
    exact ⟨hnodup, htaken, hs.gates, hs.declared⟩
  | addVariable name u direction =>
    obtain ⟨hnodup, htaken⟩ := hs.emits name (t :=
      { s with
        registers := (s.registers.reserve name).2
        declarations := ⟨(s.registers.reserve name).1, u, direction⟩ :: s.declarations })
      rfl List.perm_middle
    exact ⟨hnodup, htaken, hs.gates, hs.declared⟩

theorem Transitions.distinct (h : Transitions config s t) (hs : Distinct s) : Distinct t := by
  induction h with
  | refl => exact hs
  | tail _ hstep ih => exact hstep.distinct ih

theorem program_distinct (n : Nat) (p : Program) (errors : List SyntaxError) (config : Config) :
    Distinct (program (.nested n) p errors config .initial).2 :=
  (program_transitions n p errors Scopes.Sound.withBuiltins).distinct distinct_initial

/-- The registers of both kinds are all registers. -/
theorem ofKind_perm (r : Registers) : (r.ofKind .quantum ++ r.ofKind .classical).Perm r.list := by
  have hother : r.ofKind .classical = r.list.filter fun x => !decide (x.kind = .quantum) := by
    refine List.filter_congr fun x _ => ?_
    cases x.kind <;> rfl
  rw [hother]
  exact List.filter_append_perm _ _

/-- In a flat program no two registers or variables share a name, and the gates that are kept have other names
than each other and than the builtin gates. -/
theorem header_names_distinct (config : Config) (source : String) :
    let p := ofSource config source
    ((p.qubitRegisters ++ p.clbitRegisters).map Register.name ++
        p.declarations.map Declaration.name).Nodup ∧
      (p.externalGates.map GateDefinition.name ++ Builtin.all.map Builtin.name).Nodup := by
  intro p
  have hend := program_distinct (nestingBound (Program.parse source).1) (Program.parse source).1
    (Program.parse source).2 config
  constructor
  · refine (List.Perm.nodup_iff ?_).2 hend.emitted
    exact ((ofKind_perm _).map _).append ((List.reverse_perm _).map _)
  · refine (List.Perm.nodup_iff ?_).2 hend.gates
    exact ((List.reverse_perm _).map _).append_right _

/-- A register of an inner scope may have the name of a builtin gate or of a gate that is kept. The first lines
of the flat program then declare that name, or declare it twice. -/
theorem gate_name_declared :
    let inner := ofSource .default "qubit q;\nif (true) { bit x; x = measure q; }\nx q;\n"
    let kept := ofSource { Config.default with externalGates := ["g"] }
      "qubit q;\nif (true) { bit g; g = measure q; }\ngate g a { x a; }\ng q;\n"
    (inner.diagnostics.length = 0 ∧ inner.clbitRegisters.map Register.name = ["x"] ∧
        "x" ∈ Builtin.all.map Builtin.name) ∧
      kept.diagnostics.length = 0 ∧ kept.clbitRegisters.map Register.name = ["g"] ∧
        kept.externalGates.map GateDefinition.name = ["g"] := by
  rw [ofSource_ofList, ofSource_ofList]
  decide +kernel

end Analysis
end OpenQasm
