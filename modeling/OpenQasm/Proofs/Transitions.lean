import Mathlib.Logic.Relation
import OpenQasm.Proofs.Frame
import OpenQasm.Proofs.Inhabitants
import OpenQasm.Proofs.Levels

/-!
What the analysis can do to its state at once. All that it does is a sequence of such transitions, so that
what each of them keeps holds in every state of every run: a value that is followed is one of the declared
type, what a symbol stands for is as wide as it is declared, what was put out as registers, declarations and
reports stays, and the analysis has ended when a report has ended it.
-/
namespace OpenQasm

/-- What a symbol stands for is as wide as it is declared. Symbols of qubits have neither a type nor a name in
the flat program, so that they are not passed to subroutines by that name. What is passed so cannot be
written to; its type is the one of the parameter. -/
structure Symbol.Stored (x : Symbol) : Prop where
  qubits : ∀ v, x.binding = .qubits v → x.type = none ∧ x.emitName = none ∧ x.size = some v.length
  clbits : ∀ v, x.binding = .clbits v → x.mutable = true → x.type = some (.sized .bit v.length)

theorem Symbol.Stored.of_noView {x : Symbol} (hqubits : ∀ v, x.binding ≠ .qubits v)
    (hclbits : ∀ v, x.binding ≠ .clbits v) : x.Stored :=
  ⟨fun v hv => absurd hv (hqubits v), fun v hv => absurd hv (hclbits v)⟩

theorem Symbol.Stored.of_qubits {x : Symbol} {v : View} (hbinding : x.binding = .qubits v)
    (htype : x.type = none) (hname : x.emitName = none) (hsize : x.size = some v.length) : x.Stored where
  qubits w hw := by
    cases hbinding.symm.trans hw
    exact ⟨htype, hname, hsize⟩
  clbits w hw := by cases hbinding.symm.trans hw

theorem Symbol.Stored.of_clbits {x : Symbol} {v : View} (hbinding : x.binding = .clbits v)
    (htype : x.type = some (.sized .bit v.length)) : x.Stored where
  qubits w hw := by cases hbinding.symm.trans hw
  clbits w hw _ := by
    cases hbinding.symm.trans hw
    exact htype

/-- The type of a symbol can be written, its value, as long as it is known, is one of the type, and what it
stands for is as wide as it is declared. -/
structure Symbol.Sound (x : Symbol) : Prop where
  typed : ∀ t, x.type = some t → t.Writable ∧ ∀ v, x.value = some v → t.Inhabits v
  stored : x.Stored

theorem Symbol.sound_of_no_type {x : Symbol} (h : x.type = none) (hstored : x.Stored) : x.Sound :=
  ⟨fun _ ht => (nomatch h.symm.trans ht), hstored⟩

theorem Symbol.sound_of_no_value {x : Symbol} {t : ClassicalType} (ht : t.Writable)
    (htype : x.type = some t) (hvalue : x.value = none) (hstored : x.Stored) : x.Sound := by
  refine ⟨fun u hu => ?_, hstored⟩
  cases htype.symm.trans hu
  exact ⟨ht, fun v hv => nomatch hvalue.symm.trans hv⟩

theorem Symbol.sound_of_value {x : Symbol} {t : ClassicalType} {v : Value} (ht : t.Writable)
    (htype : x.type = some t) (hvalue : x.value = some v) (hv : t.Inhabits v) (hstored : x.Stored) :
    x.Sound := by
  refine ⟨fun u hu => ?_, hstored⟩
  cases htype.symm.trans hu
  refine ⟨ht, fun w hw => ?_⟩
  cases hvalue.symm.trans hw
  exact hv

namespace Scopes

/-- All symbols are sound and have the numbers of their levels. -/
structure Sound (s : Scopes) : Prop where
  numbered : s.Numbered
  symbol : ∀ x, s.Has x → x.Sound

namespace Sound

variable {s : Scopes}

theorem withBuiltins : Sound withBuiltins where
  numbered := numbered_withBuiltins
  symbol x hx := by
    rcases hx with hx | ⟨scope, hscope, -⟩
    · obtain ⟨g, -, rfl⟩ := List.mem_map.1 (List.mem_reverse.1 hx)
      exact Symbol.sound_of_no_type rfl (.of_noView nofun nofun)
    · nomatch hscope

theorem enter (h : Sound s) (kind : ScopeKind) : Sound (s.enter kind) :=
  ⟨h.numbered.enter kind, fun x hx => h.symbol x (has_enter hx)⟩

theorem exit (h : Sound s) : Sound s.exit :=
  ⟨h.numbered.exit, fun x hx => h.symbol x (has_exit hx)⟩

theorem push (h : Sound s) {x : Symbol} (hx : x.Sound) : Sound (s.push x) := by
  refine ⟨h.numbered.push x, fun y hy => ?_⟩
  rcases has_push hy with rfl | hy
  · exact ⟨hx.typed, hx.stored.qubits, hx.stored.clbits⟩
  · exact h.symbol y hy

theorem modify (h : Sound s) {name : String} {f : Symbol → Symbol} (hkey : KeepsKey f)
    (hscope : ∀ x, (f x).scope = x.scope)
    (hf : ∀ x, s.resolve? name = some x → x.Sound → (f x).Sound) : Sound (s.modify name f) := by
  refine ⟨h.numbered.modify hkey hscope name, fun y hy => ?_⟩
  -- At most one symbol is changed, the one that the name stands for.
  rcases has_modify hy with hy | ⟨x, hx, rfl⟩
  · exact h.symbol y hy
  · exact hf x hx (h.symbol x (has_of_resolve? hx))

theorem resolve? (h : Sound s) {name : String} {x : Symbol} (hx : s.resolve? name = some x) :
    x.Sound := h.symbol x (has_of_resolve? hx)

end Sound

end Scopes

namespace Analysis

variable {config : Config} {s t u : State}

/-- What the analysis can do to its state at once. -/
inductive Transition (config : Config) (s : State) : State → Prop
  /-- The output and what describes the place of the step are changed. -/
  | place (output : List FlatStatement) (calls : List String)
      (loopScope callScope runtimeFloor : Option Nat) (span : Span) :
      Transition config s { s with output, calls, loopScope, callScope, runtimeFloor, span }
  | report (d : Diagnostic) :
      Transition config s
        { s with diagnostics := d :: s.diagnostics, halted := s.halted || ends config d }
  | enter (kind : ScopeKind) : Transition config s { s with scopes := s.scopes.enter kind }
  | exit : Transition config s { s with scopes := s.scopes.exit }
  | declare {x : Symbol} {scopes : Scopes} : s.scopes.declare x = .ok scopes → x.Sound →
      Transition config s { s with scopes }
  /-- The definition of a gate is kept for the flat program. -/
  | keepGate {d : GateDefinition} {x : Symbol} {scopes : Scopes} : s.scopes.isGlobal = true →
      x.name = d.name → s.scopes.declare x = .ok scopes → x.Sound →
      Transition config s { s with scopes, externalGates := d :: s.externalGates }
  /-- A symbol with a type gets a name in the flat program. -/
  | nameSymbol {name : String} (emitName : Option String) :
      (∀ x, s.scopes.resolve? name = some x → x.type ≠ none) →
      Transition config s
        { s with scopes := s.scopes.modify name fun x => { x with emitName := emitName } }
  /-- The value of a symbol is replaced by one of its type, or it is not known any more. -/
  | setValue {name : String} {value : Option Value} :
      (∀ x t v, s.scopes.resolve? name = some x → x.type = some t → value = some v →
        t.Inhabits v) →
      Transition config s { s with scopes := s.scopes.modify name fun x => { x with value := value } }
  | mark (q : Nat) (usage : Usage) :
      Transition config s { s with registers := (s.registers.mark q usage).2 }
  | allocate {name : String} {size id : Nat} {kind : RegisterKind} {v : View}
      {registers : Registers} : s.registers.allocate name size kind = .ok (id, v, registers) →
      Transition config s { s with registers }
  /-- A variable is declared in the flat program under a free name. -/
  | addVariable (name : String) (t : ClassicalType) (direction : Option Direction) :
      Transition config s
        { s with
          registers := (s.registers.reserve name).2
          declarations := ⟨(s.registers.reserve name).1, t, direction⟩ :: s.declarations }

/-- What the analysis can do to its state, one transition after another. -/
def Transitions (config : Config) : State → State → Prop :=
  Relation.ReflTransGen (Transition config)

/-- The states that an analysis can be in. -/
def Reachable (config : Config) (s : State) : Prop := Transitions config .initial s

theorem Transitions.refl (s : State) : Transitions config s s :=
  Relation.ReflTransGen.refl

theorem Transition.transitions (h : Transition config s t) : Transitions config s t := .single h

theorem Transitions.trans (h : Transitions config s t) (h' : Transitions config t u) :
    Transitions config s u := Relation.ReflTransGen.trans h h'

section Soundness

/-- No transition makes a symbol unsound. -/
theorem Transition.sound (h : Transition config s t) (hs : s.scopes.Sound) : t.scopes.Sound := by
  cases h with
  | place | report | mark | allocate | addVariable => exact hs
  | enter kind => exact hs.enter kind
  | exit => exact hs.exit
  | declare hdeclared hx =>
    cases Scopes.eq_push_of_declare hdeclared
    exact hs.push hx
  | keepGate _ _ hdeclared hx =>
    cases Scopes.eq_push_of_declare hdeclared
    exact hs.push hx
  | nameSymbol emitName htyped =>
    refine hs.modify (keepsKey_emitName emitName) (fun _ => rfl) fun x hx hsound => ?_
    -- A symbol of qubits has no type, so that it is not the one that gets the name.
    exact ⟨hsound.typed, fun v hv => absurd (hsound.stored.qubits v hv).1 (htyped x hx),
      hsound.stored.clbits⟩
  | @setValue name value hvalue =>
    -- The type is kept, so that what can be written is known from before.
    refine hs.modify (keepsKey_value value) (fun _ => rfl) fun x hx hsound => ⟨fun u hu => ?_, ?_⟩
    · exact ⟨(hsound.typed u hu).1, fun v hv => hvalue x u v hx hu hv⟩
    · exact ⟨hsound.stored.qubits, hsound.stored.clbits⟩

theorem Transitions.sound (h : Transitions config s t) (hs : s.scopes.Sound) : t.scopes.Sound := by
  induction h with
  | refl => exact hs
  | tail _ hstep ih => exact hstep.sound ih

theorem Reachable.sound (h : Reachable config s) : s.scopes.Sound :=
  Transitions.sound h Scopes.Sound.withBuiltins

end Soundness

section Growth

/-- What is put out for good in the first state is the beginning of what is in the second one. -/
structure Before (s t : State) : Prop where
  registers : s.registers.Extends t.registers
  declarations : s.declarations <:+ t.declarations
  externalGates : s.externalGates <:+ t.externalGates
  diagnostics : s.diagnostics <:+ t.diagnostics

namespace Before

theorem refl (s : State) : Before s s :=
  ⟨Registers.Extends.refl _, List.suffix_rfl, List.suffix_rfl, List.suffix_rfl⟩

theorem trans (h : Before s t) (h' : Before t u) : Before s u :=
  ⟨h.registers.trans h'.registers, h.declarations.trans h'.declarations,
    h.externalGates.trans h'.externalGates, h.diagnostics.trans h'.diagnostics⟩

end Before

theorem Transition.before (h : Transition config s t) : Before s t := by
  cases h with
  | place | enter | exit | declare | nameSymbol | setValue => exact { Before.refl s with }
  | report d => exact { Before.refl s with diagnostics := List.suffix_cons _ _ }
  | keepGate => exact { Before.refl s with externalGates := List.suffix_cons _ _ }
  | mark q usage => exact { Before.refl s with registers := Registers.extends_mark _ _ _ }
  | allocate h => exact { Before.refl s with registers := Registers.extends_allocate h }
  | addVariable name u direction =>
    exact { Before.refl s with
      registers := Registers.extends_reserve _ _, declarations := List.suffix_cons _ _ }

theorem Transitions.before (h : Transitions config s t) : Before s t := by
  induction h with
  | refl => exact Before.refl s
  | tail _ hstep ih => exact ih.trans hstep.before

end Growth

section Ending

/-- The analysis has ended if one of its reports ends it, and only then. -/
def Ended (config : Config) (s : State) : Prop := s.halted = s.diagnostics.any (ends config)

theorem Transition.ended (h : Transition config s t) (hs : Ended config s) : Ended config t := by
  cases h with
  | report d =>
    unfold Ended at hs ⊢
    rw [List.any_cons, hs, Bool.or_comm]
  | _ => exact hs

theorem Transitions.ended (h : Transitions config s t) (hs : Ended config s) : Ended config t := by
  induction h with
  | refl => exact hs
  | tail _ hstep ih => exact hstep.ended ih

/-- If all errors are collected, no report ends the analysis. -/
theorem Transition.halted (h : Transition config s t) (hmode : config.errorMode = .collectAll) :
    t.halted = s.halted := by
  cases h with
  | report d =>
    have hends : ends config d = false := by
      unfold ends
      rw [hmode]
      rfl
    dsimp only
    rw [hends, Bool.or_false]
  | _ => rfl

theorem Transitions.halted (h : Transitions config s t) (hmode : config.errorMode = .collectAll) :
    t.halted = s.halted := by
  induction h with
  | refl => rfl
  | tail _ hstep ih => exact (hstep.halted hmode).trans ih

end Ending

end Analysis
end OpenQasm
