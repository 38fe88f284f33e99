import OpenQasm.Analysis.Arguments
import OpenQasm.Proofs.Tally

/-!
What may be known about the states of an analysis. An invariant is a set of facts that the elementary
steps keep; the facts about views, operations and flat statements are chosen together with it, so that one
run through the analysis serves them all. Trivial facts are a choice as well. There are four kinds of
invariants: for the evaluation of expressions, for writing to variables, for declaring names, and for
statements; each one is for more steps, all of which it has to survive.
-/
namespace OpenQasm

open Analysis

/-- What is known about the data that steps hand to each other. All of it stays true when registers are
added. -/
structure Facts where
  /-- The physical indices of a kind. -/
  place : Registers → RegisterKind → Nat → Prop
  place_mono : ∀ {r r' k q}, r.Extends r' → place r k q → place r' k q
  /-- The qubits that a subroutine may hand back to be measured. -/
  measured : Registers → Nat → Prop
  measured_mono : ∀ {r r' q}, r.Extends r' → measured r q → measured r' q
  measured_place : ∀ {r q}, place r .quantum q → measured r q
  view : Registers → RegisterKind → View → Prop
  view_mono : ∀ {r r' k v}, r.Extends r' → view r k v → view r' k v
  view_place : ∀ {r k v q}, view r k v → q ∈ r.physical v → place r k q
  view_pick : ∀ {r k v} ps, view r k v → view r k (v.pick ps)
  view_concat : ∀ {r k v w}, view r k v → view r k w → view r k (v.concat w)
  /-- The operations that a gate is expanded to on qubits. -/
  op : List Nat → Instruction → Prop
  op_gate : ∀ {g qubits i}, g.params.length = g.kind.params →
    Instruction.ofGate g qubits = .ok i → op qubits i
  op_control : ∀ {qubits i} state n, qubits.Nodup → op (qubits.drop n) i →
    op qubits (i.addControls state (qubits.take n))
  op_inverse : ∀ {qubits i j}, op qubits i → i.inverse? = some j → op qubits j
  op_scaled : ∀ {qubits i g h x}, op qubits i → i.gate? = some g → g.scaledRotation? x = some h →
    op qubits { i with kind := .gate h }
  /-- An operation may be replaced by others on its qubits. -/
  op_replaced : ∀ {qubits i j}, op qubits i → op i.qubits j → op qubits j
  /-- Whether notes and reports about qubits that are measured twice are held in tally with the output. -/
  tallied : Prop
  tallied_gate : ∀ {qubits i}, tallied → op qubits i → i.Unnoted
  /-- The names of the flat program that assignments go to. -/
  target : Registers → String → Prop
  target_mono : ∀ {r r' name}, r.Extends r' → target r name → target r' name
  flat : Registers → FlatStatement → Prop
  flat_mono : ∀ {r r' f}, r.Extends r' → flat r f → flat r' f
  flat_assign : ∀ {r name} items value, target r name →
    flat r (.assign (placeExpr name items) value)
  flat_pragma : ∀ r text, flat r (.pragma text)
  flat_gate : ∀ {r qubits i}, (∀ q ∈ qubits, place r .quantum q) → op qubits i → flat r (.op i)
  flat_measure : ∀ {r q c}, measured r q → place r .classical c → flat r (.op (.measure q c))
  flat_measureOnly : ∀ {r q}, measured r q → flat r (.op (.measureOnly q))
  flat_reset : ∀ {r q}, place r .quantum q → flat r (.op (.reset q))
  flat_barrier : ∀ {r} {qs : List Nat}, qs ≠ [] → (∀ q ∈ qs, place r .quantum q) → qs.Nodup →
    flat r (.op (.barrier qs))
  flat_branch : ∀ {r clbits thenBody elseBody} condition,
    (∀ c ∈ clbits, place r .classical c) → (∀ f ∈ thenBody, flat r f) →
    (∀ f ∈ elseBody, flat r f) → flat r (.branch condition clbits thenBody elseBody)

/-- Nothing is known. -/
def Facts.trivial : Facts where
  place _ _ _ := True
  place_mono _ _ := ⟨⟩
  measured _ _ := True
  measured_mono _ _ := ⟨⟩
  measured_place _ := ⟨⟩
  view _ _ _ := True
  view_mono _ _ := ⟨⟩
  view_place _ _ := ⟨⟩
  view_pick _ _ := ⟨⟩
  view_concat _ _ := ⟨⟩
  op _ _ := True
  op_gate _ _ := ⟨⟩
  op_control _ _ _ _ := ⟨⟩
  op_inverse _ _ := ⟨⟩
  op_scaled _ _ _ := ⟨⟩
  op_replaced _ _ := ⟨⟩
  tallied := False
  tallied_gate := nofun
  target _ _ := True
  target_mono _ _ := ⟨⟩
  flat _ _ := True
  flat_mono _ _ := ⟨⟩
  flat_assign _ _ _ := ⟨⟩
  flat_pragma _ _ := ⟨⟩
  flat_gate _ _ := ⟨⟩
  flat_measure _ _ := ⟨⟩
  flat_measureOnly _ := ⟨⟩
  flat_reset _ := ⟨⟩
  flat_barrier _ _ _ := ⟨⟩
  flat_branch _ _ _ _ := ⟨⟩

/-- What a right-hand side stands for, as far as it is made of qubits. -/
def RightValue.Fits (F : Facts) (r : Registers) : RightValue → Prop
  | .measured qubits => ∀ q ∈ qubits, F.measured r q
  | .known _ | .runtime _ => True

/-- What a statement hands back. -/
def Signal.Fits (F : Facts) (r : Registers) : Signal → Prop
  | .returned (some v) => v.Fits F r
  | .returned none | .normal | .breakLoop | .continueLoop => True

theorem RightValue.Fits.mono {F : Facts} {r r' : Registers} (h : r.Extends r') :
    ∀ {v : RightValue}, v.Fits F r → v.Fits F r'
  | .measured _, hv => fun q hq => F.measured_mono h (hv q hq)
  | .known _, _ | .runtime _, _ => ⟨⟩

/-- If a symbol has a name in the flat program, assignments go to it. -/
def Symbol.Targeted (F : Facts) (r : Registers) (x : Symbol) : Prop :=
  ∀ name, x.emitName = some name → F.target r name

theorem Symbol.targeted_of_unnamed {F : Facts} {r : Registers} {x : Symbol} (h : x.emitName = none) :
    x.Targeted F r := fun _ hname => nomatch h.symm.trans hname

/-- A name of the flat program is that of a register of bits, and a view is all of this register. -/
def Registers.NamesBits (r : Registers) (name : String) (v : View) : Prop :=
  ∃ (id : Nat) (x : Register), r.list[id]? = some x ∧ x.kind = .classical ∧ x.name = name ∧ v = View.whole id x.size

theorem Registers.NamesBits.mono {r r' : Registers} {name : String} {v : View} (h : r.Extends r') :
    r.NamesBits name v → r'.NamesBits name v := by
  rintro ⟨id, x, hx, hnames⟩
  obtain ⟨more, hmore⟩ := h.list
  exact ⟨id, x, hmore ▸ (List.getElem?_append_left (List.getElem?_eq_some_iff.1 hx).1).trans hx, hnames⟩

theorem Registers.namesBits_allocate {r r' : Registers} {name : String} {size id : Nat} {v : View}
    (h : r.allocate name size .classical = .ok (id, v, r')) : r'.NamesBits (r'.nameOf id) v := by
  unfold allocate at h
  dsimp only at h
  split at h
  · cases h
    refine ⟨r.list.length, _, List.getElem?_concat_length, rfl, ?_, rfl⟩
    exact (congrArg (fun x => (x.map Register.name).getD "") List.getElem?_concat_length).symm
  · nomatch h

/-- Facts with what holds in the states of an analysis. -/
structure Invariant extends Facts where
  /-- The problems at which a construct is dropped that two runs may differ after. -/
  excuses : Problem → Prop
  core : State → Prop
  /-- The subroutines and gates that a name may stand for. -/
  subroutine : String → SubroutineDefinition → Prop
  gate : String → GateDefinition → Prop
  /-- The symbols that a step may declare. -/
  symbol : Registers → Symbol → Prop
  /-- The names that a step may write to. -/
  writable : String → State → Prop
  writable_mono : ∀ {s t : State} {name}, Frame s t → writable name s → writable name t
  core_congr : ∀ {s t : State}, core s → t.scopes = s.scopes → t.registers = s.registers →
    t.calls = s.calls → t.runtimeFloor = s.runtimeFloor → core t
  core_reserve : ∀ {s : State} name, core s →
    core { s with registers := (s.registers.reserve name).2 }
  /-- Registers of qubits have at least one. -/
  core_allocate : ∀ {s : State} {name size kind id v registers}, core s → (kind = .quantum → 0 < size) →
    s.registers.allocate name size kind = .ok (id, v, registers) → core { s with registers }
  core_mark : ∀ {s : State} q usage, core s →
    core { s with registers := (s.registers.mark q usage).2 }
  /-- What is measured or reset can be noted. -/
  tallied_measured : ∀ {s : State} {q}, tallied → core s → measured s.registers q →
    (Registers.holder? .quantum q 0 s.registers.list).isSome = true
  /-- Assignments go to names that were free. -/
  target_reserve : ∀ {s : State} name, core s →
    target (s.registers.reserve name).2 (s.registers.reserve name).1
  target_allocate : ∀ {s : State} {name size kind id v registers}, core s →
    s.registers.allocate name size kind = .ok (id, v, registers) →
    target registers (registers.nameOf id)
  /-- Assignments go to what a step may write to. -/
  target_writable : ∀ {s : State} {name x m}, core s → writable name s →
    s.scopes.resolve? name = some x → x.emitName = some m → target s.registers m
  /-- A variable gets its name in the flat program. If it has a value, this is to write to it. -/
  core_name : ∀ {s : State} {name x emitName}, core s → target s.registers emitName →
    s.scopes.resolve? name = some x → x.kind = .classicalVariable → x.emitName = none →
    (x.value = none ∨ (∃ p, x.binding = .param p) ∨ writable name s) →
    core { s with
      scopes := s.scopes.modify name fun y => { y with emitName := some emitName } }
  symbol_mono : ∀ {r r' x}, r.Extends r' → symbol r x → symbol r' x
  symbol_none : ∀ {r x}, x.binding = .none → x.Targeted toFacts r → symbol r x
  symbol_param : ∀ {r x p}, x.binding = .param p → x.Targeted toFacts r → symbol r x
  symbol_qubits : ∀ {r x v}, x.kind = .quantumRegister ∨ x.kind = .alias → x.binding = .qubits v →
    view r .quantum v → x.Targeted toFacts r → symbol r x
  symbol_clbits : ∀ {r x name v}, x.binding = .clbits v → view r .classical v → x.Targeted toFacts r →
    x.emitName = some name → r.NamesBits name v → symbol r x
  /-- A symbol that cannot be written to may stand for the same as a variable. -/
  symbol_copy : ∀ {s : State} {name x y}, core s → s.scopes.resolve? name = some x →
    x.kind = .classicalVariable ∨ x.emitName.isSome → y.kind = x.kind → y.binding = x.binding →
    y.emitName = x.emitName → y.mutable = false → symbol s.registers y
  resolves_subroutine : ∀ {s : State} {name x d}, core s → s.scopes.resolve? name = some x →
    x.binding = .subroutine d → subroutine name d
  resolves_gate : ∀ {s : State} {name x d}, core s → s.scopes.resolve? name = some x →
    x.binding = .gate d → gate name d
  resolves_qubits : ∀ {s : State} {name x v}, core s → s.scopes.resolve? name = some x →
    x.binding = .qubits v → view s.registers .quantum v
  resolves_clbits : ∀ {s : State} {name x v}, core s → s.scopes.resolve? name = some x →
    x.binding = .clbits v → view s.registers .classical v
  view_element : ∀ {s : State} {kind v index q w}, core s → view s.registers kind v →
    s.registers.resolve v index = .ok q → s.registers.elementView? kind q = some w →
    view s.registers kind w

/-- The same where notes and reports are not held in tally with the output. -/
def Invariant.untallied (I : Invariant) : Invariant :=
  { I with tallied := False, tallied_gate := nofun, tallied_measured := nofun }

/-- An invariant for code that writes to variables. -/
structure WritingInvariant extends Invariant where
  /-- What a write to a name leaves behind. -/
  written : String → State → Prop
  writable_of_resolve : ∀ {s : State} {name x}, core s → s.scopes.resolve? name = some x →
    x.kind = .classicalVariable ∨ x.kind = .classicalRegister → x.mutable = true → writable name s
  /-- A value is followed, unless the write depends on the run of the program. -/
  core_value : ∀ {s : State} {name x} value, core s → writable name s →
    s.scopes.resolve? name = some x →
    (∀ floor, s.runtimeFloor = some floor → x.scope < floor → value = none) →
    core { s with scopes := s.scopes.modify name fun y => { y with value } } ∧
      written name { s with scopes := s.scopes.modify name fun y => { y with value } }
  /-- A value is not known any more. -/
  core_forget : ∀ {s : State} name, core s →
    core { s with scopes := s.scopes.modify name fun y => { y with value := none } } ∧
      written name { s with scopes := s.scopes.modify name fun y => { y with value := none } }

/-- The current scope is the one that the body of a definition opens. -/
def Scopes.InBody (s : Scopes) : Prop := ∃ scope ∈ s.inner.head?, scope.kind.isBody = true

/-- An invariant for code that declares names. -/
structure DeclaringInvariant extends WritingInvariant where
  /-- Only at the beginning of a body, symbols are declared that assignments do not go to. -/
  core_declare : ∀ {s : State} {x scopes}, core s → symbol s.registers x →
    x.Targeted toFacts s.registers ∨ s.scopes.InBody → s.scopes.declare x = .ok scopes →
    core { s with scopes }

/-- An invariant for code that declares registers and has branches. -/
structure StatementInvariant extends DeclaringInvariant where
  /-- A branch that is decided when the program runs is entered, and left again. -/
  core_branch : ∀ {s : State}, core s → core { s with runtimeFloor := some s.scopes.depth }
  core_floor : ∀ {s t : State}, core s → core t → core { t with runtimeFloor := s.runtimeFloor }
  view_allocate : ∀ {s : State} {name size kind id v registers}, core s →
    s.registers.allocate name size kind = .ok (id, v, registers) → view registers kind v
  place_declared : ∀ {s : State} {q}, core s → q < s.registers.qubits →
    place s.registers .quantum q

/-- The flat statements that are put out between two states are ones of the invariant. -/
def Invariant.PutsOut (I : Invariant) (s t : State) : Prop :=
  ∃ added, t.output = added ++ s.output ∧ ∀ f ∈ added, I.flat t.registers f

namespace Invariant.PutsOut

variable {I : Invariant} {s t u : State}

theorem nothing (h : t.output = s.output) : I.PutsOut s t := ⟨[], h, fun _ hf => nomatch hf⟩

theorem trans (h : I.PutsOut s t) (h' : I.PutsOut t u) (hextends : t.registers.Extends u.registers) :
    I.PutsOut s u := by
  obtain ⟨first, hfirst, hflat⟩ := h
  obtain ⟨second, hsecond, hflat'⟩ := h'
  refine ⟨second ++ first, by rw [hsecond, hfirst, List.append_assoc], ?_⟩
  exact List.forall_mem_append.2 ⟨hflat', fun f hf => I.flat_mono hextends (hflat f hf)⟩

theorem imp {J : Invariant} (h : J.PutsOut s t) (hflat : ∀ r f, J.flat r f → I.flat r f) : I.PutsOut s t := by
  obtain ⟨added, hadded, hadds⟩ := h
  exact ⟨added, hadded, fun f hf => hflat _ f (hadds f hf)⟩

end Invariant.PutsOut

end OpenQasm
