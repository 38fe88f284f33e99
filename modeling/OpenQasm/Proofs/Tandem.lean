import OpenQasm.Proofs.BuiltViews
import OpenQasm.Proofs.KnownValues
import OpenQasm.Proofs.RenamedExpressions

/-!
Two runs of an analysis in tandem: where names stand for corresponding things, the same steps are made, up to
the names that are read and the qubits that are named. The states of the two runs differ in their scopes only.
-/
namespace OpenQasm

/-- The qubits and the views of qubits of a second run that go with those of a first one. -/
structure Wiring where
  qubit : Nat → Nat
  /-- The qubits that the first run may name. -/
  Declared : Nat → Prop
  view : View → View → Prop
  /-- The registers that both runs may have. -/
  At : Registers → Prop
  at_mono : ∀ {r r'}, At r → r.Extends r' → At r'
  injective : ∀ {p q}, Declared p → Declared q → qubit p = qubit q → p = q
  length : ∀ {v w}, view v w → w.length = v.length
  declared : ∀ {r v w}, At r → view v w → ∀ q ∈ r.physical v, Declared q
  physical : ∀ {r v w}, At r → view v w → r.physical w = (r.physical v).map qubit
  element : ∀ {r q}, At r → Declared q →
    Option.Rel view (r.elementView? .quantum q) (r.elementView? .quantum (qubit q))
  concat : ∀ {v w v' w'}, view v w → view v' w' → view (v.concat v') (w.concat w')
  pick : ∀ {v w} positions, view v w → view (v.pick positions) (w.pick positions)

/-- The second symbol is the first one, but for the qubits that it stands for. -/
inductive Symbol.Wired (W : Wiring) : Symbol → Symbol → Prop
  | same {x : Symbol} : (∀ v, x.binding ≠ .qubits v) → Wired W x x
  | qubits {x : Symbol} {v w : View} : x.binding = .qubits v → W.view v w →
    Wired W x { x with binding := .qubits w }

namespace Symbol.Wired

variable {W : Wiring} {x y : Symbol}

theorem kind (h : x.Wired W y) : y.kind = x.kind := by cases h <;> rfl

theorem type (h : x.Wired W y) : y.type = x.type := by cases h <;> rfl

theorem value (h : x.Wired W y) : y.value = x.value := by cases h <;> rfl

theorem emitName (h : x.Wired W y) : y.emitName = x.emitName := by cases h <;> rfl

end Symbol.Wired

/-- Two variables with one known value. -/
structure Symbol.Equals (x y : Symbol) : Prop where
  kinds : x.kind = .classicalVariable ∧ y.kind = .classicalVariable
  bindings : x.binding = .none ∧ y.binding = .none
  type : y.type = x.type
  value : ∃ v, x.value = some v ∧ y.value = some v

/-- A correspondence of two runs: what the first one reads under a name, the second one reads under another.
Unless it is strict, the second run may do anything where the first one fails. -/
structure Link where
  wiring : Wiring
  name : String → String
  Strict : Prop
  scopes : Scopes → Scopes → Prop
  /-- The names of what may be called. -/
  Callable : String → Prop

namespace Link

/-- What a name stands for in the first run, and what the name for it stands for in the second one. -/
def Matches (L : Link) (n : String) (x y : Symbol) : Prop := (L.name n = n ∧ x.Wired L.wiring y) ∨ x.Equals y

/-- A link along which expressions are evaluated alike. No subroutine may be called. -/
structure Sound (L : Link) : Prop where
  name_id : L.Strict → ∀ n, L.name n = n
  found : ∀ {a b n x}, L.scopes a b → a.resolve? n = some x → ∃ y, b.resolve? (L.name n) = some y ∧ L.Matches n x y
  missing : ∀ {a b n y}, L.scopes a b → a.resolve? n = none → b.resolve? (L.name n) = some y →
    ¬L.Strict ∧ y.binding = .none
  callable : ∀ {f}, L.Callable f → L.name f = f
  calls : ∀ {a b f}, L.scopes a b → L.Callable f →
    a.subroutine? f = none ∧ b.subroutine? f = none ∧ (b.resolve? f).isSome = (a.resolve? f).isSome
  /-- A variable gets a name in the flat program in both runs. -/
  names : ∀ {a b n x y} (emitName : String), L.scopes a b → a.resolve? n = some x → b.resolve? n = some y →
    x.Wired L.wiring y → x.kind = .classicalVariable →
      L.scopes (a.modify n fun z => { z with emitName := some emitName })
        (b.modify n fun z => { z with emitName := some emitName })

end Link

/-- The same problem, up to the qubit that it names. -/
inductive Problem.Alike (W : Wiring) : Problem → Problem → Prop
  | same (p : Problem) : Alike W p p
  | usedTwice {r : Registers} {q : Nat} (gate : String) : W.At r → W.Declared q →
    Alike W (.usedTwice (r.qubitLabel q) gate) (.usedTwice (r.qubitLabel (W.qubit q)) gate)
  | duplicate {q : Nat} (gate : Option String) : W.Declared q →
    Alike W (.operation (.duplicateQubit q gate)) (.operation (.duplicateQubit (W.qubit q) gate))
  | undeclared {q : Nat} : W.Declared q → Alike W (.undeclaredQubit q) (.undeclaredQubit (W.qubit q))

/-- The same failure, up to the qubit that its problem names. -/
inductive Failure.Alike (W : Wiring) : Failure → Failure → Prop
  | same (f : Failure) : Alike W f f
  | statement {p p' : Problem} (span : Span) : p.Alike W p' → Alike W (.statement ⟨p, span⟩) (.statement ⟨p', span⟩)

namespace Analysis

variable {α β γ δ : Type} {L : Link} {config : Config} {s t : State}

/-- The state with other scopes. -/
def State.seeing (s : State) (scopes : Scopes) : State := { s with scopes }

/-- The states of two runs differ in their scopes only, and these correspond. -/
structure Linked (L : Link) (s t : State) : Prop where
  rest : t = s.seeing t.scopes
  scopes : L.scopes s.scopes t.scopes
  registers : L.wiring.At s.registers

/-- How a step ends in the two runs. -/
inductive Outcome (L : Link) (Q : α → β → Prop) : Except Failure α × State → Except Failure β × State → Prop
  | ok {a : α} {b : β} {s t : State} : Q a b → Linked L s t → Outcome L Q (.ok a, s) (.ok b, t)
  | error {f g : Failure} {s t : State} : f.Alike L.wiring g → Linked L s t → Outcome L Q (.error f, s) (.error g, t)
  | lost {f : Failure} {s : State} (r : Except Failure β × State) : ¬L.Strict → Outcome L Q (.error f, s) r

/-- Two steps that end alike in linked states. -/
def Tandem (L : Link) (config : Config) (Q : α → β → Prop) (x : Analysis α) (y : Analysis β) : Prop :=
  ∀ s t, Linked L s t → Outcome L Q (x config s) (y config t)

theorem resolve_bind {n : String} {x : Symbol} {f : Symbol → Analysis α} (hx : s.scopes.resolve? n = some x) :
    (resolve n >>= f) config s = f x config s := by
  unfold resolve
  rw [run_bind, run_bind, run_lookup, hx]
  rfl

theorem lookup_bind (name : String) (f : Option Symbol → Analysis β) (config : Config) (s : State) :
    (resolve? name >>= f) config s = f (s.scopes.resolve? name) config s := rfl

section Rules

variable {Q : α → β → Prop} {Q' : γ → δ → Prop} {x : Analysis α} {y : Analysis β} {f : α → Analysis γ}
  {g : β → Analysis δ}

theorem Linked.span (h : Linked L s t) : t.span = s.span := by rw [h.rest]; rfl

theorem Linked.registers_eq (h : Linked L s t) : t.registers = s.registers := by rw [h.rest]; rfl

theorem Outcome.mono {R : α → β → Prop} {r : Except Failure α × State} {r' : Except Failure β × State}
    (h : Outcome L Q r r') (himp : ∀ a b, Q a b → R a b) : Outcome L R r r' := by
  cases h with
  | ok hq hlinked => exact .ok (himp _ _ hq) hlinked
  | error halike hlinked => exact .error halike hlinked
  | lost _ hloose => exact .lost _ hloose

/-- The second steps are compared from where the first ones ended. -/
theorem Outcome.bind (hx : Outcome L Q (x config s) (y config t))
    (hf : ∀ a b s' t', x config s = (.ok a, s') → y config t = (.ok b, t') → Q a b → Linked L s' t' →
      Outcome L Q' (f a config s') (g b config t')) :
    Outcome L Q' ((x >>= f) config s) ((y >>= g) config t) := by
  rw [run_bind, run_bind]
  rcases hxs : x config s with ⟨r, s'⟩
  rcases hyt : y config t with ⟨r', t'⟩
  rw [hxs, hyt] at hx
  cases hx with
  | ok hq hlinked => exact hf _ _ _ _ hxs hyt hq hlinked
  | error halike hlinked => exact .error halike hlinked
  | lost _ hloose => exact .lost _ hloose

theorem Outcome.fail (h : Linked L s t) {p p' : Problem} (hp : L.Strict → p.Alike L.wiring p') :
    Outcome L Q (Analysis.fail p config s) (Analysis.fail p' config t) := by
  by_cases hstrict : L.Strict
  · rw [run_fail, run_fail, h.span]
    exact .error (.statement _ (hp hstrict)) h
  · exact .lost _ hstrict

namespace Tandem

theorem mono {R : α → β → Prop} (h : Tandem L config Q x y) (himp : ∀ a b, Q a b → R a b) :
    Tandem L config R x y := fun s t hst => (h s t hst).mono himp

theorem pure {a : α} {b : β} (h : Q a b) : Tandem L config Q (Pure.pure a) (Pure.pure b) :=
  fun _ _ hst => .ok h hst

theorem bind (hx : Tandem L config Q x y) (hf : ∀ a b, Q a b → Tandem L config Q' (f a) (g b)) :
    Tandem L config Q' (x >>= f) (y >>= g) := fun s t hst =>
  (hx s t hst).bind fun a b s' t' _ _ hq hst' => hf a b hq s' t' hst'

/-- Where the first steps have the same result. -/
theorem bindSame {x y : Analysis α} {g : α → Analysis δ} (hx : Tandem L config Eq x y)
    (hf : ∀ a, Tandem L config Q' (f a) (g a)) : Tandem L config Q' (x >>= f) (y >>= g) :=
  hx.bind fun a _ hab => hab ▸ hf a

theorem map {φ : α → γ} {ψ : β → δ} (hx : Tandem L config Q x y) (h : ∀ a b, Q a b → Q' (φ a) (ψ b)) :
    Tandem L config Q' (φ <$> x) (ψ <$> y) := hx.bind fun a b hab => pure (h a b hab)

theorem ite {c : Prop} [Decidable c] {x' : Analysis α} {y' : Analysis β} (hx : Tandem L config Q x y)
    (hx' : Tandem L config Q x' y') : Tandem L config Q (if c then x else x') (if c then y else y') := by
  split
  · exact hx
  · exact hx'

theorem failing {p p' : Problem} (hp : L.Strict → p.Alike L.wiring p') :
    Tandem L config Q (Analysis.fail p) (Analysis.fail p') := fun _ _ hst => .fail hst hp

theorem fail (p : Problem) : Tandem L config Q (Analysis.fail p) (Analysis.fail p) := failing fun _ => .same p

/-- Failures that tell of an expression under its names in each run. -/
theorem failRenamed {p p' : Problem} (hp : L.Strict → p = p') :
    Tandem L config Q (Analysis.fail p) (Analysis.fail p') := failing fun hstrict => hp hstrict ▸ .same p

theorem orFail {ε : Type} (problem : ε → Problem) (r : Except ε α) :
    Tandem L config Eq (Analysis.orFail problem r) (Analysis.orFail problem r) := by
  cases r with
  | ok a => exact pure rfl
  | error e => exact fail _

theorem mapM {ι κ : Type} {f : ι → Analysis α} {g : κ → Analysis β} {is : List ι} {ks : List κ}
    (h : List.Forall₂ (fun i k => Tandem L config Q (f i) (g k)) is ks) :
    Tandem L config (List.Forall₂ Q) (is.mapM f) (ks.mapM g) := by
  induction h with
  | nil => exact pure .nil
  | cons hfirst _ ih =>
    rw [List.mapM_cons, List.mapM_cons]
    exact hfirst.bind fun a b hab => ih.bind fun _ _ hrest => pure (.cons hab hrest)

end Tandem

end Rules

section Blind

/-- A step that does not look at the scopes and leaves them. -/
def Blind (x : Analysis α) : Prop := ∀ config s, (x config s).2.scopes = s.scopes ∧
  s.registers.Extends (x config s).2.registers ∧
    ∀ scopes, x config (s.seeing scopes) = ((x config s).1, (x config s).2.seeing scopes)

variable {x : Analysis α} {f : α → Analysis β}

theorem Blind.pure (a : α) : Blind (Pure.pure a : Analysis α) := fun _ _ => ⟨rfl, .refl _, fun _ => rfl⟩

theorem Blind.fail (p : Problem) : Blind (Analysis.fail p : Analysis α) := fun _ _ => ⟨rfl, .refl _, fun _ => rfl⟩

theorem Blind.bind (hx : Blind x) (hf : ∀ a, Blind (f a)) : Blind (x >>= f) := by
  intro config s
  obtain ⟨hscopes, hextends, hseeing⟩ := hx config s
  simp only [run_bind, hseeing]
  rcases hr : x config s with ⟨e | a, s'⟩
  · rw [hr] at hscopes hextends
    exact ⟨hscopes, hextends, fun _ => rfl⟩
  · rw [hr] at hscopes hextends
    obtain ⟨hscopes', hextends', hseeing'⟩ := hf a config s'
    exact ⟨hscopes'.trans hscopes, hextends.trans hextends', hseeing'⟩

theorem Blind.ite {c : Prop} [Decidable c] {y : Analysis α} (hx : Blind x) (hy : Blind y) :
    Blind (if c then x else y) := by
  split
  · exact hx
  · exact hy

/-- What is put out and what is declared for the flat program do not matter to the scopes. -/
theorem emit_blind (f : FlatStatement) : Blind (emit f) := fun _ _ => ⟨rfl, .refl _, fun _ => rfl⟩

theorem Blind.scopes_eq {x : Analysis α} (h : Blind x) {r : Except Failure α} (hr : x config s = (r, t)) :
    t.scopes = s.scopes := by
  have hscopes := (h config s).1
  rwa [hr] at hscopes

theorem addDeclaration_blind (d : Declaration) : Blind (addDeclaration d) := fun _ _ => ⟨rfl, .refl _, fun _ => rfl⟩

theorem reserve_blind (name : String) : Blind (reserve name) := fun _ s =>
  ⟨rfl, Registers.extends_reserve s.registers name, fun _ => rfl⟩

theorem allocate_blind (name : String) (size : Nat) (kind : RegisterKind) : Blind (allocate name size kind) := by
  intro config s
  have hseeing (scopes : Scopes) : (s.seeing scopes).registers = s.registers := rfl
  unfold allocate
  simp only [run_get, hseeing]
  rcases hr : s.registers.allocate name size kind with e | ⟨id, v, registers⟩
  · exact Blind.fail _ config s
  · exact ⟨rfl, Registers.extends_allocate hr, fun _ => rfl⟩

theorem hoist_blind (name : String) (t : ClassicalType) : Blind (hoist name t) := by
  unfold hoist
  split
  · exact (allocate_blind _ _ _).bind fun _ => .pure _
  · exact (reserve_blind name).bind fun _ => (addDeclaration_blind _).bind fun _ => .pure _

/-- What is read of the state is not its scopes. -/
theorem Blind.get {f : State → Analysis α} (hf : ∀ s scopes, f (s.seeing scopes) = f s) (h : ∀ s, Blind (f s)) :
    Blind (MonadState.get >>= f) := fun config s => by
  obtain ⟨hscopes, hextends, hseeing⟩ := h s config s
  refine ⟨hscopes, hextends, fun scopes => ?_⟩
  rw [run_get, run_get, hf]
  exact hseeing scopes

/-- A step that does not look at the scopes does the same in both runs. -/
theorem Blind.tandem (h : Blind x) : Tandem L config Eq x x := by
  intro s t hst
  obtain ⟨hscopes, hextends, hseeing⟩ := h config s
  have hrun := hseeing t.scopes
  rw [← hst.rest] at hrun
  rw [hrun]
  rcases hr : x config s with ⟨r, s'⟩
  rw [hr] at hscopes hextends
  have hlinked : Linked L s' (s'.seeing t.scopes) :=
    ⟨rfl, hscopes.symm ▸ hst.scopes, L.wiring.at_mono hst.registers hextends⟩
  cases r with
  | ok a => exact .ok rfl hlinked
  | error f => exact .error (.same f) hlinked

end Blind

end Analysis
end OpenQasm
