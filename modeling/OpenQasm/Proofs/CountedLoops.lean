import OpenQasm.Proofs.DeclaredLiterals
import OpenQasm.Proofs.OperationStatements
import OpenQasm.Proofs.Progressions
import OpenQasm.Proofs.RenamedQubits
import OpenQasm.Proofs.RereadValues
import OpenQasm.Proofs.SourceCharacters

/-!
Loops that count. The rounds of a `for` loop over the numbers below a bound go with those of a `while` loop whose
counter is raised up to it: the variable of the one has the value of the counter of the other, and what operations
in their bodies read else is the same. Only the limit of iterations is met at different times, by the one before
its first round, by the other after the last one that is allowed.
-/
namespace OpenQasm

open Analysis

/-- A variable that holds a number, and nothing of the flat program. -/
structure Symbol.Counts (x : Symbol) (k : Nat) : Prop where
  kind : x.kind = .classicalVariable
  binding : x.binding = .none
  type : x.type = some (.sized .int 32)
  value : x.value = some (.int (Int64.ofInt k))
  emitName : x.emitName = none

theorem Symbol.Counts.equals {x y : Symbol} {k : Nat} (hx : x.Counts k) (hy : y.Counts k) : x.Equals y where
  kinds := ⟨hx.kind, hy.kind⟩
  bindings := ⟨hx.binding, hy.binding⟩
  type := hy.type.trans hx.type.symm
  value := ⟨_, hx.value, hy.value⟩

theorem Symbol.Wired.mutable {W : Wiring} {x y : Symbol} (h : x.Wired W y) : y.mutable = x.mutable := by
  cases h <;> rfl

namespace Scopes

variable {global : List Symbol} {x y : Symbol} {name : String} {s : Scopes}

theorem resolve?_outermost (h : s.inner = []) (name : String) :
    s.resolve? name = globalSymbol? s.global false name := by
  rw [resolve?, h]
  rfl

theorem resolve?_beside (hname : name ≠ x.name) :
    (⟨global, [⟨.block, [x]⟩]⟩ : Scopes).resolve? name = globalSymbol? global false name := by
  have hother : (x.name == name) = false := beq_eq_false_iff_ne.2 hname.symm
  simp only [resolve?, resolveIn, Symbol.find?, List.find?_cons, hother, List.find?_nil]
  rfl

theorem globalSymbol?_cons_of_ne (hname : name ≠ y.name) (fromBody : Bool) :
    globalSymbol? (y :: global) fromBody name = globalSymbol? global fromBody name := by
  have hother : (y.name == name) = false := beq_eq_false_iff_ne.2 hname.symm
  simp only [globalSymbol?, Symbol.find?, List.find?_cons, hother]

theorem resolve?_below (name : String) :
    (⟨y :: global, [⟨.block, []⟩]⟩ : Scopes).resolve? name = globalSymbol? (y :: global) false name := rfl

theorem globalSymbol?_cons_self : globalSymbol? (y :: global) false y.name = some y := by
  simp only [globalSymbol?, Symbol.find?, List.find?_cons, beq_self_eq_true]
  rfl

theorem resolve?_block_self : (⟨global, [⟨.block, [x]⟩]⟩ : Scopes).resolve? x.name = some x := by
  simp only [resolve?, resolveIn, Symbol.find?, List.find?_cons, beq_self_eq_true]

theorem modify_block (hname : ∀ z ∈ symbols, z.name ≠ name) (f : Symbol → Symbol)
    (hsome : ((⟨global, [⟨.block, symbols⟩]⟩ : Scopes).resolve? name).isSome = true) :
    (⟨global, [⟨.block, symbols⟩]⟩ : Scopes).modify name f = ⟨Symbol.modifyIn name f global, [⟨.block, symbols⟩]⟩ := by
  have hnone : Symbol.find? name symbols = none :=
    List.find?_eq_none.2 fun z hz => by simpa using hname z hz
  simp only [modify, modifyInner, hnone, Option.isSome_none, ScopeKind.isBody, hsome]
  rfl

end Scopes

/-- The counter is changed from inside of a round. -/
theorem Scopes.modify_below (global : List Symbol) (y : Symbol) (f : Symbol → Symbol) :
    (⟨y :: global, [⟨.block, []⟩]⟩ : Scopes).modify y.name f = ⟨f y :: global, [⟨.block, []⟩]⟩ := by
  rw [modify_block (List.forall_mem_nil _) f (Option.isSome_of_eq_some globalSymbol?_cons_self)]
  simp only [Symbol.modifyIn, beq_self_eq_true, if_true]

/-- A symbol is changed where it has been declared. -/
theorem Scopes.modify_declared {s : Scopes} (h : s.inner = []) (y : Symbol) (hscope : y.scope = 0)
    (f : Symbol → Symbol) :
    (s.push y).modify y.name f = ⟨f y :: s.global, []⟩ := by
  obtain ⟨global, inner⟩ := s
  obtain rfl : inner = [] := h
  have hpush : (⟨global, []⟩ : Scopes).push y = ⟨y :: global, []⟩ := by
    rw [push]
    cases y
    cases hscope
    rfl
  have hfound : (⟨y :: global, []⟩ : Scopes).resolve? y.name = some y := globalSymbol?_cons_self
  rw [hpush, modify]
  simp only [modifyInner, hfound, Option.isSome_some, Symbol.modifyIn, beq_self_eq_true, if_true]
  rfl

/-- The scopes in a round of both loops: the first one declares its variable in the round, while the counter of the
second one stands before all of them. -/
inductive Scopes.InRound (base : Scopes) (x y : Symbol) : Scopes → Scopes → Prop
  | mk {global : List Symbol} : base.global.map Symbol.key = global.map Symbol.key →
    InRound base x y ⟨global, [⟨.block, [x]⟩]⟩ ⟨y :: global, [⟨.block, []⟩]⟩

/-- The variables of both loops, whose names are free outside of them. -/
structure Scopes.Counters (base : Scopes) (x y : Symbol) : Prop where
  outermost : base.inner = []
  free : base.resolve? x.name = none ∧ base.resolve? y.name = none
  equals : x.Equals y
  mutable : x.mutable = false ∧ y.mutable = true

/-- A round of the first loop and one of the second loop, the counter of which is read for its variable. -/
def Link.counting (base : Scopes) (x y : Symbol) : Link where
  wiring := .straight
  name m := if m = x.name then y.name else m
  Strict := False
  scopes := base.InRound x y
  Callable f := f ≠ x.name ∧ f ≠ y.name ∧ base.subroutine? f = none

namespace Scopes.InRound

variable {base a b : Scopes} {x y z : Symbol} {name : String}

/-- Other names stand for what they stand for outside of the loops. -/
theorem outside (h : base.InRound x y a b) (hx : name ≠ x.name) (hy : name ≠ y.name) :
    b.resolve? name = a.resolve? name ∧ (base.inner = [] →
      (a.resolve? name).map Symbol.key = (base.resolve? name).map Symbol.key) := by
  cases h with
  | mk hkeys =>
    rw [resolve?_below, resolve?_beside hx, globalSymbol?_cons_of_ne hy]
    refine ⟨rfl, fun hbase => ?_⟩
    rw [resolve?_outermost hbase]
    exact (Same.globalSymbol? hkeys false name).symm

theorem modify (h : base.InRound x y a b) (hx : name ≠ x.name) (hy : name ≠ y.name) {f : Symbol → Symbol}
    (hf : KeepsKey f) : base.InRound x y (a.modify name f) (b.modify name f) := by
  have hsame := (h.outside hx hy).1
  cases hsome : (a.resolve? name).isSome with
  | false =>
    have hnone : a.resolve? name = none := Option.not_isSome_iff_eq_none.1 (by rw [hsome]; exact Bool.false_ne_true)
    rwa [modify_of_none hf hnone, modify_of_none hf (hsame.trans hnone)]
  | true =>
    have hsome' : (b.resolve? name).isSome = true := hsame ▸ hsome
    cases h with
    | @mk global hkeys =>
      have hother : (y.name == name) = false := beq_eq_false_iff_ne.2 hy.symm
      rw [modify_block (List.forall_mem_singleton.2 hx.symm) f hsome, modify_block (List.forall_mem_nil _) f hsome',
        Symbol.modifyIn, hother]
      exact .mk (hkeys.trans (Symbol.map_modifyIn hf name global).symm)

end Scopes.InRound

namespace Scopes.Counters

variable {base a b : Scopes} {x y z : Symbol} {name : String}

/-- A name that is known in the second loop for the name of the variable is that of the counter. -/
theorem apart (h : base.Counters x y) (hab : base.InRound x y a b) (hz : (b.resolve? name).isSome = true)
    (hname : name ≠ y.name) : name ≠ x.name := by
  rintro rfl
  cases hab with
  | mk hkeys =>
    have hfree := h.free.1
    rw [resolve?_outermost h.outermost] at hfree
    have hsame := Same.globalSymbol? hkeys false x.name
    rw [hfree] at hsame
    rw [resolve?_below, globalSymbol?_cons_of_ne hname, Option.map_eq_none_iff.1 hsame.symm] at hz
    cases hz

theorem apart' (h : base.Counters x y) (hab : base.InRound x y a b) (hz : (a.resolve? name).isSome = true)
    (hname : name ≠ x.name) : name ≠ y.name := by
  rintro rfl
  cases hab with
  | mk hkeys =>
    have hfree := h.free.2
    rw [resolve?_outermost h.outermost] at hfree
    have hsame := Same.globalSymbol? hkeys false y.name
    rw [hfree] at hsame
    rw [resolve?_beside hname, Option.map_eq_none_iff.1 hsame.symm] at hz
    cases hz

theorem sound (h : base.Counters x y) : (Link.counting base x y).Sound where
  name_id hstrict := hstrict.elim
  found {a b name z} hab hz := by
    by_cases hx : name = x.name
    · subst hx
      cases hab with
      | mk hkeys =>
        rw [resolve?_block_self] at hz
        cases hz
        refine ⟨y, ?_, .inr h.equals⟩
        show (⟨_, _⟩ : Scopes).resolve? (if x.name = x.name then y.name else x.name) = some y
        rw [if_pos rfl, resolve?_below, globalSymbol?_cons_self]
    · have hy := h.apart' hab (Option.isSome_of_eq_some hz) hx
      have hname : (Link.counting base x y).name name = name := if_neg hx
      rw [hname, (hab.outside hx hy).1]
      exact ⟨z, hz, .inl ⟨hname, .straight z⟩⟩
  missing {a b name z} hab hnone hz := by
    refine ⟨id, ?_⟩
    have hx : name ≠ x.name := by
      rintro rfl
      cases hab with
      | mk hkeys =>
        rw [resolve?_block_self] at hnone
        cases hnone
    rw [show (Link.counting base x y).name name = name from if_neg hx] at hz
    by_cases hy : name = y.name
    · subst hy
      cases hab with
      | mk hkeys =>
        rw [resolve?_below, globalSymbol?_cons_self] at hz
        cases hz
        exact h.equals.bindings.2
    · rw [(hab.outside hx hy).1, hnone] at hz
      cases hz
  callable hf := if_neg hf.1
  calls {a b f} hab hf := by
    obtain ⟨hx, hy, hnone⟩ := hf
    obtain ⟨hsame, hkey⟩ := hab.outside hx hy
    have hsilent : a.subroutine? f = none := (subroutine?_eq_of_key (hkey h.outermost)).trans hnone
    refine ⟨hsilent, ?_, congrArg Option.isSome hsame⟩
    rw [subroutine?, hsame]
    exact hsilent
  names {a b name z z'} emitName hab hz hz' hwired _ := by
    -- The variable and the counter differ in whether they can be assigned to.
    have hx : name ≠ x.name := by
      rintro rfl
      by_cases hsame : x.name = y.name
      · cases hab with
        | mk hkeys =>
          rw [resolve?_block_self] at hz
          rw [resolve?_below, hsame, globalSymbol?_cons_self] at hz'
          cases hz
          cases hz'
          have hmutable := hwired.mutable
          rw [h.mutable.1, h.mutable.2] at hmutable
          cases hmutable
      · exact h.apart hab (Option.isSome_of_eq_some hz') hsame rfl
    exact hab.modify hx (h.apart' hab (Option.isSome_of_eq_some hz) hx) (keepsKey_emitName _)

theorem grounded (h : base.Counters x y) : (Link.counting base x y).Grounded base.Plain where
  depth hab := by
    cases hab
    rfl
  crossing {a b} name hab := by
    cases hab with
    | @mk global hkeys =>
      have hsame : globalSymbol? (y :: global) true name = globalSymbol? global true name := by
        by_cases hy : name = y.name
        · subst hy
          have hfree := h.free.2
          rw [resolve?_outermost h.outermost] at hfree
          have hsame := Same.globalSymbol? hkeys false y.name
          rw [hfree] at hsame
          have hnone : globalSymbol? global true y.name = none := by
            have hfind := Option.map_eq_none_iff.1 hsame.symm
            rw [globalSymbol?, Option.filter_eq_none_iff] at hfind ⊢
            exact fun z hz => absurd rfl (hfind z hz)
          have hhidden : y.crossesBodies = false := by rw [Symbol.crossesBodies, h.equals.kinds.2]; rfl
          rw [hnone]
          simp only [globalSymbol?, Symbol.find?, List.find?_cons, beq_self_eq_true]
          rw [Option.filter_some, hhidden]
          rfl
        · exact globalSymbol?_cons_of_ne hy true
      show Option.Rel _ (globalSymbol? global true name) (globalSymbol? (y :: global) true name)
      rw [hsame]
      cases globalSymbol? global true name with
      | none => exact .none
      | some z => exact .some (.straight z)
  silent {a b d call span} hab hd hcall := by
    cases hab with
    | mk hkeys => exact silent_gateBody hkeys (hd call (.here hcall))
  closed {a b d call span e} hab hd hcall he inner hinner := by
    cases hab with
    | mk hkeys =>
      have hgate : (base.enter .gateBody).gate? call.name = some e :=
        (gate?_eq_of_key (resolve?_gateBody hkeys _)).trans he
      exact hd inner (.inside hcall hgate hinner)

end Scopes.Counters

/-- An operation in which no subroutine is called, and nothing is called or measured into under some names. -/
structure Scopes.Operates (base : Scopes) (names : List String) (kind : StatementKind) : Prop where
  operation : kind.IsOperation
  silent : base.Silent kind.callees
  quiet : ∀ call, kind = .gate call → base.Quiet call
  reads : ∀ m ∈ names, m ∉ kind.callees ∧ kind.target? ≠ some m

namespace Analysis

variable {base : Scopes} {x y : Symbol} {config : Config} {calls : Calls} {s t u : State} {body : List Statement}
  {kind : StatementKind} {m : Nat}

section Bodies

namespace Operates

theorem allowed (hkind : base.Operates [x.name, y.name] kind) : (Link.counting base x y).Allows kind.callees := by
  intro f hf
  refine ⟨?_, ?_, hkind.silent f hf⟩
  · rintro rfl
    exact (hkind.reads x.name List.mem_cons_self).1 hf
  · rintro rfl
    exact (hkind.reads y.name (List.mem_cons_of_mem _ List.mem_cons_self)).1 hf

/-- In a round of both loops an operation does the same. -/
theorem tandem (h : base.Counters x y) (hkind : base.Operates [x.name, y.name] kind) (config : Config) (m : Nat) :
    Tandem (.counting base x y) config Eq (perform (.nested m) kind)
      (perform (.nested m) (kind.rename (Link.counting base x y).name)) := by
  refine perform_tandem h.sound rfl (fun d params hd qs rs hqs => nestedGate_tandem h.grounded m d params hd hqs)
    hkind.operation (allowed hkind) (fun call hcall a b d hab hd => ?_) fun name hname => ?_
  · obtain rfl := hcall
    obtain ⟨hx, hy, -⟩ := allowed hkind call.name List.mem_cons_self
    have hbase : base.gate? call.name = some d :=
      (Scopes.gate?_eq_of_key ((hab.outside hx hy).2 h.outermost)).symm.trans hd
    exact (hkind.quiet call rfl).plain hbase
  · have hx : name ≠ x.name := by
      rintro rfl
      exact (hkind.reads x.name List.mem_cons_self).2 hname
    have hy : name ≠ y.name := by
      rintro rfl
      exact (hkind.reads y.name (List.mem_cons_of_mem _ List.mem_cons_self)).2 hname
    exact ⟨if_neg hx, fun hab => hab.modify hx hy (keepsKey_value none)⟩

theorem warned (h : base.Counters x y) (hkind : base.Operates [x.name, y.name] kind) (config : Config) (m : Nat)
    {b : Scopes} (hab : base.InRound x y s.scopes b) : Warned s (perform (.nested m) kind config s).2 := by
  have hsilent : s.scopes.Silent kind.callees := fun f hf => (h.sound.calls hab (allowed hkind f hf)).1
  refine perform_warned hkind.operation hsilent ?_
  rintro call rfl
  have hkeys : base.global.map Symbol.key = s.scopes.global.map Symbol.key := by
    generalize s.scopes = a at hab
    cases hab with
    | mk hkeys => exact hkeys
  obtain ⟨hx, hy, -⟩ := allowed hkind call.name List.mem_cons_self
  refine ⟨hsilent, fun d inner hd hinner => ?_⟩
  have hbase : base.gate? call.name = some d :=
    (Scopes.gate?_eq_of_key ((hab.outside hx hy).2 h.outermost)).symm.trans hd
  exact Scopes.silent_gateBody hkeys ((hkind.quiet call rfl).inside d inner hbase (Scopes.Contains.congr hkeys hinner))

end Operates

/-- Statements that are analyzed one after another, none of which fails. -/
inductive Analyzed (calls : Calls) (config : Config) : List Statement → State → State → Prop
  | nil {s : State} : Analyzed calls config [] s s
  | cons {st : Statement} {rest : List Statement} {s t u : State} :
    perform calls st.kind config { s with span := st.span } = (.ok .normal, t) →
      Analyzed calls config rest { t with span := s.span } u → Analyzed calls config (st :: rest) s u

/-- A state from which the analysis goes on, outside of all branches that are decided when the program runs. -/
structure Going (s : State) : Prop where
  sound : s.scopes.Sound
  halted : s.halted = false
  floor : s.runtimeFloor = none

theorem Going.placed (hs : Going s) (span : Span) : Going { s with span } := ⟨hs.sound, hs.halted, hs.floor⟩

theorem Going.perform (hs : Going s) (hmode : config.errorMode = .collectAll)
    (h : perform (.nested m) kind config s = (.ok .normal, t)) : Going t ∧ t.span = s.span := by
  have htransitions := perform_orderly (nested_orderly m) kind (fun body _ => block_orderly (nested_orderly m) body)
    config s hs.sound
  have hkeeps := (pervasive_trivial.perform m kind).keeps trivial trivial h
  have hreached := htransitions.transitions
  rw [h] at hreached
  exact ⟨⟨hreached.sound hs.sound, (hreached.halted hmode).trans hs.halted, hkeeps.frame.runtimeFloor.trans hs.floor⟩,
    hkeeps.frame.span⟩

namespace Analyzed

variable {rest : List Statement}

theorem single {span : Span} (h : perform calls kind config { s with span } = (.ok .normal, t)) :
    Analyzed calls config [⟨kind, span⟩] s { t with span := s.span } := .cons h .nil

theorem append (h : Analyzed calls config body s t) (h' : Analyzed calls config rest t u) :
    Analyzed calls config (body ++ rest) s u := by
  induction h with
  | nil => exact h'
  | cons hfirst _ ih => exact .cons hfirst (ih h')

/-- The place of the statement around does not matter. -/
theorem placed (h : Analyzed calls config body s t) (span : Span) :
    Analyzed calls config body { s with span } { t with span } := by
  induction h with
  | nil => exact .nil
  | cons hfirst _ ih => exact .cons hfirst ih

theorem going (h : Analyzed (.nested m) config body s t) (hs : Going s) (hmode : config.errorMode = .collectAll) :
    Going t ∧ t.span = s.span := by
  induction h with
  | nil => exact ⟨hs, rfl⟩
  | cons hfirst _ ih =>
    exact ih (((hs.placed _).perform hmode hfirst).1.placed _)

/-- Statements none of which fails are run to the end. -/
theorem block (h : Analyzed (.nested m) config body s t) (hs : Going s) (hmode : config.errorMode = .collectAll) :
    block (.nested m) body config s = (.ok .normal, t) := by
  induction h with
  | nil => rfl
  | @cons st rest s t u hfirst _ ih =>
    have hstatement : statement (.nested m) st config s = (.ok .normal, { t with span := s.span }) := by
      obtain ⟨kind, span⟩ := st
      exact statement_ok hfirst
    rw [Analysis.block, run_get, hs.halted]
    simp only [Bool.false_eq_true, if_false]
    rw [run_bind, hstatement]
    exact ih (((hs.placed _).perform hmode hfirst).1.placed _)

/-- A body in a round of the first loop, and the one that reads the counter in the same round of the second one. -/
theorem tandem (h : Analyzed (.nested m) config body s t) (hcounters : base.Counters x y)
    (hbody : ∀ st ∈ body, base.Operates [x.name, y.name] st.kind) {s' : State}
    (hst : Linked (.counting base x y) s s') :
    (∃ t', Analyzed (.nested m) config (body.map (Statement.rename (Link.counting base x y).name)) s' t' ∧
      Linked (.counting base x y) t t') ∧ Warned s t := by
  induction h generalizing s' with
  | nil => exact ⟨⟨s', .nil, hst⟩, .of_eq rfl⟩
  | @cons st rest s t u hfirst _ ih =>
    obtain ⟨hkind, hrest⟩ := List.forall_mem_cons.1 hbody
    have hplaced (span : Span) {v v' : State} (hv : Linked (.counting base x y) v v') :
        Linked (.counting base x y) { v with span } { v' with span } := by
      obtain ⟨b, rfl⟩ := hv.eq_seeing
      exact ⟨rfl, hv.scopes, hv.registers⟩
    have hrun := Operates.tandem hcounters hkind config m _ _ (hplaced st.span hst)
    have hwarned := Operates.warned (s := { s with span := st.span }) hcounters hkind config m hst.scopes
    rw [hfirst] at hrun hwarned
    generalize hsecond : perform (.nested m) (st.kind.rename (Link.counting base x y).name) config
      { s' with span := st.span } = r at hrun
    cases hrun with
    | @ok _ _ _ t' hsignal hlinked =>
      subst hsignal
      obtain ⟨⟨u', hmore, hlinked'⟩, hwarned'⟩ := ih hrest (hplaced s.span hlinked)
      -- Both runs go on at the places of their own surroundings, which are the same.
      have hspan : s'.span = s.span := hst.span
      refine ⟨⟨u', .cons hsecond (hspan ▸ hmore), hlinked'⟩, ?_⟩
      have hfirst' : Warned s { t with span := s.span } := hwarned
      exact hfirst'.trans hwarned'

end Analyzed

end Bodies

section Increments

variable {n : String} {k : Nat} {e : Expr}

/-- An expression that has the same value wherever it stands. -/
def Denotes (calls : Calls) (config : Config) (e : Expr) (i : Int) : Prop :=
  ∀ s, fold calls e config s = (.ok (some (.int (Int64.ofInt i))), s)

theorem nameValue_counts (hy : s.scopes.resolve? n = some y) (hk : y.Counts k) :
    fold calls (.name n) config s = (.ok (some (.int (Int64.ofInt k))), s) := by
  rw [fold, nameValue, run_bind, run_resolve hy]
  dsimp only
  rw [hk.binding, hk.kind, hk.value]
  rfl

theorem ofInt_toInt (hk : k < 2 ^ 31) : (Int64.ofInt k).toInt = k := by
  exact Int64.toInt_ofInt_of_le (by omega) (by omega)

theorem coerce_number (hk : k < 2 ^ 31) :
    Value.coerce (.sized .int 32) (.int (Int64.ofInt k)) = .ok (.int (Int64.ofInt k)) := by
  refine ClassicalType.coerce_of_holdsInteger (by decide) ?_
  rw [ofInt_toInt hk]
  exact ⟨by omega, by omega⟩

/-- A number that is stored in a variable outside of all branches is known of it, and nothing is put out. -/
theorem store_counts (calls : Calls) (config : Config) (hy : s.scopes.resolve? n = some y)
    (hkind : y.kind = .classicalVariable) (htype : y.type = some (.sized .int 32)) (hname : y.emitName = none)
    (hk : k < 2 ^ 31) (hfloor : s.runtimeFloor = none) :
    store calls n (.known (.int (Int64.ofInt k))) config s =
      (.ok (), { s with scopes := s.scopes.modify n fun z => { z with value := some (.int (Int64.ofInt k)) } }) := by
  have hbranched : branchedSince y.scope config s = (.ok false, s) := by
    show (Except.ok (s.runtimeFloor.any fun floor => decide (y.scope < floor)), s) = _
    rw [hfloor]
    rfl
  have hwrite : write n none (Value.int (Int64.ofInt k)).toExpr (some (.int (Int64.ofInt k))) config s =
      (.ok (), { s with scopes := s.scopes.modify n fun z => { z with value := some (.int (Int64.ofInt k)) } }) := by
    rw [write, run_bind, run_resolve hy]
    dsimp only
    rw [run_bind, hbranched, hkind, hname]
    rfl
  rw [store, run_bind, declaredType_eq hy htype]
  dsimp only
  rw [run_bind, coerceTo, coerce_number hk]
  exact hwrite

/-- The counter is raised by one. -/
theorem increment_run (calls : Calls) (config : Config) (hy : s.scopes.resolve? n = some y) (hcounts : y.Counts k)
    (hmutable : y.mutable = true) (hk : k + 1 < 2 ^ 31) (hfloor : s.runtimeFloor = none) :
    perform calls (.assign (.name n) .add (.int 1)) config s =
      (.ok .normal, { s with
        scopes := s.scopes.modify n fun z => { z with value := some (.int (Int64.ofInt ↑(k + 1))) } }) := by
  have hwritable : checkWritable y config s = (.ok (), s) := by
    unfold checkWritable
    rw [hcounts.kind, hmutable]
    rfl
  have hone : fold calls (.int 1) config s = (.ok (some (.int 1)), s) := rfl
  have hsum : Int64.ofInt k + 1 = Int64.ofInt ↑(k + 1) := by
    rw [Nat.cast_add, Int64.ofInt_add]
    rfl
  have hcheck : checkInitializer calls (.sized .int 32) (.binary (.name n) .add (.int 1)) config s = (.ok (), s) := by
    have hname : infer calls (.name n) config s = (.ok (.sized .int 32), s) := by
      rw [infer, nameType, run_bind, run_resolve hy]
      dsimp only
      rw [hcounts.binding, hcounts.type]
      rfl
    have hinfer : infer calls (.binary (.name n) .add (.int 1)) config s = (.ok (.sized .int 32), s) := by
      rw [infer, run_bind, hname]
      rfl
    show checkScalar calls (.sized .int 32) (.binary (.name n) .add (.int 1)) config s = (.ok (), s)
    rw [checkScalar, run_bind, hinfer]
    rfl
  have hright : rightValue calls (.binary (.name n) .add (.int 1)) config s =
      (.ok (.known (.int (Int64.ofInt ↑(k + 1)))), s) := by
    have hfold : fold calls (.binary (.name n) .add (.int 1)) config s = (.ok (some (.int (Int64.ofInt k + 1))), s) :=
      Value.fold_binary_known (nameValue_counts hy hcounts) hone rfl rfl
    rw [hsum] at hfold
    show plainValue calls (.binary (.name n) .add (.int 1)) config s = _
    rw [plainValue, run_bind, hfold]
    rfl
  have hstore := store_counts calls config hy hcounts.kind hcounts.type hcounts.emitName hk hfloor
  -- An assignment looks at the symbol, checks that it can be written and what it gets, and stores the sum.
  have hassign : assign calls (.name n) .add (.int 1) config s = (.ok (), { s with
      scopes := s.scopes.modify n fun z => { z with value := some (.int (Int64.ofInt ↑(k + 1))) } }) := by
    rw [assign]
    dsimp only [Expr.rootName?, Expr.unparen, expanded, AssignOp.binary?]
    rw [run_bind, run_resolve hy]
    dsimp only
    rw [run_bind, hwritable]
    dsimp only
    rw [run_bind, declaredType_eq hy hcounts.type]
    dsimp only
    rw [run_bind, hcheck]
    dsimp only
    rw [run_bind, hright]
    exact hstore
  rw [perform, thenNext, run_bind, hassign]
  rfl

end Increments

section Rounds

variable {name : String} {j k N : Nat} {bound : Expr} {s' : State}

/-- The variable of a `for` loop in the round of a number. -/
def roundVariable (name : String) (span : Span) (k : Nat) : Symbol :=
  { name, kind := .classicalVariable, span, type := some (.sized .int 32), size := some 32, scope := 1,
    value := some (.int (Int64.ofInt k)) }

/-- The state in which the body of a `for` loop starts in the round of a number. -/
def State.inRound (s : State) (name : String) (k : Nat) : State :=
  { s with scopes := (s.scopes.enter .block).push (roundVariable name s.span k) }

/-- The rounds of a `for` loop from one number up to another one, which is left out. In none of them a statement of
the body fails. -/
inductive Rounds (calls : Calls) (config : Config) (name : String) (body : List Statement) :
    Nat → Nat → State → State → Prop
  | done {k : Nat} {s : State} : Rounds calls config name body k k s s
  | round {j k : Nat} {s t u : State} : Analyzed calls config body (s.inRound name j) t →
    Rounds calls config name body (j + 1) k { t with scopes := t.scopes.exit } u → Rounds calls config name body j k s u

theorem Going.exit (hs : Going s) : Going { s with scopes := s.scopes.exit } := ⟨hs.sound.exit, hs.halted, hs.floor⟩

theorem declared_round (name : String) (k : Nat) (config : Config) (s : State) :
    (loopVariable name (.sized .int 32) (.int (Int64.ofInt k)) >>= declare) config
      { s with scopes := s.scopes.enter .block } = (.ok (), s.inRound name k) := by
  have hrun := declare_free config (s := { s with scopes := s.scopes.enter .block })
    (x := { roundVariable name s.span k with scope := 0 }) rfl
  exact hrun

theorem Going.inRound (hs : Going s) (name : String) (hk : k < 2 ^ 31) : Going (s.inRound name k) := by
  have hwritable : (ClassicalType.sized .int 32).Writable := writable_default .int
  have hvalue : (ClassicalType.sized .int 32).Inhabits (.int (Int64.ofInt k)) := by
    show -2 ^ 31 ≤ (Int64.ofInt k).toInt ∧ (Int64.ofInt k).toInt < 2 ^ 31
    rw [ofInt_toInt hk]
    omega
  have htransitions : Transitions .default { s with scopes := s.scopes.enter .block } (s.inRound name k) :=
    (loopVariable_orderly name hwritable hvalue).transitions (hs.sound.enter .block) (declared_round name k .default s)
  exact ⟨htransitions.sound (hs.sound.enter .block), hs.halted, hs.floor⟩

theorem Rounds.le (h : Rounds calls config name body j k s t) : j ≤ k := by
  induction h with
  | done => exact Nat.le_refl _
  | round _ _ ih => exact Nat.le_of_succ_le ih

/-- A round in which no statement fails is run to the end. -/
theorem forRound_run (h : Analyzed (.nested m) config body (s.inRound name k) t) (hs : Going s)
    (hmode : config.errorMode = .collectAll) (hk : k < 2 ^ 31) :
    forRound (.nested m) name (.sized .int 32) body (.int (Int64.ofInt k)) config s =
      (.ok .normal, { t with scopes := t.scopes.exit }) := by
  have hbody : ((loopVariable name (.sized .int 32) (.int (Int64.ofInt k)) >>= declare) >>= fun _ =>
      block (.nested m) body) config { s with scopes := s.scopes.enter .block } = (.ok .normal, t) := by
    rw [run_bind, declared_round]
    exact h.block (hs.inRound name hk) hmode
  rw [forRound_eq, inScope_run, followedBy, hbody]

theorem Rounds.unroll (h : Rounds (.nested m) config name body j k s t) (hs : Going s)
    (hmode : config.errorMode = .collectAll) (hk : k ≤ 2 ^ 31) :
    unroll (forRound (.nested m) name (.sized .int 32) body)
      ((List.range' j (k - j)).map fun i : Nat => .int (Int64.ofInt i)) config s = (.ok .normal, t) := by
  induction h with
  | done =>
    rw [Nat.sub_self]
    rfl
  | @round j k s t u hfirst hrest ih =>
    have hj : j + 1 ≤ k := hrest.le
    have hround := forRound_run hfirst hs hmode (by omega)
    have hgoing := (hfirst.going (hs.inRound name (by omega)) hmode).1.exit
    -- The first of the numbers is that of the round.
    rw [show k - j = (k - (j + 1)) + 1 by omega, List.range'_succ, List.map_cons, Analysis.unroll, run_bind, hround]
    exact ih hgoing hk

/-- The counter at a number. -/
def counterAt (y : Symbol) (k : Nat) : Symbol := { y with value := some (.int (Int64.ofInt k)) }

/-- A counter that goes with the variable of a `for` loop; the names of both are free. -/
structure Counter (base : Scopes) (name : String) (y : Symbol) : Prop where
  outermost : base.inner = []
  free : base.resolve? name = none ∧ base.resolve? y.name = none
  counts : ∀ k, (counterAt y k).Counts k
  mutable : y.mutable = true

theorem Counter.counters (h : Counter base name y) (span : Span) (k : Nat) :
    base.Counters (roundVariable name span k) (counterAt y k) where
  outermost := h.outermost
  free := h.free
  equals := Symbol.Counts.equals ⟨rfl, rfl, rfl, rfl, rfl⟩ (h.counts k)
  mutable := ⟨rfl, h.mutable⟩

/-- The states of both loops between two rounds: those of the second one differ in the counter and in their place. -/
structure Beside (base : Scopes) (y : Symbol) (s t : State) : Prop where
  rest : t = { s with scopes := ⟨y :: s.scopes.global, []⟩, span := t.span }
  outermost : s.scopes.inner = []
  declared : base.global.map Symbol.key = s.scopes.global.map Symbol.key

/-- The body of the second loop. It reads the counter where the first loop reads its variable, and raises it. -/
def countingBody (name counter : String) (body : List Statement) (span : Span) : List Statement :=
  body.map (Statement.rename fun m => if m = name then counter else m) ++
    [⟨.assign (.name counter) .add (.int 1), span⟩]

/-- A round of both loops. -/
theorem Beside.round (h : Beside base (counterAt y j) s s') (hcounter : Counter base name y)
    (hbody : ∀ st ∈ body, base.Operates [name, y.name] st.kind)
    (hrun : Analyzed (.nested m) config body (s.inRound name j) t) (hs : Going s)
    (hmode : config.errorMode = .collectAll) (hj : j + 1 < 2 ^ 31) (span : Span) :
    (∃ t', Analyzed (.nested m) config (countingBody name y.name body span)
        { s' with scopes := s'.scopes.enter .block } t' ∧
      Beside base (counterAt y (j + 1)) { t with scopes := t.scopes.exit } { t' with scopes := t'.scopes.exit }) ∧
        Warned s t := by
  have hcounters := hcounter.counters s.span j
  have hfloor : t.runtimeFloor = none := (hrun.going (hs.inRound name (by omega)) hmode).1.floor
  -- There is no scope around the loops, so the round has the only one besides the global scope.
  have hinner : s.inRound name j = s.seeing ⟨s.scopes.global, [⟨.block, [roundVariable name s.span j]⟩]⟩ := by
    have houtermost := h.outermost
    rw [State.inRound, Scopes.enter, Scopes.push, Scopes.depth]
    dsimp only
    rw [houtermost]
    rfl
  have hlinked : Linked (.counting base (roundVariable name s.span j) (counterAt y j)) (s.inRound name j)
      { s' with scopes := s'.scopes.enter .block, span := s.span } := by
    rw [hinner, h.rest]
    exact ⟨rfl, .mk h.declared, trivial⟩
  obtain ⟨⟨t', hrun', hst⟩, hwarned⟩ := hrun.tandem hcounters hbody hlinked
  refine ⟨?_, hwarned⟩
  obtain ⟨b, rfl⟩ := hst.eq_seeing
  have hscopes : base.InRound (roundVariable name s.span j) (counterAt y j) t.scopes b := hst.scopes
  generalize ha : t.scopes = a at hscopes
  cases hscopes with
  | @mk global hkeys =>
    -- After the operations of the body the counter is the first one of the global symbols, as before.
    have hraised := increment_run (.nested m) config
      (s := { t.seeing ⟨counterAt y j :: global, [⟨.block, []⟩]⟩ with span })
      Scopes.globalSymbol?_cons_self (hcounter.counts j) hcounter.mutable hj hfloor
    have hmodify := Scopes.modify_below global (counterAt y j)
      fun z => { z with value := some (.int (Int64.ofInt ↑(j + 1))) }
    have hplaced := (hrun'.placed s'.span).append (.single hraised)
    have hrest := congrArg (fun b : Scopes => ({ t with scopes := b.exit, span := s'.span } : State)) hmodify
    exact ⟨_, hplaced, hrest, rfl, hkeys⟩

theorem Beside.resolve? (h : Beside base y s s') : s'.scopes.resolve? y.name = some y := by
  rw [h.rest]
  exact Scopes.globalSymbol?_cons_self

/-- The condition of the second loop is whether the counter is below the bound. -/
theorem condition_run (hy : s.scopes.resolve? y.name = some y) (hcounts : y.Counts k)
    (hbound : Denotes calls config bound N) (hk : k < 2 ^ 31) (hN : N < 2 ^ 31) :
    whileCondition calls (.binary (.name y.name) .lt bound) config s = (.ok (decide (k < N)), s) := by
  have hless : Int64.ofInt k < Int64.ofInt N ↔ k < N := by
    rw [Int64.lt_iff_toInt_lt, ofInt_toInt hk, ofInt_toInt hN, Int.ofNat_lt]
  have hcompare : Value.evalBinary .lt (.int (Int64.ofInt k)) (.int (Int64.ofInt N)) =
      .ok (.bool (decide (k < N))) := by
    rw [Value.evalBinary, Value.compare?]
    by_cases hlt : k < N
    · rw [if_pos (hless.2 hlt), decide_eq_true hlt]
      rfl
    · rw [if_neg (mt hless.1 hlt), decide_eq_false hlt]
      by_cases hsame : Int64.ofInt k = Int64.ofInt N
      · rw [if_pos hsame]
        rfl
      · rw [if_neg hsame]
        rfl
  -- Nothing is changed by looking at the condition, so every round is looked at in the state that the last one left.
  have hfold : fold calls (.binary (.name y.name) .lt bound) config s = (.ok (some (.bool (decide (k < N)))), s) :=
    Value.fold_binary_known (nameValue_counts hy hcounts) (hbound s) rfl hcompare
  rw [whileCondition, run_bind, hfold]
  rfl

/-- As many rounds of the second loop as of the first one. -/
theorem Rounds.iterate (h : Rounds (.nested m) config name body j k s t) (hcounter : Counter base name y)
    (hbody : ∀ st ∈ body, base.Operates [name, y.name] st.kind) (hmode : config.errorMode = .collectAll)
    (hbound : Denotes (.nested m) config bound N) (hN : N < 2 ^ 31) (limit left : Nat) (span : Span)
    (hbeside : Beside base (counterAt y j) s s') (hs : Going s) (hs' : Going s') (hk : k ≤ N) :
    (∃ t', Beside base (counterAt y k) t t' ∧ Going t' ∧ t'.span = s'.span ∧
      iterate limit (whileCondition (.nested m) (.binary (.name y.name) .lt bound))
          (inScope .block (block (.nested m) (countingBody name y.name body span))) (left + (k - j)) config s' =
        iterate limit (whileCondition (.nested m) (.binary (.name y.name) .lt bound))
          (inScope .block (block (.nested m) (countingBody name y.name body span))) left config t') ∧ Warned s t := by
  induction h generalizing s' with
  | @done k s => exact ⟨⟨s', hbeside, hs', rfl, by rw [Nat.sub_self, Nat.add_zero]⟩, .of_eq rfl⟩
  | @round j k s t u hfirst hrest ih =>
    have hj : j + 1 ≤ k := hrest.le
    obtain ⟨⟨t', hsecond, hnext⟩, hwarned⟩ := hbeside.round hcounter hbody hfirst hs hmode (by omega) span
    have hfirst' : Warned s { t with scopes := t.scopes.exit } := hwarned
    have hgoing := (hfirst.going (hs.inRound name (by omega)) hmode).1.exit
    have hentered : Going { s' with scopes := s'.scopes.enter .block } := ⟨hs'.sound.enter _, hs'.halted, hs'.floor⟩
    obtain ⟨hgoing', hspan⟩ := hsecond.going hentered hmode
    obtain ⟨⟨u', hlast, hu', hspan', hiterate⟩, hwarned'⟩ := ih hnext hgoing hgoing'.exit hk
    refine ⟨⟨u', hlast, hu', hspan'.trans hspan, ?_⟩, hfirst'.trans hwarned'⟩
    have hcondition := condition_run hbeside.resolve? (hcounter.counts j) hbound (by omega) hN
    rw [decide_eq_true (by omega)] at hcondition
    have hround : inScope .block (block (.nested m) (countingBody name y.name body span)) config s' =
        (.ok .normal, { t' with scopes := t'.scopes.exit }) := by
      rw [inScope_run, followedBy, hsecond.block hentered hmode]
    -- A round uses up one of those that are left, however many of them will be left at the end.
    rw [show left + (k - j) = left + (k - (j + 1)) + 1 by omega, Analysis.iterate, run_bind]
    rw [show (counterAt y j).name = y.name from rfl] at hcondition
    rw [hcondition]
    dsimp only
    rw [if_pos rfl, run_bind, hround]
    exact hiterate

/-- The numbers of the rounds, converted to the type of the variable. -/
theorem coerced_numbers (config : Config) (s : State) : ∀ ns : List Nat, (∀ k ∈ ns, k < 2 ^ 31) →
    (ns.map fun k : Nat => Value.int (Int64.ofInt k)).mapM (coerceTo (.sized .int 32)) config s =
      (.ok (ns.map fun k : Nat => Value.int (Int64.ofInt k)), s)
  | [], _ => rfl
  | k :: ns, h => by
    obtain ⟨hk, hns⟩ := List.forall_mem_cons.1 h
    rw [List.map_cons, List.mapM_cons, run_bind, coerceTo, coerce_number hk]
    dsimp only [orFail]
    rw [run_pure]
    dsimp only
    rw [run_bind, coerced_numbers config s ns hns]
    rfl

section Ranges

variable {stop : Expr}

theorem roundCount_below (N : Nat) : roundCount 0 1 (N - 1) = N := by
  unfold roundCount Index.progressionLength
  rw [if_pos Int.one_pos]
  split <;> omega

/-- The range of the numbers below a bound. -/
theorem knownRange_below (hstop : Denotes calls config stop (N - 1)) (s : State) :
    KnownRange calls config s s ⟨some (.int 0), none, some stop⟩ 0 1 (Int64.ofInt (N - 1)) := .unit rfl (hstop s)

theorem toInt_below (hN : N < 2 ^ 31) : (Int64.ofInt ((N : Int) - 1)).toInt = N - 1 :=
  Int64.toInt_ofInt_of_le (by omega) (by omega)

theorem rangeValues_below (hstop : Denotes calls config stop (N - 1)) (hN : N < 2 ^ 31)
    (hlimit : N ≤ config.maxLoopIterations) (s : State) : rangeValues calls ⟨some (.int 0), none, some stop⟩ config s =
      (.ok ((List.range' 0 N).map fun k : Nat => .int (Int64.ofInt k)), s) := by
  have hprogression : Index.progression 0 1 (N - 1) = (List.range N).map fun k : Nat => (k : Int) := by
    have hlength : Index.progressionLength 0 1 (N - 1) = N := roundCount_below N
    rw [Index.progression, hlength]
    exact List.map_congr_left fun k _ => by omega
  have hzero : (0 : Int64).toInt = 0 := rfl
  have hone : (1 : Int64).toInt = 1 := rfl
  have hvalues := rangeValues_known (knownRange_below hstop s) (by decide)
  rw [hzero, hone, toInt_below hN, hprogression, List.length_map, List.length_range, List.map_map,
    List.range_eq_range'] at hvalues
  exact hvalues hlimit

/-- A range with more numbers than are allowed is refused before the first round. -/
theorem rangeValues_over (hstop : Denotes calls config stop (N - 1)) (hN : N < 2 ^ 31)
    (hlimit : config.maxLoopIterations < N) (s : State) : rangeValues calls ⟨some (.int 0), none, some stop⟩ config s =
      (.error (.construct ⟨.loopLimit N config.maxLoopIterations, s.span⟩), s) := by
  have hzero : loopBound calls (.int 0) config s = (.ok 0, s) := rfl
  rw [rangeValues]
  dsimp only
  rw [run_bind, hzero]
  dsimp only
  rw [run_bind, loopBound_known (hstop s), toInt_below hN]
  dsimp only
  rw [pure_bind, if_neg Int.one_ne_zero, run_read, roundCount_below, if_pos hlimit]
  rfl

end Ranges

section Loops

variable {stop : Expr}

/-- A `for` loop over the numbers below a bound, the last of which is `stop`. -/
def countingFor (name : String) (stop : Expr) (body : List Statement) : StatementKind :=
  .forLoop (some (.sized .int none)) name (.range ⟨some (.int 0), none, some stop⟩) body

/-- The declaration of a counter at zero. -/
def counterDeclaration (name : String) : StatementKind :=
  .classical ⟨.sized .int none, name, some (.int 0), false, none⟩

/-- A `while` loop that raises a counter up to a bound. -/
def countingWhile (name counter : String) (bound : Expr) (body : List Statement) (span : Span) : StatementKind :=
  .whileLoop (.binary (.name counter) .lt bound) (countingBody name counter body span)

/-- The state in which the rounds of a loop start. -/
def State.inLoop (s : State) : State := { s with loopScope := some s.scopes.depth }

theorem Going.inLoop (hs : Going s) : Going s.inLoop := ⟨hs.sound, hs.halted, hs.floor⟩

theorem countingFor_run (h : Rounds (.nested m) config name body 0 N s.inLoop t) (hs : Going s)
    (hmode : config.errorMode = .collectAll) (hstop : Denotes (.nested m) config stop (N - 1)) (hN : N < 2 ^ 31)
    (hlimit : N ≤ config.maxLoopIterations) :
    perform (.nested m) (countingFor name stop body) config s = (.ok .normal, { t with loopScope := s.loopScope }) := by
  have htyped : typedValues (.nested m) (some (.sized .int none)) (.range ⟨some (.int 0), none, some stop⟩) config s =
      (.ok (.sized .int 32, (List.range' 0 N).map fun k : Nat => .int (Int64.ofInt k)), s) := by
    -- The numbers fit the type of the variable, so they are converted to themselves.
    have hcoerced := coerced_numbers config s (List.range' 0 N) fun k hk => by
      have hbelow := (List.mem_range'_1.1 hk).2
      omega
    have htype : resolveType (.nested m) (.sized .int none) config s = (.ok (.sized .int 32), s) := by
      rw [resolveType]
      rfl
    rw [typedValues, run_bind, loopValues, rangeValues_below hstop hN hlimit]
    dsimp only
    rw [run_bind, htype]
    dsimp only
    rw [run_bind, hcoerced]
    rfl
  have hrounds := h.unroll hs.inLoop hmode (Nat.le_of_lt hN)
  rw [Nat.sub_zero] at hrounds
  rw [countingFor, perform, run_bind, htyped]
  show followedBy (Analysis.unroll (forRound (.nested m) name (.sized .int 32) body) _)
    (fun u => { u with loopScope := s.loopScope }) config s.inLoop = _
  rw [followedBy, hrounds]

theorem countingFor_over (hstop : Denotes (.nested m) config stop (N - 1)) (hN : N < 2 ^ 31)
    (hlimit : config.maxLoopIterations < N) : perform (.nested m) (countingFor name stop body) config s =
      (.error (.construct ⟨.loopLimit N config.maxLoopIterations, s.span⟩), s) := by
  have htyped : typedValues (.nested m) (some (.sized .int none)) (.range ⟨some (.int 0), none, some stop⟩) config s =
      (.error (.construct ⟨.loopLimit N config.maxLoopIterations, s.span⟩), s) := by
    rw [typedValues, run_bind, loopValues, rangeValues_over hstop hN hlimit]
  rw [countingFor, perform, run_bind, htyped]

/-- The variable that a counter is declared as. -/
def counterSymbol (name : String) (span : Span) : Symbol :=
  { name, kind := .classicalVariable, span, type := some (.sized .int 32), size := some 32, mutable := true }

theorem counterDeclaration_run (calls : Calls) (config : Config) (houtermost : s.scopes.inner = [])
    (hfree : s.scopes.resolve? name = none) (hfloor : s.runtimeFloor = none) :
    perform calls (counterDeclaration name) config s =
      (.ok .normal, { s with scopes := ⟨counterAt (counterSymbol name s.span) 0 :: s.scopes.global, []⟩ }) := by
  have htype : resolveType calls (.sized .int none) config s = (.ok (.sized .int 32), s) := by
    rw [resolveType]
    rfl
  have hinitial : initialValue calls (.sized .int 32) (some (.int 0)) config s =
      (.ok (some (.known (.int (Int64.ofInt (0 : Nat))))), s) := by
    have haccepted : Accepted .int 32 false 0 := ⟨by decide, by decide, by decide⟩
    have hwidth : 0 < 32 := by decide
    obtain ⟨-, hinitial⟩ | ⟨hrefused, -⟩ := initialValue_literal (.inl rfl) hwidth (by decide)
      (IntegerLiteral.digits 0) calls config s
    · exact hinitial
    · exact absurd haccepted hrefused
  have hhere : s.scopes.here? name = none := by
    rw [Scopes.resolve?_outermost houtermost, Scopes.globalSymbol?, Option.filter_eq_none_iff] at hfree
    rw [Scopes.here?, Scopes.current, houtermost]
    exact Option.eq_none_iff_forall_ne_some.2 fun z hz => hfree z hz rfl
  have hlocal : declareLocal name (.sized .int 32) config s =
      (.ok (), { s with scopes := s.scopes.push (counterSymbol name s.span) }) := by
    have hensure : ensureFree name config s = (.ok (), s) := by
      rw [ensureFree, run_get, hhere]
      rfl
    have hrun := declare_free config (s := s) (x := (counterSymbol name s.span)) hhere
    unfold declareLocal
    rw [run_bind, hensure]
    exact hrun
  have hstore : store calls name (.known (.int (Int64.ofInt (0 : Nat)))) config
      { s with scopes := s.scopes.push (counterSymbol name s.span) } = _ :=
    store_counts calls config (Scopes.resolve?_push_self s.scopes (counterSymbol name s.span)) rfl rfl rfl (by decide)
      hfloor
  have hscopes : (s.scopes.push (counterSymbol name s.span)).modify name
      (fun z => { z with value := some (.int (Int64.ofInt (0 : Nat))) }) =
        ⟨counterAt (counterSymbol name s.span) 0 :: s.scopes.global, []⟩ :=
    Scopes.modify_declared houtermost (counterSymbol name s.span) rfl _
  rw [counterDeclaration, perform, thenNext, run_bind, declareClassical, run_bind, htype]
  dsimp only
  rw [if_neg Bool.false_ne_true, run_bind, hinitial]
  dsimp only
  rw [run_bind, hlocal]
  dsimp only
  rw [hstore, hscopes]
  rfl

/-- The second loop ends when the counter has reached the bound. -/
theorem iterate_reached (hs : s.scopes.resolve? y.name = some y) (hcounts : y.Counts N)
    (hbound : Denotes calls config bound N) (hN : N < 2 ^ 31) (limit left : Nat) (round : Analysis Signal) :
    iterate limit (whileCondition calls (.binary (.name y.name) .lt bound)) round left config s = (.ok .normal, s) := by
  have hcondition := condition_run hs hcounts hbound hN hN
  rw [decide_eq_false (Nat.lt_irrefl N)] at hcondition
  cases left with
  | zero =>
    rw [iterate, run_bind, hcondition]
    rfl
  | succ left =>
    rw [iterate, run_bind, hcondition]
    rfl

/-- It is dropped when the bound is not reached in as many rounds as are allowed. -/
theorem iterate_exceeded (hs : s.scopes.resolve? y.name = some y) (hcounts : y.Counts k)
    (hbound : Denotes calls config bound N) (hk : k < N) (hN : N < 2 ^ 31) (limit : Nat) (round : Analysis Signal) :
    iterate limit (whileCondition calls (.binary (.name y.name) .lt bound)) round 0 config s =
      (.error (.construct ⟨.whileLimit limit, s.span⟩), s) := by
  have hcondition := condition_run hs hcounts hbound (by omega) hN
  rw [decide_eq_true hk] at hcondition
  rw [iterate, run_bind, hcondition]
  rfl

/-- The second loop goes through its rounds while the first one goes through the same, as many as are allowed. -/
theorem countingWhile_run (h : Rounds (.nested m) config name body 0 (min N config.maxLoopIterations) s t)
    (hcounter : Counter base name y) (hbody : ∀ st ∈ body, base.Operates [name, y.name] st.kind)
    (hmode : config.errorMode = .collectAll) (hbound : Denotes (.nested m) config bound N) (hN : N < 2 ^ 31)
    (span : Span) (hbeside : Beside base (counterAt y 0) s s'.inLoop) (hs : Going s) (hs' : Going s'.inLoop) :
    (∃ t', Beside base (counterAt y (min N config.maxLoopIterations)) t t' ∧ t'.span = s'.span ∧
      perform (.nested m) (countingWhile name y.name bound body span) config s' =
        (if N ≤ config.maxLoopIterations then .ok .normal
          else .error (.construct ⟨.whileLimit config.maxLoopIterations, s'.span⟩),
          { t' with loopScope := s'.loopScope })) ∧
      Warned s t := by
  have hbelow : min N config.maxLoopIterations ≤ config.maxLoopIterations := Nat.min_le_right _ _
  obtain ⟨⟨t', ht', -, hspan, hrounds⟩, hwarned⟩ := h.iterate hcounter hbody hmode hbound hN config.maxLoopIterations
    (config.maxLoopIterations - min N config.maxLoopIterations) span hbeside hs hs' (Nat.min_le_left _ _)
  refine ⟨⟨t', ht', hspan, ?_⟩, hwarned⟩
  have hspan' : t'.span = s'.span := hspan
  rw [Nat.sub_zero, Nat.sub_add_cancel hbelow] at hrounds
  have hcounts := hcounter.counts (min N config.maxLoopIterations)
  show followedBy (iterate _ _ _ _) (fun u => { u with loopScope := s'.loopScope }) config s'.inLoop = _
  rw [followedBy, hrounds]
  by_cases hlimit : N ≤ config.maxLoopIterations
  · rw [Nat.min_eq_left hlimit] at ht' hcounts ⊢
    have hend := iterate_reached ht'.resolve? hcounts hbound hN config.maxLoopIterations (config.maxLoopIterations - N)
      (inScope .block (block (.nested m) (countingBody name y.name body span)))
    rw [show (counterAt y N).name = y.name from rfl] at hend
    rw [hend, if_pos hlimit]
  · have hover : config.maxLoopIterations < N := Nat.lt_of_not_le hlimit
    rw [Nat.min_eq_right (Nat.le_of_lt hover)] at ht' hcounts ⊢
    have hend := iterate_exceeded ht'.resolve? hcounts hbound hover hN config.maxLoopIterations
      (inScope .block (block (.nested m) (countingBody name y.name body span)))
    rw [show (counterAt y config.maxLoopIterations).name = y.name from rfl, hspan'] at hend
    rw [Nat.sub_self, hend, if_neg hlimit]

theorem counter_of_free (houtermost : s.scopes.inner = []) (hname : s.scopes.resolve? name = none) {counter : String}
    (hcounter : s.scopes.resolve? counter = none) (span : Span) :
    Counter s.scopes name (counterSymbol counter span) where
  outermost := houtermost
  free := ⟨hname, hcounter⟩
  counts _ := ⟨rfl, rfl, rfl, rfl, rfl⟩
  mutable := rfl

/-- A statement that goes on at the top level. -/
theorem topLevel_normal {span : Span} {rest : List Statement} (hs : s.halted = false)
    (h : perform calls kind config { s with span } = (.ok .normal, t)) :
    topLevel calls (⟨kind, span⟩ :: rest) config s = topLevel calls rest config { t with span := s.span } := by
  rw [topLevel_cons_run _ _ hs, statement_ok h]

/-- A statement at the top level that is dropped is reported, and puts out nothing. -/
theorem topLevel_construct {span : Span} {d : Diagnostic} (hs : s.halted = false)
    (h : perform calls kind config { s with span } = (.error (.construct d), t)) :
    (topLevel calls [⟨kind, span⟩] config s).2.output = s.output ∧
      (topLevel calls [⟨kind, span⟩] config s).2.diagnostics = d :: t.diagnostics := by
  rw [topLevel_cons_run _ _ hs, statement_failed h]
  exact ⟨rfl, rfl⟩

/-- The state in which a counter has been declared. -/
def State.counting (s : State) (y : Symbol) : State := { s with scopes := ⟨y :: s.scopes.global, []⟩ }

/-- The second program declares its counter first. -/
theorem counterDeclared (hs : Going s) (hmode : config.errorMode = .collectAll) (houtermost : s.scopes.inner = [])
    {counter : String} (hcounter : s.scopes.resolve? counter = none) (declared : Span) (rest : List Statement) :
    Going (s.counting (counterAt (counterSymbol counter declared) 0)) ∧
      topLevel (.nested m) (⟨counterDeclaration counter, declared⟩ :: rest) config s =
        topLevel (.nested m) rest config (s.counting (counterAt (counterSymbol counter declared) 0)) := by
  have hdeclared : perform (.nested m) (counterDeclaration counter) config { s with span := declared } =
      (.ok .normal, { s.counting (counterAt (counterSymbol counter declared) 0) with span := declared }) :=
    counterDeclaration_run (s := { s with span := declared }) _ config houtermost hcounter hs.floor
  exact ⟨((hs.placed declared).perform hmode hdeclared).1.placed s.span, topLevel_normal hs.halted hdeclared⟩

/-- Where the first loop starts, the second one starts beside it. -/
theorem beside_counting (houtermost : s.scopes.inner = []) (y : Symbol) (span span' : Span) :
    Beside s.scopes y { s with span }.inLoop { s.counting y with span := span' }.inLoop := by
  refine ⟨?_, houtermost, rfl⟩
  have hdepth : s.scopes.depth = 0 := congrArg List.length houtermost
  show ({ s.counting y with span := span', loopScope := some 0 } : State) =
    { s with span := span', loopScope := some s.scopes.depth, scopes := _ }
  rw [hdepth]
  rfl

/-- Loops that count agree if their body calls no subroutine, and if no statement of it fails in the rounds of the
`for` loop. The `while` loop leaves its counter behind, and else the same state. With more rounds than are allowed each
of the loops reports one error and puts out nothing, though the `while` loop warns of what it has run into. -/
theorem counted_loops_agree (hs : Occurs config s) (hmode : config.errorMode = .collectAll)
    (houtermost : s.scopes.inner = []) {counter : String}
    (hname : s.scopes.resolve? name = none) (hcounter : s.scopes.resolve? counter = none)
    (hN : N < 2 ^ 31) (hstop : Denotes (.nested m) config stop (N - 1)) (hbound : Denotes (.nested m) config bound N)
    (hbody : ∀ st ∈ body, s.scopes.Operates [name, counter] st.kind) (forSpan declared whileSpan raised : Span)
    (hrounds : Rounds (.nested m) config name body 0 (min N config.maxLoopIterations)
      { s with span := forSpan }.inLoop t) :
    let forEnd := (topLevel (.nested m) [⟨countingFor name stop body, forSpan⟩] config s).2
    let whileEnd := (topLevel (.nested m) [⟨counterDeclaration counter, declared⟩,
      ⟨countingWhile name counter bound body raised, whileSpan⟩] config s).2
    (N ≤ config.maxLoopIterations → Warned s forEnd ∧
      ∃ y, y.name = counter ∧ y.value = some (.int (Int64.ofInt N)) ∧
        whileEnd = forEnd.seeing ⟨y :: forEnd.scopes.global, []⟩) ∧
    (config.maxLoopIterations < N →
      (forEnd.output = s.output ∧
        forEnd.diagnostics = ⟨.loopLimit N config.maxLoopIterations, forSpan⟩ :: s.diagnostics) ∧
      whileEnd.output = s.output ∧ ∃ warnings, (∀ d ∈ warnings, d.severity = .warning) ∧
        whileEnd.diagnostics = ⟨.whileLimit config.maxLoopIterations, whileSpan⟩ :: (warnings ++ s.diagnostics)) := by
  intro forEnd whileEnd
  have hgoing : Going s :=
    ⟨hs.reachable.sound, hs.reachable.halted hmode, hs.runtimeFloor_eq_none houtermost⟩
  let y := counterSymbol counter declared
  have hcounters : Counter s.scopes name y := counter_of_free houtermost hname hcounter declared
  obtain ⟨hstart, hwhileEnd⟩ := counterDeclared hgoing hmode houtermost hcounter declared
    [⟨countingWhile name counter bound body raised, whileSpan⟩] (m := m)
  have hbeside := beside_counting houtermost (counterAt y 0) forSpan whileSpan
  -- As many rounds as are allowed end beside each other, whether or not the bound is reached with them.
  obtain ⟨⟨t', ht', hspan, hwhile⟩, hwarned⟩ := countingWhile_run hrounds hcounters hbody hmode hbound hN raised hbeside
    (hgoing.placed forSpan).inLoop (hstart.placed whileSpan).inLoop
  refine ⟨fun hlimit => ?_, fun hlimit => ?_⟩
  · rw [Nat.min_eq_left hlimit] at hrounds ht'
    have hfor := countingFor_run hrounds (hgoing.placed forSpan) hmode hstop hN hlimit
    rw [if_pos hlimit] at hwhile
    have hforEnd : forEnd = { t with loopScope := s.loopScope, span := s.span } :=
      congrArg Prod.snd (topLevel_normal hgoing.halted hfor)
    have hwhileEnd' : whileEnd = { t' with loopScope := s.loopScope, span := s.span } :=
      congrArg Prod.snd (hwhileEnd.trans (topLevel_normal hstart.halted hwhile))
    rw [hforEnd, hwhileEnd']
    refine ⟨hwarned, counterAt y N, rfl, rfl, ?_⟩
    rw [ht'.rest]
    rfl
  · -- The first loop has not started, and what the second one has put out is taken back with its error.
    have hfor : perform (.nested m) (countingFor name stop body) config { s with span := forSpan } =
        (.error (.construct ⟨.loopLimit N config.maxLoopIterations, forSpan⟩), { s with span := forSpan }) :=
      countingFor_over hstop hN hlimit
    rw [if_neg (Nat.not_le_of_lt hlimit)] at hwhile
    have hfor' := topLevel_construct hgoing.halted hfor
    obtain ⟨houtput, hdiagnostics⟩ := topLevel_construct hstart.halted hwhile
    obtain ⟨warnings, hwarnings, hseverity⟩ := hwarned
    rw [show whileEnd = _ from congrArg Prod.snd hwhileEnd]
    refine ⟨hfor', houtput, warnings, hseverity, ?_⟩
    have ht : t'.diagnostics = t.diagnostics := by rw [ht'.rest]
    exact hdiagnostics.trans (congrArg (List.cons _) (ht.trans hwarnings))

/-- A gate on as many qubits of a register as the loops have rounds. -/
theorem counted_loops_agree_flips :
    let start := stateAfter .default "qubit[2] q;\n" 1
    let body : List Statement := [⟨.gate ⟨"x", [], [.index (.name "q") [.single (.name "i")]], []⟩, .none⟩]
    let forEnd := (topLevel (.nested 0) [⟨countingFor "i" (.int 1) body, .none⟩] .default start).2
    let whileEnd := (topLevel (.nested 0) [⟨counterDeclaration "n", .none⟩,
      ⟨countingWhile "i" "n" (.int 2) body .none, .none⟩] .default start).2
    forEnd.output.length = 2 ∧ whileEnd.output = forEnd.output := by
  rw [stateAfter_ofList]
  intro start body forEnd whileEnd
  have houtermost : start.scopes.inner = [] := List.isEmpty_iff.1 (by decide +kernel)
  have hnone (x : Symbol) (hx : x ∈ start.scopes.global) : x.subroutine? = none :=
    Option.isNone_iff_eq_none.1 (List.all_eq_true.1
      (by decide +kernel : start.scopes.global.all (fun x => x.subroutine?.isNone) = true) x hx)
  have hquiet (call : GateCall) : start.scopes.Quiet call := quiet_of_no_subroutine houtermost hnone
  have hbody : ∀ st ∈ body, start.scopes.Operates ["i", "n"] st.kind := by
    refine List.forall_mem_singleton.2 ⟨trivial, (hquiet _).outside, ?_, ?_⟩
    · rintro call ⟨⟩
      exact hquiet _
    · decide
  have hrounds : Rounds (.nested 0) .default "i" body 0 2 { start with span := .none }.inLoop _ :=
    .round (.single (perform_normal trivial (by decide +kernel)))
      (.round (.single (perform_normal trivial (by decide +kernel))) .done)
  have hstop : Denotes (.nested 0) .default (.int 1) ((2 : Nat) - 1) := fun _ => rfl
  have hbound : Denotes (.nested 0) .default (.int 2) (2 : Nat) := fun _ => rfl
  have hfree (name : String) (h : (start.scopes.resolve? name).isNone = true) : start.scopes.resolve? name = none :=
    Option.isNone_iff_eq_none.1 h
  have hagree := counted_loops_agree (stateAfterRead_occurs .default _ 1) rfl houtermost (hfree "i" (by decide +kernel))
    (hfree "n" (by decide +kernel)) (by decide) hstop hbound hbody .none .none .none .none hrounds
  obtain ⟨-, y, -, -, hend⟩ := hagree.1 (by decide)
  have houtput : whileEnd.output = (forEnd.seeing _).output := congrArg State.output hend
  exact ⟨by decide +kernel, houtput⟩

/-- The type of a parameter is read where its subroutine is called: only there the variable of the first loop is known,
which the second loop calls otherwise. -/
theorem counted_loops_differ :
    let analyzed (loop : String) :=
      let p := ofSource .default ("def f(int[i + 1] a) -> int \x7b return 0; \x7d\nqubit q;\n" ++ loop)
      (p.statements.length, p.diagnostics.map Diagnostic.text)
    analyzed "for int i in [0:1] \x7b x q[f(0)]; \x7d\n" = (2, []) ∧
      analyzed "int n = 0;\nwhile (n < 2) \x7b x q[f(0)]; n += 1; \x7d\n" =
        (0, List.replicate 2 "4:17: error[undefined-symbol]: undefined name `i`") := by
  dsimp only
  rw [← String.ofList_append, ← String.ofList_append, ofSource_ofList, ofSource_ofList]
  decide +kernel

end Loops

end Rounds

end Analysis

end OpenQasm
