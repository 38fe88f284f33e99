import OpenQasm.Proofs.Materialization

/-!
What is known after a branch that is decided when the program runs. What its bodies write is forgotten,
whatever they do in between, and variables that are written have been given their values before the branch
in the flat program; so nothing that is known after the branch depends on which body is taken.
-/
namespace OpenQasm

namespace Analysis

/-- The symbol that a name has on a level is written in a body, and the statement that writes to it is
completed. -/
def Writes (calls : Calls) (config : Config) (body : List Statement) (s : State) (k : Nat)
    (name : String) : Prop :=
  ∃ kind u signal t x, Performs calls config body s kind u ∧ kind.written? = some name ∧
    perform calls kind config u = (.ok signal, t) ∧ u.scopes.resolve? name = some x ∧ x.scope = k

/-- The symbol that a name has on a level is written in a body of a statement. -/
def Overwrites (calls : Calls) (config : Config) (kind : StatementKind) (s : State) (k : Nat)
    (name : String) : Prop :=
  ∃ body t, Enters calls config kind s body t ∧ Writes calls config body t k name

section Evaluation

variable {n : Nat} {config : Config} {before : Scopes} {s t u : State} {α : Type}

theorem Evaluated.step {x : Analysis α} {r : Except Failure α} (hs : Evaluated before s)
    (hx : Agree (.evaluated before) x x) (hr : x config s = (r, t)) :
    Evaluated before t ∧ s.output <:+ t.output := by
  have hkeeps := Ensures.keeps hx hs trivial hr
  exact ⟨hkeeps.core, hkeeps.frame.output⟩

/-- Every state of an analysis has its symbols numbered by their levels, as the first one has. -/
theorem Spares.numbered {x : Analysis α} {r : Except Failure α} (hx : Spares x)
    (hs : s.scopes.Numbered) (hr : x config s = (r, t)) : t.scopes.Numbered := by
  have hguarded : Guarded False 0 s.scopes s := {
    numbered := hs
    inside := Nat.zero_le _
    branch := False.elim
    kept := fun _ hk => absurd hk (Nat.not_lt_zero _)
    seen := fun _ _ _ hlt => absurd hlt (Nat.not_lt_zero _) }
  exact (hx.guarded hguarded hr).numbered

theorem branchHead_eq_ok {calls : Calls} {condition : Expr} {assigned : Analysis Unit}
    {head : Expr × List Nat} (h : branchHead calls condition assigned config s = (.ok head, t)) :
    ∃ shown u, residualize calls condition config s = (.ok shown, u) ∧
      assigned config u = (.ok (), t) := by
  obtain ⟨shown, u, hshown, hrest⟩ := run_bind_eq_ok.1 h
  rw [run_get] at hrest
  obtain ⟨⟨⟩, w, hassigned, hrest⟩ := run_bind_eq_ok.1 hrest
  cases hrest
  exact ⟨shown, u, hshown, hassigned⟩

end Evaluation

section Bodies

variable {n : Nat} {config : Config} {s t u : State} {body : List Statement} {k : Nat}
  {name : String} {x : Symbol}

/-- All levels are outside of the body of a branch. -/
theorem guarded_opened (h : s.scopes.Numbered) :
    Guarded True (s.scopes.depth + 1) s.scopes s.opened where
  numbered := h.enter .block
  inside := Nat.le_refl _
  branch _ := ⟨_, rfl, Nat.le_refl _⟩
  kept k _ name x hx := ⟨x, (Scopes.at?_enter s.scopes .block k name).trans hx, Symbol.Kept.refl x⟩
  seen name x hx _ := by
    have hbefore : s.scopes.resolve? name = some x := by
      rwa [State.opened, Scopes.resolve?_enter_block rfl] at hx
    exact Or.inr ⟨trivial, x, hbefore, rfl⟩

/-- What a body of a branch leaves behind. -/
structure Forgets (s t : State) : Prop where
  numbered : t.scopes.Numbered
  stays : s.scopes.Same t.scopes
  kept : ∀ k name x, s.scopes.at? k name = some x →
    ∃ y, t.scopes.at? k name = some y ∧ x.Kept True y

theorem forgets_closed {r : Except Failure Signal} (hs : s.scopes.Numbered)
    (hr : block (.nested n) body config s.opened = (r, t)) : Forgets s (s.closed t) := by
  have hopened := guarded_opened hs
  have ht := (block_spares body).guarded hopened hr
  have hsame := ((block_spares body).frame hopened hr).scopes.exit
  refine ⟨ht.numbered.exit, hsame, fun k name x hx => ?_⟩
  have hk : k < s.scopes.depth + 1 := Nat.lt_succ_of_le (Scopes.le_depth_of_at? hx)
  obtain ⟨y, hy, hkept⟩ := ht.kept k hk name x hx
  exact ⟨y, (Scopes.at?_exit (Nat.lt_of_lt_of_le hk ht.inside) name).trans hy, hkept⟩

/-- What a body writes is not known after it. -/
theorem unknown_closed {r : Except Failure Signal} (hs : s.scopes.Numbered) (hk : k ≤ s.scopes.depth)
    (hr : block (.nested n) body config s.opened = (r, t))
    (h : Writes (.nested n) config body s.opened k name) : Unknown k name (s.closed t) := by
  obtain ⟨kind, u, signal, w, x, hperforms, hwritten, hcompleted, hx, rfl⟩ := h
  have hlt : x.scope < s.scopes.depth + 1 := Nat.lt_succ_of_le hk
  have hopened := guarded_opened hs
  have hu := hperforms.guarded hopened
  have hwrite := unknown_of_written hu hwritten hcompleted hx hlt
  have hend : Unknown x.scope name (block (.nested n) body config s.opened).2 := by
    refine hperforms.unknown hopened hlt ?_
    rwa [hcompleted]
  rw [hr] at hend
  have ht := (block_spares body).guarded hopened hr
  exact hend.exit (Nat.lt_of_lt_of_le hlt ht.inside)

end Bodies

section Targets

variable {n floor : Nat} {calls : Calls} {before : Scopes} {config : Config} {s t : State}
  {root : String} {x : Symbol}

theorem nameView_eq_ok {v : RegisterKind × View} (h : nameView root config s = (.ok v, t)) :
    ∃ x, s.scopes.resolve? root = some x ∧ x.binding ≠ .none := by
  obtain ⟨x, u, hresolve, hrest⟩ := run_bind_eq_ok.1 h
  obtain ⟨hx, rfl⟩ := resolve_eq_ok hresolve
  refine ⟨x, hx, fun hnone => ?_⟩
  rw [hnone] at hrest
  nomatch hrest

/-- A place that is measured into belongs to a register. -/
theorem viewOf_eq_ok {target : Expr} {v : RegisterKind × View} (hroot : target.rootName? = some root)
    (h : viewOf calls target config s = (.ok v, t)) :
    ∃ x, s.scopes.resolve? root = some x ∧ x.binding ≠ .none := by
  induction target using Expr.rootName?.induct generalizing v t with
  | case1 name =>
    cases hroot
    exact nameView_eq_ok h
  | case2 base items ih =>
    rw [viewOf] at h
    obtain ⟨_, _, hbase, -⟩ := run_bind_eq_ok.1 h
    exact ih hroot hbase
  | case3 target hname hindex =>
    rw [Expr.rootName?] at hroot
    · nomatch hroot
    · exact hname
    · exact hindex

theorem checkWritable_eq_ok (h : checkWritable x config s = (.ok (), t)) : x.mutable = true := by
  obtain ⟨_, kind, _, _, _, mutable, _, _, _, _⟩ := x
  cases mutable with
  | true => rfl
  | false => cases kind <;> cases h

theorem assign_eq_ok {target value : Expr} {op : AssignOp} (hroot : target.rootName? = some root)
    (hx : s.scopes.resolve? root = some x) (h : assign calls target op value config s = (.ok (), t)) :
    x.mutable = true := by
  rw [assign, hroot] at h
  obtain ⟨y, u, hresolve, hrest⟩ := run_bind_eq_ok.1 h
  obtain ⟨hy, rfl⟩ := resolve_eq_ok hresolve
  cases hx.symm.trans hy
  obtain ⟨_, _, hcheck, -⟩ := run_bind_eq_ok.1 hrest
  exact checkWritable_eq_ok hcheck

/-- What is written without being a register is assigned to, and may be. -/
theorem written_target {kind : StatementKind} {signal : Signal} (hs : Guarded True floor before s)
    (hwritten : kind.written? = some root)
    (hperform : perform (.nested n) kind config s = (.ok signal, t))
    (hx : s.scopes.resolve? root = some x) (hbinding : x.binding = .none) :
    (∃ target ∈ kind.targets, target.rootName? = some root) ∧ x.mutable = true := by
  cases kind with
  | assign target op value =>
    exact ⟨⟨target, List.mem_cons_self, hwritten⟩, assign_eq_ok hwritten hx (thenNext_eq_ok hperform)⟩
  | measure operand target =>
    cases target with
    | none => nomatch hwritten
    | some target =>
      obtain ⟨qubits, u, hqubits, hinto⟩ := run_bind_eq_ok.1 (thenNext_eq_ok hperform)
      obtain ⟨v, w, hview, -⟩ := run_bind_eq_ok.1 hinto
      obtain ⟨y, hy, hregister⟩ := viewOf_eq_ok hwritten hview
      -- The operand is evaluated first, which declares nothing.
      have hoperand := quantumQubits_ensures (nested_staying True floor s.scopes s.scopes n) operand
        (Nat.le_of_eq (weigh_zero _))
      obtain ⟨-, hkeeps⟩ := hoperand config s ⟨hs.refl, Scopes.Same.refl _⟩ trivial
      rw [hqubits] at hkeeps
      have hkeys := hkeeps.core.2.resolve? root
      rw [hx, hy] at hkeys
      have hkey : x.binding = y.binding := congrArg (·.2.2) (Option.some.inj hkeys)
      exact absurd (hkey.symm.trans hbinding) hregister
  | _ => nomatch hwritten

/-- A plain variable that is written in a body of a branch is assigned to there, and its name stood for it
before the branch. -/
theorem writes_variable {body : List Statement} {k : Nat} {y : Symbol} {u : State}
    (hu : u.scopes.Numbered) (hs : s.scopes.Numbered) (hsame : u.scopes.Same s.scopes)
    (hx : u.scopes.at? k root = some x) (hy : s.scopes.at? k root = some y) (hkey : y.key = x.key)
    (hmutable : y.mutable = x.mutable) (hkind : x.kind = .classicalVariable)
    (hbinding : x.binding = .none) (h : Writes (.nested n) config body s.opened k root) :
    (∃ target ∈ bodyTargets body, target.rootName? = some root) ∧
      u.scopes.resolve? root = some x ∧ x.mutable = true := by
  obtain ⟨kind, w, signal, w', z, hperforms, hwritten, hcompleted, hz, rfl⟩ := h
  have hlt : z.scope < s.scopes.depth + 1 := Nat.lt_succ_of_le (Scopes.le_depth_of_at? hy)
  have hw := hperforms.guarded (guarded_opened hs)
  -- What the name stands for in the body is what became of the variable.
  obtain ⟨z', hz', hkept⟩ := hw.kept z.scope hlt root y hy
  cases hz'.symm.trans (hw.numbered.at?_of_resolve? hz)
  have hzkey := hkept.key.trans hkey
  have hzbinding : z.binding = .none := (congrArg (·.2.2) hzkey).trans hbinding
  obtain ⟨⟨target, hmem, hroot⟩, hzmutable⟩ := written_target hw hwritten hcompleted hz hzbinding
  refine ⟨⟨target, hperforms.targets_subset hmem, hroot⟩, ?_, ?_⟩
  · have hcrosses : z.crossesBodies = false := by
      rw [Symbol.crossesBodies_eq hzkey]
      simp [Symbol.crossesBodies, hkind]
    rcases hw.seen root z hz hlt with hseen | ⟨-, y', hy', hlevel⟩
    · nomatch hcrosses.symm.trans hseen
    · exact hsame.resolve?_of_at? hu hs hy' (hlevel ▸ hx)
  · rw [hkept.same] at hzmutable
    exact hmutable.symm.trans hzmutable

end Targets

section Branch

variable {n : Nat} {config : Config} {s t u : State} {condition : Expr}
  {thenBody : List Statement} {elseBody : Option (List Statement)}

/-- The states between the parts of a branch that is decided when the program runs. -/
theorem runtimeBranch_eq_ok {calls : Calls} {assigned : Analysis Unit} {thenBody elseBody : Analysis Signal}
    {signal : Signal}
    (h : runtimeBranch calls condition assigned thenBody elseBody config s = (.ok signal, t)) :
    ∃ head w thenSignal a elseSignal b thenPart elsePart,
      branchHead calls condition assigned config s = (.ok head, w) ∧
      thenBody config w.opened = (.ok thenSignal, a) ∧
      elseBody config (w.closed a).opened = (.ok elseSignal, b) ∧
      t = { (w.closed a).closed b with
        output := .branch head.1 head.2 thenPart elsePart :: w.output } := by
  rw [runtimeBranch_eq] at h
  obtain ⟨head, w, hhead, hbodies⟩ := run_bind_eq_ok.1 h
  obtain ⟨thenPart, _, hthen, hrest⟩ := run_bind_eq_ok.1 hbodies
  obtain ⟨a, ha, rfl⟩ := collecting_eq_ok hthen
  obtain ⟨elsePart, _, helse, hrest⟩ := run_bind_eq_ok.1 hrest
  obtain ⟨b, hb, rfl⟩ := collecting_eq_ok helse
  cases hrest
  exact ⟨head, w, thenPart.1, a, elsePart.1, b, thenPart.2, elsePart.2, hhead, ha, hb, rfl⟩

/-- What a branch writes that is decided when the program runs is written in one of its parts. -/
theorem overwrites_cases {calls : Calls} {head : Expr × List Nat} {w a : State} {signal : Signal} {k : Nat}
    {name : String} (hfold : fold calls condition config s = (.ok none, u))
    (hhead : branchHead calls condition (materializeAll (thenBody ++ elseBody.getD [])) config u =
      (.ok head, w))
    (hthen : block calls thenBody config w.opened = (.ok signal, a))
    (h : Overwrites calls config (.branch condition thenBody elseBody) s k name) :
    Writes calls config thenBody w.opened k name ∨
      Writes calls config (elseBody.getD []) (w.closed a).opened k name := by
  obtain ⟨body, start, henters, hwrites⟩ := h
  cases henters with
  | taken hknown =>
    rw [hfold] at hknown
    nomatch hknown
  | thenPart hfold' hhead' =>
    rw [hfold] at hfold'
    cases hfold'
    rw [hhead] at hhead'
    cases hhead'
    exact Or.inl hwrites
  | elsePart hfold' hhead' hthen' =>
    rw [hfold] at hfold'
    cases hfold'
    rw [hhead] at hhead'
    cases hhead'
    rw [hthen] at hthen'
    cases hthen'
    exact Or.inr hwrites

/-- The states that a branch passes through after its condition: variables get their names, then one body
runs after the other. -/
structure Passes (n : Nat) (config : Config) (thenBody elseBody : List Statement)
    (added : List FlatStatement) (v w a b : State) : Prop where
  numbered : v.scopes.Numbered
  prepared : Prepared added v w
  thenPart : ∃ signal, block (.nested n) thenBody config w.opened = (.ok signal, a)
  elsePart : ∃ signal, block (.nested n) elseBody config (w.closed a).opened = (.ok signal, b)

namespace Passes

variable {elseBody : List Statement} {added : List FlatStatement} {v w a b : State} {k : Nat}
  {name : String} {x : Symbol}

theorem forgets (h : Passes n config thenBody elseBody added v w a b) :
    Forgets w (w.closed a) ∧ Forgets (w.closed a) ((w.closed a).closed b) := by
  obtain ⟨_, hthen⟩ := h.thenPart
  obtain ⟨_, helse⟩ := h.elsePart
  have hfirst := forgets_closed h.prepared.numbered hthen
  exact ⟨hfirst, forgets_closed hfirst.numbered helse⟩

/-- A symbol that one of the bodies writes is unknown at the end: the second body does not make known what
the first one has forgotten. -/
theorem unknown (h : Passes n config thenBody elseBody added v w a b)
    (hx : w.scopes.at? k name = some x)
    (hwrites : Writes (.nested n) config thenBody w.opened k name ∨
      Writes (.nested n) config elseBody (w.closed a).opened k name) :
    Unknown k name ((w.closed a).closed b) := by
  obtain ⟨hforgets, hforgets'⟩ := h.forgets
  obtain ⟨y, hy, -⟩ := hforgets.kept k name x hx
  obtain ⟨_, hthen⟩ := h.thenPart
  obtain ⟨_, helse⟩ := h.elsePart
  rcases hwrites with hwrites | hwrites
  · obtain ⟨y, hy, hnone⟩ :=
      unknown_closed h.prepared.numbered (Scopes.le_depth_of_at? hx) hthen hwrites
    obtain ⟨z, hz, hkept⟩ := hforgets'.kept k name y hy
    exact ⟨z, hz, hkept.value_none hnone⟩
  · exact unknown_closed hforgets.numbered (Scopes.le_depth_of_at? hy) helse hwrites

/-- A plain variable that one of the bodies writes is assigned to there, and seen before the branch. -/
theorem target (h : Passes n config thenBody elseBody added v w a b)
    (hx : v.scopes.at? k name = some x) (hkind : x.kind = .classicalVariable)
    (hbinding : x.binding = .none)
    (hwrites : Writes (.nested n) config thenBody w.opened k name ∨
      Writes (.nested n) config elseBody (w.closed a).opened k name) :
    (∃ target ∈ bodyTargets (thenBody ++ elseBody), target.rootName? = some name) ∧
      v.scopes.resolve? name = some x ∧ x.mutable = true := by
  obtain ⟨hforgets, -⟩ := h.forgets
  obtain ⟨y, hy, hnamed⟩ := h.prepared.kept k name x hx
  have hkey : y.key = x.key := by rw [hnamed.same]; rfl
  have hmutable : y.mutable = x.mutable := by rw [hnamed.same]
  rw [bodyTargets_append]
  rcases hwrites with hwrites | hwrites
  · obtain ⟨⟨target, hmem, hroot⟩, hseen⟩ := writes_variable h.numbered h.prepared.numbered
      h.prepared.stays hx hy hkey hmutable hkind hbinding hwrites
    exact ⟨⟨target, List.mem_append_left _ hmem, hroot⟩, hseen⟩
  · obtain ⟨z, hz, hkept⟩ := hforgets.kept k name y hy
    have hmutable' : z.mutable = y.mutable := by rw [hkept.same]
    obtain ⟨⟨target, hmem, hroot⟩, hseen⟩ := writes_variable h.numbered hforgets.numbered
      (h.prepared.stays.trans hforgets.stays) hx hz (hkept.key.trans hkey)
      (hmutable'.trans hmutable) hkind hbinding hwrites
    exact ⟨⟨target, List.mem_append_right _ hmem, hroot⟩, hseen⟩

end Passes

/-- After a branch that is decided when the program runs, every value that was known before is known as it
was, or not at all; it is not known if a body has written to the symbol. A plain variable with a known value
that is written gets a name in the flat program, if it had none, and its value from before the branch is
assigned to it before the branch. -/
theorem runtime_branch_forgets {signal : Signal} (hs : s.scopes.Numbered)
    (hfold : fold (.nested n) condition config s = (.ok none, u))
    (hrun : perform (.nested n) (.branch condition thenBody elseBody) config s = (.ok signal, t)) :
    ∃ shown clbits thenPart elsePart added,
      t.output = .branch shown clbits thenPart elsePart :: (added ++ s.output) ∧
      ∀ k name x, s.scopes.at? k name = some x → ∃ y, t.scopes.at? k name = some y ∧
        (y.value = x.value ∨ y.value = none) ∧
        (Overwrites (.nested n) config (.branch condition thenBody elseBody) s k name →
          y.value = none ∧
          ∀ v, x.kind = .classicalVariable → x.binding = .none → x.value = some v →
            x.emitName = none → ∃ emitName, y.emitName = some emitName ∧
              .assign (.name emitName) v.toExpr ∈ added) := by
  rw [perform_branch, branch, run_bind, hfold] at hrun
  obtain ⟨head, w, thenSignal, a, elseSignal, b, thenPart, elsePart, hhead, hthen, helse, rfl⟩ :=
    runtimeBranch_eq_ok hrun
  obtain ⟨shown, v, hshown, hassigned⟩ := branchHead_eq_ok hhead
  have hcalls := nested_evaluated s.scopes n
  obtain ⟨hu, hfirst⟩ :=
    (Evaluated.refl hs).step (fold_agree hcalls condition (Nat.le_of_eq (weigh_zero _))) hfold
  obtain ⟨hv, hsecond⟩ :=
    hu.step (residualize_agree hcalls condition (Nat.le_of_eq (weigh_zero _))) hshown
  obtain ⟨more, hmore⟩ := hfirst.trans hsecond
  obtain ⟨added, hadded, hnames⟩ := materializeAll_prepares hv.numbered hassigned
  have hpasses : Passes n config thenBody (elseBody.getD []) added v w a b :=
    ⟨hv.numbered, hadded, ⟨thenSignal, hthen⟩, ⟨elseSignal, helse⟩⟩
  refine ⟨head.1, head.2, thenPart, elsePart, added ++ more, ?_, fun k name x hx => ?_⟩
  · rw [hadded.output, ← hmore, List.append_assoc]
  -- The symbol is followed through the evaluation of the condition, the names that are given, and the two
  -- bodies.
  obtain ⟨x₁, hx₁, hevaluated⟩ := hv.kept k name x hx
  obtain ⟨x₂, hx₂, hnamed⟩ := hadded.kept k name x₁ hx₁
  obtain ⟨x₃, hx₃, hkept₃⟩ := hpasses.forgets.1.kept k name x₂ hx₂
  obtain ⟨y, hy, hkept₄⟩ := hpasses.forgets.2.kept k name x₃ hx₃
  have hkept := hkept₃.trans hkept₄
  refine ⟨y, hy, ?_, fun hoverwrites => ?_⟩
  · have hvalue : x₂.value = x₁.value := by rw [hnamed.same]
    rcases hkept.value with heq | ⟨hnone, -⟩
    · rcases hevaluated.value with heq' | ⟨hnone, -⟩
      · exact Or.inl ((heq.trans hvalue).trans heq')
      · exact Or.inr ((heq.trans hvalue).trans hnone)
    · exact Or.inr hnone
  have hwrites := overwrites_cases hfold hhead hthen hoverwrites
  refine ⟨?_, fun value hkind hbinding hvalue hname => ?_⟩
  · obtain ⟨z, hz, hnone⟩ := hpasses.unknown hx₂ hwrites
    cases hz.symm.trans hy
    exact hnone
  · obtain ⟨hvalue₁, hname₁⟩ := hevaluated.unnamed hkind hbinding hvalue hname
    have hkind₁ : x₁.kind = .classicalVariable := (congrArg (·.2.1) hevaluated.key).trans hkind
    have hbinding₁ : x₁.binding = .none := (congrArg (·.2.2) hevaluated.key).trans hbinding
    obtain ⟨⟨target, hmem, hroot⟩, hresolve, hmutable⟩ := hpasses.target hx₁ hkind₁ hbinding₁ hwrites
    obtain ⟨z, emitName, hz, hemitName, hassigns⟩ :=
      hnames target hmem name x₁ hroot hresolve hkind₁ hmutable hname₁
    rw [hv.numbered k name x₁ hx₁] at hz
    cases hz.symm.trans hx₂
    exact ⟨emitName, hkept.emitName_eq hemitName, List.mem_append_left _ (hassigns value hvalue₁)⟩

/-- Whether a symbol stands for nothing but its value. -/
def Symbol.isUnbound (x : Symbol) : Bool :=
  match x.binding with
  | .none => true
  | _ => false

theorem Symbol.binding_of_isUnbound {x : Symbol} (h : Symbol.isUnbound x = true) : x.binding = .none := by
  unfold Symbol.isUnbound at h
  split at h
  · assumption
  · cases h

/-- A variable that is assigned to under an input: its value is not known afterwards, and it has got a
name. -/
theorem runtime_branch_forgets_input :
    let start := (block (.nested 0)
      [⟨.classical ⟨.bool, "b", none, false, some .input⟩, .none⟩,
        ⟨.classical ⟨.sized .int none, "n", some (.int 5), false, none⟩, .none⟩] .default .initial).2
    let kind := StatementKind.branch (.name "b") [⟨.assign (.name "n") .set (.int 7), .none⟩] none
    ∃ y, (perform (.nested 0) kind .default start).2.scopes.at? 0 "n" = some y ∧ y.value = none ∧
      y.emitName.isSome := by
  intro start kind
  have hrun {α : Type} (x : Analysis α) (s : State) (h : (x .default s).1.isOk = true) :
      ∃ a, x .default s = (.ok a, (x .default s).2) := by
    rcases hr : x .default s with ⟨e | a, t⟩
    · rw [hr] at h
      cases h
    · exact ⟨a, rfl⟩
  have hs : start.scopes.Numbered := (block_spares _).numbered Scopes.numbered_withBuiltins rfl
  obtain ⟨signal, hperform⟩ := hrun (perform (.nested 0) kind) start (by decide +kernel)
  obtain ⟨value, hfold⟩ := hrun (fold (.nested 0) (.name "b")) start (by decide +kernel)
  have hvalue : value = none := by
    have hnone : (fold (.nested 0) (.name "b") .default start).1.toOption.join.isNone = true := by
      decide +kernel
    rw [hfold] at hnone
    exact Option.isNone_iff_eq_none.1 hnone
  subst hvalue
  obtain ⟨x, hx, hplain⟩ := (Option.any_eq_true (fun x => x.kind = .classicalVariable &&
    x.emitName.isNone && x.value.isSome && Symbol.isUnbound x)
    (start.scopes.at? 0 "n")).1 (by decide +kernel)
  simp only [Bool.and_eq_true, decide_eq_true_eq, Option.isNone_iff_eq_none] at hplain
  obtain ⟨⟨⟨hkind, hname⟩, hknown⟩, hbinding⟩ := hplain
  obtain ⟨v, hv⟩ := Option.isSome_iff_exists.1 hknown
  have hbinding : x.binding = .none := Symbol.binding_of_isUnbound hbinding
  -- The assignment is performed in the first body.
  have hoverwrites : Overwrites (.nested 0) .default kind start 0 "n" := by
    obtain ⟨head, hhead⟩ := hrun (branchHead (.nested 0) (.name "b") (materializeAll
      ([⟨.assign (.name "n") .set (.int 7), .none⟩] ++ [])))
      (fold (.nested 0) (.name "b") .default start).2 (by decide +kernel)
    let inside : State := { (branchHead (.nested 0) (.name "b") (materializeAll
      ([⟨.assign (.name "n") .set (.int 7), .none⟩] ++ [])) .default
      (fold (.nested 0) (.name "b") .default start).2).2.opened with span := .none }
    obtain ⟨next, hassign⟩ := hrun (perform (.nested 0) (.assign (.name "n") .set (.int 7))) inside
      (by decide +kernel)
    obtain ⟨z, hz, hlevel⟩ := (Option.any_eq_true (fun z => z.scope = 0)
      (inside.scopes.resolve? "n")).1 (by decide +kernel)
    exact ⟨_, _, Enters.thenPart hfold hhead, _, inside, next, _, z, Performs.head (by decide +kernel),
      rfl, hassign, hz, of_decide_eq_true hlevel⟩
  obtain ⟨_, _, _, _, added, -, hsymbols⟩ := runtime_branch_forgets hs hfold hperform
  obtain ⟨y, hy, -, hwritten⟩ := hsymbols 0 "n" x hx
  obtain ⟨hnone, hnamed⟩ := hwritten hoverwrites
  obtain ⟨emitName, hemitName, -⟩ := hnamed v hkind hbinding hv hname
  exact ⟨y, hy, hnone, Option.isSome_iff_exists.2 ⟨emitName, hemitName⟩⟩

end Branch

end Analysis

end OpenQasm
