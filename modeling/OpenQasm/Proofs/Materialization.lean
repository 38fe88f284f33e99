import OpenQasm.Proofs.Branching

/-!
What is done for variables before a branch that is decided when the program runs. Every plain variable
that is assigned to in a body gets a name in the flat program, and the value that it has is assigned to it
there, so that the bodies find it as the program left it.
-/
namespace OpenQasm

mutual

/-- The places that a statement assigns to, those in its bodies included. -/
def Statement.targets : Statement → List Expr
  | ⟨kind, _⟩ => kind.targets

def StatementKind.targets : StatementKind → List Expr
  | .assign target _ _ => [target]
  | .branch _ thenBody none => bodyTargets thenBody
  | .branch _ thenBody (some elseBody) => bodyTargets thenBody ++ bodyTargets elseBody
  | .forLoop _ _ _ body | .whileLoop _ body | .block body => bodyTargets body
  | _ => []

def bodyTargets : List Statement → List Expr
  | [] => []
  | s :: ss => s.targets ++ bodyTargets ss

end

theorem bodyTargets_append (body rest : List Statement) :
    bodyTargets (body ++ rest) = bodyTargets body ++ bodyTargets rest := by
  induction body with
  | nil => rfl
  | cons s ss ih => rw [List.cons_append, bodyTargets, bodyTargets, ih, List.append_assoc]

namespace Analysis

section Targets

mutual

theorem materializeTargets_eq : ∀ s : Statement,
    materializeTargets s = forM s.targets materializeTarget
  | ⟨kind, _⟩ => materializeTargetsOf_eq kind

theorem materializeTargetsOf_eq : ∀ kind : StatementKind,
    materializeTargetsOf kind = forM kind.targets materializeTarget
  | .assign target _ _ => by
    rw [materializeTargetsOf, StatementKind.targets, List.forM_cons, List.forM_nil, bind_pure_unit]
  | .branch _ thenBody none => materializeAll_eq thenBody
  | .branch _ thenBody (some elseBody) => by
    rw [materializeTargetsOf, materializeAll_eq thenBody, materializeAll_eq elseBody,
      StatementKind.targets, List.forM_append]
  | .forLoop _ _ _ body | .whileLoop _ body | .block body => materializeAll_eq body
  | .includeFile _ | .qubits _ _ | .classical _ | .alias _ _ | .gate _ | .measure _ _ | .reset _
  | .barrier _ | .breakLoop | .continueLoop | .returnValue _ | .defineSubroutine _ | .defineGate _
  | .evaluate _ | .pragma _ | .annotated _ _ => rfl

/-- The places are seen to one by one, as if they were not nested. -/
theorem materializeAll_eq : ∀ body : List Statement,
    materializeAll body = forM (bodyTargets body) materializeTarget
  | [] => by rw [bodyTargets, List.forM_nil, materializeAll]
  | s :: ss => by
    rw [materializeAll, materializeTargets_eq s, materializeAll_eq ss, bodyTargets, List.forM_append]

end

end Targets

/-- How a symbol changes where only names are given: with its name, a variable gets the value that is known
of it, by one of the flat statements that are added. -/
structure Materialized (added : List FlatStatement) (x y : Symbol) : Prop where
  same : y = { x with emitName := y.emitName }
  naming : y.emitName = x.emitName ∨ x.emitName = none ∧ ∃ emitName, y.emitName = some emitName ∧
    ∀ v, x.value = some v → .assign (.name emitName) v.toExpr ∈ added

/-- A state in which only names have been given since another one. -/
structure Prepared (added : List FlatStatement) (s t : State) : Prop where
  numbered : t.scopes.Numbered
  stays : s.scopes.Same t.scopes
  output : t.output = added ++ s.output
  kept : ∀ k name x, s.scopes.at? k name = some x →
    ∃ y, t.scopes.at? k name = some y ∧ Materialized added x y

section Preparing

variable {added more : List FlatStatement} {x y z : Symbol} {config : Config} {s t u : State}
  {name : String}

namespace Materialized

theorem refl (added : List FlatStatement) (x : Symbol) : Materialized added x x := ⟨rfl, Or.inl rfl⟩

theorem trans (h : Materialized added x y) (h' : Materialized more y z) :
    Materialized (more ++ added) x z where
  same := by rw [h'.same, h.same]
  naming := by
    have hvalue : y.value = x.value := by rw [h.same]
    rcases h.naming with hname | ⟨hnone, emitName, hname, hassigned⟩
    · rcases h'.naming with hname' | ⟨hnone', emitName, hname', hassigned⟩
      · exact Or.inl (hname'.trans hname)
      · refine Or.inr ⟨hname.symm.trans hnone', emitName, hname', fun v hv => ?_⟩
        exact List.mem_append_left _ (hassigned v (hvalue.trans hv))
    -- A name that was given in the first part stays in the second one.
    · rcases h'.naming with hname' | ⟨hnone', -⟩
      · exact Or.inr ⟨hnone, emitName, hname'.trans hname, fun v hv =>
          List.mem_append_right _ (hassigned v hv)⟩
      · nomatch hname.symm.trans hnone'

theorem isSome (h : Materialized added x y) (hx : x.emitName.isSome) : y.emitName.isSome := by
  rcases h.naming with hname | ⟨hnone, -⟩
  · rwa [hname]
  · rw [hnone] at hx
    nomatch hx

end Materialized

namespace Prepared

theorem refl (h : s.scopes.Numbered) : Prepared [] s s :=
  ⟨h, Scopes.Same.refl _, rfl, fun _ _ x hx => ⟨x, hx, Materialized.refl [] x⟩⟩

theorem trans (h : Prepared added s t) (h' : Prepared more t u) : Prepared (more ++ added) s u where
  numbered := h'.numbered
  stays := h.stays.trans h'.stays
  output := by rw [h'.output, h.output, List.append_assoc]
  kept k name x hx := by
    obtain ⟨y, hy, hxy⟩ := h.kept k name x hx
    obtain ⟨z, hz, hyz⟩ := h'.kept k name y hy
    exact ⟨z, hz, hxy.trans hyz⟩

/-- A name still stands for the symbol that it stood for. -/
theorem resolve? (h : Prepared added s t) (hs : s.scopes.Numbered)
    (hx : s.scopes.resolve? name = some x) :
    ∃ y, t.scopes.resolve? name = some y ∧ y.scope = x.scope ∧ Materialized added x y := by
  obtain ⟨y, hy, hxy⟩ := h.kept x.scope name x (hs.at?_of_resolve? hx)
  refine ⟨y, h.stays.symm.resolve?_of_at? h.numbered hs hx hy, ?_, hxy⟩
  rw [hxy.same]

end Prepared

/-- A free name is taken without regard to the scopes. -/
theorem hoist_state (name : String) (u : ClassicalType) (config : Config) (s : State) :
    ∃ registers declarations,
      (hoist name u config s).2 = { s with registers := registers, declarations := declarations } := by
  unfold hoist
  split
  · next n =>
    rw [run_bind]
    unfold allocate
    rw [run_get]
    rcases s.registers.allocate name n .classical with e | ⟨id, v, registers⟩
    · exact ⟨s.registers, s.declarations, rfl⟩
    · exact ⟨registers, s.declarations, rfl⟩
  · exact ⟨_, _, rfl⟩

theorem materialize_eq_ok {emitName : String} (h : materialize name config s = (.ok emitName, t)) :
    ∃ x registers declarations, s.scopes.resolve? name = some x ∧
      t = { s with
        registers := registers, declarations := declarations
        scopes := s.scopes.modify name fun y => { y with emitName := some emitName }
        output := (x.value.toList.map fun v => .assign (.name emitName) v.toExpr) ++ s.output } := by
  obtain ⟨x, s', hresolve, hrest⟩ := run_bind_eq_ok.1 h
  obtain ⟨hx, rfl⟩ := resolve_eq_ok hresolve
  rcases htype : x.type with - | u
  · rw [htype] at hrest
    nomatch hrest
  · rw [htype] at hrest
    obtain ⟨hoisted, w, hhoist, hrest⟩ := run_bind_eq_ok.1 hrest
    obtain ⟨registers, declarations, hw⟩ := hoist_state name u config s'
    rw [hhoist] at hw
    subst hw
    refine ⟨x, registers, declarations, hx, ?_⟩
    rcases hvalue : x.value with - | v
    · rw [hvalue] at hrest
      cases hrest
      rfl
    · rw [hvalue] at hrest
      cases hrest
      rfl

/-- A name is given together with the value that is known. -/
theorem materialize_prepares {emitName : String} (hs : s.scopes.Numbered)
    (hx : s.scopes.resolve? name = some x) (hnone : x.emitName = none)
    (h : materialize name config s = (.ok emitName, t)) :
    (∃ added, Prepared added s t) ∧ ∃ y, t.scopes.resolve? name = some y ∧ y.emitName.isSome := by
  obtain ⟨x', registers, declarations, hx', rfl⟩ := materialize_eq_ok h
  cases hx.symm.trans hx'
  have hkey := keepsKey_emitName (some emitName)
  refine ⟨⟨_, hs.modify hkey (fun _ => rfl) name, Scopes.same_modify hkey _ _, rfl,
    fun k n y hy => ?_⟩, { x with emitName := some emitName }, ?_, rfl⟩
  · dsimp only
    rw [hs.at?_modify hkey hx]
    by_cases hplace : k = x.scope ∧ n = name
    · obtain ⟨rfl, rfl⟩ := hplace
      rw [hs.at?_of_resolve? hx] at hy
      cases hy
      refine ⟨_, if_pos ⟨rfl, rfl⟩, rfl, Or.inr ⟨hnone, emitName, rfl, fun v hv => ?_⟩⟩
      exact List.mem_map.2 ⟨v, Option.mem_toList.2 hv, rfl⟩
    · exact ⟨y, (if_neg hplace).trans hy, Materialized.refl _ y⟩
  · dsimp only
    rw [Scopes.resolve?_modify hkey, hx, Option.map_some]

/-- A variable that can be assigned to has a name after its place has been seen to. -/
theorem materializeTarget_prepares {target : Expr} (hs : s.scopes.Numbered)
    (h : materializeTarget target config s = (.ok (), t)) :
    (∃ added, Prepared added s t) ∧ ∀ root x, target.rootName? = some root →
      s.scopes.resolve? root = some x → x.kind = .classicalVariable → x.mutable = true →
      ∃ y, t.scopes.resolve? root = some y ∧ y.emitName.isSome := by
  rcases hroot : target.rootName? with - | root
  · rw [materializeTarget, hroot] at h
    cases h
    exact ⟨⟨[], Prepared.refl hs⟩, fun root x hroot => nomatch hroot⟩
  · rw [materializeTarget, hroot] at h
    obtain ⟨found, u, hfound, hrest⟩ := run_bind_eq_ok.1 h
    have hrun : resolve? root config s = (.ok (s.scopes.resolve? root), s) := rfl
    cases hrun.symm.trans hfound
    by_cases hneeds : (s.scopes.resolve? root).any needsName = true
    · rw [if_pos hneeds] at hrest
      obtain ⟨emitName, u, hmaterialize, hrest⟩ := run_bind_eq_ok.1 hrest
      cases hrest
      rcases hx : s.scopes.resolve? root with - | x
      · rw [hx] at hneeds
        nomatch hneeds
      · rw [hx, Option.any_some] at hneeds
        obtain ⟨-, -, hnone⟩ := needsName_iff.1 hneeds
        obtain ⟨hprepared, hnamed⟩ := materialize_prepares hs hx hnone hmaterialize
        refine ⟨hprepared, fun root' x hroot' _ _ _ => ?_⟩
        cases hroot'
        exact hnamed
    · rw [if_neg hneeds] at hrest
      cases hrest
      refine ⟨⟨[], Prepared.refl hs⟩, fun root' x hroot' hx hkind hmutable => ?_⟩
      cases hroot'
      rw [hx, Option.any_some, needsName_iff] at hneeds
      refine ⟨x, hx, ?_⟩
      rcases hnone : x.emitName with - | emitName
      · exact absurd ⟨hkind, hmutable, hnone⟩ hneeds
      · rfl

/-- After all places have been seen to, every variable that is assigned to in them has a name. The
induction is on the places; names that are given stay. -/
theorem forM_materializeTarget_prepares {targets : List Expr} (hs : s.scopes.Numbered)
    (h : forM targets materializeTarget config s = (.ok (), t)) :
    (∃ added, Prepared added s t) ∧ ∀ target ∈ targets, ∀ root x, target.rootName? = some root →
      s.scopes.resolve? root = some x → x.kind = .classicalVariable → x.mutable = true →
      ∃ y, t.scopes.resolve? root = some y ∧ y.emitName.isSome := by
  induction targets generalizing s with
  | nil =>
    cases h
    exact ⟨⟨[], Prepared.refl hs⟩, fun _ hmem => nomatch hmem⟩
  | cons first rest ih =>
    rw [List.forM_cons] at h
    obtain ⟨⟨⟩, u, hfirst, hrest⟩ := run_bind_eq_ok.1 h
    obtain ⟨⟨added, hadded⟩, hnamed⟩ := materializeTarget_prepares hs hfirst
    obtain ⟨⟨more, hmore⟩, hnames⟩ := ih hadded.numbered hrest
    refine ⟨⟨more ++ added, hadded.trans hmore⟩, fun target hmem root x hroot hx hkind hmutable => ?_⟩
    rcases List.mem_cons.1 hmem with rfl | hmem
    · obtain ⟨y, hy, hsome⟩ := hnamed root x hroot hx hkind hmutable
      obtain ⟨z, hz, -, hyz⟩ := hmore.resolve? hadded.numbered hy
      exact ⟨z, hz, hyz.isSome hsome⟩
    · obtain ⟨y, hy, -, hxy⟩ := hadded.resolve? hs hx
      have hkind' : y.kind = .classicalVariable := by rw [hxy.same, hkind]
      have hmutable' : y.mutable = true := by rw [hxy.same, hmutable]
      exact hnames target hmem root y hroot hy hkind' hmutable'

/-- The variables that are assigned to in a body have names before it runs, and have been given their
values by them. -/
theorem materializeAll_prepares {body : List Statement} (hs : s.scopes.Numbered)
    (h : materializeAll body config s = (.ok (), t)) :
    ∃ added, Prepared added s t ∧ ∀ target ∈ bodyTargets body, ∀ root x,
      target.rootName? = some root → s.scopes.resolve? root = some x → x.kind = .classicalVariable →
      x.mutable = true → x.emitName = none → ∃ y emitName, t.scopes.at? x.scope root = some y ∧
        y.emitName = some emitName ∧
        ∀ v, x.value = some v → .assign (.name emitName) v.toExpr ∈ added := by
  rw [materializeAll_eq] at h
  obtain ⟨⟨added, hadded⟩, hnamed⟩ := forM_materializeTarget_prepares hs h
  refine ⟨added, hadded, fun target hmem root x hroot hx hkind hmutable hnone => ?_⟩
  obtain ⟨y, hy, hsome⟩ := hnamed target hmem root x hroot hx hkind hmutable
  obtain ⟨z, hz, hlevel, hxz⟩ := hadded.resolve? hs hx
  cases hz.symm.trans hy
  have hat := hadded.numbered.at?_of_resolve? hz
  rw [hlevel] at hat
  -- The name is a new one, so that it was given with the value.
  rcases hxz.naming with hname | ⟨-, emitName, hname, hassigned⟩
  · rw [hname, hnone] at hsome
    nomatch hsome
  · exact ⟨y, emitName, hat, hname, hassigned⟩

end Preparing

section Membership

variable {calls : Calls} {config : Config} {s t : State} {body : List Statement}
  {kind : StatementKind}

/-- What is assigned to in a body is assigned to in its statement. -/
theorem Enters.targets_subset (h : Enters calls config kind s body t) :
    bodyTargets body ⊆ kind.targets := by
  cases h with
  | block => exact List.Subset.refl _
  | @taken _ thenBody elseBody _ _ _ holds =>
    cases elseBody with
    | none =>
      cases holds with
      | true => exact List.Subset.refl _
      | false => exact List.nil_subset _
    | some elseBody =>
      cases holds with
      | true => exact List.subset_append_left _ _
      | false => exact List.subset_append_right _ _
  | @thenPart _ _ elseBody =>
    cases elseBody with
    | none => exact List.Subset.refl _
    | some elseBody => exact List.subset_append_left _ _
  | @elsePart _ thenBody elseBody =>
    cases elseBody with
    | none => exact List.nil_subset _
    | some elseBody => exact List.subset_append_right _ _
  | round => exact List.Subset.refl _
  | iteration => exact List.Subset.refl _

theorem Performs.targets_subset (h : Performs calls config body s kind t) :
    kind.targets ⊆ bodyTargets body := by
  induction h with
  | head => exact List.subset_append_left _ _
  | inside _ henters _ ih =>
    have hbody := List.Subset.trans ih henters.targets_subset
    exact List.Subset.trans hbody (List.subset_append_left _ _)
  | later _ _ _ ih => exact List.Subset.trans ih (List.subset_append_right _ _)

end Membership

end Analysis

end OpenQasm
