import OpenQasm.Proofs.Invariant

/-!
Two steps of the analysis agree when they do the same from every state with an invariant. What a step
keeps, how it may change the state and what its result is like is proved along with it, so that a step
may be compared with itself just to learn this, and with another one to learn that what sets them apart is
never met. They may be excused from this where the first of them meets one of some problems; this tells
that these problems are always reported.
-/
namespace OpenQasm

namespace Analysis

variable {α β : Type}

/-- A step that is followed by another one runs it only after a result. -/
theorem run_bind (x : Analysis α) (f : α → Analysis β) (config : Config) (s : State) :
    (x >>= f) config s =
      match x config s with
      | (.ok a, t) => f a config t
      | (.error e, t) => (.error e, t) := by
  have hrun : (x >>= f) config s =
      ExceptT.bindCont (fun a => f a config) (x config s).1 (x config s).2 := rfl
  rw [hrun]
  rcases x config s with ⟨e | a, t⟩
  · rfl
  · rfl

/-- A result of two steps is one of the second, from where the first one has ended with a result. -/
theorem run_bind_eq_ok {x : Analysis α} {f : α → Analysis β} {config : Config} {s t : State} {b : β} :
    (x >>= f) config s = (.ok b, t) ↔
      ∃ a u, x config s = (.ok a, u) ∧ f a config u = (.ok b, t) := by
  rw [run_bind]
  rcases x config s with ⟨e | a, u⟩
  · constructor
    · nofun
    · rintro ⟨_, _, h, -⟩
      nomatch h
  · constructor
    · exact fun h => ⟨a, u, rfl, h⟩
    · rintro ⟨_, _, ⟨⟩, h⟩
      exact h

theorem run_pure (a : α) (config : Config) (s : State) :
    (pure a : Analysis α) config s = (.ok a, s) := rfl

theorem run_fail (problem : Problem) (config : Config) (s : State) :
    (fail problem : Analysis α) config s = (.error (.statement ⟨problem, s.span⟩), s) := rfl

theorem resolve_eq_ok {name : String} {config : Config} {s t : State} {x : Symbol}
    (h : resolve name config s = (.ok x, t)) : s.scopes.resolve? name = some x ∧ t = s := by
  obtain ⟨found, u, hfound, hrest⟩ := run_bind_eq_ok.1 h
  have hrun : resolve? name config s = (.ok (s.scopes.resolve? name), s) := rfl
  cases hrun.symm.trans hfound
  rcases hx : s.scopes.resolve? name with - | y
  · rw [hx] at hrest
    nomatch hrest
  · rw [hx] at hrest
    cases hrest
    exact ⟨rfl, rfl⟩

theorem run_get (f : State → Analysis α) (config : Config) (s : State) :
    (get >>= f) config s = f s config s := rfl

theorem run_read (f : Config → Analysis α) (config : Config) (s : State) :
    (read >>= f) config s = f config config s := rfl

/-- A run that drops a construct because of one of some problems, or has reported one. -/
def Meets (problems : Problem → Prop) (result : Except Failure α × State) : Prop :=
  (∃ d : Diagnostic, problems d.problem ∧ result.1 = .error (.construct d)) ∨
    ∃ d ∈ result.2.diagnostics, problems d.problem

/-- Two runs have the same outcome, unless the first one meets a problem that is an excuse. -/
def Alike (I : Invariant) (a b : Except Failure α × State) : Prop := a = b ∨ Meets I.excuses a

section Alike

variable {I J : Invariant} {a b : Except Failure α × State}

theorem Alike.refl (a : Except Failure α × State) : Alike I a a := Or.inl rfl

theorem Alike.imp (h : Alike J a b) (hexcuses : ∀ p, J.excuses p → I.excuses p) : Alike I a b := by
  refine h.imp_right (Or.imp ?_ ?_)
  · rintro ⟨d, hd, hresult⟩
    exact ⟨d, hexcuses _ hd, hresult⟩
  · rintro ⟨d, hmem, hd⟩
    exact ⟨d, hmem, hexcuses _ hd⟩

/-- The state may be changed afterwards, but for the reports. -/
theorem Alike.onState (h : Alike I a b) {f : State → State}
    (hf : ∀ t, (f t).diagnostics = t.diagnostics) : Alike I (a.1, f a.2) (b.1, f b.2) := by
  rcases h with rfl | hmeets
  · exact Alike.refl _
  · refine Or.inr (hmeets.imp_right ?_)
    rintro ⟨d, hmem, hd⟩
    exact ⟨d, (hf a.2).symm ▸ hmem, hd⟩

theorem Alike.followedBy {x y : Analysis α} {back : State → State} {config : Config} {s : State}
    (h : Alike I (x config s) (y config s)) (hback : ∀ t, (back t).diagnostics = t.diagnostics) :
    Alike I (followedBy x back config s) (followedBy y back config s) := h.onState hback

/-- A problem that is met before goes on to be a failure, or stays reported. -/
theorem Alike.bind {x y : Analysis α} {f g : α → Analysis β} {config : Config} {s : State}
    (h : Alike I (x config s) (y config s))
    (hf : ∀ a t, x config s = (.ok a, t) →
      Alike I (f a config t) (g a config t) ∧ t.diagnostics <:+ (f a config t).2.diagnostics) :
    Alike I ((x >>= f) config s) ((y >>= g) config s) := by
  rw [run_bind, run_bind]
  rcases h with heq | hmeets
  · rw [← heq]
    rcases hr : x config s with ⟨e | a, t⟩
    · exact Alike.refl _
    · exact (hf a t hr).1
  -- The two runs differ, so a problem was met: the second step cannot take a report back.
  · apply Or.inr
    rcases hr : x config s with ⟨e | a, t⟩
    · rw [hr] at hmeets
      apply hmeets.imp_left
      rintro ⟨d, hd, he⟩
      exact ⟨d, hd, congrArg Except.error (Except.error.inj he)⟩
    · rw [hr] at hmeets
      rcases hmeets with ⟨d, -, he⟩ | ⟨d, hmem, hd⟩
      · nomatch he
      · exact Or.inr ⟨d, (hf a t hr).2.subset hmem, hd⟩

end Alike

/-- What a step may do to a state: its changes stay within the frame and keep the invariant, so does what it
puts out, and its result has a property. -/
structure Keeps (I : Invariant) (s : State) (post : α → State → Prop)
    (result : Except Failure α × State) : Prop where
  frame : Frame s result.2
  core : I.core result.2
  putsOut : I.PutsOut s result.2
  tallies : I.tallied → Tallies s result
  post : ∀ a, result.1 = .ok a → post a result.2

/-- From every state with the invariant and with `pre`, two steps do the same, up to an excuse, and a
result has `post`. -/
def Ensures (I : Invariant) (pre : State → Prop) (x y : Analysis α) (post : α → State → Prop) :
    Prop :=
  ∀ config s, I.core s → pre s → Alike I (x config s) (y config s) ∧ Keeps I s post (x config s)

/-- Two steps do the same from every state with the invariant. -/
def Agree (I : Invariant) (x y : Analysis α) : Prop :=
  Ensures I (fun _ => True) x y (fun _ _ => True)

/-- A property of states that no step can end. -/
def Stable (pre : State → Prop) : Prop := ∀ s t, Frame s t → pre s → pre t

section Rules

variable {I : Invariant} {pre pre' : State → Prop} {x y : Analysis α} {f g : α → Analysis β}
  {post post' : α → State → Prop} {last : β → State → Prop}

/-- What is known before may be more, and what is known after may be less. -/
theorem Ensures.mono (h : Ensures I pre x y post) (hpre : ∀ s, I.core s → pre' s → pre s)
    (hpost : ∀ a s, I.core s → post a s → post' a s) : Ensures I pre' x y post' := by
  intro config s hs hp
  obtain ⟨halike, hkeeps⟩ := h config s hs (hpre s hs hp)
  exact ⟨halike, { hkeeps with post := fun a ha => hpost a _ hkeeps.core (hkeeps.post a ha) }⟩

theorem Ensures.weaken (h : Ensures I pre x y post) (hpost : ∀ a s, I.core s → post a s → post' a s) :
    Ensures I pre x y post' :=
  h.mono (fun _ _ hp => hp) hpost

theorem Ensures.agree (h : Ensures I (fun _ => True) x y post) : Agree I x y :=
  h.weaken fun _ _ _ _ => trivial

theorem Ensures.keeps (h : Ensures I pre x y post) {config : Config} {s t : State} {r : Except Failure α}
    (hs : I.core s) (hp : pre s) (hr : x config s = (r, t)) : Keeps I s post (r, t) :=
  hr ▸ (h config s hs hp).2

theorem Agree.core (h : Agree I x y) {config : Config} {s t : State} {r : Except Failure α} (hs : I.core s)
    (hr : x config s = (r, t)) : I.core t := (Ensures.keeps h hs trivial hr).core

/-- What no step can end is known after every step. -/
theorem Ensures.carry (h : Ensures I pre x y post) (hstable : Stable pre') :
    Ensures I (fun s => pre s ∧ pre' s) x y (fun a s => post a s ∧ pre' s) := by
  intro config s hs hp
  obtain ⟨halike, hkeeps⟩ := h config s hs hp.1
  exact ⟨halike, { hkeeps with
    post := fun a ha => ⟨hkeeps.post a ha, hstable _ _ hkeeps.frame hp.2⟩ }⟩

/-- A step that needs nothing keeps what no step can end. -/
theorem Ensures.carrying (h : Ensures I (fun _ => True) x y post) (hstable : Stable pre) :
    Ensures I pre x y (fun a s => post a s ∧ pre s) :=
  (h.carry hstable).mono (fun _ _ hp => ⟨trivial, hp⟩) fun _ _ _ h => h

theorem Agree.carrying (h : Agree I x y) (hstable : Stable pre) :
    Ensures I pre x y (fun _ s => pre s) :=
  (Ensures.carrying h hstable).weaken fun _ _ _ h => h.2

theorem Ensures.bind {q : α → State → Prop} {r : β → State → Prop} (hx : Ensures I pre x y q)
    (hf : ∀ a, Ensures I (q a) (f a) (g a) r) : Ensures I pre (x >>= f) (y >>= g) r := by
  intro config s hs hp
  obtain ⟨halike, hframe, hcore, hputsOut, htallies, hpost⟩ := hx config s hs hp
  have hnext : ∀ a t, x config s = (.ok a, t) →
      Alike I (f a config t) (g a config t) ∧ Keeps I t r (f a config t) := by
    intro a t hr
    rw [hr] at hcore hpost
    exact hf a config t hcore (hpost a rfl)
  refine ⟨halike.bind fun a t hr => ⟨(hnext a t hr).1, (hnext a t hr).2.frame.diagnostics⟩, ?_⟩
  rw [run_bind]
  rcases hr : x config s with ⟨e | a, t⟩
  · rw [hr] at hframe hcore hputsOut htallies
    exact ⟨hframe, hcore, hputsOut, fun h => (htallies h).failed, fun _ h => nomatch h⟩
  · rw [hr] at hframe hputsOut htallies
    obtain ⟨-, hkeeps⟩ := hnext a t hr
    exact ⟨hframe.trans hkeeps.frame, hkeeps.core, hputsOut.trans hkeeps.putsOut hkeeps.frame.registers,
      fun h => (htallies h).trans hkeeps.frame (hkeeps.tallies h), hkeeps.post⟩

theorem Ensures.pure {a : α} (h : ∀ s, I.core s → pre s → post a s) :
    Ensures I pre (Pure.pure a) (Pure.pure a) post := by
  intro config s hs hp
  refine ⟨Alike.refl _, Frame.refl s, hs, .nothing rfl, fun _ => .quiet ⟨rfl, rfl, rfl, rfl⟩, ?_⟩
  rintro _ ⟨⟩
  exact h s hs hp

/-- A step that only changes the state, and puts out, notes and reports nothing. -/
theorem Ensures.modify {change : State → State} {post : Unit → State → Prop}
    (hquiet : ∀ s, pre s → Quiet s (change s))
    (h : ∀ s, I.core s → pre s → Frame s (change s) ∧ I.core (change s) ∧ post () (change s)) :
    Ensures I pre (modify change) (modify change) post := by
  intro config s hs hp
  obtain ⟨hframe, hcore, hpost⟩ := h s hs hp
  exact ⟨Alike.refl _, hframe, hcore, .nothing (hquiet s hp).output, fun _ => .quiet (hquiet s hp),
    fun _ _ => hpost⟩

theorem Ensures.get : Ensures I pre get get (fun a s => a = s ∧ pre s) := by
  intro config s hs hp
  refine ⟨Alike.refl _, Frame.refl s, hs, .nothing rfl, fun _ => .quiet ⟨rfl, rfl, rfl, rfl⟩, ?_⟩
  rintro _ ⟨⟩
  exact ⟨rfl, hp⟩

theorem Ensures.read : Ensures I pre read read (fun _ s => pre s) := by
  intro config s hs hp
  exact ⟨Alike.refl _, Frame.refl s, hs, .nothing rfl, fun _ => .quiet ⟨rfl, rfl, rfl, rfl⟩, fun _ _ => hp⟩

/-- A failure is because of an error. -/
theorem Ensures.throw {q : α → State → Prop} {e : Failure}
    (he : I.tallied → ∀ s, pre s → Accounted s e) :
    Ensures I pre (throw e : Analysis α) (throw e) q := by
  intro config s hs hp
  exact ⟨Alike.refl _, Frame.refl s, hs, .nothing rfl, fun h => .throw (he h s hp), fun _ h => nomatch h⟩

theorem Ensures.fail {q : α → State → Prop} (p : Problem) (hp : p.severity = .error) :
    Ensures I pre (fail p : Analysis α) (fail p) q :=
  Ensures.get.bind fun _ => Ensures.throw fun _ _ _ => hp

theorem Ensures.failConstruct (p : Problem) (hp : p.severity = .error) :
    Ensures I pre (failConstruct p : Analysis α) (failConstruct p) post :=
  Ensures.get.bind fun _ => Ensures.throw fun _ _ _ => hp

/-- Nothing is done after a failure. -/
theorem Ensures.failing (p : Problem) (hp : p.severity = .error) :
    Ensures I pre (Analysis.fail p >>= f) (Analysis.fail p >>= g) last :=
  (Ensures.fail (q := fun _ _ => False) p hp).bind fun _ _ _ _ h => h.elim

theorem Ensures.ite {c : Prop} [Decidable c] {x' y' : Analysis α}
    (hx : c → Ensures I pre x y post) (hx' : ¬c → Ensures I pre x' y' post) :
    Ensures I pre (if c then x else x') (if c then y else y') post := by
  split
  · exact hx ‹_›
  · exact hx' ‹_›

/-- What is known before without regard to the state. -/
theorem Ensures.assuming {p : Prop} (h : p → Ensures I (fun _ => True) x y post) :
    Ensures I (fun _ => p) x y post :=
  fun config s hs hp => h hp config s hs trivial

/-- What is known before beside what depends on the state. -/
theorem Ensures.given {p : Prop} (h : p → Ensures I pre x y post) :
    Ensures I (fun s => p ∧ pre s) x y post :=
  fun config s hs hp => h hp.1 config s hs hp.2

theorem Ensures.forget (h : Ensures I (fun _ => True) x y post) : Ensures I pre x y post :=
  h.mono (fun _ _ _ => trivial) fun _ _ _ h => h

/-- The tally of steps may be left out. -/
theorem Ensures.untallied (h : Ensures I pre x y post) : Ensures I.untallied pre x y post := by
  intro config s hs hp
  obtain ⟨halike, hkeeps⟩ := h config s hs hp
  exact ⟨halike, hkeeps.frame, hkeeps.core, hkeeps.putsOut, False.elim, hkeeps.post⟩

/-- The tally of steps may be seen from how they run. -/
theorem Ensures.tallying (h : Ensures I.untallied pre x y post)
    (htallies : I.tallied → ∀ config s, I.core s → pre s → Tallies s (x config s)) :
    Ensures I pre x y post := by
  intro config s hs hp
  obtain ⟨halike, hkeeps⟩ := h config s hs hp
  exact ⟨halike, hkeeps.frame, hkeeps.core, hkeeps.putsOut, fun h => htallies h config s hs hp, hkeeps.post⟩

theorem Ensures.map {φ : α → β} (hx : Ensures I pre x y (fun a => last (φ a))) :
    Ensures I pre (φ <$> x) (φ <$> y) last :=
  hx.bind fun _ => Ensures.pure fun _ _ h => h

/-- Where nothing is known before and nothing after. -/
theorem Agree.bind (hx : Agree I x y) (hf : ∀ a, Agree I (f a) (g a)) :
    Agree I (x >>= f) (y >>= g) := Ensures.bind hx hf

/-- Where nothing is known before. -/
theorem Agree.andThen (hx : Agree I x y) (hf : ∀ a, Ensures I (fun _ => True) (f a) (g a) last) :
    Ensures I (fun _ => True) (x >>= f) (y >>= g) last := Ensures.bind hx hf

theorem Agree.pure (a : α) : Agree I (Pure.pure a) (Pure.pure a) := Ensures.pure fun _ _ h => h

theorem Agree.fail (p : Problem) (hp : p.severity = .error) :
    Agree I (Analysis.fail p : Analysis α) (Analysis.fail p) :=
  Ensures.fail p hp

theorem Agree.failConstruct (p : Problem) (hp : p.severity = .error) :
    Agree I (Analysis.failConstruct p : Analysis α) (Analysis.failConstruct p) :=
  Ensures.failConstruct p hp

theorem Agree.get : Agree I MonadState.get MonadState.get := Ensures.get.agree

theorem Agree.read : Agree I MonadReader.read MonadReader.read := Ensures.read.agree

theorem Agree.ite {c : Prop} [Decidable c] {x' y' : Analysis α} (hx : Agree I x y)
    (hx' : Agree I x' y') : Agree I (if c then x else x') (if c then y else y') :=
  Ensures.ite (fun _ => hx) fun _ => hx'

theorem Agree.map {φ : α → β} (hx : Agree I x y) : Agree I (φ <$> x) (φ <$> y) :=
  Ensures.map hx

/-- A list is run through by steps that keep what no step can end. -/
theorem Ensures.mapM {γ : Type} {f g : γ → Analysis α} {q : α → State → Prop}
    (hq : ∀ a, Stable (q a)) (xs : List γ)
    (hf : ∀ x ∈ xs, Ensures I (fun _ => True) (f x) (g x) q) :
    Ensures I (fun _ => True) (xs.mapM f) (xs.mapM g)
      (fun as s => as.length = xs.length ∧ ∀ a ∈ as, q a s) := by
  induction xs with
  | nil => exact Ensures.pure fun _ _ _ => ⟨rfl, fun _ h => nomatch h⟩
  | cons x xs ih =>
    rw [List.mapM_cons, List.mapM_cons]
    apply (hf x List.mem_cons_self).bind
    intro a
    have hrest := (ih fun x hx => hf x (List.mem_cons_of_mem _ hx)).carrying (hq a)
    refine hrest.bind fun as => Ensures.pure ?_
    rintro s _ ⟨⟨hlength, has⟩, ha⟩
    exact ⟨congrArg Nat.succ hlength, List.forall_mem_cons.2 ⟨ha, has⟩⟩

theorem Agree.mapM {γ : Type} {f g : γ → Analysis α} (xs : List γ)
    (hf : ∀ x ∈ xs, Agree I (f x) (g x)) : Agree I (xs.mapM f) (xs.mapM g) :=
  (Ensures.mapM (fun _ _ _ _ _ => trivial) xs hf).agree

end Rules

end Analysis
end OpenQasm
