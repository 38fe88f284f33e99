import OpenQasm.Grammar.Statement

/-!
Reading a text that stands within a longer one. A reader does in the longer text what it does in the text by
itself, as long as it leaves some tokens of the text; only the places that it notes are moved. Of phrases it is
also said that no semicolon is moved past, and of clauses that they may take the last token of the text, but do
not fail behind it.
-/
namespace OpenQasm

/-- A text that stands within a longer one from an offset on; what has been reported before it and the tokens
that come after it. -/
structure Excerpt where
  text : Source
  whole : Source
  offset : Nat
  /-- Where a position of the text is in the longer one. -/
  move : Span → Span
  before : List SyntaxError
  after : List PlacedToken
  spanAt : ∀ o ≤ text.size, whole.spanAt (offset + o) = move (text.spanAt o)
  lineRest : ∀ o ≤ text.size, whole.lineRest (offset + o) = text.lineRest o
  after_start : ∀ t ∈ after.head?, offset + text.size ≤ t.start
  after_else : ∀ t ∈ after.head?, t.token ≠ .keyword .else

namespace Excerpt

variable {α β : Type}

/-- The token where it stands in the longer text. -/
def token (e : Excerpt) (t : PlacedToken) : PlacedToken := ⟨t.token, e.offset + t.start, e.offset + t.stop⟩

def error (e : Excerpt) (err : SyntaxError) : SyntaxError := ⟨err.fault, e.move err.span⟩

/-- The outcome in the longer text, where `m` says what a value becomes. -/
def result (e : Excerpt) (m : α → β) : Except SyntaxError α → Except SyntaxError β
  | .ok a => .ok (m a)
  | .error err => .error (e.error err)

/-- The cursors stand at the same place of the text. -/
structure Matches (e : Excerpt) (c c' : Cursor) : Prop where
  rest : c'.rest = c.rest.map e.token ++ e.after
  nesting : c'.nesting = c.nesting
  errors : c'.errors = e.before ++ c.errors.map e.error
  inside : ∀ t ∈ c.rest, t.start ≤ e.text.size ∧ t.stop ≤ e.text.size

end Excerpt

namespace Cursor

/-- The next token. -/
def head? (c : Cursor) : Option Token := c.rest.head?.map (·.token)

/-- Fewer tokens are left than so many. -/
def Below (k : Nat) (c : Cursor) : Prop := c.left < k

/-- The next token is the given one. -/
def Facing (o : Option Token) (k : Nat) (c : Cursor) : Prop := c.left < k ∧ c.head? = o

end Cursor

namespace Excerpt

variable {α β α' β' : Type} {e : Excerpt} {stop : Bool} {P Q : Cursor → Prop} {m : α → α'} {m' : β → β'}
  {p : Parser α} {p' : Parser α'} {f : α → Parser β} {f' : α' → Parser β'} {c c' : Cursor} {k : Nat}
  {o : Option Token}

theorem Matches.left (h : e.Matches c c') : c'.left = c.left + e.after.length := by
  rw [c'.left_eq, h.rest, List.length_append, List.length_map, c.left_eq]

theorem Matches.head? (h : e.Matches c c') (hrest : c.rest ≠ []) : c'.head? = c.head? := by
  unfold Cursor.head?
  rw [h.rest]
  cases hc : c.rest with
  | nil => exact absurd hc hrest
  | cons t ts => rfl

theorem Matches.next (h : e.Matches c c') (hrest : c.rest ≠ []) : e.Matches c.next c'.next where
  rest := by
    show c'.rest.tail = c.rest.tail.map e.token ++ e.after
    rw [h.rest]
    cases hc : c.rest with
    | nil => exact absurd hc hrest
    | cons t ts => rfl
  nesting := h.nesting
  errors := h.errors
  inside t ht := h.inside t (List.mem_of_mem_tail ht)

/-- From the cursors with a property, `p'` does in the longer text what `p` does in the text, unless it comes to
the end of the text; where `stop` holds, it may also succeed there. -/
structure Tracks (e : Excerpt) (stop : Bool) (P : Cursor → Prop) (m : α → α') (p : Parser α)
    (p' : Parser α') : Prop where
  rest : ∀ c, P c → (p e.text c).2.rest <:+ c.rest
  nesting : ∀ c, P c → (p e.text c).2.nesting = c.nesting
  errors : ∀ c, P c → c.errors <+: (p e.text c).2.errors
  /-- Readers fail at the token that they do not move past. -/
  place : ∀ c, P c → ∀ err, (p e.text c).1 = .error err → ∀ t ∈ (p e.text c).2.rest.head?,
    err.span = e.text.spanAt t.start
  same : ∀ c c', P c → e.Matches c c' →
    ((p e.text c).2.rest ≠ [] ∨ stop = true ∧ ∃ a, (p e.text c).1 = .ok a) →
      ∃ d', p' e.whole c' = (e.result m (p e.text c).1, d') ∧ e.Matches (p e.text c).2 d'

theorem run_bind (p : Parser α) (f : α → Parser β) (s : Source) (c : Cursor) :
    (p >>= f) s c = match p s c with
      | (.ok a, d) => f a s d
      | (.error err, d) => (.error err, d) := rfl

theorem Tracks.mono (h : Tracks e stop P m p p') (hPQ : ∀ c, Q c → P c) : Tracks e stop Q m p p' where
  rest c hc := h.rest c (hPQ c hc)
  nesting c hc := h.nesting c (hPQ c hc)
  errors c hc := h.errors c (hPQ c hc)
  place c hc := h.place c (hPQ c hc)
  same c c' hc := h.same c c' (hPQ c hc)

theorem Tracks.left_le (h : Tracks e stop P m p p') (hc : P c) : (p e.text c).2.left ≤ c.left := by
  rw [Cursor.left_eq, Cursor.left_eq]
  exact (h.rest c hc).length_le

/-- One reader after another. Where the first one may not stop at the end of the text, the second one has to
fail there. -/
theorem Tracks.bind {b : Bool} {R : α → Cursor → Prop} (hp : Tracks e b P m p p')
    (hR : ∀ c a d, P c → p e.text c = (.ok a, d) → R a d)
    (hf : ∀ a, Tracks e stop (R a) m' (f a) (f' (m a)))
    (hstop : stop = true → b = true ∨
      ∀ a c, R a c → c.rest = [] → ∃ err, (f a e.text c).1 = .error err) :
    Tracks e stop P m' (p >>= f) (p' >>= f') where
  rest c hc := by
    have hrest := hp.rest c hc
    rw [run_bind]
    rcases hr : p e.text c with ⟨err | a, d⟩
    · rwa [hr] at hrest
    · rw [hr] at hrest
      exact ((hf a).rest d (hR c a d hc hr)).trans hrest
  nesting c hc := by
    have hnesting := hp.nesting c hc
    rw [run_bind]
    rcases hr : p e.text c with ⟨err | a, d⟩
    · rwa [hr] at hnesting
    · rw [hr] at hnesting
      exact ((hf a).nesting d (hR c a d hc hr)).trans hnesting
  errors c hc := by
    have herrors := hp.errors c hc
    rw [run_bind]
    rcases hr : p e.text c with ⟨err | a, d⟩
    · rwa [hr] at herrors
    · rw [hr] at herrors
      exact herrors.trans ((hf a).errors d (hR c a d hc hr))
  place c hc err := by
    have hplace := hp.place c hc err
    rw [run_bind]
    rcases hr : p e.text c with ⟨err' | a, d⟩
    · rw [hr] at hplace
      exact fun herr => hplace (by cases herr; rfl)
    · exact (hf a).place d (hR c a d hc hr) err
  same c c' hc hmatch := by
    have hsame := hp.same c c' hc hmatch
    rw [run_bind, run_bind]
    rcases hr : p e.text c with ⟨err | a, d⟩
    · intro hend
      have hrest : d.rest ≠ [] := hend.resolve_right fun ⟨_, a, ha⟩ => nomatch ha
      rw [hr] at hsame
      obtain ⟨d', hrun, hd⟩ := hsame (Or.inl hrest)
      rw [hrun]
      exact ⟨d', rfl, hd⟩
    · intro hend
      have hRd := hR c a d hc hr
      rw [hr] at hsame
      have hfirst : d.rest ≠ [] ∨ b = true ∧ ∃ a', (Except.ok a : Except SyntaxError α) = .ok a' := by
        by_cases hrest : d.rest = []
        · -- What follows stops at the end too, so it succeeds there.
          have hafter : (f a e.text d).2.rest = [] :=
            List.suffix_nil.1 (hrest ▸ (hf a).rest d hRd)
          obtain ⟨hstopped, a', ha'⟩ := hend.resolve_left fun hne => hne hafter
          rcases hstop hstopped with hb | hfails
          · exact Or.inr ⟨hb, a, rfl⟩
          · obtain ⟨err, herr⟩ := hfails a d hRd hrest
            nomatch herr.symm.trans ha'
        · exact Or.inl hrest
      obtain ⟨d', hrun, hd⟩ := hsame hfirst
      rw [hrun]
      exact (hf a).same d d' hRd hd hend

/-- A reader that moves past no semicolon and records no errors. -/
structure Phrase (e : Excerpt) (P : Cursor → Prop) (p p' : Parser α) : Prop extends
    Tracks e false P id p p' where
  read : ∀ c, P c → ∃ ts, c.rest = ts ++ (p e.text c).2.rest ∧ ∀ t ∈ ts, t.token ≠ .punctuation .semicolon
  silent : ∀ c, P c → (p e.text c).2.errors = c.errors

section Phrases

open OpenQasm.Parser

variable {p p' : Parser α} {f f' : α → Parser β}

theorem Phrase.mono (h : Phrase e P p p') (hPQ : ∀ c, Q c → P c) : Phrase e Q p p' where
  toTracks := h.toTracks.mono hPQ
  read c hc := h.read c (hPQ c hc)
  silent c hc := h.silent c (hPQ c hc)

theorem Phrase.below {j : Nat} (h : Phrase e (Cursor.Below k) p p') (hjk : j ≤ k) :
    Phrase e (Cursor.Below j) p p' := h.mono fun _ hc => Nat.lt_of_lt_of_le hc hjk

theorem Phrase.facing (h : Phrase e (Cursor.Below k) p p') : Phrase e (Cursor.Facing o k) p p' :=
  h.mono fun _ hc => hc.1

theorem Phrase.andThen {R : α → Cursor → Prop} (hp : Phrase e P p p')
    (hR : ∀ c a d, P c → p e.text c = (.ok a, d) → R a d) (hf : ∀ a, Phrase e (R a) (f a) (f' a)) :
    Phrase e P (p >>= f) (p' >>= f') where
  toTracks := hp.toTracks.bind hR (fun a => (hf a).toTracks) nofun
  read c hc := by
    have hread := hp.read c hc
    rw [run_bind]
    rcases hr : p e.text c with ⟨err | a, d⟩
    · rwa [hr] at hread
    · rw [hr] at hread
      obtain ⟨ts, hts, hnone⟩ := hread
      obtain ⟨ts', hts', hnone'⟩ := (hf a).read d (hR c a d hc hr)
      refine ⟨ts ++ ts', ?_, List.forall_mem_append.2 ⟨hnone, hnone'⟩⟩
      rw [hts, List.append_assoc]
      exact congrArg (ts ++ ·) hts'
  silent c hc := by
    have hsilent := hp.silent c hc
    rw [run_bind]
    rcases hr : p e.text c with ⟨err | a, d⟩
    · rwa [hr] at hsilent
    · rw [hr] at hsilent
      exact ((hf a).silent d (hR c a d hc hr)).trans hsilent

theorem Phrase.bind (hp : Phrase e (Cursor.Below k) p p')
    (hf : ∀ a, Phrase e (Cursor.Below k) (f a) (f' a)) :
    Phrase e (Cursor.Below k) (p >>= f) (p' >>= f') :=
  hp.andThen (R := fun _ => Cursor.Below k) (fun c a d hc hr => by
    have hle := hp.toTracks.left_le hc
    rw [hr] at hle
    exact Nat.lt_of_le_of_lt hle hc) hf

/-- A reader that stays where it is. -/
theorem Phrase.ofStay (r r' : Cursor → Except SyntaxError α) (hrun : ∀ c, p e.text c = (r c, c))
    (hrun' : ∀ c, p' e.whole c = (r' c, c))
    (hplace : ∀ c err, r c = .error err → ∀ t ∈ c.rest.head?, err.span = e.text.spanAt t.start)
    (hsame : ∀ c c', P c → c.rest ≠ [] → e.Matches c c' → r' c' = e.result id (r c)) :
    Phrase e P p p' where
  rest c _ := hrun c ▸ List.suffix_rfl
  nesting c _ := hrun c ▸ rfl
  errors c _ := hrun c ▸ List.prefix_rfl
  place c _ err := hrun c ▸ hplace c err
  same c c' hc hmatch hend := by
    rw [hrun] at hend ⊢
    have hrest := hend.resolve_right fun h => nomatch h.1
    rw [hrun', hsame c c' hc hrest hmatch]
    exact ⟨c', rfl, hmatch⟩
  read c _ := ⟨[], (hrun c ▸ rfl), nofun⟩
  silent c _ := hrun c ▸ rfl

theorem phrase_pure (a : α) : Phrase e P (pure a) (pure a) :=
  .ofStay (fun _ => .ok a) (fun _ => .ok a) (fun _ => rfl) (fun _ => rfl) nofun
    fun _ _ _ _ _ => rfl

theorem run_unexpected (expected : String) (s : Source) (t : PlacedToken) (ts : List PlacedToken)
    (hc : c.rest = t :: ts) :
    (unexpected expected : Parser α) s c =
      (.error ⟨.unexpected expected t.token.text, s.spanAt t.start⟩, c) := by
  unfold unexpected here
  rw [hc]
  rfl

theorem phrase_unexpected (expected : String) :
    Phrase e P (unexpected expected : Parser α) (unexpected expected) := by
  have hrun (s : Source) (c : Cursor) : (unexpected expected : Parser α) s c =
      (((unexpected expected : Parser α) s c).1, c) := by
    cases hc : c.rest with
    | nil =>
      unfold unexpected here
      rw [hc]
      rfl
    | cons t ts => rw [run_unexpected expected s t ts hc]
  refine .ofStay _ _ (hrun e.text) (hrun e.whole) (fun c err herr t ht => ?_) fun c c' _ hrest hmatch => ?_
  · obtain ⟨ts, hc⟩ := List.head?_eq_some_iff.1 ht
    rw [run_unexpected expected e.text t ts hc] at herr
    cases herr
    rfl
  · cases hc : c.rest with
    | nil => exact absurd hc hrest
    | cons t ts =>
      have hc' : c'.rest = e.token t :: (ts.map e.token ++ e.after) := by rw [hmatch.rest, hc]; rfl
      rw [run_unexpected expected e.text t ts hc, run_unexpected expected e.whole _ _ hc']
      have hinside := (hmatch.inside t (hc ▸ List.mem_cons_self)).1
      have hspan : e.whole.spanAt (e.token t).start = e.move (e.text.spanAt t.start) :=
        e.spanAt t.start hinside
      rw [hspan]
      rfl

theorem run_peek (f : Option Token → Parser β) (s : Source) (c : Cursor) :
    (peek >>= f) s c = f c.head? s c := rfl

/-- What is read depends on the next token. -/
theorem Phrase.peek {f f' : Option Token → Parser β}
    (hf : ∀ o, Phrase e (Cursor.Facing o k) (f o) (f' o)) :
    Phrase e (Cursor.Below k) (peek >>= f) (peek >>= f') :=
  have hpeek : Phrase e (Cursor.Below k) Parser.peek Parser.peek :=
    .ofStay (fun c => .ok c.head?) (fun c => .ok c.head?) (fun _ => rfl) (fun _ => rfl) nofun
      fun _ _ _ hrest hmatch => congrArg Except.ok (hmatch.head? hrest)
  hpeek.andThen (R := fun o => Cursor.Facing o k) (fun c a d hc hr => by
    cases hr
    exact ⟨hc, rfl⟩) hf

theorem Cursor.Facing.next {t : Token} (h : Cursor.Facing (some t) (k + 1) c) :
    ∃ p ts, c.rest = p :: ts ∧ p.token = t ∧ c.next.left < k := by
  obtain ⟨hlt, hhead⟩ := h
  obtain ⟨p, hp, htoken⟩ := Option.map_eq_some_iff.1 hhead
  obtain ⟨ts, hts⟩ := List.head?_eq_some_iff.1 hp
  refine ⟨p, ts, hts, htoken, ?_⟩
  have hleft := c.left_eq
  rw [hts, List.length_cons] at hleft
  show c.left - 1 < k
  omega

theorem phrase_advance {t : Token} (ht : t ≠ .punctuation .semicolon) :
    Phrase e (Cursor.Facing (some t) (k + 1)) advance advance where
  rest c _ := List.tail_suffix _
  nesting _ _ := rfl
  errors _ _ := List.prefix_rfl
  place _ _ _ := nofun
  same c c' hc hmatch _ := by
    obtain ⟨p, ts, hts, -⟩ := Cursor.Facing.next hc
    exact ⟨c'.next, rfl, hmatch.next (by rw [hts]; exact List.cons_ne_nil _ _)⟩
  read c hc := by
    obtain ⟨p, ts, hts, htoken, -⟩ := Cursor.Facing.next hc
    refine ⟨[p], ?_, List.forall_mem_singleton.2 (htoken ▸ ht)⟩
    show c.rest = p :: c.rest.tail
    rw [hts]
    rfl
  silent _ _ := rfl

theorem below_of_advance {t : Token} (c : Cursor) (u : Unit) (d : Cursor)
    (hc : Cursor.Facing (some t) (k + 1) c) (hr : advance e.text c = (.ok u, d)) : Cursor.Below k d := by
  cases hr
  obtain ⟨-, -, -, -, hlt⟩ := Cursor.Facing.next hc
  exact hlt

/-- Moving past a token that is no semicolon. -/
theorem Phrase.skip {t : Token} {f f' : Unit → Parser β} (ht : t ≠ .punctuation .semicolon)
    (hf : Phrase e (Cursor.Below k) (f ()) (f' ())) :
    Phrase e (Cursor.Facing (some t) (k + 1)) (advance >>= f) (advance >>= f') :=
  (phrase_advance ht).andThen (R := fun _ => Cursor.Below k) below_of_advance fun _ => hf

theorem bind_assoc {γ : Type} (p : Parser α) (f : α → Parser β) (g : β → Parser γ) :
    (p >>= f) >>= g = p >>= fun a => f a >>= g := by
  funext s c
  rw [run_bind, run_bind, run_bind]
  rcases p s c with ⟨err | a, d⟩ <;> rfl

theorem bind_pure (p : Parser α) : p >>= pure = p := by
  funext s c
  rw [run_bind]
  rcases p s c with ⟨err | a, d⟩ <;> rfl

theorem unexpected_bind (expected : String) (f : α → Parser β) :
    (unexpected expected >>= f) = unexpected expected := by
  funext s c
  rw [run_bind]
  unfold unexpected here
  cases c.rest.head? <;> rfl

theorem unexpected_error (expected : String) (s : Source) (c : Cursor) :
    ∃ err, (unexpected expected : Parser α) s c = (.error err, c) := by
  unfold unexpected here
  cases c.rest.head? <;> exact ⟨_, rfl⟩

theorem Phrase.unexpectedThen (expected : String) :
    Phrase e P (unexpected expected >>= f) (unexpected expected >>= f') := by
  rw [unexpected_bind, unexpected_bind]
  exact phrase_unexpected expected

theorem tracks_pure {m : α → α'} (a : α) : Tracks e stop P m (pure a) (pure (m a)) where
  rest _ _ := List.suffix_rfl
  nesting _ _ := rfl
  errors _ _ := List.prefix_rfl
  place _ _ _ := nofun
  same _ c' _ hmatch _ := ⟨c', rfl, hmatch⟩

/-- Nothing is said of no cursors. -/
theorem Tracks.ofNever {p' : Parser α'} (h : ∀ c, ¬P c) : Tracks e stop P m p p' where
  rest c hc := (h c hc).elim
  nesting c hc := (h c hc).elim
  errors c hc := (h c hc).elim
  place c hc := (h c hc).elim
  same c _ hc := (h c hc).elim

theorem Phrase.ofNever (h : ∀ c, ¬P c) : Phrase e P p p' where
  toTracks := .ofNever h
  read c hc := (h c hc).elim
  silent c hc := (h c hc).elim

/-- It is enough to look at cursors before at least one bound. -/
theorem Phrase.ofSucc (h : ∀ j, Phrase e (Cursor.Below (j + 1)) p p') (k : Nat) :
    Phrase e (Cursor.Below k) p p' := (h k).below (Nat.le_succ k)

section Symbols

variable {s : Punctuation} {w : Keyword} {f f' : Bool → Parser β} {g g' : Unit → Parser β}

theorem eq_of_isPunctuation (h : isPunctuation s o = true) : o = some (.punctuation s) := by
  cases o with
  | none => nomatch h
  | some t =>
    cases t with
    | punctuation s => exact congrArg (some ∘ Token.punctuation) (of_decide_eq_true h)
    | _ => nomatch h

theorem eq_of_isKeyword (h : isKeyword w o = true) : o = some (.keyword w) := by
  cases o with
  | none => nomatch h
  | some t =>
    cases t with
    | keyword w => exact congrArg (some ∘ Token.keyword) (of_decide_eq_true h)
    | _ => nomatch h

theorem accept_bind (s : Punctuation) (f : Bool → Parser β) : (Parser.accept s >>= f) =
    Parser.peek >>= fun o => if isPunctuation s o then advance >>= fun _ => f true else f false := by
  unfold Parser.accept
  rw [bind_assoc]
  funext src c
  rw [run_peek, run_peek]
  cases isPunctuation s c.head? <;> rfl

theorem acceptKeyword_bind (w : Keyword) (f : Bool → Parser β) : (Parser.acceptKeyword w >>= f) =
    Parser.peek >>= fun o => if isKeyword w o then advance >>= fun _ => f true else f false := by
  unfold Parser.acceptKeyword
  rw [bind_assoc]
  funext src c
  rw [run_peek, run_peek]
  cases isKeyword w c.head? <;> rfl

theorem expect_bind (s : Punctuation) (g : Unit → Parser β) : (Parser.expect s >>= g) =
    Parser.peek >>= fun o =>
      if isPunctuation s o then advance >>= g else Parser.unexpected ("'" ++ s.text ++ "'") := by
  unfold Parser.expect
  rw [bind_assoc, accept_bind]
  congr 1
  funext o
  rw [← unexpected_bind _ g]
  rfl

theorem expectKeyword_bind (w : Keyword) (g : Unit → Parser β) : (Parser.expectKeyword w >>= g) =
    Parser.peek >>= fun o =>
      if isKeyword w o then advance >>= g else Parser.unexpected ("'" ++ w.text ++ "'") := by
  unfold Parser.expectKeyword
  rw [bind_assoc, acceptKeyword_bind]
  congr 1
  funext o
  rw [← unexpected_bind _ g]
  rfl

/-- Where a token may come next, what follows it is read with one token less. -/
theorem Phrase.peekIf {q : Option Token → Bool} {p p' : Parser β} (hnone : q none = false)
    (hsemicolon : q (some (.punctuation .semicolon)) = false) (hg : Phrase e (Cursor.Below k) (g ()) (g' ()))
    (hp : Phrase e (Cursor.Below (k + 1)) p p') :
    Phrase e (Cursor.Below (k + 1)) (Parser.peek >>= fun o => if q o then advance >>= g else p)
      (Parser.peek >>= fun o => if q o then advance >>= g' else p') := by
  refine .peek fun o => ?_
  cases ho : q o with
  | false => exact hp.facing
  | true =>
    cases o with
    | none => nomatch hnone.symm.trans ho
    | some t =>
      refine .skip (fun ht => ?_) hg
      rw [ht, hsemicolon] at ho
      nomatch ho

theorem Phrase.accept (hs : s ≠ .semicolon) (htrue : Phrase e (Cursor.Below k) (f true) (f' true))
    (hfalse : Phrase e (Cursor.Below (k + 1)) (f false) (f' false)) :
    Phrase e (Cursor.Below (k + 1)) (accept s >>= f) (accept s >>= f') := by
  rw [accept_bind, accept_bind]
  exact .peekIf rfl (decide_eq_false fun h => hs h.symm) htrue hfalse

theorem Phrase.acceptKeyword (htrue : Phrase e (Cursor.Below k) (f true) (f' true))
    (hfalse : Phrase e (Cursor.Below (k + 1)) (f false) (f' false)) :
    Phrase e (Cursor.Below (k + 1)) (acceptKeyword w >>= f) (acceptKeyword w >>= f') := by
  rw [acceptKeyword_bind, acceptKeyword_bind]
  exact .peekIf rfl rfl htrue hfalse

theorem Phrase.expect (hs : s ≠ .semicolon) (hg : Phrase e (Cursor.Below k) (g ()) (g' ())) :
    Phrase e (Cursor.Below (k + 1)) (expect s >>= g) (expect s >>= g') := by
  rw [expect_bind, expect_bind]
  exact .peekIf rfl (decide_eq_false fun h => hs h.symm) hg (phrase_unexpected _)

theorem Phrase.expectKeyword (hg : Phrase e (Cursor.Below k) (g ()) (g' ())) :
    Phrase e (Cursor.Below (k + 1)) (expectKeyword w >>= g) (expectKeyword w >>= g') := by
  rw [expectKeyword_bind, expectKeyword_bind]
  exact .peekIf rfl rfl hg (phrase_unexpected _)

theorem Phrase.name {f f' : String → Parser β} (hf : ∀ n, Phrase e (Cursor.Below k) (f n) (f' n)) :
    Phrase e (Cursor.Below (k + 1)) (name >>= f) (name >>= f') := by
  unfold Parser.name
  rw [bind_assoc, bind_assoc]
  refine .peek fun o => ?_
  have hfail : Phrase e (Cursor.Facing o (k + 1)) (unexpected "identifier" >>= f)
      (unexpected "identifier" >>= f') := .unexpectedThen _
  cases o with
  | none => exact hfail
  | some t =>
    cases t with
    | name n =>
      change Phrase e _ ((advance >>= fun _ => pure n) >>= f) ((advance >>= fun _ => pure n) >>= f')
      rw [bind_assoc, bind_assoc]
      exact .skip (nofun) (hf n)
    | _ => exact hfail

theorem phrase_accept (hs : s ≠ .semicolon) : Phrase e (Cursor.Below k) (accept s) (accept s) :=
  .ofSucc (fun j => by
    rw [← bind_pure (Parser.accept s)]
    exact .accept hs (phrase_pure true) (phrase_pure false)) k

theorem phrase_acceptKeyword : Phrase e (Cursor.Below k) (acceptKeyword w) (acceptKeyword w) :=
  .ofSucc (fun j => by
    rw [← bind_pure (Parser.acceptKeyword w)]
    exact .acceptKeyword (phrase_pure true) (phrase_pure false)) k

theorem phrase_expect (hs : s ≠ .semicolon) : Phrase e (Cursor.Below k) (expect s) (expect s) :=
  .ofSucc (fun j => by
    rw [← bind_pure (Parser.expect s)]
    exact .expect hs (phrase_pure ())) k

theorem phrase_expectKeyword : Phrase e (Cursor.Below k) (expectKeyword w) (expectKeyword w) :=
  .ofSucc (fun j => by
    rw [← bind_pure (Parser.expectKeyword w)]
    exact .expectKeyword (phrase_pure ())) k

theorem phrase_name : Phrase e (Cursor.Below k) name name :=
  .ofSucc (fun j => by
    rw [← bind_pure Parser.name]
    exact .name phrase_pure) k

theorem phrase_at? : Phrase e (Cursor.Below k) (at? s) (at? s) :=
  .peek fun o => phrase_pure (isPunctuation s o)

end Symbols

section Repetitions

/-- The bound on the depth of a reader is the number of tokens left, which in the longer text is larger by the
tokens that come after. -/
theorem Tracks.bounded {q : Nat → Parser α} {q' : Nat → Parser α'}
    (h : ∀ n ≤ k, Tracks e stop (Cursor.Below n) m (q n) (q' (n + e.after.length))) :
    Tracks e stop (Cursor.Below k) m (bounded q) (bounded q') where
  rest c hc := (h (c.left + 1) hc).rest c (Nat.lt_succ_self _)
  nesting c hc := (h (c.left + 1) hc).nesting c (Nat.lt_succ_self _)
  errors c hc := (h (c.left + 1) hc).errors c (Nat.lt_succ_self _)
  place c hc := (h (c.left + 1) hc).place c (Nat.lt_succ_self _)
  same c c' hc hmatch := by
    have hbound : c.left + 1 + e.after.length = c'.left + 1 := by
      rw [hmatch.left, Nat.add_right_comm]
    have hsame := (h (c.left + 1) hc).same c c' (Nat.lt_succ_self _) hmatch
    rwa [hbound] at hsame

theorem Phrase.bounded {q q' : Nat → Parser α}
    (h : ∀ n ≤ k, Phrase e (Cursor.Below n) (q n) (q' (n + e.after.length))) :
    Phrase e (Cursor.Below k) (bounded q) (bounded q') where
  toTracks := .bounded fun n hn => (h n hn).toTracks
  read c hc := (h (c.left + 1) hc).read c (Nat.lt_succ_self _)
  silent c hc := (h (c.left + 1) hc).silent c (Nat.lt_succ_self _)

variable {item item' : Parser α} {close : Punctuation}

theorem phrase_moreItems (h : Phrase e (Cursor.Below k) item item') : ∀ n ≤ k + 1,
    Phrase e (Cursor.Below n) (moreItems item n) (moreItems item' (n + e.after.length))
  | 0, _ => .ofNever fun _ => Nat.not_lt_zero _
  | n + 1, hn => by
    rw [Nat.add_right_comm]
    have hmore := phrase_moreItems h n (Nat.le_of_succ_le hn)
    refine .accept nofun ?_ (phrase_pure [])
    exact (h.below (Nat.le_of_succ_le_succ hn)).bind fun a => hmore.bind fun others => phrase_pure _

theorem phrase_commaSeparated (h : Phrase e (Cursor.Below k) item item') :
    Phrase e (Cursor.Below k) (commaSeparated item) (commaSeparated item') :=
  h.bind fun _ => (Phrase.bounded fun n hn => phrase_moreItems h n (Nat.le_succ_of_le hn)).bind
    fun _ => phrase_pure _

theorem phrase_itemsBefore (h : Phrase e (Cursor.Below k) item item') :
    Phrase e (Cursor.Below k) (itemsBefore close item) (itemsBefore close item') :=
  phrase_at?.bind fun closed => by
    cases closed with
    | true => exact phrase_pure []
    | false => exact phrase_commaSeparated h

end Repetitions

end Phrases

/-- Tokens up to their only semicolon, and no braces. -/
def Ended (ts : List PlacedToken) : Prop :=
  ∃ (front : List PlacedToken) (last : PlacedToken), ts = front ++ [last] ∧ last.token = .punctuation .semicolon ∧
    ∀ t ∈ front, t.token ≠ .punctuation .semicolon ∧ t.token ≠ .punctuation .lBrace ∧
      t.token ≠ .punctuation .rBrace

section Ended

variable {ts ts' : List PlacedToken}

theorem Ended.ne_nil (h : Ended ts) : ts ≠ [] := by
  obtain ⟨front, last, rfl, -⟩ := h
  exact List.append_ne_nil_of_right_ne_nil _ (List.cons_ne_nil _ _)

theorem Ended.suffix (h : Ended ts) (hts : ts' <:+ ts) : ts' = [] ∨ Ended ts' := by
  obtain ⟨front, last, rfl, hlast, hfront⟩ := h
  obtain ⟨read, hread⟩ := hts
  rcases List.eq_nil_or_concat ts' with rfl | ⟨front', last', rfl⟩
  · exact Or.inl rfl
  · rw [List.concat_eq_append, ← List.append_assoc] at hread
    obtain ⟨hfronts, hlasts⟩ := List.append_inj' hread rfl
    refine Or.inr ⟨front', last', List.concat_eq_append, ?_, fun t ht => ?_⟩
    · rw [List.singleton_inj.1 hlasts, hlast]
    · exact hfront t (hfronts ▸ List.mem_append_right _ ht)

/-- The semicolon is still there when none has been moved past. -/
theorem Ended.append (h : Ended (ts ++ ts')) (hts : ∀ t ∈ ts, t.token ≠ .punctuation .semicolon) :
    Ended ts' := by
  refine (h.suffix (List.suffix_append _ _)).resolve_left fun hnil => ?_
  rw [hnil, List.append_nil] at h
  obtain ⟨front, last, rfl, hlast, -⟩ := h
  exact hts last (List.mem_append_right _ (List.mem_singleton_self _)) hlast

theorem Ended.token (h : Ended ts) (e : Excerpt) : Ended (ts.map e.token) := by
  obtain ⟨front, last, rfl, hlast, hfront⟩ := h
  refine ⟨front.map e.token, e.token last, List.map_append, hlast, fun t ht => ?_⟩
  obtain ⟨u, hu, rfl⟩ := List.mem_map.1 ht
  exact hfront u hu

theorem Ended.not_brace (h : Ended ts) {t : PlacedToken} (ht : t ∈ ts) : t.token ≠ .punctuation .lBrace := by
  obtain ⟨front, last, rfl, hlast, hfront⟩ := h
  rcases List.mem_append.1 ht with ht | ht
  · exact (hfront t ht).2.1
  · rw [List.mem_singleton.1 ht, hlast]
    nofun

end Ended

/-- A reader that wants a token and that may read the text to its end. Where the text has just one semicolon, at
its end, and no braces, the reader does not fail behind the semicolon, and it records no errors. -/
structure Clause (e : Excerpt) (P : Cursor → Prop) (m : α → α) (p p' : Parser α) : Prop extends
    Tracks e true P m p p' where
  final : ∀ c, P c → Ended c.rest → (p e.text c).2.errors = c.errors ∧
    ∀ err, (p e.text c).1 = .error err → (p e.text c).2.rest ≠ []
  demands : ∀ c, P c → c.rest = [] → ∃ err, (p e.text c).1 = .error err

/-- What may follow a clause: at the end of the text it does not fail. -/
structure Closing (e : Excerpt) (P : Cursor → Prop) (m : α → β) (p : Parser α) (p' : Parser β) : Prop extends
    Tracks e true P m p p' where
  final : ∀ c, P c → c.rest = [] ∨ Ended c.rest → (p e.text c).2.errors = c.errors ∧
    ∀ err, (p e.text c).1 = .error err → (p e.text c).2.rest ≠ []

section Clauses

open OpenQasm.Parser

variable {p p' : Parser α} {f : α → Parser β} {f' : α → Parser β} {m : α → α} {m' : β → β}

theorem Clause.mono (h : Clause e P m p p') (hPQ : ∀ c, Q c → P c) : Clause e Q m p p' where
  toTracks := h.toTracks.mono hPQ
  final c hc := h.final c (hPQ c hc)
  demands c hc := h.demands c (hPQ c hc)

theorem Clause.below {j : Nat} (h : Clause e (Cursor.Below k) m p p') (hjk : j ≤ k) :
    Clause e (Cursor.Below j) m p p' := h.mono fun _ hc => Nat.lt_of_lt_of_le hc hjk

theorem Clause.facing (h : Clause e (Cursor.Below k) m p p') : Clause e (Cursor.Facing o k) m p p' :=
  h.mono fun _ hc => hc.1

theorem Clause.ofNever (h : ∀ c, ¬P c) : Clause e P m p p' where
  toTracks := .ofNever h
  final c hc := (h c hc).elim
  demands c hc := (h c hc).elim

/-- A clause that starts with a phrase. -/
theorem Clause.andThen {R : α → Cursor → Prop} (hp : Phrase e P p p')
    (hR : ∀ c a d, P c → p e.text c = (.ok a, d) → R a d) (hf : ∀ a, Clause e (R a) m' (f a) (f' a)) :
    Clause e P m' (p >>= f) (p' >>= f') where
  toTracks := hp.toTracks.bind hR (fun a => (hf a).toTracks) fun _ => Or.inr fun a => (hf a).demands
  final c hc hend := by
    obtain ⟨ts, hts, hnone⟩ := hp.read c hc
    have hrest : Ended (p e.text c).2.rest := .append (hts ▸ hend) hnone
    have hsilent := hp.silent c hc
    rw [run_bind]
    rcases hr : p e.text c with ⟨err | a, d⟩
    · rw [hr] at hrest hsilent
      exact ⟨hsilent, fun _ _ => hrest.ne_nil⟩
    · rw [hr] at hrest hsilent
      obtain ⟨herrors, hfails⟩ := (hf a).final d (hR c a d hc hr) hrest
      exact ⟨herrors.trans hsilent, hfails⟩
  demands c hc hnil := by
    have hrest := hp.rest c hc
    rw [hnil, List.suffix_nil] at hrest
    rw [run_bind]
    rcases hr : p e.text c with ⟨err | a, d⟩
    · exact ⟨err, rfl⟩
    · rw [hr] at hrest
      exact (hf a).demands d (hR c a d hc hr) hrest

theorem Clause.after (hp : Phrase e (Cursor.Below k) p p')
    (hf : ∀ a, Clause e (Cursor.Below k) m' (f a) (f' a)) :
    Clause e (Cursor.Below k) m' (p >>= f) (p' >>= f') :=
  .andThen hp (R := fun _ => Cursor.Below k) (fun c a d hc hr => by
    have hle := hp.toTracks.left_le hc
    rw [hr] at hle
    exact Nat.lt_of_le_of_lt hle hc) hf

/-- What follows a clause. -/
theorem Clause.bind {f : α → Parser β} {f' : α → Parser β} (hp : Clause e (Cursor.Below k) m p p')
    (hf : ∀ a, Closing e (Cursor.Below k) m' (f a) (f' (m a))) :
    Clause e (Cursor.Below k) m' (p >>= f) (p' >>= f') := by
  have hR (c : Cursor) (a : α) (d : Cursor) (hc : c.Below k) (hr : p e.text c = (.ok a, d)) : d.Below k := by
    have hle := hp.toTracks.left_le hc
    rw [hr] at hle
    exact Nat.lt_of_le_of_lt hle hc
  refine { toTracks := hp.toTracks.bind (R := fun _ => Cursor.Below k) hR (fun a => (hf a).toTracks)
             fun _ => Or.inl rfl
           final := fun c hc hend => ?_
           demands := fun c hc hnil => ?_ }
  · have hrest := hend.suffix (hp.rest c hc)
    obtain ⟨herrors, hfails⟩ := hp.final c hc hend
    rw [run_bind]
    rcases hr : p e.text c with ⟨err | a, d⟩
    · rw [hr] at herrors hfails
      exact ⟨herrors, fun _ _ => hfails err rfl⟩
    · rw [hr] at hrest herrors
      obtain ⟨herrors', hfails'⟩ := (hf a).final d (hR c a d hc hr) hrest
      exact ⟨herrors'.trans herrors, hfails'⟩
  · obtain ⟨err, herr⟩ := hp.demands c hc hnil
    rw [run_bind]
    rcases hr : p e.text c with ⟨err' | a, d⟩
    · exact ⟨err', rfl⟩
    · rw [hr] at herr
      nomatch herr

theorem Closing.mono {m : α → β} {p : Parser α} {p' : Parser β} (h : Closing e P m p p')
    (hPQ : ∀ c, Q c → P c) : Closing e Q m p p' where
  toTracks := h.toTracks.mono hPQ
  final c hc := h.final c (hPQ c hc)

theorem closing_pure {m : α → β} (a : α) : Closing e P m (pure a) (pure (m a)) where
  toTracks := tracks_pure a
  final _ _ _ := ⟨rfl, nofun⟩

/-- A phrase that always fails. -/
theorem Clause.ofFailing (hp : Phrase e P p p') (hfails : ∀ c, ∃ err, (p e.text c).1 = .error err) :
    Clause e P m p p' where
  rest := hp.rest
  nesting := hp.nesting
  errors := hp.errors
  place := hp.place
  same c c' hc hmatch hend := by
    obtain ⟨err, herr⟩ := hfails c
    have hrest := hend.resolve_right fun ⟨_, a, ha⟩ => nomatch herr.symm.trans ha
    have hsame := hp.same c c' hc hmatch (Or.inl hrest)
    rwa [herr] at hsame ⊢
  final c hc hend := by
    obtain ⟨ts, hts, hnone⟩ := hp.read c hc
    exact ⟨hp.silent c hc, fun _ _ => (Ended.append (hts ▸ hend) hnone).ne_nil⟩
  demands c _ _ := hfails c

theorem clause_unexpected (expected : String) :
    Clause e P m (unexpected expected : Parser α) (unexpected expected) :=
  .ofFailing (phrase_unexpected expected) fun c => by
    obtain ⟨err, herr⟩ := unexpected_error (α := α) expected e.text c
    exact ⟨err, by rw [herr]⟩

/-- What is read depends on where the reader stands. The reader of the text need not see the same there as in
the longer text if it comes to the end and fails. -/
theorem Clause.ofLook {γ : Type} {r : Source → Cursor → γ} {g : γ → γ} {f f' : γ → Parser β}
    (hf : ∀ x, Clause e (fun c => P c ∧ r e.text c = x) m' (f x) (f' (g x)))
    (hsame : ∀ c c', P c → e.Matches c c' → r e.whole c' = g (r e.text c) ∨
      (f (r e.text c) e.text c).2.rest = [] ∧ ∃ err, (f (r e.text c) e.text c).1 = .error err) :
    Clause e P m' (fun s c => f (r s c) s c) (fun s c => f' (r s c) s c) where
  rest c hc := (hf _).rest c ⟨hc, rfl⟩
  nesting c hc := (hf _).nesting c ⟨hc, rfl⟩
  errors c hc := (hf _).errors c ⟨hc, rfl⟩
  place c hc := (hf _).place c ⟨hc, rfl⟩
  final c hc := (hf _).final c ⟨hc, rfl⟩
  demands c hc := (hf _).demands c ⟨hc, rfl⟩
  same c c' hc hmatch hend := by
    rcases hsame c c' hc hmatch with hr | ⟨hnil, err, herr⟩
    · have hsame := (hf _).same c c' ⟨hc, rfl⟩ hmatch hend
      rw [← hr] at hsame
      exact hsame
    · rcases hend with hne | ⟨-, a, ha⟩
      · exact absurd hnil hne
      · nomatch herr.symm.trans ha

/-- At the end of the text a clause comes to the end and fails. -/
theorem Clause.atEnd (h : Clause e P m p p') (hc : P c) (hnil : c.rest = []) :
    (p e.text c).2.rest = [] ∧ ∃ err, (p e.text c).1 = .error err :=
  ⟨List.suffix_nil.1 (hnil ▸ h.rest c hc), h.demands c hc hnil⟩

/-- What is read depends on the next token. -/
theorem Clause.peek {f f' : Option Token → Parser β}
    (hf : ∀ o, Clause e (Cursor.Facing o k) m' (f o) (f' o)) :
    Clause e (Cursor.Below k) m' (peek >>= f) (peek >>= f') :=
  .ofLook (r := fun _ c => c.head?) (g := id) hf fun c _ hc hmatch => by
    by_cases hnil : c.rest = []
    · exact Or.inr ((hf c.head?).atEnd ⟨hc, rfl⟩ hnil)
    · exact Or.inl (hmatch.head? hnil)

/-- The place of the next token is moved with the text. -/
theorem Clause.here {f f' : Span → Parser β}
    (hf : ∀ span, Clause e (Cursor.Below k) m' (f span) (f' (e.move span))) :
    Clause e (Cursor.Below k) m' (here >>= f) (here >>= f') :=
  .ofLook (r := fun s c => s.spanAt ((c.rest.head?.map PlacedToken.start).getD s.size)) (g := e.move)
    (fun span => (hf span).mono fun _ hc => hc.1) fun c c' hc hmatch => by
      cases hrest : c.rest with
      | nil => exact Or.inr ((hf _).atEnd hc hrest)
      | cons t ts =>
        refine Or.inl ?_
        rw [hmatch.rest, hrest]
        exact e.spanAt t.start (hmatch.inside t (hrest ▸ List.mem_cons_self)).1

theorem Clause.skip {t : Token} {f f' : Unit → Parser β} (ht : t ≠ .punctuation .semicolon)
    (hf : Clause e (Cursor.Below k) m' (f ()) (f' ())) :
    Clause e (Cursor.Facing (some t) (k + 1)) m' (advance >>= f) (advance >>= f') :=
  .andThen (phrase_advance ht) (R := fun _ => Cursor.Below k) below_of_advance fun _ => hf

/-- Moving past the last token of a clause. -/
theorem clause_last {t : Token} (b : β) :
    Clause e (Cursor.Facing (some t) k) m' (advance >>= fun _ => pure b) (advance >>= fun _ => pure (m' b)) :=
  have hfacing {c : Cursor} (hc : Cursor.Facing (some t) k c) : c.rest ≠ [] := by
    obtain ⟨p, hp, -⟩ := Option.map_eq_some_iff.1 hc.2
    exact List.ne_nil_of_mem (List.mem_of_mem_head? hp)
  { rest := fun c _ => List.tail_suffix _
    nesting := fun _ _ => rfl
    errors := fun _ _ => List.prefix_rfl
    place := fun _ _ _ => nofun
    same := fun c c' hc hmatch _ => ⟨c'.next, rfl, hmatch.next (hfacing hc)⟩
    final := fun _ _ _ => ⟨rfl, nofun⟩
    demands := fun c hc hnil => absurd hnil (hfacing hc) }

/-- A clause that ends with a symbol. -/
theorem clause_close (s : Punctuation) (b : β) :
    Clause e (Cursor.Below k) m' (expect s >>= fun _ => pure b) (expect s >>= fun _ => pure (m' b)) := by
  rw [expect_bind, expect_bind]
  refine .peek fun o => ?_
  cases ho : isPunctuation s o with
  | false => exact clause_unexpected _
  | true =>
    cases o with
    | none => nomatch ho
    | some t => exact clause_last b

/-- Whatever the number of tokens left. -/
theorem Clause.ofBelow (h : ∀ k, Clause e (Cursor.Below k) m p p') : Clause e P m p p' where
  rest c _ := (h (c.left + 1)).rest c (Nat.lt_succ_self _)
  nesting c _ := (h (c.left + 1)).nesting c (Nat.lt_succ_self _)
  errors c _ := (h (c.left + 1)).errors c (Nat.lt_succ_self _)
  place c _ := (h (c.left + 1)).place c (Nat.lt_succ_self _)
  same c c' _ := (h (c.left + 1)).same c c' (Nat.lt_succ_self _)
  final c _ := (h (c.left + 1)).final c (Nat.lt_succ_self _)
  demands c _ := (h (c.left + 1)).demands c (Nat.lt_succ_self _)

theorem Clause.bounded {q q' : Nat → Parser α}
    (h : ∀ n ≤ k, Clause e (Cursor.Below n) m (q n) (q' (n + e.after.length))) :
    Clause e (Cursor.Below k) m (bounded q) (bounded q') where
  toTracks := .bounded fun n hn => (h n hn).toTracks
  final c hc := (h (c.left + 1) hc).final c (Nat.lt_succ_self _)
  demands c hc := (h (c.left + 1) hc).demands c (Nat.lt_succ_self _)

end Clauses

end Excerpt

end OpenQasm
