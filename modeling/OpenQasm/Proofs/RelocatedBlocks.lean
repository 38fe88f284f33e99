import OpenQasm.Proofs.RelocatedExpressions

/-!
Statements are clauses. A block may record errors and go on behind them, so it is more than a phrase; but it
starts with a brace, which a text that ends with its only semicolon does not have.
-/
namespace OpenQasm

mutual

/-- The statement with all its positions moved. -/
def Statement.moved (f : Span → Span) : Statement → Statement
  | ⟨kind, span⟩ => ⟨kind.moved f, f span⟩

def StatementKind.moved (f : Span → Span) : StatementKind → StatementKind
  | .branch condition thenBody none => .branch condition (bodyMoved f thenBody) none
  | .branch condition thenBody (some elseBody) =>
    .branch condition (bodyMoved f thenBody) (some (bodyMoved f elseBody))
  | .forLoop type binder values body => .forLoop type binder values (bodyMoved f body)
  | .whileLoop condition body => .whileLoop condition (bodyMoved f body)
  | .block body => .block (bodyMoved f body)
  | .defineSubroutine ⟨name, formals, result, body⟩ =>
    .defineSubroutine ⟨name, formals, result, bodyMoved f body⟩
  | .defineGate ⟨name, params, qubits, body⟩ => .defineGate ⟨name, params, qubits, bodyMoved f body⟩
  | kind => kind

def bodyMoved (f : Span → Span) : List Statement → List Statement
  | [] => []
  | s :: ss => s.moved f :: bodyMoved f ss

end

theorem bodyMoved_eq (f : Span → Span) (body : List Statement) : bodyMoved f body = body.map (·.moved f) := by
  induction body with
  | nil => rfl
  | cons s ss ih => rw [bodyMoved, ih, List.map_cons]

mutual

theorem Statement.moved_id {f : Span → Span} (hf : ∀ span, f span = span) :
    ∀ s : Statement, s.moved f = s
  | ⟨kind, span⟩ => by rw [Statement.moved, kind.moved_id hf, hf]

theorem StatementKind.moved_id {f : Span → Span} (hf : ∀ span, f span = span) :
    ∀ kind : StatementKind, kind.moved f = kind
  | .branch _ thenBody none => by rw [StatementKind.moved, bodyMoved_id hf thenBody]
  | .branch _ thenBody (some elseBody) => by
    rw [StatementKind.moved, bodyMoved_id hf thenBody, bodyMoved_id hf elseBody]
  | .forLoop _ _ _ body => by rw [StatementKind.moved, bodyMoved_id hf body]
  | .whileLoop _ body => by rw [StatementKind.moved, bodyMoved_id hf body]
  | .block body => by rw [StatementKind.moved, bodyMoved_id hf body]
  | .defineSubroutine ⟨_, _, _, body⟩ => by rw [StatementKind.moved, bodyMoved_id hf body]
  | .defineGate ⟨_, _, _, body⟩ => by rw [StatementKind.moved, bodyMoved_id hf body]
  | .includeFile _ | .qubits _ _ | .classical _ | .alias _ _ | .gate _ | .measure _ _ | .reset _ | .barrier _
  | .breakLoop | .continueLoop | .returnValue _ | .assign _ _ _ | .evaluate _ | .pragma _
  | .annotated _ _ => rfl

theorem bodyMoved_id {f : Span → Span} (hf : ∀ span, f span = span) :
    ∀ body : List Statement, bodyMoved f body = body
  | [] => rfl
  | s :: ss => by rw [bodyMoved, s.moved_id hf, bodyMoved_id hf ss]

end

namespace Excerpt

open OpenQasm.Parser OpenQasm.Grammar

variable {α β : Type} {e : Excerpt} {k : Nat} {o : Option Token}

section Recovering

variable {p p' : Parser α} {m : α → α} {nesting depth : Nat} {ts : List PlacedToken}

theorem skipFrom_suffix : ∀ (nesting depth : Nat) (ts : List PlacedToken),
    skipFrom nesting depth ts <:+ ts
  | _, _, [] => List.suffix_rfl
  | nesting, depth, t :: ts => by
    have hrest (n : Nat) := (skipFrom_suffix nesting n ts).trans (List.suffix_cons t ts)
    unfold skipFrom
    split
    · split
      · exact List.suffix_cons t ts
      · exact hrest _
    · exact hrest _
    · split
      · split
        · exact List.suffix_cons t ts
        · exact List.suffix_rfl
      · split
        · exact List.suffix_cons t ts
        · exact hrest _
    · exact hrest _

/-- What is skipped is the same in the longer text, unless it is all that there is. -/
theorem skipFrom_append : ∀ {depth : Nat} {ts : List PlacedToken}, skipFrom nesting depth ts ≠ [] →
    skipFrom nesting depth (ts.map e.token ++ e.after) =
      (skipFrom nesting depth ts).map e.token ++ e.after
  | _, [], h => absurd rfl h
  | depth, t :: ts, h => by
    have htoken : (e.token t).token = t.token := rfl
    rw [List.map_cons, List.cons_append]
    unfold skipFrom at h ⊢
    rw [htoken]
    split at h
    · split at h
      · next h0 => simp only [if_pos h0]
      · next h0 =>
        simp only [if_neg h0]
        exact skipFrom_append h
    · exact skipFrom_append h
    · split at h
      · next h0 =>
        split at h
        · next hn => simp only [if_pos h0, if_pos hn]
        · next hn => simp only [if_pos h0, if_neg hn, List.map_cons, List.cons_append]
      · next h0 =>
        split at h
        · next h1 => simp only [if_neg h0, if_pos h1]
        · next h1 =>
          simp only [if_neg h0, if_neg h1]
          exact skipFrom_append h
    · exact skipFrom_append h

theorem run_recovering (p : Parser α) (s : Source) (c : Cursor) :
    recovering p s c = match p s c with
      | (.ok a, d) => (.ok (some a), d)
      | (.error err, d) =>
        (.ok none, { d.moveTo (skipFrom d.nesting 0 d.rest) with errors := d.errors ++ [err] }) := rfl

theorem Tracks.weaken {stop : Bool} {P : Cursor → Prop} (h : Tracks e stop P m p p') :
    Tracks e false P m p p' :=
  { h with same := fun c c' hc hmatch hend => h.same c c' hc hmatch (Or.inl (hend.resolve_right nofun)) }

/-- A reader that skips what it cannot read does the same in the longer text, unless it skips all there is. -/
theorem Tracks.recovering {P : Cursor → Prop} {stop : Bool} (h : Tracks e stop P m p p')
    (hok : stop = true → ∀ c, P c → ∃ a, (p e.text c).1 = .ok a) :
    Tracks e stop P (Option.map m) (recovering p) (recovering p') where
  rest c hc := by
    have hrest := h.rest c hc
    rw [run_recovering]
    rcases hr : p e.text c with ⟨err | a, d⟩
    · rw [hr] at hrest
      exact (skipFrom_suffix _ _ _).trans hrest
    · rwa [hr] at hrest
  nesting c hc := by
    have hnesting := h.nesting c hc
    rw [run_recovering]
    rcases hr : p e.text c with ⟨err | a, d⟩ <;> rwa [hr] at hnesting
  errors c hc := by
    have herrors := h.errors c hc
    rw [run_recovering]
    rcases hr : p e.text c with ⟨err | a, d⟩
    · rw [hr] at herrors
      exact herrors.trans (List.prefix_append _ _)
    · rwa [hr] at herrors
  place c hc err := by
    rw [run_recovering]
    rcases p e.text c with ⟨err | a, d⟩ <;> exact nofun
  same c c' hc hmatch := by
    have hsame := h.same c c' hc hmatch
    rw [run_recovering, run_recovering]
    rcases hr : p e.text c with ⟨err | a, d⟩
    · rw [hr] at hsame
      intro hend
      have hskip : skipFrom d.nesting 0 d.rest ≠ [] := hend.resolve_right fun hstop => by
        obtain ⟨a, ha⟩ := hok hstop.1 c hc
        rw [hr] at ha
        nomatch ha
      have hrest : d.rest ≠ [] := fun hnil => hskip (by rw [hnil]; rfl)
      obtain ⟨d', hrun, hd⟩ := hsame (Or.inl hrest)
      rw [hrun]
      refine ⟨_, rfl, ?_, hd.nesting, ?_, fun t ht => ?_⟩
      · show skipFrom d'.nesting 0 d'.rest = _
        rw [hd.rest, hd.nesting]
        exact skipFrom_append hskip
      · show d'.errors ++ [e.error err] = e.before ++ (d.errors ++ [err]).map e.error
        rw [hd.errors, List.map_append, List.append_assoc]
        rfl
      · exact hd.inside t ((skipFrom_suffix _ _ _).subset ht)
    · rw [hr] at hsame
      intro hend
      obtain ⟨d', hrun, hd⟩ := hsame (hend.imp_right fun hstop => ⟨hstop.1, a, rfl⟩)
      rw [hrun]
      exact ⟨d', rfl, hd⟩

theorem run_moving (keep : PlacedToken → Bool) (p : Parser α) (s : Source) (c : Cursor) :
    moving keep p s c = ((p s c).1,
      if (p s c).2.left = c.left && !(p s c).2.rest.head?.any keep then (p s c).2.next else (p s c).2) := by
  unfold moving
  split
  next hr =>
    rw [hr]
    dsimp only
    split <;> rfl

/-- A token is moved past, unless the next one is kept from the start. -/
theorem left_moving_lt (keep : PlacedToken → Bool) {s : Source} {c : Cursor}
    (hrest : (p s c).2.rest <:+ c.rest) {t : PlacedToken} (ht : c.rest.head? = some t)
    (hkeep : keep t = false) : (moving keep p s c).2.left < c.left := by
  obtain ⟨ts, hc⟩ := List.head?_eq_some_iff.1 ht
  have hle := hrest.length_le
  rw [← Cursor.left_eq, ← Cursor.left_eq] at hle
  have hpos : 0 < c.left := by
    rw [c.left_eq, hc]
    exact Nat.succ_pos _
  rw [run_moving]
  split
  · next hstill =>
    have hleft := of_decide_eq_true (Bool.and_eq_true_iff.1 hstill).1
    show (p s c).2.left - 1 < c.left
    omega
  · next hmoved =>
    refine Nat.lt_of_le_of_ne hle fun hleft => hmoved ?_
    have hsame : (p s c).2.rest = c.rest := hrest.eq_of_length (by
      rw [← Cursor.left_eq, ← Cursor.left_eq, hleft])
    rw [hsame, ht, decide_eq_true hleft]
    simp [hkeep]

/-- A reader that never fails and drops a token where it would stand still. -/
theorem Tracks.moving {P : Cursor → Prop} {stop : Bool} {keep keep' : PlacedToken → Bool} {p : Parser α}
    {p' : Parser β} {m : α → β} (hkeep : ∀ t, keep' (e.token t) = keep t) (h : Tracks e stop P m p p')
    (hok : ∀ c, ∃ a, (p e.text c).1 = .ok a) (hwant : ∀ c, P c → c.rest ≠ []) :
    Tracks e stop P m (moving keep p) (moving keep' p') where
  rest c hc := by
    rw [run_moving]
    split
    · exact (List.tail_suffix _).trans (h.rest c hc)
    · exact h.rest c hc
  nesting c hc := by
    rw [run_moving]
    split <;> exact h.nesting c hc
  errors c hc := by
    rw [run_moving]
    split <;> exact h.errors c hc
  place c hc err herr := by
    rw [run_moving] at herr
    obtain ⟨a, ha⟩ := hok c
    nomatch herr.symm.trans ha
  same c c' hc hmatch := by
    rw [run_moving, run_moving]
    intro hend
    have hfirst : (p e.text c).2.rest ≠ [] ∨ stop = true ∧ ∃ a, (p e.text c).1 = .ok a := by
      refine Or.imp_left (fun hne hnil => hne ?_) hend
      dsimp only
      split
      · show (p e.text c).2.rest.tail = []
        rw [hnil, List.tail_nil]
      · exact hnil
    obtain ⟨d', hrun, hd⟩ := h.same c c' hc hmatch hfirst
    have hstill : (d'.left = c'.left && !d'.rest.head?.any keep') =
        ((p e.text c).2.left = c.left && !(p e.text c).2.rest.head?.any keep) := by
      rw [hd.left, hmatch.left, hd.rest]
      simp only [Nat.add_right_cancel_iff]
      cases hts : (p e.text c).2.rest with
      | cons t ts =>
        have hhead : ((t :: ts).map e.token ++ e.after).head?.any keep' = (t :: ts).head?.any keep := hkeep t
        rw [hhead]
      | nil =>
        -- Some tokens were left before, so the reader has moved.
        have hmoved : (p e.text c).2.left ≠ c.left := by
          rw [Cursor.left_eq, c.left_eq, hts]
          exact fun h0 => hwant c hc (List.length_eq_zero_iff.1 h0.symm)
        rw [decide_eq_false hmoved, Bool.false_and, Bool.false_and]
    rw [hrun]
    dsimp only
    rw [hstill]
    split
    · next hdrop =>
      refine ⟨d'.next, rfl, hd.next fun hnil => ?_⟩
      have hleft := of_decide_eq_true (Bool.and_eq_true_iff.1 hdrop).1
      rw [Cursor.left_eq, c.left_eq, hnil] at hleft
      exact hwant c hc (List.length_eq_zero_iff.1 hleft.symm)
    · exact ⟨d', rfl, hd⟩

/-- What is read depends on the next token. -/
theorem Tracks.peek {f f' : Option Token → Parser α} (hf : ∀ o, Tracks e false (Cursor.Facing o k) m (f o) (f' o)) :
    Tracks e false (Cursor.Below k) m (Parser.peek >>= f) (Parser.peek >>= f') where
  rest c hc := (hf c.head?).rest c ⟨hc, rfl⟩
  nesting c hc := (hf c.head?).nesting c ⟨hc, rfl⟩
  errors c hc := (hf c.head?).errors c ⟨hc, rfl⟩
  place c hc := (hf c.head?).place c ⟨hc, rfl⟩
  same c c' hc hmatch hend := by
    have hsame := (hf c.head?).same c c' ⟨hc, rfl⟩ hmatch hend
    have hrest : c.rest ≠ [] := fun hnil => hend.resolve_right nofun
      (List.suffix_nil.1 (hnil ▸ (hf c.head?).rest c ⟨hc, rfl⟩))
    rw [← hmatch.head? hrest] at hsame
    rw [run_peek, run_peek, ← hmatch.head? hrest]
    exact hsame

end Recovering

section Blocks

variable {self self' : Parser Statement} {p p' : Parser α} {m : α → α}

theorem bodyMoved_append (f : Span → Span) (ss ts : List Statement) :
    bodyMoved f (ss ++ ts) = bodyMoved f ss ++ bodyMoved f ts := by
  rw [bodyMoved_eq, bodyMoved_eq, bodyMoved_eq, List.map_append]

theorem bodyMoved_toList (f : Span → Span) (s? : Option Statement) :
    bodyMoved f s?.toList = (s?.map (·.moved f)).toList := by
  cases s? <;> rfl

theorem recovering_ok (s : Source) (c : Cursor) : ∃ a, (recovering p s c).1 = .ok a := by
  rw [run_recovering]
  rcases p s c with ⟨err | a, d⟩ <;> exact ⟨_, rfl⟩

/-- The statements of a block are read from one to the next, however many errors are recorded on the way. -/
theorem tracks_blockItems (h : Clause e (Cursor.Below k) (·.moved e.move) self self') : ∀ n ≤ k,
    Tracks e false (Cursor.Below n) (bodyMoved e.move) (blockItems self n)
      (blockItems self' (n + e.after.length))
  | 0, _ => .ofNever fun _ => Nat.not_lt_zero _
  | n + 1, hn => by
    rw [Nat.add_right_comm]
    refine .peek fun o => ?_
    have hstop : Tracks e false (Cursor.Facing o (n + 1)) (bodyMoved e.move) (pure []) (pure []) := tracks_pure []
    cases o with
    | none => exact hstop
    | some t =>
      have hwant (c : Cursor) (hc : Cursor.Facing (some t) (n + 1) c) : c.rest ≠ [] := by
        obtain ⟨p, ts, hts, -⟩ := Cursor.Facing.next hc
        rw [hts]
        exact List.cons_ne_nil _ _
      have hgo (ht : t ≠ .punctuation .rBrace) :
          Tracks e false (Cursor.Facing (some t) (n + 1)) (bodyMoved e.move)
            (moving (fun t => isPunctuation .rBrace (some t.token)) (recovering self) >>= fun first =>
              blockItems self n >>= fun others => pure (first.toList ++ others))
            (moving (fun t => isPunctuation .rBrace (some t.token)) (recovering self') >>= fun first =>
              blockItems self' (n + e.after.length) >>= fun others => pure (first.toList ++ others)) := by
        have hself := (h.toTracks.mono fun c (hc : Cursor.Facing (some t) (n + 1) c) =>
          Nat.lt_of_lt_of_le hc.1 hn).weaken.recovering nofun
        have hitem : Tracks e false (Cursor.Facing (some t) (n + 1)) (Option.map (·.moved e.move))
            (moving (fun t => isPunctuation .rBrace (some t.token)) (recovering self))
            (moving (fun t => isPunctuation .rBrace (some t.token)) (recovering self')) :=
          .moving (fun _ => rfl) hself (recovering_ok _) hwant
        refine hitem.bind (R := fun _ => Cursor.Below n)
          (fun c first d hc hr => ?_) (fun first => ?_) nofun
        · obtain ⟨p, ts, hts, htoken, -⟩ := Cursor.Facing.next hc
          have hkeep : isPunctuation .rBrace (some p.token) = false := by
            rw [htoken]
            cases t with
            | punctuation s => exact decide_eq_false fun hs => ht (congrArg Token.punctuation hs)
            | _ => rfl
          have hlt := left_moving_lt (fun t => isPunctuation .rBrace (some t.token))
            (hself.rest c hc) (List.head?_eq_some_iff.2 ⟨ts, hts⟩) hkeep
          rw [hr] at hlt
          exact Nat.lt_of_lt_of_le hlt (Nat.le_of_lt_succ hc.1)
        · refine (tracks_blockItems h n (Nat.le_of_succ_le hn)).bind (R := fun _ _ => True)
            (fun _ _ _ _ _ => trivial) (fun others => ?_) nofun
          rw [← bodyMoved_toList, ← bodyMoved_append]
          exact tracks_pure _
      cases t with
      | punctuation s => cases s <;> first | exact hstop | exact hgo nofun
      | _ => exact hgo nofun

theorem run_inBlock (p : Parser α) (s : Source) (c : Cursor) : inBlock p s c =
    ((p s { c with nesting := c.nesting + 1 }).1,
      { (p s { c with nesting := c.nesting + 1 }).2 with
        nesting := (p s { c with nesting := c.nesting + 1 }).2.nesting - 1 }) := rfl

theorem Tracks.inBlock (h : Tracks e false (Cursor.Below k) m p p') :
    Tracks e false (Cursor.Below k) m (inBlock p) (inBlock p') where
  rest c hc := h.rest { c with nesting := c.nesting + 1 } hc
  nesting c hc := by
    rw [run_inBlock]
    show (p e.text { c with nesting := c.nesting + 1 }).2.nesting - 1 = c.nesting
    rw [h.nesting { c with nesting := c.nesting + 1 } hc]
    rfl
  errors c hc := h.errors { c with nesting := c.nesting + 1 } hc
  place c hc := h.place { c with nesting := c.nesting + 1 } hc
  same c c' hc hmatch hend := by
    have hinner : e.Matches { c with nesting := c.nesting + 1 } { c' with nesting := c'.nesting + 1 } :=
      ⟨hmatch.rest, congrArg (· + 1) hmatch.nesting, hmatch.errors, hmatch.inside⟩
    obtain ⟨d', hrun, hd⟩ := h.same { c with nesting := c.nesting + 1 } _ hc hinner hend
    rw [run_inBlock, run_inBlock, hrun]
    exact ⟨_, rfl, hd.rest, congrArg (· - 1) hd.nesting, hd.errors, hd.inside⟩

/-- A block starts with a brace, so it does not matter what errors it records. -/
theorem clause_block (h : Clause e (Cursor.Below k) (·.moved e.move) self self') :
    Clause e (Cursor.Below (k + 1)) (bodyMoved e.move) (block self) (block self') := by
  unfold block
  rw [expect_bind, expect_bind]
  refine .peek fun o => ?_
  cases ho : isPunctuation .lBrace o with
  | false => exact clause_unexpected _
  | true =>
    cases o with
    | none => nomatch ho
    | some t =>
      obtain rfl := Option.some.inj (eq_of_isPunctuation ho)
      have hitems : Tracks e false (Cursor.Facing (some (.punctuation .lBrace)) (k + 1)) (bodyMoved e.move)
          (advance >>= fun _ => inBlock (bounded (blockItems self)))
          (advance >>= fun _ => inBlock (bounded (blockItems self'))) :=
        (phrase_advance (t := .punctuation .lBrace) nofun).toTracks.bind (R := fun _ => Cursor.Below k) below_of_advance
          (fun _ => Tracks.inBlock (.bounded fun n hn => tracks_blockItems h n hn)) nofun
      have hclose (body : List Statement) : Clause e (Cursor.Below (k + 1)) (bodyMoved e.move)
          (expect .rBrace >>= fun _ => pure body)
          (expect .rBrace >>= fun _ => pure (bodyMoved e.move body)) := clause_close .rBrace body
      have hopened {c : Cursor} (hc : Cursor.Facing (some (.punctuation .lBrace)) (k + 1) c) :
          ∃ p ts, c.rest = p :: ts ∧ p.token = .punctuation .lBrace := by
        obtain ⟨p, ts, hts, hp, -⟩ := Cursor.Facing.next hc
        exact ⟨p, ts, hts, hp⟩
      rw [← bind_assoc, ← bind_assoc]
      exact
        { toTracks := hitems.bind (R := fun _ => Cursor.Below (k + 1))
            (fun c body d hc hr => by
              have hle := hitems.left_le hc
              rw [hr] at hle
              exact Nat.lt_of_le_of_lt hle hc.1)
            (fun body => (hclose body).toTracks) fun _ => Or.inr fun body => (hclose body).demands
          final := fun c hc hend => by
            obtain ⟨p, ts, hts, hp⟩ := hopened hc
            exact absurd hp (hend.not_brace (hts ▸ List.mem_cons_self))
          demands := fun c hc hnil => by
            obtain ⟨p, ts, hts, -⟩ := hopened hc
            nomatch hts.symm.trans hnil }

end Blocks

end Excerpt

end OpenQasm
