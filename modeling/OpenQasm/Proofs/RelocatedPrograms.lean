import OpenQasm.Grammar.Program
import OpenQasm.Proofs.RelocatedStatements

/-!
The statements of a program are read one after another. Within a longer text they are read as by themselves, and
a statement that is broken costs no more than the tokens up to its semicolon.
-/
namespace OpenQasm

open OpenQasm.Parser OpenQasm.Grammar

theorem Cursor.eq_of_fields {c d : Cursor} (hrest : c.rest = d.rest) (hnesting : c.nesting = d.nesting)
    (herrors : c.errors = d.errors) : c = d := by
  obtain ⟨rest, left, hleft, nesting, errors⟩ := c
  obtain ⟨rest', left', hleft', nesting', errors'⟩ := d
  cases hrest
  cases hnesting
  cases herrors
  cases hleft
  cases hleft'
  rfl

/-- A text by itself. -/
def Excerpt.alone (s : Source) : Excerpt where
  text := s
  whole := s
  offset := 0
  move := id
  before := []
  after := []
  spanAt o _ := congrArg s.spanAt (Nat.zero_add o)
  lineRest o _ := congrArg s.lineRest (Nat.zero_add o)
  after_start := nofun
  after_else := nofun

namespace Grammar

open Excerpt

variable {s : Source} {c d : Cursor}

/-- Reads a statement of a program, or records why it cannot be read, and goes on behind it. -/
def item : Parser (Option Statement) := moving (fun _ => false) (recovering statement)

theorem tracks_item (e : Excerpt) :
    Tracks e false (fun c => c.rest ≠ []) (Option.map (·.moved e.move)) item item :=
  .moving (fun _ => rfl) (clause_statement.toTracks.weaken.recovering nofun) (recovering_ok _) fun _ hc => hc

/-- Where a statement can be read, it may be the last one of the text. -/
theorem tracks_item_readable (e : Excerpt) :
    Tracks e true (fun c => c.rest ≠ [] ∧ ∃ a, (statement e.text c).1 = .ok a) (Option.map (·.moved e.move))
      item item :=
  .moving (fun _ => rfl) (clause_statement.toTracks.recovering fun _ _ hc => hc.2) (recovering_ok _)
    fun _ hc => hc.1

theorem item_ok (s : Source) (c : Cursor) : ∃ first, item s c = (.ok first, (item s c).2) := by
  obtain ⟨first, hfirst⟩ := recovering_ok (p := statement) s c
  refine ⟨first, Prod.ext ?_ rfl⟩
  rw [item, run_moving]
  exact hfirst

theorem item_left_lt (hc : c.rest ≠ []) : (item s c).2.left < c.left := by
  obtain ⟨t, ts, hts⟩ := List.exists_cons_of_ne_nil hc
  have hrest := (clause_statement (e := .alone s) (P := fun _ => True)).weaken.recovering nofun |>.rest c trivial
  exact left_moving_lt (fun _ => false) hrest (List.head?_eq_some_iff.2 ⟨ts, hts⟩) rfl

section Reading

theorem statements_nil (hc : c.rest = []) : ∀ n, statements n s c = (.ok [], c)
  | 0 => rfl
  | n + 1 => by
    rw [statements, run_peek, Cursor.head?, hc]
    rfl

theorem statements_succ (hc : c.rest ≠ []) (n : Nat) : statements (n + 1) s c =
    (item >>= fun first => statements n >>= fun others => pure (first.toList ++ others)) s c := by
  obtain ⟨t, ts, hts⟩ := List.exists_cons_of_ne_nil hc
  rw [statements, run_peek, Cursor.head?, hts]
  rfl

/-- The bound on the number of statements is never met. -/
theorem statements_bound : ∀ {n m : Nat} {c : Cursor}, c.left < n → c.left < m →
    statements n s c = statements m s c
  | 0, _, _, h, _ => absurd h (Nat.not_lt_zero _)
  | _, 0, _, _, h => absurd h (Nat.not_lt_zero _)
  | n + 1, m + 1, c, hn, hm => by
    by_cases hc : c.rest = []
    · rw [statements_nil hc, statements_nil hc]
    · obtain ⟨first, hfirst⟩ := item_ok s c
      have hlt := item_left_lt (s := s) hc
      have hsame := statements_bound (n := n) (m := m) (c := (item s c).2)
        (Nat.lt_of_lt_of_le hlt (Nat.le_of_lt_succ hn)) (Nat.lt_of_lt_of_le hlt (Nat.le_of_lt_succ hm))
      rw [statements_succ hc, statements_succ hc, run_bind, run_bind, hfirst]
      dsimp only
      rw [run_bind, run_bind, hsame]

/-- Reads all statements that are left. -/
def remaining : Parser (List Statement) := bounded statements

theorem remaining_nil (hc : c.rest = []) : remaining s c = (.ok [], c) := statements_nil hc _

theorem remaining_cons {first : Option Statement} (hc : c.rest ≠ []) (hfirst : item s c = (.ok first, d)) :
    remaining s c = (remaining >>= fun others => pure (first.toList ++ others)) s d := by
  have hlt := item_left_lt (s := s) hc
  rw [hfirst] at hlt
  have hrun : remaining s c = (statements c.left >>= fun others => pure (first.toList ++ others)) s d := by
    show statements (c.left + 1) s c = _
    rw [statements_succ hc, run_bind, hfirst]
  have hsame : statements c.left s d = remaining s d := statements_bound hlt (Nat.lt_succ_self _)
  rw [hrun, run_bind, run_bind, hsame]

/-- What holds at the end of a text and before a statement if it holds behind it. -/
theorem remaining_induction (s : Source) {motive : Cursor → Prop} (nil : ∀ c, c.rest = [] → motive c)
    (cons : ∀ c, c.rest ≠ [] → motive (item s c).2 → motive c) (c : Cursor) : motive c := by
  suffices h : ∀ k, ∀ c : Cursor, c.left < k → motive c from h (c.left + 1) c (Nat.lt_succ_self _)
  intro k
  induction k with
  | zero => exact fun c hc => absurd hc (Nat.not_lt_zero _)
  | succ k ih =>
    intro c hk
    by_cases hc : c.rest = []
    · exact nil c hc
    · exact cons c hc (ih _ (Nat.lt_of_lt_of_le (item_left_lt hc) (Nat.le_of_lt_succ hk)))

/-- All statements are read, and errors are only added. -/
theorem remaining_ok (s : Source) (c : Cursor) :
    ∃ body, remaining s c = (.ok body, (remaining s c).2) ∧ c.errors <+: (remaining s c).2.errors := by
  induction c using remaining_induction s with
  | nil c hc =>
    rw [remaining_nil hc]
    exact ⟨[], rfl, List.prefix_rfl⟩
  | cons c hc ih =>
    obtain ⟨first, hfirst⟩ := item_ok s c
    obtain ⟨others, hothers, herrors⟩ := ih
    rw [remaining_cons hc hfirst, run_bind, hothers]
    exact ⟨first.toList ++ others, rfl, ((tracks_item (.alone s)).errors c hc).trans herrors⟩

theorem remaining_errors (hc : c.rest ≠ []) : (item s c).2.errors <+: (remaining s c).2.errors := by
  obtain ⟨first, hfirst⟩ := item_ok s c
  obtain ⟨others, hothers, herrors⟩ := remaining_ok s (item s c).2
  rw [remaining_cons hc hfirst, run_bind, hothers]
  exact herrors

end Reading

section Clean

/-- A statement of a text without errors can be read. -/
theorem readable_of_clean (herrors : (item s c).2.errors = c.errors) : ∃ a, (statement s c).1 = .ok a := by
  have hprefix := (clause_statement (e := .alone s) (P := fun _ => True)).errors c trivial
  have hitem : (item s c).2.errors = (recovering statement s c).2.errors := by
    rw [item, run_moving]
    dsimp only
    split <;> rfl
  rw [hitem, run_recovering] at herrors
  rcases hr : statement s c with ⟨err | a, d⟩
  · -- An error would have been added.
    replace hprefix := hprefix.length_le
    change _ ≤ (statement s c).2.errors.length at hprefix
    rw [hr] at herrors hprefix
    replace herrors := congrArg List.length herrors
    dsimp only at herrors hprefix
    rw [List.length_append, List.length_singleton] at herrors
    omega
  · exact ⟨a, rfl⟩

/-- The statements of a text without errors are read in the longer text, where others may come after them. -/
theorem remaining_within (e : Excerpt) (c : Cursor) : ∀ c' body, e.Matches c c' →
    (remaining e.text c).1 = .ok body → (remaining e.text c).2.errors = c.errors →
      remaining e.whole c' =
        (remaining >>= fun others => pure (bodyMoved e.move body ++ others)) e.whole (c'.moveTo e.after) := by
  induction c using remaining_induction e.text with
  | nil c hc =>
    intro c' body hmatch hbody _
    rw [remaining_nil hc] at hbody
    cases hbody
    have hend : c'.moveTo e.after = c' := Cursor.eq_of_fields (by
      rw [hmatch.rest, hc]
      rfl) rfl rfl
    rw [hend]
    exact (congrFun (congrFun (bind_pure remaining) e.whole) c').symm
  | cons c hc ih =>
    intro c' body hmatch hbody herrors
    obtain ⟨first, hfirst⟩ := item_ok e.text c
    obtain ⟨others, hothers, hmore⟩ := remaining_ok e.text (item e.text c).2
    rw [remaining_cons hc hfirst, run_bind, hothers] at hbody herrors
    cases hbody
    have hclean : (item e.text c).2.errors = c.errors :=
      (hmore.trans (herrors ▸ List.prefix_rfl)).eq_of_length_le ((tracks_item e).errors c hc).length_le
    obtain ⟨d', hrun, hd⟩ := (tracks_item_readable e).same c c' ⟨hc, readable_of_clean hclean⟩ hmatch
      (Or.inr ⟨rfl, first, by rw [hfirst]⟩)
    have hc' : c'.rest ≠ [] := by
      rw [hmatch.rest]
      exact List.append_ne_nil_of_left_ne_nil (fun hnil => hc (List.map_eq_nil_iff.1 hnil)) _
    rw [hfirst] at hrun
    have hrest := ih d' others hd (by rw [hothers]) (herrors.trans hclean.symm)
    have hend : d'.moveTo e.after = c'.moveTo e.after := by
      refine Cursor.eq_of_fields rfl ?_ ?_
      · show d'.nesting = c'.nesting
        rw [hd.nesting, hmatch.nesting, (tracks_item e).nesting c hc]
      · show d'.errors = c'.errors
        rw [hd.errors, hmatch.errors, hclean]
    rw [hend] at hrest
    rw [remaining_cons hc' hrun, run_bind, hrest, run_bind, run_bind]
    rcases remaining e.whole (c'.moveTo e.after) with ⟨err | more, f⟩
    · rfl
    · show (Except.ok ((first.map (·.moved e.move)).toList ++ (bodyMoved e.move others ++ more)), f) =
        (Except.ok (bodyMoved e.move (first.toList ++ others) ++ more), f)
      rw [bodyMoved_append, bodyMoved_toList, List.append_assoc]

end Clean

section Skipping

theorem skipFrom_cons {t : PlacedToken} {ts : List PlacedToken} {nesting depth : Nat}
    (hsemicolon : t.token ≠ .punctuation .semicolon) (hopen : t.token ≠ .punctuation .lBrace)
    (hclose : t.token ≠ .punctuation .rBrace) : skipFrom nesting depth (t :: ts) = skipFrom nesting depth ts := by
  conv => lhs; unfold skipFrom
  split
  · next h => exact absurd h hsemicolon
  · next h => exact absurd h hopen
  · next h => exact absurd h hclose
  · rfl

/-- What is skipped ends with the only semicolon. -/
theorem skipFrom_ended {ts after : List PlacedToken} (h : Ended ts) (nesting : Nat) :
    skipFrom nesting 0 (ts ++ after) = after := by
  obtain ⟨front, last, rfl, hlast, hfront⟩ := h
  induction front with
  | nil =>
    rw [List.nil_append, List.singleton_append, skipFrom, hlast]
    rfl
  | cons t front ih =>
    obtain ⟨hsemicolon, hopen, hclose⟩ := hfront t List.mem_cons_self
    have hskip := ih fun u hu => hfront u (List.mem_cons_of_mem t hu)
    rw [List.cons_append, List.cons_append, skipFrom_cons hsemicolon hopen hclose, hskip]

end Skipping

section Version

/-- What a version line is read as, and what is left behind it. -/
theorem versionLine_two {t u : PlacedToken} {ts : List PlacedToken} (hc : c.rest = t :: u :: ts) :
    versionLine s c =
      (match versionText? u.token with
        | some v =>
          if knownVersion v then expect .semicolon >>= fun _ => pure v
          else fail ⟨.invalidVersion v, s.spanAt u.start⟩
        | none => fail ⟨.invalidVersion u.token.text, s.spanAt u.start⟩) s c.next.next := by
  obtain ⟨rest, left, hleft, nesting, errors⟩ := c
  cases hc
  rfl

theorem versionLine_short (hc : c.rest.tail = []) : ∃ err, (versionLine s c).1 = .error err := by
  obtain ⟨rest, left, rfl, nesting, errors⟩ := c
  match rest, hc with
  | [], _ => exact ⟨_, rfl⟩
  | [_], _ => exact ⟨_, rfl⟩

theorem versionLine_ok_iff {v : String} : versionLine s c = (.ok v, d) ↔
    ∃ t u w ts, c.rest = t :: u :: w :: ts ∧ versionText? u.token = some v ∧ knownVersion v = true ∧
      w.token = .punctuation .semicolon ∧ d = c.moveTo ts := by
  constructor
  · intro h
    match hc : c.rest with
    | [] | [_] =>
      obtain ⟨err, herr⟩ := versionLine_short (s := s) (c := c) (by rw [hc]; rfl)
      rw [h] at herr
      nomatch herr
    | t :: u :: ts =>
      rw [versionLine_two hc] at h
      cases hv : versionText? u.token with
      | none =>
        rw [hv] at h
        nomatch h
      | some v' =>
        rw [hv] at h
        dsimp only at h
        split at h
        · next hk =>
          rw [expect_bind, run_peek] at h
          split at h
          · next hp =>
            cases h
            obtain ⟨w, hw, htoken⟩ := Option.map_eq_some_iff.1 (eq_of_isPunctuation hp)
            obtain ⟨ts', hts⟩ := List.head?_eq_some_iff.1 hw
            replace hts : ts = w :: ts' := by
              rw [← hts]
              show ts = c.rest.tail.tail
              rw [hc]
              rfl
            refine ⟨t, u, w, ts', by rw [hts], hv, hk, htoken, Cursor.eq_of_fields ?_ rfl rfl⟩
            show c.rest.tail.tail.tail = ts'
            rw [hc, hts]
            rfl
          · obtain ⟨err, herr⟩ := unexpected_error (α := String)
              ("'" ++ Punctuation.semicolon.text ++ "'") s c.next.next
            rw [herr] at h
            nomatch h
        · nomatch h
  · rintro ⟨t, u, w, ts, hc, hv, hk, hw, rfl⟩
    have hhead : isPunctuation .semicolon c.next.next.head? = true := by
      show isPunctuation .semicolon (c.rest.tail.tail.head?.map PlacedToken.token) = true
      rw [hc]
      show isPunctuation .semicolon (some w.token) = true
      rw [hw]
      rfl
    rw [versionLine_two hc, hv]
    dsimp only
    rw [if_pos hk, expect_bind, run_peek, if_pos hhead]
    refine Prod.ext rfl (Cursor.eq_of_fields ?_ rfl rfl)
    show c.rest.tail.tail.tail = ts
    rw [hc]
    rfl

/-- A version line fails behind the token after the keyword. -/
theorem versionLine_error {t u : PlacedToken} {ts : List PlacedToken} {err : SyntaxError}
    (hc : c.rest = t :: u :: ts) (herr : (versionLine s c).1 = .error err) :
    versionLine s c = (.error err, c.next.next) := by
  have hrun : (versionLine s c).2 = c.next.next := by
    rw [versionLine_two hc] at herr ⊢
    cases hv : versionText? u.token with
    | none => rfl
    | some v =>
      rw [hv] at herr
      dsimp only at herr ⊢
      split at herr
      · next hk =>
        rw [if_pos hk]
        rw [expect_bind, run_peek] at herr ⊢
        split at herr
        · nomatch herr
        · next hp =>
          obtain ⟨err', herr'⟩ := unexpected_error (α := String)
            ("'" ++ Punctuation.semicolon.text ++ "'") s c.next.next
          rw [if_neg hp, herr']
      · next hk =>
        rw [if_neg hk]
        rfl
  exact Prod.ext herr hrun

theorem version?_none (hc : isKeyword .openqasm c.head? = false) : version? s c = (.ok none, c) := by
  rw [version?, run_peek, hc]
  rfl

theorem version?_openqasm (hc : isKeyword .openqasm c.head? = true) :
    version? s c = recovering versionLine s c := by
  rw [version?, run_peek, hc]
  rfl

/-- A version line that can be read, or none. -/
theorem version?_clean (herrors : (version? s c).2.errors = []) :
    isKeyword .openqasm c.head? = false ∧ version? s c = (.ok none, c) ∨
      ∃ v d, isKeyword .openqasm c.head? = true ∧ versionLine s c = (.ok v, d) ∧
        version? s c = (.ok (some v), d) := by
  cases hc : isKeyword .openqasm c.head? with
  | false => exact Or.inl ⟨rfl, version?_none hc⟩
  | true =>
    rw [version?_openqasm hc, run_recovering] at herrors ⊢
    rcases hr : versionLine s c with ⟨err | v, d⟩
    · rw [hr] at herrors
      exact absurd herrors (List.append_ne_nil_of_right_ne_nil _ (List.cons_ne_nil _ _))
    · exact Or.inr ⟨v, d, rfl, rfl, rfl⟩

/-- The version line of a text without errors is read in the longer text. -/
theorem version?_within (e : Excerpt) {c' : Cursor} (hmatch : e.Matches c c')
    (herrors : (version? e.text c).2.errors = [])
    (hnext : isKeyword .openqasm (e.after.head?.map PlacedToken.token) = false) :
    ∃ v d d', version? e.text c = (.ok v, d) ∧ version? e.whole c' = (.ok v, d') ∧ e.Matches d d' ∧
      d.nesting = c.nesting ∧ d.errors = c.errors := by
  rcases version?_clean herrors with ⟨hhead, hrun⟩ | ⟨v, d, hhead, hline, hrun⟩
  · have hhead' : isKeyword .openqasm c'.head? = false := by
      by_cases hnil : c.rest = []
      · rw [Cursor.head?, hmatch.rest, hnil]
        exact hnext
      · rwa [hmatch.head? hnil]
    exact ⟨none, c, c', hrun, version?_none hhead', hmatch, rfl, rfl⟩
  · obtain ⟨t, u, w, ts, hc, hv, hk, hw, rfl⟩ := versionLine_ok_iff.1 hline
    have hrest : c.rest ≠ [] := hc ▸ List.cons_ne_nil _ _
    have hline' : versionLine e.whole c' = (.ok v, c'.moveTo (ts.map e.token ++ e.after)) :=
      versionLine_ok_iff.2 ⟨e.token t, e.token u, e.token w, ts.map e.token ++ e.after, by rw [hmatch.rest, hc]; rfl,
        hv, hk, hw, rfl⟩
    refine ⟨some v, c.moveTo ts, c'.moveTo (ts.map e.token ++ e.after), hrun, ?_, ?_, rfl, rfl⟩
    · rw [version?_openqasm (by rwa [hmatch.head? hrest]), run_recovering, hline']
    · have hsuffix : ts <:+ c.rest := hc ▸ ⟨[t, u, w], rfl⟩
      exact ⟨rfl, hmatch.nesting, hmatch.errors, fun x hx => hmatch.inside x (hsuffix.subset hx)⟩

/-- A version line that is broken, but has a token before its semicolon, costs no more than itself. -/
theorem version?_broken {t u : PlacedToken} {ts after : List PlacedToken} {err : SyntaxError}
    (hc : c.rest = t :: u :: (ts ++ after)) (ht : t.token = .keyword .openqasm) (hend : Ended ts)
    (herr : (versionLine s c).1 = .error err) :
    version? s c = (.ok none, { c.moveTo after with errors := c.errors ++ [err] }) := by
  have hhead : isKeyword .openqasm c.head? = true := by
    rw [Cursor.head?, hc]
    show isKeyword .openqasm (some t.token) = true
    rw [ht]
    rfl
  rw [version?_openqasm hhead, run_recovering, versionLine_error hc herr]
  refine Prod.ext rfl (Cursor.eq_of_fields ?_ rfl rfl)
  show skipFrom c.nesting 0 c.rest.tail.tail = after
  rw [hc]
  exact skipFrom_ended hend _

end Version

section Broken

variable {e : Excerpt} {c' : Cursor} {err : SyntaxError}

theorem statement_final (hend : Ended c.rest) (herr : (statement s c).1 = .error err) :
    (statement s c).2.errors = c.errors ∧ Ended (statement s c).2.rest := by
  have hclause := clause_statement (e := .alone s) (P := fun _ => True)
  obtain ⟨herrors, hrest⟩ := hclause.final c trivial hend
  exact ⟨herrors, (hend.suffix (hclause.rest c trivial)).resolve_left (hrest err herr)⟩

/-- A statement that is broken costs the tokens up to its semicolon and is one error. -/
theorem item_broken (hmatch : e.Matches c c') (hend : Ended c.rest) (herr : (statement e.text c).1 = .error err) :
    item e.whole c' = (.ok none, { c'.moveTo e.after with errors := c'.errors ++ [e.error err] }) := by
  have hclause := clause_statement (e := e) (P := fun _ => True)
  obtain ⟨herrors, hrest⟩ := statement_final hend herr
  obtain ⟨d', hrun, hd⟩ := hclause.same c c' trivial hmatch (Or.inl hrest.ne_nil)
  rw [herr] at hrun
  have hskip : skipFrom d'.nesting 0 d'.rest = e.after := by
    rw [hd.rest]
    exact skipFrom_ended (hrest.token e) _
  have hnesting : d'.nesting = c'.nesting := by
    rw [hd.nesting, hmatch.nesting]
    exact hclause.nesting c trivial
  have herrors' : d'.errors = c'.errors := by
    rw [hd.errors, hmatch.errors, herrors]
  have hmoved : e.after.length ≠ c'.left := by
    have hpos := List.length_pos_iff.2 hend.ne_nil
    rw [hmatch.left, c.left_eq]
    omega
  have hrecover : recovering statement e.whole c' =
      (.ok none, { c'.moveTo e.after with errors := c'.errors ++ [e.error err] }) := by
    rw [run_recovering, hrun]
    exact Prod.ext rfl (Cursor.eq_of_fields hskip hnesting (congrArg (· ++ [e.error err]) herrors'))
  rw [item, run_moving, hrecover]
  dsimp only
  rw [if_neg]
  intro hstill
  exact hmoved (of_decide_eq_true (Bool.and_eq_true_iff.1 hstill).1)

/-- The error of a broken statement is at one of its tokens. -/
theorem statement_error_place (hend : Ended c.rest) (herr : (statement s c).1 = .error err) :
    ∃ t ∈ c.rest, err.span = s.spanAt t.start := by
  have hclause := clause_statement (e := .alone s) (P := fun _ => True)
  obtain ⟨t, ts, hts⟩ := List.exists_cons_of_ne_nil (statement_final hend herr).2.ne_nil
  refine ⟨t, (hclause.rest c trivial).subset (hts ▸ List.mem_cons_self), ?_⟩
  exact hclause.place c trivial err herr t (List.head?_eq_some_iff.2 ⟨ts, hts⟩)

end Broken

end Grammar

end OpenQasm
