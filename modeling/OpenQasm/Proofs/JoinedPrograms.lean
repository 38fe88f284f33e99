import OpenQasm.Proofs.JoinedTexts
import OpenQasm.Proofs.RelocatedPrograms

/-!
Programs without errors that stand within a longer text. Their statements are read there too, whether other lines
come after them or before.
-/
namespace OpenQasm

open OpenQasm.Parser OpenQasm.Grammar

section Within

variable {w cs before after : List Char}

/-- The text `cs` within a longer one, where it ends with its line. -/
def Excerpt.within (cs : List Char) (hw : w = before ++ cs ++ after) (hafter : ∀ c ∈ after.head?, c = '\n')
    (errors : List SyntaxError)
    (helse : ∀ t ∈ (tokensFrom (byteLength before + byteLength cs) after).head?, t.token ≠ .keyword .else) :
    Excerpt where
  text := .ofChars cs
  whole := .ofChars w
  offset := byteLength before
  move := Span.after before
  before := errors
  after := tokensFrom (byteLength before + byteLength cs) after
  spanAt _ ho := by
    rw [hw]
    exact spanAt_within ho
  lineRest _ ho := by
    rw [hw]
    exact lineRest_within ho hafter
  after_start _ ht := (tokensFrom_inside (List.mem_of_mem_head? ht)).1
  after_else := helse

/-- Reading starts at the first token of the text. -/
theorem Excerpt.within_matches (hw : w = before ++ cs ++ after) (hafter : ∀ c ∈ after.head?, c = '\n')
    {errors : List SyntaxError}
    (helse : ∀ t ∈ (tokensFrom (byteLength before + byteLength cs) after).head?, t.token ≠ .keyword .else)
    (hvalid : LexicallyValid cs) {c' : Cursor} (hnesting : c'.nesting = 0) (herrors : c'.errors = errors)
    (hrest : c'.rest = tokensFrom (byteLength before) cs ++
      tokensFrom (byteLength before + byteLength cs) after) :
    (Excerpt.within cs hw hafter errors helse).Matches (cursor (.ofChars cs)) c' := by
  rw [hvalid.cursor_eq]
  refine ⟨?_, hnesting, ?_, fun t ht => ?_⟩
  · rw [hrest, tokensFrom_shift]
    rfl
  · rw [herrors]
    exact (List.append_nil errors).symm
  · have hinside := tokensFrom_inside ht
    rw [Nat.zero_add] at hinside
    exact ⟨Nat.le_trans hinside.2.1 hinside.2.2, hinside.2.2⟩

end Within

section Programs

theorem version?_ok (s : Source) (c : Cursor) : ∃ v, version? s c = (.ok v, (version? s c).2) := by
  cases hc : isKeyword .openqasm c.head? with
  | false => exact ⟨none, by rw [version?_none hc]⟩
  | true =>
    obtain ⟨v, hv⟩ := Excerpt.recovering_ok (p := versionLine) s c
    rw [version?_openqasm hc]
    exact ⟨v, Prod.ext hv rfl⟩

theorem parse_eq {text : String} {cs : List Char} (htext : text.toList = cs) {v : Option String} {c d : Cursor}
    {body : List Statement} (hversion : version? (.ofChars cs) (cursor (.ofChars cs)) = (.ok v, c))
    (hbody : remaining (.ofChars cs) c = (.ok body, d)) : Program.parse text = (⟨v, body⟩, d.errors) := by
  subst htext
  have hprogram : program (.ofChars text.toList) (cursor (.ofChars text.toList)) = (.ok ⟨v, body⟩, d) := by
    show (version? >>= fun v => remaining >>= fun ss => pure (Program.mk v ss)) _ _ = _
    rw [Excerpt.run_bind, hversion]
    dsimp only
    rw [Excerpt.run_bind, hbody]
    rfl
  have hsource : Source.ofString text = .ofChars text.toList := rfl
  simp only [Program.parse, hsource, hprogram]

/-- How a program without errors is read. -/
structure ReadsClean (cs : List Char) (p : Program) : Prop where
  valid : LexicallyValid cs
  version : (version? (.ofChars cs) (cursor (.ofChars cs))).1 = .ok p.version
  version_errors : (version? (.ofChars cs) (cursor (.ofChars cs))).2.errors = []
  body : (remaining (.ofChars cs) (version? (.ofChars cs) (cursor (.ofChars cs))).2).1 = .ok p.statements
  body_errors : (remaining (.ofChars cs) (version? (.ofChars cs) (cursor (.ofChars cs))).2).2.errors = []

theorem readsClean_of_parse {text : String} (h : (Program.parse text).2 = []) :
    ReadsClean text.toList (Program.parse text).1 := by
  obtain ⟨v, hv⟩ := version?_ok (.ofChars text.toList) (cursor (.ofChars text.toList))
  obtain ⟨body, hbody, hprefix⟩ := remaining_ok (.ofChars text.toList)
    (version? (.ofChars text.toList) (cursor (.ofChars text.toList))).2
  have hparse := parse_eq rfl hv hbody
  rw [hparse] at h ⊢
  dsimp only at h
  have hstart : (version? (.ofChars text.toList) (cursor (.ofChars text.toList))).2.errors = [] :=
    List.prefix_nil.1 (h ▸ hprefix)
  refine ⟨.of_cursor ?_, by rw [hv], hstart, by rw [hbody], h⟩
  rcases version?_clean hstart with ⟨-, hrun⟩ | ⟨v, d, -, hline, hrun⟩
  · rwa [hrun] at hstart
  · obtain ⟨t, u, w, ts, -, -, -, -, rfl⟩ := versionLine_ok_iff.1 hline
    rwa [hrun] at hstart

theorem statement_else {s : Source} {c : Cursor} {t : PlacedToken} {ts : List PlacedToken}
    (hc : c.rest = t :: ts) (ht : t.token = .keyword .else) : ∃ err, (statement s c).1 = .error err := by
  obtain ⟨rest, left, rfl, nesting, errors⟩ := c
  obtain ⟨token, start, stop⟩ := t
  cases hc
  cases ht
  exact ⟨_, rfl⟩

namespace ReadsClean

variable {w cs before after : List Char} {p : Program}

/-- Without a version the statements are all that there is. -/
theorem unversioned (h : ReadsClean cs p) (hversion : p.version = none) :
    version? (.ofChars cs) (cursor (.ofChars cs)) = (.ok none, cursor (.ofChars cs)) := by
  rcases version?_clean h.version_errors with ⟨-, hrun⟩ | ⟨v, d, -, -, hrun⟩
  · exact hrun
  · have hv := h.version
    rw [hrun, hversion] at hv
    nomatch hv

/-- A program without errors does not start as the rest of a branch. -/
theorem head_ne_else (h : ReadsClean cs p) (hversion : p.version = none) :
    ∀ t ∈ (tokensFrom 0 cs).head?, t.token ≠ .keyword .else := by
  intro t ht helse
  obtain ⟨ts, hts⟩ := List.head?_eq_some_iff.1 ht
  have hrest : (cursor (.ofChars cs)).rest = t :: ts := hts
  have herrors := h.body_errors
  rw [h.unversioned hversion] at herrors
  have hitem : (item (.ofChars cs) (cursor (.ofChars cs))).2.errors = [] :=
    List.prefix_nil.1 (herrors ▸ remaining_errors (hrest ▸ List.cons_ne_nil _ _))
  have hstart : (cursor (.ofChars cs)).errors = [] := by
    rw [h.valid.cursor_eq]
    rfl
  obtain ⟨a, ha⟩ := readable_of_clean (hitem.trans hstart.symm)
  obtain ⟨err, herr⟩ := statement_else hrest helse
  nomatch ha.symm.trans herr

/-- The version and the statements of a program, before other lines. -/
theorem remaining_first (h : ReadsClean cs p) {ds : List Char} (hds : LexicallyValid ds)
    (hversion : isKeyword .openqasm ((tokensFrom 0 ds).head?.map (·.token)) = false)
    (helse : isKeyword .else ((tokensFrom 0 ds).head?.map (·.token)) = false) :
    ∃ d, version? (.ofChars (cs ++ '\n' :: ds)) (cursor (.ofChars (cs ++ '\n' :: ds))) = (.ok p.version, d) ∧
      d.nesting = 0 ∧ d.errors = [] ∧
      remaining (.ofChars (cs ++ '\n' :: ds)) d =
        (remaining >>= fun others => pure (p.statements ++ others)) (.ofChars (cs ++ '\n' :: ds))
          (d.moveTo (tokensFrom (byteLength cs + 1) ds)) := by
  have hafter : tokensFrom (byteLength [] + byteLength cs) ('\n' :: ds) = tokensFrom (byteLength cs + 1) ds := by
    rw [tokensFrom_break, byteLength, Nat.zero_add]
  have helse' : ∀ t ∈ (tokensFrom (byteLength [] + byteLength cs) ('\n' :: ds)).head?,
      t.token ≠ .keyword .else := by
    intro t ht htoken
    have hhead := tokensFrom_head (byteLength cs + 1) ds
    rw [← hafter, ht] at hhead
    rw [← hhead, Option.map_some, htoken] at helse
    cases helse
  have hw : cs ++ '\n' :: ds = [] ++ cs ++ '\n' :: ds := rfl
  have hclean : (cursor (.ofChars (cs ++ '\n' :: ds))).errors = [] := by
    rw [(h.valid.append hds).cursor_eq]
    rfl
  have hmatch := Excerpt.within_matches hw (head?_break ds) helse' h.valid rfl hclean (by
    show tokensFrom 0 (cs ++ '\n' :: ds) = _
    rw [tokensFrom_lines h.valid, hafter, Nat.zero_add]
    rfl)
  obtain ⟨v, d, d', hrun, hrun', hd, hnesting, herrors⟩ := version?_within _ hmatch h.version_errors (by
    show isKeyword .openqasm ((tokensFrom (byteLength [] + byteLength cs) ('\n' :: ds)).head?.map _) = false
    rw [hafter, tokensFrom_head]
    exact hversion)
  have hv := h.version
  have hbody := h.body
  have herrors' := h.body_errors
  have hstart := h.version_errors
  change version? (.ofChars cs) (cursor (.ofChars cs)) = (.ok v, d) at hrun
  rw [hrun] at hv hbody herrors' hstart
  have hwithin := remaining_within _ d d' p.statements hd hbody (herrors'.trans hstart.symm)
  refine ⟨d', Except.ok.inj hv ▸ hrun', hd.nesting.trans hnesting, ?_, ?_⟩
  · rw [hd.errors, hstart]
    rfl
  · have hsame : bodyMoved (.after []) p.statements = p.statements := bodyMoved_id after_nil _
    rw [← hafter, ← hsame]
    exact hwithin

/-- The statements of a program without a version, after another text. -/
theorem remaining_last (h : ReadsClean cs p) (hversion : p.version = none) (hw : w = before ++ cs)
    {c : Cursor} (hnesting : c.nesting = 0) (hrest : c.rest = tokensFrom (byteLength before) cs) :
    remaining (.ofChars w) c = (.ok (bodyMoved (.after before) p.statements), c.moveTo []) := by
  have hnone (offset : Nat) : tokensFrom offset [] = [] := congrArg placedTokens (Token.scanFrom_nil offset)
  have hbody := h.body
  have herrors := h.body_errors
  rw [h.unversioned hversion] at hbody herrors
  have hw' : w = before ++ cs ++ [] := by rw [hw, List.append_nil]
  have hmatch := Excerpt.within_matches hw' (fun _ hc => by cases hc)
    (by rw [hnone]; exact fun _ ht => by cases ht) h.valid hnesting rfl (by rw [hrest, hnone, List.append_nil])
  have hstart : (cursor (.ofChars cs)).errors = [] := by
    rw [h.valid.cursor_eq]
    rfl
  have hwithin := remaining_within _ _ c p.statements hmatch hbody (herrors.trans hstart.symm)
  calc remaining (.ofChars w) c
      = (remaining >>= fun others => pure (bodyMoved (.after before) p.statements ++ others))
          (.ofChars w) (c.moveTo (tokensFrom (byteLength before + byteLength cs) [])) := hwithin
    _ = (.ok (bodyMoved (.after before) p.statements), c.moveTo []) := by
      rw [hnone, Excerpt.run_bind, remaining_nil rfl]
      exact Prod.ext (congrArg Except.ok (List.append_nil _)) rfl

end ReadsClean

end Programs

end OpenQasm
