import OpenQasm.Proofs.JoinedPrograms

/-!
What a malformed line costs: only itself. Between two programs without errors, a line from which no statement can
be read is one error, and all statements of both programs are there.
-/
namespace OpenQasm

open OpenQasm.Parser OpenQasm.Grammar

section Malformed

/-- A text of valid tokens without braces, the last of them the only semicolon. -/
structure SemicolonText (x : String) : Prop where
  valid : (cursor (.ofString x)).errors = []
  closed : isPunctuation .semicolon ((cursor (.ofString x)).rest.getLast?.map (·.token)) = true
  plain : ∀ t ∈ (cursor (.ofString x)).rest.dropLast, ∀ s ∈ [Punctuation.semicolon, .lBrace, .rBrace],
    isPunctuation s (some t.token) = false

/-- A line from which no statement can be read. It is not taken for a version or for the rest of a branch
either. -/
structure MalformedStatement (x : String) : Prop extends SemicolonText x where
  line : '\n' ∉ x.toList
  not_version : isKeyword .openqasm (cursor (.ofString x)).head? = false
  not_else : isKeyword .else (cursor (.ofString x)).head? = false
  unreadable : (statement (.ofString x) (cursor (.ofString x))).1.isOk = false

variable {w cs before : List Char} {p : Program} {x : String}

theorem SemicolonText.lexicallyValid (h : SemicolonText x) : LexicallyValid x.toList := .of_cursor h.valid

theorem SemicolonText.ended (h : SemicolonText x) : Excerpt.Ended (tokensFrom 0 x.toList) := by
  obtain ⟨last, hlast, htoken⟩ := Option.map_eq_some_iff.1 (Excerpt.eq_of_isPunctuation h.closed)
  obtain ⟨front, hfront⟩ := List.getLast?_eq_some_iff.1 hlast
  refine ⟨front, last, hfront, htoken, fun t ht => ?_⟩
  · have hnone := h.plain t (by rwa [hfront, List.dropLast_concat])
    refine ⟨fun heq => ?_, fun heq => ?_, fun heq => ?_⟩
    · have hfalse := hnone .semicolon (by simp)
      rw [heq] at hfalse
      nomatch hfalse
    · have hfalse := hnone .lBrace (by simp)
      rw [heq] at hfalse
      nomatch hfalse
    · have hfalse := hnone .rBrace (by simp)
      rw [heq] at hfalse
      nomatch hfalse

/-- What is left is a malformed line and a program without errors and version. -/
theorem remaining_malformed (hx : MalformedStatement x) (hp : ReadsClean cs p)
    (hversion : p.version = none) (hw : w = before ++ ['\n'] ++ x.toList ++ '\n' :: cs)
    {c : Cursor} (hnesting : c.nesting = 0) (herrors : c.errors = [])
    (hrest : c.rest = tokensFrom (byteLength (before ++ ['\n'])) x.toList ++
      tokensFrom (byteLength (before ++ ['\n']) + byteLength x.toList + 1) cs) {err : SyntaxError}
    (herr : (statement (.ofString x) (cursor (.ofString x))).1 = .error err) :
    remaining (.ofChars w) c = (.ok (bodyMoved (.down (before.count '\n' + 2)) p.statements),
      { c.moveTo [] with errors := [⟨err.fault, err.span.down (before.count '\n' + 1)⟩] }) := by
  have helse : ∀ t ∈ (tokensFrom (byteLength (before ++ ['\n']) + byteLength x.toList) ('\n' :: cs)).head?,
      t.token ≠ .keyword .else := by
    rw [tokensFrom_break, tokensFrom_shift]
    intro t ht
    rw [List.head?_map] at ht
    obtain ⟨t', ht', rfl⟩ := Option.map_eq_some_iff.1 ht
    exact hp.head_ne_else hversion t' ht'
  have hmatch := Excerpt.within_matches hw (head?_break cs) helse
    hx.lexicallyValid hnesting herrors (by rw [hrest, tokensFrom_break])
  have hne : c.rest ≠ [] := by
    rw [hrest, tokensFrom_shift]
    refine List.append_ne_nil_of_left_ne_nil (fun hnil => hx.ended.ne_nil ?_) _
    exact List.map_eq_nil_iff.1 hnil
  let after : Cursor :=
    { c.moveTo (tokensFrom (byteLength (before ++ ['\n']) + byteLength x.toList) ('\n' :: cs)) with
      errors := [⟨err.fault, err.span.after (before ++ ['\n'])⟩] }
  have hstep : item (.ofChars w) c = (.ok none, after) := by
    have hitem := item_broken hmatch hx.ended herr
    rw [herrors] at hitem
    exact hitem
  have hjoin : before ++ ['\n'] ++ x.toList ++ '\n' :: cs = before ++ ['\n'] ++ x.toList ++ ['\n'] ++ cs :=
    (List.append_assoc _ ['\n'] cs).symm
  have hlast : remaining (.ofChars w) after = (.ok _, after.moveTo []) :=
    hp.remaining_last hversion (hw.trans hjoin) hnesting (by
        rw [byteLength_append _ ['\n'], byteLength_append _ x.toList]
        exact tokensFrom_break _ _)
  have hmove : Span.after (before ++ ['\n'] ++ x.toList ++ ['\n']) = Span.down (before.count '\n' + 2) := by
    funext s
    rw [after_lines, List.count_append, List.count_append, List.count_eq_zero.2 hx.line, List.count_singleton_self]
  rw [hmove] at hlast
  rw [remaining_cons hne hstep, Excerpt.run_bind, hlast, ← after_lines]
  rfl

theorem exists_error {α : Type} {r : Except SyntaxError α} (h : r.isOk = false) : ∃ err, r = .error err := by
  cases r with
  | error err => exact ⟨err, rfl⟩
  | ok a => nomatch h

/-- The error of a malformed line is in the line, at or before its semicolon. -/
theorem MalformedStatement.error_place (h : MalformedStatement x) {err : SyntaxError}
    (herr : (statement (.ofString x) (cursor (.ofString x))).1 = .error err) :
    err.span.line = 1 ∧ ∃ last ∈ (cursor (.ofString x)).rest.getLast?,
      err.span.column ≤ ((Source.ofString x).spanAt last.start).column := by
  obtain ⟨t, ht, hspan⟩ := statement_error_place h.ended herr
  obtain ⟨front, last, hfront, -⟩ := h.ended
  have hsorted := tokensFrom_sorted 0 x.toList
  have hle : t.start ≤ last.start := by
    rw [hfront] at hsorted
    have ht' : t ∈ front ++ [last] := hfront ▸ ht
    rcases List.mem_append.1 ht' with ht' | ht'
    · exact (List.pairwise_append.1 hsorted).2.2 t ht' last (List.mem_singleton_self _)
    · exact Nat.le_of_eq (congrArg PlacedToken.start (List.mem_singleton.1 ht'))
  have hat (o : Nat) : (Source.ofString x).spanAt o = ⟨1, o + 1⟩ := spanAt_line h.line o
  rw [hspan, hat]
  refine ⟨rfl, last, List.getLast?_eq_some_iff.2 ⟨front, hfront⟩, ?_⟩
  rw [hat]
  exact Nat.succ_le_succ hle

/-- A malformed statement costs only itself. Between two programs without errors it is one error, at or before its
semicolon, and all statements of both programs are read. -/
theorem parse_malformed_statement {a b : String} (ha : (Program.parse a).2 = []) (hx : MalformedStatement x)
    (hb : (Program.parse b).2 = []) (hversion : (Program.parse b).1.version = none) :
    ∃ err, (statement (.ofString x) (cursor (.ofString x))).1 = .error err ∧
      (err.span.line = 1 ∧ ∃ last ∈ (cursor (.ofString x)).rest.getLast?,
        err.span.column ≤ ((Source.ofString x).spanAt last.start).column) ∧
      Program.parse (a ++ "\n" ++ x ++ "\n" ++ b) =
        (⟨(Program.parse a).1.version, (Program.parse a).1.statements ++
            (Program.parse b).1.statements.map (·.moved (.down (a.toList.count '\n' + 2)))⟩,
          [⟨err.fault, err.span.down (a.toList.count '\n' + 1)⟩]) := by
  have hfirst := readsClean_of_parse ha
  have hlast := readsClean_of_parse hb
  generalize (Program.parse a).1 = p at hfirst ⊢
  generalize (Program.parse b).1 = q at hlast hversion ⊢
  have htext : (a ++ "\n" ++ x ++ "\n" ++ b).toList = a.toList ++ '\n' :: (x.toList ++ '\n' :: b.toList) := by
    simp [String.toList_append]
  obtain ⟨err, herr⟩ := exists_error hx.unreadable
  refine ⟨err, herr, hx.error_place herr, ?_⟩
  have hrest := hx.lexicallyValid.append hlast.valid
  obtain ⟨t, ts, hts⟩ := List.exists_cons_of_ne_nil hx.ended.ne_nil
  have hhead : (tokensFrom 0 (x.toList ++ '\n' :: b.toList)).head?.map PlacedToken.token =
      (cursor (.ofString x)).head? := by
    rw [tokensFrom_lines hx.lexicallyValid, hts, List.cons_append]
    show _ = (tokensFrom 0 x.toList).head?.map PlacedToken.token
    rw [hts]
    rfl
  obtain ⟨d, hd, hnesting, herrors, hrun⟩ := hfirst.remaining_first hrest (hhead ▸ hx.not_version)
    (hhead ▸ hx.not_else)
  have hjoin : a.toList ++ '\n' :: (x.toList ++ '\n' :: b.toList) =
      a.toList ++ ['\n'] ++ x.toList ++ '\n' :: b.toList := by simp
  have hmalformed := remaining_malformed hx hlast hversion hjoin
    (c := d.moveTo (tokensFrom (byteLength a.toList + 1) (x.toList ++ '\n' :: b.toList))) hnesting herrors (by
      rw [byteLength_append]
      exact tokensFrom_lines hx.lexicallyValid _ _) herr
  rw [Excerpt.run_bind, hmalformed] at hrun
  rw [parse_eq htext hd hrun, bodyMoved_eq]

theorem malformed_statement_between_statements :
    let r := Program.parse ("OPENQASM 3.0;\nqubit q;" ++ "\n" ++ "qubit 5 q;" ++ "\n" ++ "reset q;")
    r.1.version = some "3.0" ∧ r.1.statements.length = 2 ∧ r.2.length = 1 := by
  have hx : MalformedStatement "qubit 5 q;" := by
    constructor
    · constructor <;> decide +kernel
    all_goals decide +kernel
  obtain ⟨err, -, -, hparse⟩ := parse_malformed_statement (a := "OPENQASM 3.0;\nqubit q;") (b := "reset q;")
    (by decide +kernel) hx (by decide +kernel) (by decide +kernel)
  have hfirst : (Program.parse "OPENQASM 3.0;\nqubit q;").1.version = some "3.0" ∧
      (Program.parse "OPENQASM 3.0;\nqubit q;").1.statements.length = 1 := by decide +kernel
  have hlast : (Program.parse "reset q;").1.statements.length = 1 := by decide +kernel
  rw [hparse]
  refine ⟨hfirst.1, ?_, rfl⟩
  rw [List.length_append, List.length_map, hfirst.2, hlast]

/-- A text that starts as a version line and has more than the keyword and the semicolon, but is none. -/
structure MalformedVersion (x : String) : Prop extends SemicolonText x where
  keyword : isKeyword .openqasm (cursor (.ofString x)).head? = true
  more : 2 < (cursor (.ofString x)).rest.length
  unreadable : (versionLine (.ofString x) (cursor (.ofString x))).1.isOk = false

theorem MalformedVersion.tokens (hx : MalformedVersion x) : ∃ t u w ts,
    tokensFrom 0 x.toList = t :: u :: w :: ts ∧ t.token = .keyword .openqasm ∧ Excerpt.Ended (w :: ts) := by
  have hmore : 2 < (tokensFrom 0 x.toList).length := hx.more
  have hkeyword : (tokensFrom 0 x.toList).head?.map PlacedToken.token = some (.keyword .openqasm) :=
    Excerpt.eq_of_isKeyword hx.keyword
  have hend := hx.ended
  match hts : tokensFrom 0 x.toList with
  | [] | [_] | [_, _] =>
    rw [hts] at hmore
    nomatch hmore
  | t :: u :: w :: ts =>
    rw [hts] at hkeyword hend
    exact ⟨t, u, w, ts, rfl, Option.some.inj hkeyword,
      (hend.suffix ⟨[t, u], rfl⟩).resolve_left (List.cons_ne_nil _ _)⟩

/-- The text is no version line either where other tokens follow. -/
theorem MalformedVersion.fails (hx : MalformedVersion x) {s : Source} {c : Cursor} {after : List PlacedToken}
    (hc : c.rest = tokensFrom 0 x.toList ++ after) : ∃ err, (versionLine s c).1 = .error err := by
  obtain ⟨t, u, w, ts, hts, -⟩ := hx.tokens
  rcases hr : versionLine s c with ⟨err | v, d⟩
  · exact ⟨err, rfl⟩
  · obtain ⟨t', u', w', ts', hrest, hv, hk, hw, -⟩ := versionLine_ok_iff.1 hr
    rw [hc, hts] at hrest
    cases hrest
    have halone := (versionLine_ok_iff (s := .ofString x) (c := cursor (.ofString x))).2
      ⟨t, u, w, ts, hts, hv, hk, hw, rfl⟩
    obtain ⟨err, herr⟩ := exists_error hx.unreadable
    rw [halone] at herr
    nomatch herr

/-- A malformed version line costs only itself, if it is more than the keyword by itself. -/
theorem parse_malformed_version {b : String} (hx : MalformedVersion x) (hcut : CutBetween x.toList b.toList)
    (hb : (Program.parse b).2 = []) (hversion : (Program.parse b).1.version = none) :
    ∃ err, Program.parse (x ++ b) =
      (⟨none, (Program.parse b).1.statements.map (·.moved (.after x.toList))⟩, [err]) := by
  have hlast := readsClean_of_parse hb
  generalize (Program.parse b).1 = q at hlast hversion ⊢
  have hcursor := (hx.lexicallyValid.of_cut hlast.valid hcut).cursor_eq
  rw [tokensFrom_cut hcut] at hcursor
  obtain ⟨err, herr⟩ := hx.fails (s := .ofChars (x.toList ++ b.toList))
    (c := cursor (.ofChars (x.toList ++ b.toList))) (by rw [hcursor]; rfl)
  obtain ⟨t, u, w, ts, hts, hkeyword, hend⟩ := hx.tokens
  have herrors : (cursor (.ofChars (x.toList ++ b.toList))).errors = [] := by
    rw [hcursor]
    rfl
  have hrest : (cursor (.ofChars (x.toList ++ b.toList))).rest =
      t :: u :: (w :: ts ++ tokensFrom (byteLength x.toList) b.toList) := by
    rw [hcursor, hts]
    rfl
  have hbroken := version?_broken hrest hkeyword hend herr
  rw [herrors] at hbroken
  have hrun := hlast.remaining_last (c := ⟨tokensFrom (byteLength x.toList) b.toList, _, rfl, 0, [err]⟩)
    hversion rfl rfl rfl
  exact ⟨err, (parse_eq String.toList_append hbroken hrun).trans (by rw [bodyMoved_eq]; rfl)⟩

theorem malformed_version_before_statement :
    let r := Program.parse ("OPENQASM four;" ++ "\nqubit q;")
    r.1.version = none ∧ r.1.statements.length = 1 ∧ r.2.length = 1 := by
  have hx : MalformedVersion "OPENQASM four;" := by
    constructor
    · constructor <;> decide +kernel
    all_goals decide +kernel
  obtain ⟨err, hparse⟩ := parse_malformed_version (b := "\nqubit q;") hx
    (cutBetween_of_break hx.lexicallyValid (head?_break _)) (by decide +kernel) (by decide +kernel)
  have hlast : (Program.parse "\nqubit q;").1.statements.length = 1 := by decide +kernel
  rw [hparse]
  refine ⟨rfl, ?_, rfl⟩
  rw [List.length_map, hlast]

/-- The keyword by itself costs the next statement too, because its semicolon is read as the version. -/
theorem version_keyword_alone_costs_more : ¬∀ x b : String, SemicolonText x →
    isKeyword .openqasm (cursor (.ofString x)).head? = true →
    (versionLine (.ofString x) (cursor (.ofString x))).1.isOk = false → CutBetween x.toList b.toList →
    (Program.parse b).2 = [] → (Program.parse b).1.version = none →
    ∃ err, Program.parse (x ++ b) =
      (⟨none, (Program.parse b).1.statements.map (·.moved (.after x.toList))⟩, [err]) := by
  intro h
  have hx : SemicolonText "OPENQASM;" := by constructor <;> decide +kernel
  obtain ⟨err, hparse⟩ := h "OPENQASM;" "\nqubit q;\n" hx (by decide +kernel) (by decide +kernel)
    (cutBetween_of_break hx.lexicallyValid (head?_break _)) (by decide +kernel) (by decide +kernel)
  have hlength := congrArg (fun r => r.1.statements.length) hparse
  have hlost : (Program.parse ("OPENQASM;" ++ "\nqubit q;\n")).1.statements.length = 0 := by decide +kernel
  have hlast : (Program.parse "\nqubit q;\n").1.statements.length = 1 := by decide +kernel
  dsimp only at hlength
  rw [hlost, List.length_map, hlast] at hlength
  nomatch hlength

end Malformed

end OpenQasm
