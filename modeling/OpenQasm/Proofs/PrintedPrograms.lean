import OpenQasm.Proofs.LexemeTiling
import OpenQasm.Proofs.PrintedLines
import OpenQasm.Proofs.ReadingProgress

/-!
Printed programs. Where every leaf of a program is printed as the one token that it is read from, the printed text is
read without an error as a program that says the same.
-/
namespace OpenQasm

open OpenQasm.Parser OpenQasm.Grammar OpenQasm.Token

/-- The rest of a line, without blanks at its ends and without anything that goes on behind the line. -/
structure ContentPrintable (content : String) : Prop where
  line : '\n' ∉ content.toList
  trimmed : trimBlanks content.toList = content.toList
  valid : LexicallyValid content.toList

mutual

/-- Statements whose text can be read: their expressions can, names are identifiers, and a measured value is assigned
by a measurement. -/
def Statement.Printable : Statement → Prop
  | ⟨kind, _⟩ => kind.Printable

def StatementKind.Printable : StatementKind → Prop
  | .includeFile path => (Token.string path).Spells ("\"" ++ path ++ "\"")
  | .qubits n size => (Token.name n).Spells n ∧ optionPrintable size
  | .classical d => d.Printable
  | .alias n e => (Token.name n).Spells n ∧ e.Printable
  | .gate c => c.Printable
  | .measure q none => q.isOperand = true ∧ q.Printable
  | .measure q (some t) => (q.isOperand = true ∧ q.Printable) ∧ t.isOperand = true ∧ t.Printable
  | .reset e => e.isOperand = true ∧ e.Printable
  | .barrier es => operandsPrintable es
  | .branch c thenBody none => c.Printable ∧ bodyPrintable thenBody
  | .branch c thenBody (some elseBody) => c.Printable ∧ bodyPrintable thenBody ∧ bodyPrintable elseBody
  | .forLoop type n values body =>
    (∀ t ∈ type, t.Printable) ∧ (Token.name n).Spells n ∧ values.Printable ∧ bodyPrintable body
  | .whileLoop c body => c.Printable ∧ bodyPrintable body
  | .breakLoop | .continueLoop => True
  | .returnValue value => optionPrintable value
  | .block body => bodyPrintable body
  | .defineSubroutine d => d.Printable
  | .defineGate d => d.Printable
  | .assign target op e =>
    (target.isOperand = true ∧ target.Printable) ∧ e.Printable ∧ (op = .set → e.isMeasure = false)
  | .evaluate e => e.callsOrNames = true ∧ e.Printable
  | .pragma t => (Token.pragma t).Spells ("#pragma " ++ t)
  | .annotated n content => (Token.name n).Spells n ∧ ContentPrintable content

def SubroutineDefinition.Printable : SubroutineDefinition → Prop
  | ⟨n, formals, result, body⟩ =>
    (Token.name n).Spells n ∧ (∀ f ∈ formals, f.Printable) ∧ (∀ t ∈ result, t.Printable) ∧ bodyPrintable body

def GateDefinition.Printable : GateDefinition → Prop
  | ⟨n, params, qubits, body⟩ =>
    (Token.name n).Spells n ∧ namesSpelled params ∧ namesSpelled qubits ∧ qubits ≠ [] ∧ bodyPrintable body

def bodyPrintable : List Statement → Prop
  | [] => True
  | s :: ss => s.Printable ∧ bodyPrintable ss

end

section Places

variable {w cs after : List Char} {ps : List PlacedToken} {text : String} {ts : List Token} {depth : Nat}

/-- The tokens are those of the text where it ends the whole one. -/
def Stands (w cs : List Char) (ps : List PlacedToken) : Prop :=
  ∃ before, w = before ++ cs ∧ ps = tokensFrom (byteLength before) cs

theorem scans_blanks (n : Nat) : Scans anything (String.ofList (List.replicate n ' ')) [] := by
  induction n with
  | zero => exact scans_empty _
  | succ n ih =>
    have hblank : String.ofList (List.replicate (n + 1) ' ') = " " ++ String.ofList (List.replicate n ' ') := by
      rw [List.replicate_succ, String.ofList_cons]
      rfl
    rw [hblank]
    exact scans_space.then ih

/-- A line is read to its end. -/
theorem Stands.line (h : Stands w ((indentedLine depth text).toList ++ after) ps) (hcut : Cuts text ts) :
    ∃ ps₁ ps₂, ps = ps₁ ++ ps₂ ∧ ps₁.map (·.token) = ts ∧ Stands w after ps₂ := by
  obtain ⟨before, rfl, rfl⟩ := h
  have hcuts : Cuts (String.ofList (List.replicate (4 * depth) ' ') ++ text) ts := (scans_blanks _).cut hcut
  generalize hs : String.ofList (List.replicate (4 * depth) ' ') ++ text = s at hcuts
  have hline : (indentedLine depth text).toList ++ after = s.toList ++ '\n' :: after := by
    rw [indentedLine, hs, String.toList_append, List.append_assoc]
    rfl
  rw [hline, tokensFrom_lines hcuts.lexicallyValid]
  refine ⟨_, _, rfl, hcuts.tokens _, before ++ (s.toList ++ ['\n']), ?_, ?_⟩
  · rw [List.append_assoc, List.append_assoc]
    rfl
  · rw [byteLength_append, byteLength_append, Nat.add_assoc]
    rfl

/-- Valid lines stay valid behind the text. -/
def WholeLines (text : String) : Prop := ∀ after, LexicallyValid after → LexicallyValid (text.toList ++ after)

theorem WholeLines.append {text' : String} (h : WholeLines text) (h' : WholeLines text') :
    WholeLines (text ++ text') := by
  intro after hafter
  rw [String.toList_append, List.append_assoc]
  exact h _ (h' after hafter)

theorem Token.Scans.valid_append {follow : Char → Bool} (h : Scans follow text ts)
    (hnext : ∀ c ∈ cs.head?, follow c = true) (hvalid : LexicallyValid cs) : LexicallyValid (text.toList ++ cs) := by
  obtain ⟨ls, offset, hscan, htokens⟩ := h 0 cs hnext
  intro l hl hnone
  rw [hscan] at hl
  rcases List.mem_append.1 hl with hl | hl
  · have hmem : l.token ∈ ts.map some := htokens ▸ List.mem_map_of_mem hl
    obtain ⟨t, -, ht⟩ := List.mem_map.1 hmem
    nomatch ht.trans hnone
  · exact hvalid.from offset l hl hnone

theorem wholeLines_line (depth : Nat) (h : LexicallyValid text.toList) : WholeLines (indentedLine depth text) := by
  intro after hafter
  have hline := (scans_blanks (4 * depth)).valid_append (fun _ _ => rfl) h
  rw [indentedLine, String.toList_append, String.toList_append, List.append_assoc]
  exact hline.append hafter

end Places

section Texts

variable {α β : Type} {p : Parser α} {P : α → Prop} {w after : List Char} {ps : List PlacedToken} {text : String}
  {k : StatementKind} {depth : Nat}

/-- What comes next is no other half of a branch. -/
def EndsBranch (after : List Char) : Prop := isKeyword .else ((tokensFrom 0 after).head?.map (·.token)) = false

/-- The text is made of whole lines. Where it stands, a value with the property is read, and reading stops after the
text. -/
structure ReadsText (p : Parser α) (text : String) (P : α → Prop) : Prop where
  lines : WholeLines text
  reads : ∀ (w after : List Char) (ps : List PlacedToken) (c : Cursor), Stands w (text.toList ++ after) ps →
    EndsBranch after → ∃ a ps', p (.ofChars w) (c.moveTo ps) = (.ok a, c.moveTo ps') ∧ Stands w after ps' ∧ P a

theorem Stands.head (h : Stands w after ps) :
    ps.head?.map (·.token) = (tokensFrom 0 after).head?.map (·.token) := by
  obtain ⟨before, rfl, rfl⟩ := h
  exact tokensFrom_head _ _

theorem ReadsLine.readsText (h : ReadsLine text k) (depth : Nat) :
    ReadsText (statementKind statement) (indentedLine depth text) (·.plain = k.plain) := by
  obtain ⟨ts, k', hcut, hread, hplain⟩ := h
  refine ⟨wholeLines_line depth hcut.lexicallyValid, fun w after ps c hstands _ => ?_⟩
  obtain ⟨ps₁, ps₂, rfl, htokens, hafter⟩ := hstands.line hcut
  exact ⟨k', ps₂, hread statement _ (.ofChars w) c ps₁ ps₂ htokens rfl, hafter, hplain⟩

theorem statement_of_kind {s : Source} {c d : Cursor} (h : statementKind statement s c = (.ok k, d)) :
    ∃ span, statement s c = (.ok ⟨k, span⟩, d) := by
  refine ⟨s.spanAt ((c.rest.head?.map (·.start)).getD s.size), ?_⟩
  rw [statement_eq]
  show (statementKind statement >>= fun kind => pure (Statement.mk kind _)) s c = _
  rw [Excerpt.run_bind, h]
  rfl

theorem ReadsText.statement (h : ReadsText (statementKind statement) text (·.plain = k.plain)) (span : Span) :
    ReadsText statement text (·.plain = (Statement.mk k span).plain) := by
  refine ⟨h.lines, fun w after ps c hstands hafter => ?_⟩
  obtain ⟨k', ps', hrun, hstands', hplain⟩ := h.reads w after ps c hstands hafter
  obtain ⟨span', hstatement⟩ := statement_of_kind hrun
  exact ⟨⟨k', span'⟩, ps', hstatement, hstands', congrArg (Statement.mk · Span.none) hplain⟩

/-- A statement does not start as the other half of a branch, with a version or with the end of a block, and it is not
empty. -/
theorem statement_starts {s : Source} {c d : Cursor} {a : Statement} (h : statement s c = (.ok a, d)) :
    (∀ k, k = .else ∨ k = .openqasm → isKeyword k c.head? = false) ∧ isPunctuation .rBrace c.head? = false ∧
      c.head? ≠ none := by
  obtain ⟨rest, left, rfl, nesting, errors⟩ := c
  cases rest with
  | nil => cases h
  | cons t ts =>
    obtain ⟨token, start, stop⟩ := t
    refine ⟨fun k hk => ?_, ?_, Option.some_ne_none _⟩
    · by_contra hkeyword
      cases token with
      | keyword l =>
        obtain rfl : l = k := by simpa [isKeyword, Cursor.head?] using hkeyword
        obtain rfl | rfl := hk <;> cases h
      | _ => exact hkeyword rfl
    · by_contra hbrace
      cases token with
      | punctuation q =>
        obtain rfl : q = .rBrace := by simpa [isPunctuation, Cursor.head?] using hbrace
        cases h
      | _ => exact hbrace rfl

end Texts

section Blocks

variable {α : Type} {w after cs : List Char} {ps : List PlacedToken} {text header : String} {depth : Nat}
  {P : Statement → Prop} {body : List Statement} {k : Keyword} {head : Parser α} {a : α}

/-- Each of the statements is read where its text stands. -/
def ReadsEach (depth : Nat) (body : List Statement) : Prop :=
  ∀ s ∈ body, ReadsText statement (s.textAt depth) (·.plain = s.plain)

theorem bodyText_cons (depth : Nat) (s : Statement) (ss : List Statement) :
    bodyText depth (s :: ss) = s.textAt depth ++ bodyText depth ss := by
  rw [bodyText, bodyTexts, String.join_cons, bodyText]

theorem endsBranch_text (h : ReadsText statement text P) (hafter : EndsBranch after) :
    EndsBranch (text.toList ++ after) := by
  have hstands : Stands (text.toList ++ after) (text.toList ++ after) (tokensFrom 0 (text.toList ++ after)) :=
    ⟨[], rfl, rfl⟩
  obtain ⟨a, ps', hrun, -⟩ := h.reads _ after _ (.start [] []) hstands hafter
  exact (statement_starts hrun).1 .else (Or.inl rfl)

theorem blockItems_succ {s : Source} {c : Cursor} (hbrace : isPunctuation .rBrace c.head? = false)
    (hsome : c.head? ≠ none) (n : Nat) : blockItems statement (n + 1) s c =
      (moving (fun t => isPunctuation .rBrace (some t.token)) (recovering statement) >>= fun first =>
        blockItems statement n >>= fun others => pure (first.toList ++ others)) s c := by
  rw [blockItems, Excerpt.run_peek]
  generalize c.head? = next at hbrace hsome
  split
  · exact absurd rfl hsome
  · nomatch hbrace
  · rfl

theorem wholeLines_body (h : ReadsEach depth body) : WholeLines (bodyText depth body) := by
  induction body with
  | nil => exact fun _ hafter => hafter
  | cons s ss ih =>
    obtain ⟨hs, hss⟩ := List.forall_mem_cons.1 h
    rw [bodyText_cons]
    exact hs.lines.append (ih hss)

/-- The statements of a block are read up to the brace that closes it. -/
theorem blockItems_reads (h : ReadsEach depth body)
    (hclose : (tokensFrom 0 after).head?.map (·.token) = some (.punctuation .rBrace)) :
    EndsBranch ((bodyText depth body).toList ++ after) ∧ ∀ n w ps (c : Cursor),
      Stands w ((bodyText depth body).toList ++ after) ps → ps.length < n → ∃ body' ps',
        blockItems statement n (.ofChars w) (c.moveTo ps) = (.ok body', c.moveTo ps') ∧ Stands w after ps' ∧
          bodyPlain body' = bodyPlain body := by
  induction body with
  | nil =>
    have hends : EndsBranch after := by rw [EndsBranch, hclose]; rfl
    refine ⟨hends, fun n w ps c hstands hn => ⟨[], ps, ?_, hstands, rfl⟩⟩
    obtain ⟨n, rfl⟩ : ∃ m, n = m + 1 := Nat.exists_eq_succ_of_ne_zero (Nat.ne_of_gt (Nat.zero_lt_of_lt hn))
    have hhead : (c.moveTo ps).head? = some (.punctuation .rBrace) := hstands.head.trans hclose
    rw [blockItems, Excerpt.run_peek, hhead]
    rfl
  | cons s ss ih =>
    obtain ⟨hs, hss⟩ := List.forall_mem_cons.1 h
    obtain ⟨hends, hrest⟩ := ih hss
    rw [bodyText_cons, String.toList_append, List.append_assoc]
    refine ⟨endsBranch_text hs hends, fun n w ps c hstands hn => ?_⟩
    obtain ⟨n, rfl⟩ : ∃ m, n = m + 1 := Nat.exists_eq_succ_of_ne_zero (Nat.ne_of_gt (Nat.zero_lt_of_lt hn))
    obtain ⟨s', ps₁, hrun, hstands₁, hplain⟩ := hs.reads w _ ps c hstands hends
    have hlt : ps₁.length < ps.length := advances_statement.left_lt hrun
    obtain ⟨ss', ps₂, hruns, hstands₂, hplains⟩ := hrest n w ps₁ c hstands₁ (by omega)
    refine ⟨s' :: ss', ps₂, ?_, hstands₂, ?_⟩
    · obtain ⟨-, hbrace, hsome⟩ := statement_starts hrun
      rw [blockItems_succ hbrace hsome, Excerpt.run_bind, moving_eq hrun]
      dsimp only
      rw [Excerpt.run_bind, hruns]
      rfl
    · rw [bodyPlain, bodyPlain, hplain, hplains]

theorem cuts_closing : Cuts "\x7d" [.punctuation .rBrace] := (scans_alone (s := .rBrace) rfl).cuts

/-- The body of a block is read where it stands behind an opening brace. -/
theorem block_reads (h : ReadsEach (depth + 1) body) {p : PlacedToken} (hp : p.token = .punctuation .lBrace)
    (c : Cursor) (hstands : Stands w ((bodyText (depth + 1) body).toList ++ ((closing depth).toList ++ after)) ps) :
    ∃ body' ps', block statement (.ofChars w) (c.moveTo (p :: ps)) = (.ok body', c.moveTo ps') ∧
      Stands w after ps' ∧ bodyPlain body' = bodyPlain body := by
  have hline : Stands ((closing depth).toList ++ after) ((closing depth).toList ++ after)
      (tokensFrom 0 ((closing depth).toList ++ after)) := ⟨[], rfl, rfl⟩
  obtain ⟨ps₁, ps₂, hps, htokens, -⟩ := hline.line cuts_closing
  have hclose : (tokensFrom 0 ((closing depth).toList ++ after)).head?.map (·.token) =
      some (.punctuation .rBrace) := by
    obtain ⟨q, rfl, hq⟩ := List.map_eq_singleton_iff.1 htokens
    rw [hps]
    exact congrArg some hq
  let inner : Cursor := { c with nesting := c.nesting + 1 }
  obtain ⟨body', ps₃, hitems, hstands₃, hplain⟩ :=
    (blockItems_reads h hclose).2 (ps.length + 1) w ps inner hstands (Nat.lt_succ_self _)
  obtain ⟨qs, ps₄, rfl, hqs, hstands₄⟩ := hstands₃.line cuts_closing
  have hopen : expect .lBrace (.ofChars w) (c.moveTo (p :: ps)) = (.ok (), c.moveTo ps) :=
    reads_expect .lBrace _ (.ofChars w) c [p] ps (congrArg ([·]) hp) rfl
  have hinner : inBlock (bounded (blockItems statement)) (.ofChars w) (c.moveTo ps) =
      (.ok body', c.moveTo (qs ++ ps₄)) := by
    show (match blockItems statement (ps.length + 1) (.ofChars w) (inner.moveTo ps) with
      | (r, c') => (r, { c' with nesting := c'.nesting - 1 })) = _
    rw [hitems]
    rfl
  have hend : expect .rBrace (.ofChars w) (c.moveTo (qs ++ ps₄)) = (.ok (), c.moveTo ps₄) :=
    reads_expect .rBrace _ (.ofChars w) c qs ps₄ hqs rfl
  refine ⟨body', ps₄, ?_, hstands₄, hplain⟩
  rw [block, Excerpt.run_bind, hopen]
  dsimp only
  rw [Excerpt.run_bind, hinner]
  dsimp only
  rw [Excerpt.run_bind, hend]
  rfl

theorem body_reads (h : ReadsEach (depth + 1) body) {p : PlacedToken} (hp : p.token = .punctuation .lBrace)
    (c : Cursor) (hstands : Stands w ((bodyText (depth + 1) body).toList ++ ((closing depth).toList ++ after)) ps) :
    ∃ body' ps', Grammar.body statement (.ofChars w) (c.moveTo (p :: ps)) = (.ok body', c.moveTo ps') ∧
      Stands w after ps' ∧ bodyPlain body' = bodyPlain body := by
  obtain ⟨body', ps', hrun, hrest⟩ := block_reads h hp c hstands
  refine ⟨body', ps', ?_, hrest⟩
  rw [← hrun]
  show (if isPunctuation .lBrace (some p.token) then block statement else _) _ _ = _
  rw [hp]
  rfl

/-- What stands in front of a block is read up to the brace. -/
theorem Introduces.reads (h : Introduces header k head a) (c : Cursor)
    (hstands : Stands w ((opening depth header).toList ++ cs) ps) : ∃ p ps', p.token = .punctuation .lBrace ∧
      Stands w cs ps' ∧ (c.moveTo ps).head? = some (.keyword k) ∧
        head (.ofChars w) (c.moveTo ps) = (.ok a, c.moveTo (p :: ps')) := by
  obtain ⟨ts, hcut, hread⟩ := h
  obtain ⟨qs, ps', rfl, htokens, hafter⟩ := hstands.line hcut
  obtain ⟨qs, braces, rfl, hqs, hbraces⟩ := List.map_eq_append_iff.1 htokens
  obtain ⟨p, rfl, hp⟩ := List.map_eq_singleton_iff.1 hbraces
  refine ⟨p, ps', hp, hafter, ?_, ?_⟩
  · obtain ⟨q, qs, rfl, hq, -⟩ := List.map_eq_cons_iff.1 hqs
    exact congrArg some hq
  · rw [List.append_assoc]
    exact hread (.ofChars w) c qs (p :: ps') hqs (congrArg some hp)

theorem statementKind_keyword {s : Source} {c : Cursor} (h : c.head? = some (.keyword k)) :
    statementKind statement s c = keywordLed statement k s c := by
  rw [statementKind, Excerpt.run_peek, h]

theorem braced_toList (depth : Nat) (header : String) (body : List Statement) (after : List Char) :
    (braced depth header (bodyTexts (depth + 1) body)).toList ++ after = (opening depth header).toList ++
      ((bodyText (depth + 1) body).toList ++ ((closing depth).toList ++ after)) := by
  rw [braced, String.toList_append, String.toList_append, List.append_assoc, List.append_assoc, bodyText]

/-- The text of a block with its header is read up to what stands behind it. -/
theorem braced_reads {q : Parser (List Statement)} (hq : q = block statement ∨ q = Grammar.body statement)
    (hheader : Introduces header k head a) (h : ReadsEach (depth + 1) body) (c : Cursor)
    (hstands : Stands w ((braced depth header (bodyTexts (depth + 1) body)).toList ++ after) ps) :
    (c.moveTo ps).head? = some (.keyword k) ∧ ∃ body' ps', Stands w after ps' ∧ bodyPlain body' = bodyPlain body ∧
      ∀ {β : Type} (f : α → List Statement → Parser β),
        (head >>= fun a => q >>= f a) (.ofChars w) (c.moveTo ps) = f a body' (.ofChars w) (c.moveTo ps') := by
  rw [braced_toList] at hstands
  obtain ⟨p, ps₁, hp, hstands₁, hfirst, hhead⟩ := hheader.reads c hstands
  obtain ⟨body', ps₂, hbody, hstands₂, hsame⟩ : ∃ body' ps₂,
      q (.ofChars w) (c.moveTo (p :: ps₁)) = (.ok body', c.moveTo ps₂) ∧ Stands w after ps₂ ∧
        bodyPlain body' = bodyPlain body := by
    obtain rfl | rfl := hq
    · exact block_reads h hp c hstands₁
    · exact body_reads h hp c hstands₁
  refine ⟨hfirst, body', ps₂, hstands₂, hsame, fun f => ?_⟩
  rw [Excerpt.run_bind, hhead]
  dsimp only
  rw [Excerpt.run_bind, hbody]

/-- A line, the statements below it and the brace that closes them. -/
theorem wholeLines_block {line : String} (hline : LexicallyValid line.toList) (h : ReadsEach (depth + 1) body) :
    WholeLines (indentedLine depth line ++ bodyText (depth + 1) body ++ closing depth) :=
  ((wholeLines_line depth hline).append (wholeLines_body h)).append (wholeLines_line depth cuts_closing.lexicallyValid)

theorem wholeLines_braced (hheader : Introduces header k head a) (h : ReadsEach (depth + 1) body) :
    WholeLines (braced depth header (bodyTexts (depth + 1) body)) := by
  obtain ⟨ts, hcut, -⟩ := hheader
  exact wholeLines_block hcut.lexicallyValid h

/-- A statement that is a block behind its header. -/
theorem readsText_braced {q : Parser (List Statement)} {f : α → List Statement → StatementKind} {kind : StatementKind}
    (hled : keywordLed statement k = head >>= fun a => q >>= fun ss => pure (f a ss))
    (hq : q = block statement ∨ q = Grammar.body statement) (hheader : Introduces header k head a)
    (h : ReadsEach (depth + 1) body)
    (hplain : ∀ body', bodyPlain body' = bodyPlain body → (f a body').plain = kind.plain) :
    ReadsText (statementKind statement) (braced depth header (bodyTexts (depth + 1) body)) (·.plain = kind.plain) := by
  refine ⟨wholeLines_braced hheader h, fun w after ps c hstands _ => ?_⟩
  obtain ⟨hfirst, body', ps', hafter, hsame, hrun⟩ := braced_reads hq hheader h c hstands
  refine ⟨f a body', ps', ?_, hafter, hplain body' hsame⟩
  rw [statementKind_keyword hfirst, hled, hrun]
  rfl

section Branches

variable {cond : Expr} {thenBody elseBody : List Statement}

/-- The second half of a branch, if there is one. -/
def elseHalf (cond : Expr) (thenBody : List Statement) : Parser StatementKind := do
  if ← acceptKeyword .else then
    let elseBody ← Grammar.body statement
    return .branch cond thenBody (some elseBody)
  return .branch cond thenBody none

theorem branchStatement_eq : keywordLed statement .if =
    condition >>= fun cond => Grammar.body statement >>= fun thenBody => elseHalf cond thenBody := rfl

theorem readsText_branch (hcond : cond.Printable) (h : ReadsEach (depth + 1) thenBody) :
    ReadsText (statementKind statement) (StatementKind.textAt depth (.branch cond thenBody none))
      (·.plain = (StatementKind.branch cond thenBody none).plain) := by
  have hheader := introduces_condition .if hcond
  refine ⟨wholeLines_braced hheader h, fun w after ps c hstands hafter => ?_⟩
  obtain ⟨hfirst, thenBody', ps', hstands', hsame, hrun⟩ :=
    braced_reads (Or.inr rfl) hheader h c hstands
  refine ⟨.branch (cond.withParens 0) thenBody' none, ps', ?_, hstands', ?_⟩
  · have helse : isKeyword .else (ps'.head?.map (·.token)) = false := hstands'.head ▸ hafter
    have hnone : Reads (elseHalf (cond.withParens 0) thenBody') [] (ps'.head?.map (·.token))
        (.branch (cond.withParens 0) thenBody' none) := Reads.refuseKeyword helse (reads_pure _ _)
    rw [statementKind_keyword hfirst, branchStatement_eq, hrun]
    exact hnone (.ofChars w) c [] ps' rfl rfl
  · simp only [StatementKind.plain, hsame, cond.withoutParens_withParens]

theorem readsText_branchElse (hcond : cond.Printable) (h : ReadsEach (depth + 1) thenBody)
    (h' : ReadsEach (depth + 1) elseBody) :
    ReadsText (statementKind statement) (StatementKind.textAt depth (.branch cond thenBody (some elseBody)))
      (·.plain = (StatementKind.branch cond thenBody (some elseBody)).plain) := by
  have hheader := introduces_condition .if hcond
  show ReadsText _ (braced depth _ (bodyTexts (depth + 1) thenBody) ++
    braced depth "else" (bodyTexts (depth + 1) elseBody)) _
  refine ⟨(wholeLines_braced hheader h).append (wholeLines_braced introduces_else h'), fun w after ps c hstands _ => ?_⟩
  rw [String.toList_append, List.append_assoc] at hstands
  obtain ⟨hfirst, thenBody', ps₁, hstands₁, hsame, hrun⟩ :=
    braced_reads (Or.inr rfl) hheader h c hstands
  rw [braced_toList] at hstands₁
  obtain ⟨p, ps₂, hp, hstands₂, -, helse⟩ := introduces_else.reads c hstands₁
  obtain ⟨elseBody', ps₃, hbody, hstands₃, hsame'⟩ := body_reads h' hp c hstands₂
  refine ⟨.branch (cond.withParens 0) thenBody' (some elseBody'), ps₃, ?_, hstands₃, ?_⟩
  · rw [statementKind_keyword hfirst, branchStatement_eq, hrun, elseHalf, Excerpt.run_bind, helse]
    show (Grammar.body statement >>= fun elseBody => pure (StatementKind.branch _ _ (some elseBody))) _ _ = _
    rw [Excerpt.run_bind, hbody]
    rfl
  · simp only [StatementKind.plain, hsame, hsame', cond.withoutParens_withParens]

end Branches

theorem readsText_block (h : ReadsEach (depth + 1) body) :
    ReadsText (statementKind statement) (StatementKind.textAt depth (.block body))
      (·.plain = (StatementKind.block body).plain) := by
  have hbrace := (scans_alone (s := .lBrace) rfl).cuts
  refine ⟨wholeLines_block hbrace.lexicallyValid h, fun w after ps c hstands _ => ?_⟩
  have htext : (StatementKind.textAt depth (.block body)).toList ++ after = (indentedLine depth "\x7b").toList ++
      ((bodyText (depth + 1) body).toList ++ ((closing depth).toList ++ after)) := by
    rw [StatementKind.textAt, String.toList_append, String.toList_append, List.append_assoc, List.append_assoc,
      bodyText]
  rw [htext] at hstands
  obtain ⟨qs, ps₁, rfl, htokens, hstands₁⟩ := hstands.line hbrace
  obtain ⟨p, rfl, hp⟩ := List.map_eq_singleton_iff.1 htokens
  obtain ⟨body', ps₂, hbody, hstands₂, hsame⟩ := block_reads h hp c hstands₁
  refine ⟨.block body', ps₂, ?_, hstands₂, congrArg StatementKind.block hsame⟩
  have hhead : (c.moveTo ([p] ++ ps₁)).head? = some (.punctuation .lBrace) := congrArg some hp
  rw [statementKind, Excerpt.run_peek, hhead]
  show (block statement >>= fun ss => pure (StatementKind.block ss)) _ _ = _
  change block statement (.ofChars w) (c.moveTo ([p] ++ ps₁)) = _ at hbody
  rw [Excerpt.run_bind, hbody]
  rfl

end Blocks

section Annotations

variable {w after rest : List Char} {ps : List PlacedToken} {n content : String} {offset : Nat}

theorem tokensFrom_blanks (k offset : Nat) (cs : List Char) :
    tokensFrom offset (List.replicate k ' ' ++ cs) = tokensFrom (offset + k) cs := by
  induction k generalizing offset with
  | zero => rfl
  | succ k ih =>
    have hblank : tokensFrom offset (' ' :: (List.replicate k ' ' ++ cs)) =
        tokensFrom (offset + 1) (List.replicate k ' ' ++ cs) :=
      congrArg placedTokens (scanFrom_cons_blank rfl offset _)
    rw [List.replicate_succ, List.cons_append, hblank, ih, Nat.add_right_comm]
    rfl

/-- Where a token stands at the head of a text. -/
theorem tokensFrom_token {t : Token} {c : Char} {cs : List Char}
    (h : headPiece c (cs ++ rest) = (.token t, cs.length + 1)) (offset : Nat) :
    tokensFrom offset (c :: cs ++ rest) =
      ⟨t, offset, offset + byteLength (c :: cs)⟩ :: tokensFrom (offset + byteLength (c :: cs)) rest := by
  have hscan := scanFrom_cons offset c (cs ++ rest)
  rw [h] at hscan
  simp only [Nat.add_sub_cancel, List.take_left, List.drop_left] at hscan
  unfold tokensFrom
  rw [List.cons_append, hscan]
  rfl

/-- No token of a text starts at its end. -/
theorem tokensFrom_start_lt {cs : List Char} {t : PlacedToken} (ht : t ∈ tokensFrom offset cs) :
    t.start < offset + byteLength cs := by
  obtain ⟨l, hl, hlt⟩ := List.mem_filterMap.1 ht
  obtain ⟨token, -, rfl⟩ := Option.map_eq_some_iff.1 hlt
  exact Nat.lt_of_lt_of_le ((scanFrom_tiled cs offset).ordered.1 l hl).2 (scanFrom_inside cs offset l hl).2.2

/-- The tokens of a line, and those behind it. -/
theorem dropWhile_line (cs after : List Char) (offset : Nat) :
    (tokensFrom offset cs ++ tokensFrom (offset + byteLength cs + 1) after).dropWhile
      (·.start < offset + byteLength cs) = tokensFrom (offset + byteLength cs + 1) after := by
  rw [List.dropWhile_append_of_pos fun t ht => decide_eq_true (tokensFrom_start_lt ht)]
  cases hrest : tokensFrom (offset + byteLength cs + 1) after with
  | nil => rfl
  | cons t ts =>
    have hinside := tokensFrom_inside (hrest ▸ List.mem_cons_self : t ∈ tokensFrom _ after)
    rw [List.dropWhile_cons, if_neg]
    exact fun hlt => absurd (of_decide_eq_true hlt) (by omega)

/-- What is printed behind the keyword of an annotation. -/
def contentText (content : String) : String := if content.isEmpty then "" else " " ++ content

theorem contentText_toList (content : String) : (contentText content).toList = [] ∧ content.toList = [] ∨
    (contentText content).toList = ' ' :: content.toList := by
  unfold contentText
  cases hempty : content.isEmpty with
  | true =>
    rw [String.isEmpty_iff.1 hempty]
    exact Or.inl ⟨rfl, rfl⟩
  | false => exact Or.inr (String.toList_append ..)

theorem contentText_ends {c : Char} (hc : c ∈ (contentText content).toList.head?) : endsToken c = true := by
  rcases contentText_toList content with ⟨htext, -⟩ | htext
  · rw [htext] at hc
    cases hc
  · rw [htext] at hc
    cases hc
    rfl

theorem ContentPrintable.text_valid (h : ContentPrintable content) : LexicallyValid (contentText content).toList := by
  intro l hl
  rcases contentText_toList content with ⟨htext, -⟩ | htext
  · rw [htext, scanFrom_nil] at hl
    cases hl
  · rw [htext, scanFrom_cons_blank rfl] at hl
    exact h.valid.from _ l hl

theorem ContentPrintable.text_line (h : ContentPrintable content) (after : List Char) :
    ((contentText content).toList ++ '\n' :: after).takeWhile (· ≠ '\n') = (contentText content).toList := by
  have hline : ∀ c ∈ (contentText content).toList, decide (c ≠ '\n') = true := by
    intro c hc
    refine decide_eq_true fun hbreak => ?_
    subst hbreak
    rcases contentText_toList content with ⟨htext, -⟩ | htext
    · rw [htext] at hc
      cases hc
    · rw [htext] at hc
      exact h.line ((List.mem_cons.1 hc).resolve_left (by decide))
  rw [List.takeWhile_append_of_pos hline]
  exact List.append_nil _

theorem ContentPrintable.text_trimmed (h : ContentPrintable content) :
    String.ofList (trimBlanks (contentText content).toList) = content := by
  have htrim : trimBlanks (contentText content).toList = content.toList := by
    rcases contentText_toList content with ⟨htext, hempty⟩ | htext
    · rw [htext, hempty]
      rfl
    · rw [htext]
      exact h.trimmed
  rw [htrim, String.ofList_toList]

theorem dropBytes_zero (cs : List Char) : Source.dropBytes 0 cs = cs := by cases cs <;> rfl

/-- The line of an annotation is read to its end. -/
theorem annotated_reads {before : List Char} (hn : (Token.name n).Spells n) (h : ContentPrintable content)
    (hw : w = before ++ ('@' :: (n.toList ++ ((contentText content).toList ++ '\n' :: after)))) (c : Cursor) :
    ∃ ps' : List PlacedToken, statementKind statement (.ofChars w) (c.moveTo (tokensFrom (byteLength before)
        ('@' :: (n.toList ++ ((contentText content).toList ++ '\n' :: after))))) =
      (.ok (.annotated n content), c.moveTo ps') ∧ Stands w after ps' := by
  generalize hrest : (contentText content).toList ++ '\n' :: after = rest at hw ⊢
  have hends : ∀ c ∈ rest.head?, endsToken c = true := by
    intro c hc
    rw [← hrest] at hc
    rcases contentText_toList content with ⟨htext, -⟩ | htext <;> rw [htext] at hc <;> cases hc <;> rfl
  have hsign : headPiece '@' ([] ++ (n.toList ++ rest)) = (.token (.punctuation .atSign), 1) :=
    headPiece_symbol (c := '@') rfl (fun d _ => ofPair?_eq_none_left rfl) rfl rfl
  have hname (offset : Nat) : tokensFrom offset (n.toList ++ rest) =
      ⟨.name n, offset, offset + byteLength n.toList⟩ :: tokensFrom (offset + byteLength n.toList) rest := by
    obtain ⟨x, xs, htext, hpiece⟩ := hn
    rw [htext]
    exact tokensFrom_token (headPiece_continued rfl hends hpiece) offset
  -- The rest of the line starts behind the keyword.
  let stop := byteLength before + byteLength ['@'] + byteLength n.toList
  have htokens : tokensFrom (byteLength before) ('@' :: (n.toList ++ rest)) =
      ⟨.punctuation .atSign, byteLength before, byteLength before + byteLength ['@']⟩ ::
        ⟨.name n, byteLength before + byteLength ['@'], stop⟩ :: tokensFrom stop rest := by
    rw [← hname]
    exact tokensFrom_token hsign _
  have hline : (Source.ofChars w).lineRest stop = (contentText content).toList := by
    have hdrop := dropBytes_append (before ++ (['@'] ++ n.toList)) rest 0
    rw [byteLength_append, byteLength_append, ← Nat.add_assoc, dropBytes_zero, List.append_assoc] at hdrop
    rw [← h.text_line after, hrest, ← hdrop, hw]
    rfl
  have hcut : tokensFrom stop rest = tokensFrom stop (contentText content).toList ++
      tokensFrom (stop + byteLength (contentText content).toList + 1) after := by
    rw [← hrest, tokensFrom_lines h.text_valid]
  refine ⟨tokensFrom (stop + byteLength (contentText content).toList + 1) after, ?_, ?_⟩
  · rw [htokens]
    show (Except.ok (StatementKind.annotated n (String.ofList (trimBlanks ((Source.ofChars w).lineRest stop)))),
      c.moveTo ((tokensFrom stop rest).dropWhile
        (·.start < stop + byteLength ((Source.ofChars w).lineRest stop)))) = _
    rw [hline, hcut, dropWhile_line, h.text_trimmed]
  · refine ⟨before ++ (['@'] ++ (n.toList ++ ((contentText content).toList ++ ['\n']))), ?_, ?_⟩
    · rw [hw, ← hrest]
      simp only [List.append_assoc, List.cons_append, List.nil_append]
    · simp only [byteLength_append, stop, Nat.add_assoc]
      rfl

/-- An annotation is printed on one line. -/
theorem readsText_annotated (hn : (Token.name n).Spells n) (h : ContentPrintable content) (depth : Nat) :
    ReadsText (statementKind statement) (StatementKind.textAt depth (.annotated n content))
      (·.plain = (StatementKind.annotated n content).plain) := by
  have hkeyword := (scans_mark (s := .atSign) (Or.inr rfl)).then (hn.scansEnd rfl)
  have hvalid := hkeyword.valid_append (fun c hc => contentText_ends hc) h.text_valid
  refine ⟨wholeLines_line depth ?_, fun w after ps c hstands _ => ?_⟩
  · rw [String.toList_append]
    exact hvalid
  have htext : (StatementKind.textAt depth (.annotated n content)).toList ++ after =
      List.replicate (4 * depth) ' ' ++ ('@' :: (n.toList ++ ((contentText content).toList ++ '\n' :: after))) := by
    rw [StatementKind.textAt, indentedLine]
    simp only [String.toList_append, List.append_assoc, String.toList_ofList]
    rfl
  rw [htext] at hstands
  obtain ⟨before, hw, rfl⟩ := hstands
  rw [← List.append_assoc] at hw
  obtain ⟨ps', hrun, hstands'⟩ := annotated_reads hn h hw c
  refine ⟨.annotated n content, ps', ?_, hstands', rfl⟩
  have hblanks : byteLength (List.replicate (4 * depth) ' ') = 4 * depth := by
    induction 4 * depth with
    | zero => rfl
    | succ k ih =>
      rw [List.replicate_succ, byteLength, ih, Nat.add_comm]
      rfl
  rw [byteLength_append, hblanks] at hrun
  rw [tokensFrom_blanks, hrun]

end Annotations

section Statements

variable {n : String} {body : List Statement} {depth : Nat}

theorem readsText_for {type : Option TypeExpr} {values : LoopValues} (htype : ∀ t ∈ type, t.Printable)
    (hn : (Token.name n).Spells n) (hvalues : values.Printable) (h : ReadsEach (depth + 1) body) :
    ReadsText (statementKind statement) (StatementKind.textAt depth (.forLoop type n values body))
      (·.plain = (StatementKind.forLoop type n values body).plain) := by
  refine readsText_braced (k := .for) (forStatement_eq statement) (Or.inr rfl) (introduces_for htype hn hvalues) h
    fun body' hsame => ?_
  simp only [StatementKind.plain, hsame, values.plain_withParens, Option.map_map, Function.comp_def,
    TypeExpr.withoutParens_withParens]

theorem readsText_while {cond : Expr} (hcond : cond.Printable) (h : ReadsEach (depth + 1) body) :
    ReadsText (statementKind statement) (StatementKind.textAt depth (.whileLoop cond body))
      (·.plain = (StatementKind.whileLoop cond body).plain) := by
  refine readsText_braced (f := fun cond ss => .whileLoop cond ss) rfl (Or.inr rfl) (introduces_condition .while hcond)
    h fun body' hsame => ?_
  simp only [StatementKind.plain, hsame, cond.withoutParens_withParens]

theorem readsText_subroutine {formals : List Formal} {result : Option TypeExpr} (hn : (Token.name n).Spells n)
    (hformals : ∀ f ∈ formals, f.Printable) (hresult : ∀ t ∈ result, t.Printable) (h : ReadsEach (depth + 1) body) :
    ReadsText (statementKind statement) (StatementKind.textAt depth (.defineSubroutine ⟨n, formals, result, body⟩))
      (·.plain = (StatementKind.defineSubroutine ⟨n, formals, result, body⟩).plain) := by
  refine readsText_braced (k := .define) (subroutineDefinition_eq statement) (Or.inl rfl)
    (introduces_subroutine hn hformals hresult) h fun body' hsame => ?_
  simp only [StatementKind.plain, SubroutineDefinition.plain, hsame, List.map_map, Option.map_map, Function.comp_def,
    Formal.plain_withParens, TypeExpr.withoutParens_withParens]

theorem readsText_gate {params qubits : List String} (hn : (Token.name n).Spells n) (hparams : namesSpelled params)
    (hqubits : namesSpelled qubits) (hne : qubits ≠ []) (h : ReadsEach (depth + 1) body) :
    ReadsText (statementKind statement) (StatementKind.textAt depth (.defineGate ⟨n, params, qubits, body⟩))
      (·.plain = (StatementKind.defineGate ⟨n, params, qubits, body⟩).plain) := by
  refine readsText_braced (k := .gate) (gateDefinition_eq statement) (Or.inl rfl)
    (introduces_gate hn hparams hqubits hne) h fun body' hsame => ?_
  simp only [StatementKind.plain, GateDefinition.plain, hsame]

mutual

/-- The text of a statement is read as a statement that says the same. -/
theorem Statement.readsText : ∀ (s : Statement) (depth : Nat), s.Printable →
    ReadsText statement (s.textAt depth) (·.plain = s.plain)
  | ⟨kind, span⟩, depth, h => by
    rw [Statement.Printable] at h
    exact (kind.readsText depth h).statement span

theorem StatementKind.readsText : ∀ (k : StatementKind) (depth : Nat), k.Printable →
    ReadsText (statementKind statement) (k.textAt depth) (·.plain = k.plain)
  | .includeFile _, depth, h => (readsLine_include h).readsText depth
  | .qubits _ _, depth, h => (readsLine_qubits h.1 h.2).readsText depth
  | .classical _, depth, h => (readsLine_classical h).readsText depth
  | .alias _ _, depth, h => (readsLine_alias h.1 h.2).readsText depth
  | .gate _, depth, h => (readsLine_gate h).readsText depth
  | .measure _ none, depth, h => (readsLine_measure h.1 h.2).readsText depth
  | .measure _ (some _), depth, h => (readsLine_measureInto h.1.1 h.1.2 h.2.1 h.2.2).readsText depth
  | .reset _, depth, h => (readsLine_reset h.1 h.2).readsText depth
  | .barrier [], depth, _ => readsLine_barrierAll.readsText depth
  | .barrier (_ :: _), depth, h => (readsLine_barrier h (List.cons_ne_nil _ _)).readsText depth
  | .branch _ thenBody none, depth, h => readsText_branch h.1 (bodyReadsText thenBody (depth + 1) h.2)
  | .branch _ thenBody (some elseBody), depth, h =>
    readsText_branchElse h.1 (bodyReadsText thenBody (depth + 1) h.2.1) (bodyReadsText elseBody (depth + 1) h.2.2)
  | .forLoop _ _ _ body, depth, h => readsText_for h.1 h.2.1 h.2.2.1 (bodyReadsText body (depth + 1) h.2.2.2)
  | .whileLoop _ body, depth, h => readsText_while h.1 (bodyReadsText body (depth + 1) h.2)
  | .breakLoop, depth, _ => (readsLine_keyword .break fun _ _ => reads_keywordStatement .break _).readsText depth
  | .continueLoop, depth, _ =>
    (readsLine_keyword .continue fun _ _ => reads_keywordStatement .continue _).readsText depth
  | .returnValue none, depth, _ => readsLine_returnNone.readsText depth
  | .returnValue (some _), depth, h => (readsLine_return h).readsText depth
  | .block body, depth, h => readsText_block (bodyReadsText body (depth + 1) h)
  | .defineSubroutine ⟨_, _, _, body⟩, depth, h =>
    readsText_subroutine h.1 h.2.1 h.2.2.1 (bodyReadsText body (depth + 1) h.2.2.2)
  | .defineGate ⟨_, _, _, body⟩, depth, h =>
    readsText_gate h.1 h.2.1 h.2.2.1 h.2.2.2.1 (bodyReadsText body (depth + 1) h.2.2.2.2)
  | .assign _ _ _, depth, h => (readsLine_assign h.1.1 h.1.2 h.2.1 h.2.2).readsText depth
  | .evaluate _, depth, h => (readsLine_evaluate h.1 h.2).readsText depth
  | .pragma _, depth, h => (readsLine_pragma h).readsText depth
  | .annotated _ _, depth, h => readsText_annotated h.1 h.2 depth

theorem bodyReadsText : ∀ (body : List Statement) (depth : Nat), bodyPrintable body → ReadsEach depth body
  | [], _, _ => nofun
  | s :: ss, depth, h =>
    List.forall_mem_cons.2 ⟨s.readsText depth h.1, bodyReadsText ss depth h.2⟩

end

end Statements

section Programs

variable {w : List Char} {ps : List PlacedToken} {body : List Statement} {p : Program} {v : String}

/-- Versions that are printed as the number that they are read from. -/
def VersionPrintable (v : String) : Prop :=
  knownVersion v = true ∧ ∃ t : Token, t.Spells v ∧ t.isPragma = false ∧ versionText? t = some v

/-- Programs whose text can be read. -/
def Program.Printable (p : Program) : Prop := (∀ v ∈ p.version, VersionPrintable v) ∧ bodyPrintable p.statements

/-- Statements are read to the end of the text, and no version stands before them. -/
theorem remaining_reads (h : ReadsEach 0 body) : EndsBranch (bodyText 0 body).toList ∧
    isKeyword .openqasm ((tokensFrom 0 (bodyText 0 body).toList).head?.map (·.token)) = false ∧
      ∀ w ps (c : Cursor), Stands w (bodyText 0 body).toList ps → ∃ body',
        remaining (.ofChars w) (c.moveTo ps) = (.ok body', c.moveTo []) ∧ bodyPlain body' = bodyPlain body := by
  have hnone (offset : Nat) : tokensFrom offset [] = [] := congrArg placedTokens (scanFrom_nil offset)
  induction body with
  | nil =>
    have hfirst : (tokensFrom 0 (bodyText 0 []).toList).head?.map (·.token) = none := by
      show (tokensFrom 0 []).head?.map _ = none
      rw [hnone]
      rfl
    refine ⟨by rw [EndsBranch, hfirst]; rfl, by rw [hfirst]; rfl, fun w ps c hstands => ⟨[], ?_, rfl⟩⟩
    obtain ⟨before, -, rfl⟩ := hstands
    show remaining _ (c.moveTo (tokensFrom _ [])) = _
    rw [hnone]
    exact remaining_nil rfl
  | cons s ss ih =>
    obtain ⟨hs, hss⟩ := List.forall_mem_cons.1 h
    obtain ⟨hends, -, hrest⟩ := ih hss
    rw [bodyText_cons, String.toList_append]
    refine ⟨endsBranch_text hs hends, ?_, fun w ps c hstands => ?_⟩
    · have hstands : Stands _ ((s.textAt 0).toList ++ (bodyText 0 ss).toList) _ := ⟨[], rfl, rfl⟩
      obtain ⟨a, ps', hrun, -⟩ := hs.reads _ _ _ (.start [] []) hstands hends
      exact (statement_starts hrun).1 .openqasm (Or.inr rfl)
    · obtain ⟨s', ps', hrun, hstands', hplain⟩ := hs.reads w _ ps c hstands hends
      obtain ⟨ss', hruns, hplains⟩ := hrest w ps' c hstands'
      have hne : (c.moveTo ps).rest ≠ [] := fun hnil => (statement_starts hrun).2.2 (by rw [Cursor.head?, hnil]; rfl)
      refine ⟨s' :: ss', ?_, by rw [bodyPlain, bodyPlain, hplain, hplains]⟩
      rw [remaining_cons hne (item_eq hrun), Excerpt.run_bind, hruns]
      rfl

theorem cuts_version (h : VersionPrintable v) : ∃ t, versionText? t = some v ∧
    Cuts ("OPENQASM " ++ v ++ ";") [.keyword .openqasm, t, .punctuation .semicolon] := by
  obtain ⟨-, t, hspells, hpragma, ht⟩ := h
  have hopening : "OPENQASM " = Keyword.openqasm.text ++ " " := rfl
  rw [hopening]
  exact ⟨t, ht, ((scans_keyword .openqasm).spaced (hspells.scansEnd hpragma)).ended.cuts⟩

/-- A version line is read to its end. -/
theorem versionLine_reads (h : VersionPrintable v) {after : List Char} (c : Cursor)
    (hstands : Stands w ((indentedLine 0 ("OPENQASM " ++ v ++ ";")).toList ++ after) ps) :
    ∃ ps', version? (.ofChars w) (c.moveTo ps) = (.ok (some v), c.moveTo ps') ∧ Stands w after ps' := by
  obtain ⟨t, ht, hcut⟩ := cuts_version h
  obtain ⟨qs, ps', rfl, htokens, hafter⟩ := hstands.line hcut
  obtain ⟨p₁, qs, rfl, hp₁, htokens⟩ := List.map_eq_cons_iff.1 htokens
  obtain ⟨p₂, qs, rfl, hp₂, htokens⟩ := List.map_eq_cons_iff.1 htokens
  obtain ⟨p₃, rfl, hp₃⟩ := List.map_eq_singleton_iff.1 htokens
  refine ⟨ps', ?_, hafter⟩
  have hline : versionLine (.ofChars w) (c.moveTo (p₁ :: p₂ :: p₃ :: ps')) = (.ok v, c.moveTo ps') :=
    versionLine_ok_iff.2 ⟨p₁, p₂, p₃, ps', rfl, hp₂ ▸ ht, h.1, hp₃, rfl⟩
  have hfirst : isKeyword .openqasm (c.moveTo (p₁ :: p₂ :: p₃ :: ps')).head? = true := by
    show isKeyword .openqasm (some p₁.token) = true
    rw [hp₁]
    rfl
  show version? _ (c.moveTo (p₁ :: p₂ :: p₃ :: ps')) = _
  rw [version?_openqasm hfirst, Excerpt.run_recovering, hline]

/-- The text of a program is read without an error, as a program that says the same. -/
theorem printed_program_reads_back (h : p.Printable) :
    (Program.parse p.text).2 = [] ∧ (Program.parse p.text).1.plain = p.plain := by
  obtain ⟨version, body⟩ := p
  obtain ⟨hversion, hbody⟩ := h
  have heach : ReadsEach 0 body := bodyReadsText body 0 hbody
  obtain ⟨-, hfirst, hread⟩ := remaining_reads heach
  have hvalid : LexicallyValid (bodyText 0 body).toList := by
    have hlines := wholeLines_body heach [] (fun l hl => by rw [scanFrom_nil] at hl; cases hl)
    rwa [List.append_nil] at hlines
  cases version with
  | none =>
    have htext : (Program.text ⟨none, body⟩).toList = (bodyText 0 body).toList := by
      rw [Program.text, String.empty_append]
    obtain ⟨body', hrun, hplain⟩ := hread _ _ (.start [] []) ⟨[], rfl, rfl⟩
    rw [parse_eq htext (version?_none (by rw [hvalid.cursor_eq]; exact hfirst))
      (by rw [hvalid.cursor_eq]; exact hrun)]
    exact ⟨rfl, congrArg (Program.mk none) hplain⟩
  | some v =>
    have hv := hversion v rfl
    have htext : (Program.text ⟨some v, body⟩).toList =
        (indentedLine 0 ("OPENQASM " ++ v ++ ";")).toList ++ (bodyText 0 body).toList := by
      rw [← String.toList_append]
      have hline : indentedLine 0 ("OPENQASM " ++ v ++ ";") = "OPENQASM " ++ v ++ ";\n" := by
        rw [indentedLine, Nat.mul_zero, List.replicate_zero, String.ofList_nil, String.empty_append,
          String.append_assoc]
        rfl
      rw [hline]
      rfl
    obtain ⟨t, -, hcut⟩ := cuts_version hv
    have hlines := wholeLines_line 0 hcut.lexicallyValid _ hvalid
    obtain ⟨ps', hline, hstands⟩ := versionLine_reads hv (.start [] []) ⟨[], rfl, rfl⟩
    obtain ⟨body', hrun, hplain⟩ := hread _ ps' (.start [] []) hstands
    rw [parse_eq htext (by rw [hlines.cursor_eq]; exact hline) hrun]
    exact ⟨rfl, congrArg (Program.mk (some v)) hplain⟩

end Programs

end OpenQasm
