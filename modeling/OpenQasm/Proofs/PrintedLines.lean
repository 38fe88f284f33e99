import OpenQasm.Proofs.JoinedTexts
import OpenQasm.Proofs.Parentheses
import OpenQasm.Proofs.PrintedPhrases
import OpenQasm.Proofs.Relocation

/-!
The statements that are printed on one line, and the lines in front of blocks. Such a line is cut into tokens, and
these are read as a statement, or as what stands in front of a block, that says the same.
-/
namespace OpenQasm

open OpenQasm.Parser OpenQasm.Grammar OpenQasm.Grammar.Nested OpenQasm.Token

section Lines

variable {s line : String} {ts : List Token} {k : StatementKind}

/-- The text is cut into the tokens, and no character is left over. -/
def Cuts (s : String) (ts : List Token) : Prop := (scanFrom 0 s.toList).map (·.token) = ts.map some

theorem Token.Scans.cuts {follow : Char → Bool} (h : Scans follow s ts) : Cuts s ts := h.scan

/-- The last token of the text may be one that runs to the end of the line. -/
theorem Token.Scans.cut {s' : String} {ts' : List Token} (h : Scans anything s ts) (h' : Cuts s' ts') :
    Cuts (s ++ s') (ts ++ ts') := by
  obtain ⟨ls, offset, hscan, htokens⟩ := h 0 s'.toList fun _ _ => rfl
  have hshift := scanFrom_add offset s'.toList 0
  rw [Nat.add_zero] at hshift
  unfold Cuts at h' ⊢
  rw [String.toList_append, hscan, hshift, List.map_append, List.map_append, List.map_map, htokens, ← h']
  rfl

theorem Cuts.lexicallyValid (h : Cuts s ts) : LexicallyValid s.toList := by
  intro l hl hnone
  have hmem : l.token ∈ ts.map some := h ▸ List.mem_map_of_mem hl
  obtain ⟨t, -, ht⟩ := List.mem_map.1 hmem
  nomatch ht.trans hnone

theorem Cuts.tokens (h : Cuts s ts) (offset : Nat) : (tokensFrom offset s.toList).map (·.token) = ts := by
  rw [tokensFrom_shift, List.map_map]
  exact (placed_of_lexemes h).1

theorem cuts_pragma {t : String} (h : (Token.pragma t).Spells ("#pragma " ++ t)) :
    Cuts ("#pragma " ++ t) [.pragma t] := by
  obtain ⟨c, cs, htext, hpiece⟩ := h
  have hhead : Scans (fun _ => false) ("#pragma " ++ t) [.pragma t] := by
    refine scans_of_headPiece htext fun rest hrest => ?_
    cases rest with
    | nil => rwa [List.append_nil]
    | cons c' _ => nomatch hrest c' rfl
  exact hhead.cuts

/-- The line is cut into tokens that are read as a statement which says the same, whatever comes next. -/
def ReadsLine (line : String) (k : StatementKind) : Prop :=
  ∃ ts k', Cuts line ts ∧ (∀ self next, Reads (statementKind self) ts next k') ∧ k'.plain = k.plain

end Lines

/-- A call of a function, or a name. -/
def Expr.callsOrNames : Expr → Bool
  | .call _ _ | .name _ => true
  | _ => false

section Statements

variable {n : String} {o : Option Expr} {q e target : Expr} {es : List Expr} {next : Option Token}
  {self : Parser Statement}

theorem ReadsLine.ofScans {follow : Char → Bool} {line : String} {ts : List Token} {k r : StatementKind}
    (hline : Scans follow line ts) (hread : ∀ self next, Reads (statementKind self) ts next r)
    (hplain : r.plain = k.plain) : ReadsLine line k :=
  ⟨ts, r, hline.cuts, hread, hplain⟩

theorem reads_ended (k : StatementKind) : Reads (ended k) [.punctuation .semicolon] next k :=
  Reads.expect (reads_pure k next)

theorem readsLine_include {path : String} (h : (Token.string path).Spells ("\"" ++ path ++ "\"")) :
    ReadsLine ("include \"" ++ path ++ "\";") (.includeFile path) := by
  have hline := ((scans_keyword .include).spaced (h.scansEnd rfl)).ended
  have htext : "include \"" ++ path ++ "\";" = "include" ++ " " ++ ("\"" ++ path ++ "\"") ++ ";" := by
    have hopening : "include \"" = "include" ++ " " ++ "\"" := rfl
    have hclosing : "\";" = "\"" ++ ";" := rfl
    rw [hopening, hclosing]
    simp only [String.append_assoc]
  rw [htext]
  exact .ofScans hline (fun _ _ => Reads.peek (Reads.skip (Reads.peek (Reads.skip (reads_ended _))))) rfl

theorem readsLine_qubits (hn : (Token.name n).Spells n) (h : optionPrintable o) :
    ReadsLine ("qubit" ++ sizeText o ++ " " ++ n ++ ";") (.qubits n o) := by
  have hline := ((scans_sized (scans_keyword .qubit) h).spaced (hn.scansEnd rfl)).ended
  refine .ofScans hline (r := .qubits n (optionWithParens o)) (fun _ next => ?_)
    (congrArg (StatementKind.qubits n) (optionWithoutParens_withParens o))
  simp only [List.append_assoc, List.cons_append]
  exact Reads.peek (Reads.skip ((reads_size h rfl).bind (Reads.name (reads_ended _))))

theorem readsLine_alias (hn : (Token.name n).Spells n) (h : e.Printable) :
    ReadsLine ("let " ++ n ++ " = " ++ e.text ++ ";") (.alias n e) := by
  have hline := ((((scans_keyword .let).spaced (hn.scans rfl)).symbol .eq).then (e.scansEnd 0 h)).ended
  simp only [String.append_assoc, List.cons_append, List.nil_append] at hline ⊢
  refine .ofScans hline (r := .alias n (e.withParens 0)) (fun _ next => ?_)
    (congrArg (StatementKind.alias n) (e.withoutParens_withParens 0))
  exact Reads.peek (Reads.skip (Reads.name (Reads.expect
    ((reads_expression h (follows_punctuation rfl)).bind (reads_ended _)))))

theorem readsLine_classical {d : ClassicalDecl} (h : d.Printable) : ReadsLine d.text (.classical d) :=
  .ofScans (ClassicalDecl.scans h) (fun self _ => ClassicalDecl.reads h self)
    (congrArg StatementKind.classical d.plain_withParens)

theorem readsLine_gate {c : GateCall} (h : c.Printable) : ReadsLine (c.text ++ ";") (.gate c) :=
  .ofScans (GateCall.scans h) (fun self _ => GateCall.reads h self)
    (congrArg StatementKind.gate c.plain_withParens)

/-- What is read after a name is an operand. -/
theorem reads_operand_ended (hoperand : q.isOperand = true) (h : q.Printable) :
    Reads Grammar.operand (q.tokensAt 0) (some (.punctuation .semicolon)) (q.withParens 0) :=
  reads_operand hoperand h rfl rfl

theorem readsLine_measure (hoperand : q.isOperand = true) (h : q.Printable) :
    ReadsLine ("measure " ++ q.text ++ ";") (.measure q none) := by
  have hline := ((scans_keyword .measure).spaced (q.scansEnd 0 h)).ended
  refine .ofScans hline (r := .measure (q.withParens 0) none) (fun _ next => ?_)
    (congrArg (StatementKind.measure · none) (q.withoutParens_withParens 0))
  simp only [List.cons_append, List.nil_append]
  exact Reads.peek (Reads.skip ((reads_operand_ended hoperand h).bind (Reads.refuse rfl (reads_ended _))))

theorem readsLine_reset (hoperand : e.isOperand = true) (h : e.Printable) :
    ReadsLine ("reset " ++ e.text ++ ";") (.reset e) := by
  have hline := ((scans_keyword .reset).spaced (e.scansEnd 0 h)).ended
  refine .ofScans hline (r := .reset (e.withParens 0)) (fun _ next => ?_)
    (congrArg StatementKind.reset (e.withoutParens_withParens 0))
  simp only [List.cons_append, List.nil_append]
  exact Reads.peek (Reads.skip ((reads_operand_ended hoperand h).bind (reads_ended _)))

theorem readsLine_barrier (h : operandsPrintable es) (hne : es ≠ []) :
    ReadsLine ("barrier " ++ exprsText es ++ ";") (.barrier es) := by
  have hline := ((scans_keyword .barrier).spaced (scansEnd_exprs h.exprs)).ended
  obtain ⟨n, ts, hfirst⟩ := operandTokens_first h hne
  refine .ofScans hline (r := .barrier (exprsWithParens es)) (fun _ next => ?_)
    (congrArg StatementKind.barrier (exprsWithoutParens_withParens es))
  simp only [List.cons_append, List.nil_append]
  have hsemicolon : isPunctuation .semicolon
      ((commaTokens (exprsTokens es) ++ [Token.punctuation .semicolon]).head?.or next) = false := by
    rw [hfirst]
    rfl
  have hoperands : Reads (operandList >>= fun operands => ended (.barrier operands))
      (commaTokens (exprsTokens es) ++ [Token.punctuation .semicolon]) next (.barrier (exprsWithParens es)) :=
    (reads_operandList h hne).bind (reads_ended _)
  refine Reads.peek (Reads.skip ((reads_at? .semicolon _).look ?_))
  rw [hsemicolon]
  exact hoperands

/-- A statement that is one keyword. -/
theorem readsLine_keyword (keyword : Keyword) {k : StatementKind}
    (h : ∀ self next, Reads (keywordLed self keyword) [.keyword keyword, .punctuation .semicolon] next k) :
    ReadsLine (keyword.text ++ ";") k :=
  .ofScans (scansEnd_keyword keyword).ended (fun self next => Reads.peek (h self next)) rfl

theorem reads_keywordStatement (keyword : Keyword) (k : StatementKind) :
    Reads (keywordStatement k) [.keyword keyword, .punctuation .semicolon] next k :=
  Reads.skip (reads_ended k)

theorem readsLine_barrierAll : ReadsLine "barrier;" (.barrier []) :=
  readsLine_keyword .barrier fun _ _ => Reads.skip ((reads_at? .semicolon _).look (reads_ended _))

theorem readsLine_returnNone : ReadsLine "return;" (.returnValue none) :=
  readsLine_keyword .return fun _ _ => Reads.skip ((reads_at? .semicolon _).look (reads_ended _))

theorem readsLine_return (h : e.Printable) :
    ReadsLine ("return " ++ e.text ++ ";") (.returnValue (some e)) := by
  have hline := ((scans_keyword .return).spaced (e.scansEnd 0 h)).ended
  obtain ⟨t, ts, hfirst, ht⟩ := (e.opening 0 h).ne (p := .semicolon) rfl
  refine .ofScans hline (r := .returnValue (some (e.withParens 0))) (fun _ next => ?_)
    (congrArg (StatementKind.returnValue ∘ some) (e.withoutParens_withParens 0))
  simp only [List.cons_append, List.nil_append]
  have hsemicolon : isPunctuation .semicolon
      ((e.tokensAt 0 ++ [Token.punctuation .semicolon]).head?.or next) = false := by
    rw [hfirst]
    exact isPunctuation_of_ne ht
  have hvalue : Reads (Grammar.expression >>= fun e => ended (.returnValue (some e)))
      (e.tokensAt 0 ++ [Token.punctuation .semicolon]) next (.returnValue (some (e.withParens 0))) :=
    (reads_expression h (follows_punctuation rfl)).bind (reads_ended _)
  refine Reads.peek (Reads.skip ((reads_at? .semicolon _).look ?_))
  rw [hsemicolon]
  exact hvalue

theorem readsLine_pragma {t : String} (h : (Token.pragma t).Spells ("#pragma " ++ t)) :
    ReadsLine ("#pragma " ++ t) (.pragma t) :=
  ⟨_, .pragma t, cuts_pragma h, fun _ _ => Reads.peek (Reads.skip (reads_pure _ _)), rfl⟩

/-- A call or a name is told from a call of a gate by the semicolon that ends it. -/
theorem readsLine_evaluate (hcalls : e.callsOrNames = true) (h : e.Printable) :
    ReadsLine (e.text ++ ";") (.evaluate e) := by
  have hline := (e.scansEnd 0 h).ended
  cases e with
  | name n => exact .ofScans hline (fun _ next => Reads.peek (Reads.peekSecond (Reads.name (reads_ended _)))) rfl
  | call f args =>
    refine .ofScans hline (r := .evaluate (.call f (exprsWithParens args))) (fun _ next => Reads.peek ?_)
      (congrArg (StatementKind.evaluate ∘ Expr.call f) (exprsWithoutParens_withParens args))
    have hended : Reads (do
        if ← accept .semicolon then return StatementKind.evaluate (.call f (exprsWithParens args))
        gateOperands [] f (exprsWithParens args)) [.punctuation .semicolon] next
        (.evaluate (.call f (exprsWithParens args))) := Reads.accept (reads_pure _ next)
    rw [Expr.Printable] at h
    rw [Expr.tokensAt, between, List.cons_append, List.cons_append]
    exact Reads.peekSecond (Reads.name (Reads.expect ((reads_argumentList h.2 _).bind hended)))
  | _ => cases hcalls

/-- The symbol of an assignment. -/
def AssignOp.punctuation : AssignOp → Punctuation
  | .set => .eq
  | .add => .plusEq
  | .sub => .minusEq
  | .mul => .starEq
  | .div => .slashEq

/-- The statement that the assignment of a value is. -/
def assigned (target : Expr) : AssignOp → Expr → StatementKind
  | .set, .measure qubits => .measure qubits (some target)
  | op, value => .assign target op value

theorem assigned_eq {op : AssignOp} {value : Expr} (h : op = .set → value.isMeasure = false) :
    assigned target op value = .assign target op value := by
  unfold assigned
  split
  · nomatch h rfl
  · rfl

theorem isMeasure_withParens (e : Expr) : (e.withParens 0).isMeasure = e.isMeasure := by
  have hbinary (op : BinaryOp) : ¬op.strength < 0 := Nat.not_lt_zero _
  cases e with
  | binary l op r => rw [Expr.withParens, Expr.guarded, if_neg (hbinary op)]; rfl
  | _ => rfl

theorem reads_assignment (hoperand : target.isOperand = true) (htarget : target.Printable) (op : AssignOp)
    (h : e.Printable) :
    Reads assignment (target.tokensAt 0 ++
      .punctuation op.punctuation :: (e.tokensAt 0 ++ [Token.punctuation .semicolon])) next
      (assigned (target.withParens 0) op (e.withParens 0)) := by
  refine (reads_operand hoperand htarget (by cases op <;> rfl) (by cases op <;> rfl)).bind (Reads.peek ?_)
  cases op with
  | set =>
    refine Reads.skip ((reads_expression h (follows_punctuation rfl)).bind ?_)
    generalize e.withParens 0 = value
    cases value <;> exact reads_ended _
  | add | sub | mul | div => exact Reads.skip ((reads_expression h (follows_punctuation rfl)).bind (reads_ended _))

/-- An assignment is told from other statements that start with a name by the token after the name. -/
theorem reads_assigned (hoperand : target.isOperand = true) (htarget : target.Printable) (op : AssignOp)
    (h : e.Printable) (self : Parser Statement) :
    Reads (statementKind self) (target.tokensAt 0 ++
      .punctuation op.punctuation :: (e.tokensAt 0 ++ [Token.punctuation .semicolon])) next
      (assigned (target.withParens 0) op (e.withParens 0)) := by
  have hread : Reads assignment _ next _ := reads_assignment hoperand htarget op h
  obtain ⟨n, ts, htokens, hts⟩ := target.tokensAt_operand 0 hoperand
  rw [htokens] at hread ⊢
  refine Reads.peek ?_
  obtain rfl | ⟨ts', rfl⟩ := hts
  · cases op <;> exact Reads.peekSecond hread
  · exact Reads.peekSecond hread

theorem readsLine_assign (hoperand : target.isOperand = true) (htarget : target.Printable) {op : AssignOp}
    (h : e.Printable) (hmeasure : op = .set → e.isMeasure = false) :
    ReadsLine (target.text ++ " " ++ op.text ++ " " ++ e.text ++ ";") (.assign target op e) := by
  have hop : op.text = op.punctuation.text := by cases op <;> rfl
  have hline := (((target.scans 0 htarget).symbol op.punctuation).then (e.scansEnd 0 h)).ended
  rw [hop]
  simp only [List.append_assoc, List.cons_append, List.nil_append] at hline
  refine .ofScans hline (fun self _ => reads_assigned hoperand htarget op h self) ?_
  rw [assigned_eq fun hset => (isMeasure_withParens e).trans (hmeasure hset), StatementKind.plain,
    StatementKind.plain, target.withoutParens_withParens, e.withoutParens_withParens]

/-- A measurement with a target is printed as an assignment. -/
theorem readsLine_measureInto (hoperand : q.isOperand = true) (h : q.Printable)
    (htarget : target.isOperand = true) (ht : target.Printable) :
    ReadsLine (target.text ++ " = measure " ++ q.text ++ ";") (.measure q (some target)) := by
  have hq : (Expr.measure q).Printable := ⟨hoperand, h⟩
  have htext : (Expr.measure q).textAt 0 = "measure " ++ q.text := by
    cases q <;> first | rfl | nomatch hoperand
  have hline := (((target.scans 0 ht).symbol .eq).then ((Expr.measure q).scansEnd 0 hq)).ended
  rw [htext] at hline
  simp only [String.append_assoc, List.append_assoc, List.cons_append, List.nil_append] at hline ⊢
  refine .ofScans hline (fun self _ => reads_assigned htarget ht .set hq self) ?_
  show StatementKind.plain (.measure (q.withParens Expr.atomStrength) (some (target.withParens 0))) = _
  rw [StatementKind.plain, StatementKind.plain, q.withoutParens_withParens, optionWithoutParens,
    optionWithoutParens, target.withoutParens_withParens]

end Statements

section Headers

variable {n : String} {e : Expr} {next : Option Token}

/-- What stands in front of a brace is cut into tokens, the first of which is the keyword; these are read as the
value. -/
def Introduces {α : Type} (header : String) (k : Keyword) (head : Parser α) (a : α) : Prop :=
  ∃ ts, Cuts (header ++ " \x7b") (.keyword k :: ts ++ [Token.punctuation .lBrace]) ∧
    Reads head (.keyword k :: ts) (some (.punctuation .lBrace)) a

theorem Introduces.ofScans {α : Type} {header : String} {k : Keyword} {head : Parser α} {a : α} {ts : List Token}
    (h : Scans closesToken header (.keyword k :: ts))
    (hread : Reads head (.keyword k :: ts) (some (.punctuation .lBrace)) a) : Introduces header k head a := by
  have hbrace := h.spaced (scans_alone (s := .lBrace) rfl)
  rw [String.append_assoc] at hbrace
  exact ⟨ts, hbrace.cuts, hread⟩

theorem introduces_condition (k : Keyword) (h : e.Printable) :
    Introduces (k.text ++ " (" ++ e.text ++ ")") k condition (e.withParens 0) := by
  have hcondition := (scans_keyword k).spaced ((e.scans 0 h).between (p := .lParen) (q := .rParen) rfl rfl (by decide))
  have htext : k.text ++ " (" ++ e.text ++ ")" = k.text ++ " " ++ ("(" ++ e.text ++ ")") := by
    have hopening : " (" = " " ++ "(" := rfl
    rw [hopening]
    simp only [String.append_assoc]
  rw [htext]
  exact .ofScans hcondition.ofAnything
    (Reads.skip (Reads.expect ((reads_closed h rfl).bind (Reads.expect (reads_pure _ _)))))

theorem introduces_else : Introduces "else" .else (acceptKeyword .else) true :=
  .ofScans (scans_keyword .else) (reads_acceptKeyword .else _)

/-- What stands in front of the block of a loop. -/
def forHead : Parser (Option TypeExpr × String × LoopValues) := do
  advance
  let type ← loopType?
  let n ← Parser.name
  expectKeyword .in
  let values ← loopValues
  return (type, n, values)

theorem forStatement_eq (self : Parser Statement) : forStatement self = forHead >>= fun head =>
    body self >>= fun ss => pure (.forLoop head.1 head.2.1 head.2.2 ss) := by
  unfold forStatement forHead
  simp only [Excerpt.bind_assoc]
  rfl

def optionTypeTokens : Option TypeExpr → List Token
  | none => []
  | some t => t.tokens

def loopTypeText : Option TypeExpr → String
  | none => ""
  | some t => t.text ++ " "

theorem forHeader_eq (type : Option TypeExpr) (n : String) (values : LoopValues) : forHeader type n values =
    Keyword.for.text ++ " " ++ loopTypeText type ++ n ++ " " ++ Keyword.in.text ++ " " ++ values.text := by
  have hfor : "for " = Keyword.for.text ++ " " := rfl
  have hin : " in " = " " ++ Keyword.in.text ++ " " := rfl
  unfold forHeader
  rw [hfor, hin]
  simp only [String.append_assoc]
  rfl

theorem scans_loopType {type : Option TypeExpr} (h : ∀ t ∈ type, t.Printable) :
    Scans anything (loopTypeText type) (optionTypeTokens type) := by
  cases type with
  | none => exact scans_empty _
  | some t => exact (t.scans_printable (h t rfl)).space

theorem reads_loopType {type : Option TypeExpr} (h : ∀ t ∈ type, t.Printable) (n : String) :
    Reads loopType? (optionTypeTokens type) (some (.name n)) (type.map TypeExpr.withParens) := by
  cases type with
  | none => exact Reads.peek (reads_pure none _)
  | some t =>
    obtain ⟨k, ts, htokens, hk⟩ := t.tokens_startsType (h t rfl)
    have htype : Reads (Grammar.type >>= fun t => pure (some t)) t.tokens (some (.name n)) (some t.withParens) :=
      (reads_type (h t rfl) rfl).last (reads_pure _ _)
    refine Reads.peek ?_
    rw [optionTypeTokens, htokens] at *
    show Reads (if k.startsType then _ else _) _ _ _
    rw [if_pos hk]
    exact htype

theorem introduces_for {type : Option TypeExpr} {values : LoopValues} (htype : ∀ t ∈ type, t.Printable)
    (hn : (Token.name n).Spells n) (hvalues : values.Printable) :
    Introduces (forHeader type n values) .for forHead (type.map TypeExpr.withParens, n, values.withParens) := by
  have hbinder := ((scans_keyword .for).space.then (scans_loopType htype)).then (hn.scans rfl)
  have hheader := (hbinder.spaced (scans_keyword .in)).spaced (values.scans hvalues)
  simp only [List.append_assoc, List.cons_append, List.nil_append] at hheader
  rw [forHeader_eq]
  exact .ofScans hheader (Reads.skip ((reads_loopType htype n).bind (Reads.name (Reads.expectKeyword
    ((values.reads hvalues).last (reads_pure _ _))))))

theorem ite_bind {α β : Type} (c : Bool) (p q : Parser α) (f : α → Parser β) :
    (if c then p else q) >>= f = if c then p >>= f else q >>= f := by
  cases c <;> rfl

/-- What stands in front of the body of a subroutine. -/
def subroutineHead : Parser (String × List Formal × Option TypeExpr) := do
  advance
  let n ← Parser.name
  expect .lParen
  let formals ← itemsBefore .rParen formal
  expect .rParen
  let result ← if ← accept .arrow then some <$> Grammar.type else pure none
  return (n, formals, result)

theorem subroutineDefinition_eq (self : Parser Statement) : subroutineDefinition self =
    subroutineHead >>= fun head =>
      block self >>= fun ss => pure (.defineSubroutine ⟨head.1, head.2.1, head.2.2, ss⟩) := by
  unfold subroutineDefinition subroutineHead
  simp only [Excerpt.bind_assoc, ite_bind]
  rfl

/-- The tokens of the type of a result. -/
def resultTokens : Option TypeExpr → List Token
  | none => []
  | some t => .punctuation .arrow :: t.tokens

def resultText : Option TypeExpr → String
  | none => ""
  | some t => " -> " ++ t.text

theorem subroutineHeader_eq (n : String) (formals : List Formal) (result : Option TypeExpr) :
    subroutineHeader n formals result = Keyword.define.text ++ " " ++ n ++ "(" ++
      commaJoin (formals.map Formal.text) ++ ")" ++ resultText result := by
  have hdefine : "def " = Keyword.define.text ++ " " := rfl
  unfold subroutineHeader
  rw [hdefine]
  rfl

theorem scans_result {s : String} {ts : List Token} (hs : Scans anything s ts) {result : Option TypeExpr}
    (h : ∀ t ∈ result, t.Printable) : Scans closesToken (s ++ resultText result) (ts ++ resultTokens result) := by
  cases result with
  | none => exact hs.then (scans_empty _)
  | some t =>
    have hresult := (hs.ofAnything.symbol .arrow).then (t.scans_printable (h t rfl))
    simp only [String.append_assoc, List.append_assoc] at hresult
    exact hresult

theorem reads_result {α : Type} {result : Option TypeExpr} (h : ∀ t ∈ result, t.Printable)
    (f : Option TypeExpr → α) : Reads (do
      let result ← if ← accept .arrow then some <$> Grammar.type else pure none
      return f result) (resultTokens result) (some (.punctuation .lBrace)) (f (result.map TypeExpr.withParens)) := by
  cases result with
  | none => exact Reads.refuse rfl (reads_pure (f none) _)
  | some t =>
    have htype : Reads (some <$> Grammar.type) t.tokens (some (.punctuation .lBrace)) (some t.withParens) :=
      (reads_type (h t rfl) rfl).last (reads_pure (some _) _)
    exact Reads.accept (htype.last (reads_pure _ _))

theorem introduces_subroutine {formals : List Formal} {result : Option TypeExpr} (hn : (Token.name n).Spells n)
    (hformals : ∀ f ∈ formals, f.Printable) (hresult : ∀ t ∈ result, t.Printable) :
    Introduces (subroutineHeader n formals result) .define subroutineHead
      (n, formals.map Formal.withParens, result.map TypeExpr.withParens) := by
  have hname := (scans_keyword .define).spaced (hn.scans rfl)
  have hparens := hname.bracketed (scans_formals hformals) (p := .lParen) (q := .rParen) rfl (by decide) rfl (by decide)
  have hheader := scans_result hparens hresult
  simp only [between, List.append_assoc, List.cons_append, List.nil_append] at hheader
  rw [subroutineHeader_eq]
  exact .ofScans hheader (Reads.skip (Reads.name (Reads.expect ((reads_formals hformals).bind
    (Reads.expect (reads_result hresult _))))))

/-- What stands in front of the body of a gate. -/
def gateHead : Parser (String × List String × List String) := do
  advance
  let n ← Parser.name
  let params ← gateDefinition.gateParams
  let qubits ← nameList
  return (n, params, qubits)

theorem gateDefinition_eq (self : Parser Statement) : gateDefinition self =
    gateHead >>= fun head => block self >>= fun ss => pure (.defineGate ⟨head.1, head.2.1, head.2.2, ss⟩) := by
  unfold gateDefinition gateHead
  simp only [Excerpt.bind_assoc]
  rfl

theorem reads_gateParams (params : List String) (x : String) :
    Reads gateDefinition.gateParams (argumentTokens (namesTokens params)) (some (.name x)) params := by
  unfold argumentTokens
  cases params with
  | nil => exact Reads.refuse rfl (reads_pure [] _)
  | cons p ps =>
    have hnames : Reads (itemsBefore .rParen Parser.name) (commaTokens (namesTokens (p :: ps)))
        (some (.punctuation .rParen)) (p :: ps) := by
      refine reads_itemsBefore (readEach_names _ _) (fun ts hts => ?_) nofun
      obtain ⟨n, -, rfl⟩ := List.mem_map.1 hts
      exact ⟨_, [], rfl, nofun⟩
    exact Reads.accept (hnames.bind (Reads.expect (reads_pure (p :: ps) _)))

theorem introduces_gate {params qubits : List String} (hn : (Token.name n).Spells n) (hparams : namesSpelled params)
    (hqubits : namesSpelled qubits) (hne : qubits ≠ []) :
    Introduces (gateHeader n params qubits) .gate gateHead (n, params, qubits) := by
  obtain ⟨x, xs, rfl⟩ := List.exists_cons_of_ne_nil hne
  have heach : List.Forall₂ (Scans closesToken) params (namesTokens params) := by
    rw [namesTokens, List.forall₂_map_right_iff, List.forall₂_same]
    exact fun n hn => (hparams n hn).scans rfl
  have hheader := ((scans_keyword .gate).spaced (scans_arguments heach hn)).spaced (scans_names hqubits)
  have hkeyword : "gate " = Keyword.gate.text ++ " " := rfl
  simp only [gateHeader, hkeyword, commaJoin, String.append_assoc, List.cons_append,
    List.nil_append] at hheader ⊢
  refine .ofScans hheader (Reads.skip (Reads.name ((reads_gateParams params x).before rfl ?_)))
  exact (reads_commaSeparated (readEach_names (x :: xs) _) (List.cons_ne_nil _ _) rfl).last (reads_pure _ _)

end Headers

end OpenQasm
