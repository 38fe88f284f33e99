import OpenQasm.Proofs.PrintedExpressions
import OpenQasm.Syntax.Plain

/-!
The phrases that printed statements are made of: types, sizes, lists of expressions and operands, modifiers, calls
of gates, declarations, formal parameters and the values of loops. Each is cut into its tokens, and these are read as
the phrase with the parentheses that are printed.
-/
namespace OpenQasm

open OpenQasm.Parser OpenQasm.Grammar OpenQasm.Grammar.Nested OpenQasm.Token

section Ends

variable {s : String} {ts : List Token} {follow : Char → Bool}

/-- A text and the semicolon that ends its last token. -/
theorem Token.Scans.ended (h : Scans endsToken s ts) :
    Scans anything (s ++ ";") (ts ++ [Token.punctuation .semicolon]) :=
  h.append (scans_mark (Or.inl rfl)) fun _ _ c hc => by
    cases hc
    rfl

/-- A text with a blank before another one. -/
theorem Token.Scans.spaced {s' : String} {ts' : List Token} (h : Scans closesToken s ts) (h' : Scans follow s' ts') :
    Scans follow (s ++ " " ++ s') (ts ++ ts') :=
  h.space.then h'

/-- A text and a symbol between blanks. -/
theorem Token.Scans.symbol (h : Scans closesToken s ts) (p : Punctuation) :
    Scans anything (s ++ " " ++ p.text ++ " ") (ts ++ [Token.punctuation p]) :=
  (h.spaced (scans_symbol p)).space

theorem Token.Scans.ofAnything (h : Scans anything s ts) : Scans follow s ts := h.mono fun _ _ => rfl

end Ends

section Types

variable {next : Option Token}

/-- Types that can be read, with widths and dimensions that can be read. -/
def TypeExpr.Printable : TypeExpr → Prop
  | .bool | .duration | .stretch => True
  | .sized _ width => optionPrintable width
  | .array element dims => element.Printable ∧ dims ≠ [] ∧ exprsPrintable dims

/-- All types but two are those of conversions. -/
theorem TypeExpr.Printable.cases {t : TypeExpr} (h : t.Printable) : t.Castable ∨ t = .stretch ∨
    ∃ element dims, t = .array element dims ∧ element.Printable ∧ dims ≠ [] ∧ exprsPrintable dims := by
  cases t with
  | bool | duration => exact Or.inl trivial
  | sized kind width => exact Or.inl h
  | stretch => exact Or.inr (Or.inl rfl)
  | array element dims => exact Or.inr (Or.inr ⟨element, dims, rfl, h⟩)

theorem TypeExpr.scans_printable (t : TypeExpr) (h : t.Printable) : Scans closesToken t.text t.tokens := by
  obtain hcast | rfl | ⟨element, dims, rfl, helement, -, hdims⟩ := h.cases
  · exact t.scans hcast
  · exact scans_keyword .stretch
  · have hlist := scans_commas (.cons (element.scans_printable helement) (exprs_scan dims hdims))
    have harray := scans_width (scans_keyword .array) hlist
    exact harray

theorem TypeExpr.tokens_startsType (t : TypeExpr) (h : t.Printable) :
    ∃ k ts, t.tokens = .keyword k :: ts ∧ k.startsType = true := by
  obtain hcast | rfl | ⟨element, dims, rfl, -, -, -⟩ := h.cases
  · obtain ⟨k, ts, htokens, hk⟩ := t.tokens_eq_cons hcast
    exact ⟨k, ts, htokens, (Bool.and_eq_true_iff.1 (Bool.and_eq_true_iff.1 hk).1).1⟩
  · exact ⟨.stretch, [], rfl, rfl⟩
  · exact ⟨.array, _, rfl, rfl⟩

/-- The dimensions of an array stand behind commas. -/
theorem reads_dimensions {dims : List Expr} (h : exprsPrintable dims) {n : Nat}
    (hn : ∀ ts ∈ exprsTokens dims, ts.length ≤ n) :
    Reads (nested (n + 1)).dimensions ((exprsTokens dims).flatMap (.punctuation .comma :: ·))
      (some (.punctuation .rBracket)) (exprsWithParens dims) :=
  Reads.bounded fun _ hfuel => reads_moreItems (exprs_readBack dims n _ h hn rfl) rfl hfuel

theorem reads_arrayType {n : Nat} {ts : List Token} {tss : List (List Token)} {element : TypeExpr} {dims : List Expr}
    (hne : dims ≠ [])
    (helement : ∀ next, isPunctuation .lBracket next = false → Reads (nested n).type ts next element)
    (hdims : Reads (nested n).dimensions (tss.flatMap (Token.punctuation .comma :: ·)) (some (.punctuation .rBracket))
      dims) :
    Reads (nested n).typeLevel (.keyword .array :: between .lBracket .rBracket (commaTokens (ts :: tss))) next
      (.array element dims) := by
  have hfirst : Reads (nested n).type ts
      ((tss.flatMap (Token.punctuation .comma :: ·) ++ [Token.punctuation .rBracket]).head?.or next) element := by
    refine helement _ ?_
    cases tss <;> rfl
  rw [commaTokens, between, List.cons_append, List.append_assoc]
  refine Reads.peek (Reads.skip (Reads.expect (hfirst.bind (hdims.bind (Reads.expect ?_)))))
  rw [List.isEmpty_eq_false_iff.2 hne]
  exact reads_pure _ next

theorem length_commaTokens (ts : List Token) (tss : List (List Token)) :
    (commaTokens (ts :: tss)).length = ts.length + (tss.flatMap (Token.punctuation .comma :: ·)).length :=
  List.length_append

theorem TypeExpr.readLevel : ∀ (t : TypeExpr) (n : Nat) (next : Option Token), t.Printable →
    t.tokens.length ≤ n + 1 → isPunctuation .lBracket next = false →
    Reads (nested (n + 1)).typeLevel t.tokens next t.withParens := by
  intro t n next h hn hnext
  obtain hcast | rfl | ⟨element, dims, rfl, helement, hne, hdims⟩ := h.cases
  · exact t.readBack n next hcast hn hnext
  · exact Reads.peek (Reads.skip (reads_pure _ _))
  · rw [TypeExpr.tokens, List.length_cons, length_between, length_commaTokens] at hn
    obtain ⟨k, rfl⟩ : ∃ k, n = k + 1 := Nat.exists_eq_succ_of_ne_zero (by omega)
    have hfirst := fun next => element.readLevel k next helement (by omega)
    have hrest := reads_dimensions hdims (n := k + 1) fun ts hts => by
      have hle := length_le_commaTokens (List.mem_cons_of_mem element.tokens hts)
      rw [length_commaTokens] at hle
      omega
    have hkept : exprsWithParens dims ≠ [] := by
      cases dims with
      | nil => exact absurd rfl hne
      | cons e es => exact List.cons_ne_nil _ _
    rw [TypeExpr.tokens, TypeExpr.withParens]
    exact reads_arrayType hkept hfirst hrest
termination_by t => t

/-- A type is read where no size comes next. -/
theorem reads_type {t : TypeExpr} (h : t.Printable) (hnext : isPunctuation .lBracket next = false) :
    Reads Grammar.type t.tokens next t.withParens := by
  refine Reads.bounded fun n hn => ?_
  obtain ⟨k, ts, htokens, -⟩ := t.tokens_startsType h
  have hlength : 0 < t.tokens.length := by
    rw [htokens]
    exact Nat.succ_pos _
  obtain ⟨m, rfl⟩ : ∃ m, n = m + 2 := ⟨n - 2, by omega⟩
  exact t.readLevel m next h (by omega) hnext

end Types

section Expressions

variable {next : Option Token} {es : List Expr} {o : Option Expr}

theorem exprsPrintable_iff : exprsPrintable es ↔ ∀ e ∈ es, e.Printable := by
  induction es with
  | nil => exact ⟨fun _ => nofun, fun _ => trivial⟩
  | cons e es ih => rw [exprsPrintable, List.forall_mem_cons, ih]

theorem exprTexts_eq (es : List Expr) : exprTexts es = es.map Expr.text := by
  induction es with
  | nil => rfl
  | cons e es ih => rw [exprTexts, ih, List.map_cons, Expr.text]

theorem follows_punctuation {p : Punctuation} (h : [Punctuation.semicolon, .lBrace].contains p = true) :
    Follows 1 (some (.punctuation p)) := by
  have hp : p = .semicolon ∨ p = .lBrace := by simpa using h
  obtain rfl | rfl := hp <;> exact ⟨rfl, rfl, nofun⟩

/-- The expressions of a list, none of which starts with the symbol that closes it. -/
theorem reads_exprs (h : exprsPrintable es) {p : Punctuation} (hp : closesExpr (some (.punctuation p)) = true)
    (hcomma : p ≠ .comma) {n : Nat} (hn : (commaTokens (exprsTokens es)).length < n) :
    Reads (itemsBefore p (nested n).whole) (commaTokens (exprsTokens es)) (some (.punctuation p))
      (exprsWithParens es) := by
  obtain ⟨k, rfl⟩ : ∃ k, n = k + 1 := Nat.exists_eq_succ_of_ne_zero (Nat.ne_of_gt (Nat.zero_lt_of_lt hn))
  have heach := exprs_readBack es k (some (.punctuation p)) h
    (fun ts hts => Nat.le_trans (length_le_commaTokens hts) (Nat.le_of_lt_succ hn)) hp
  refine reads_itemsBefore heach (exprs_open h ?_) hcomma
  cases p with
  | comma => exact absurd rfl hcomma
  | colon | rParen | rBracket | rBrace => rfl
  | _ => nomatch hp

theorem reads_argumentList (h : exprsPrintable es) (next : Option Token) :
    Reads Grammar.arguments (commaTokens (exprsTokens es) ++ [Token.punctuation .rParen]) next
      (exprsWithParens es) := by
  refine Reads.bounded fun n hn => ?_
  rw [List.length_append] at hn
  exact (reads_exprs (p := .rParen) h rfl nofun (Nat.lt_of_le_of_lt (Nat.le_add_right _ _) hn)).bind
    (Reads.expect (reads_pure _ next))

theorem reads_set (h : exprsPrintable es) (next : Option Token) :
    Reads Grammar.braced (between .lBrace .rBrace (commaTokens (exprsTokens es))) next (exprsWithParens es) := by
  refine Reads.bounded fun n hn => ?_
  rw [length_between] at hn
  exact Reads.expect ((reads_exprs (p := .rBrace) h rfl nofun (Nat.lt_of_le_of_lt (Nat.le_add_right _ _) hn)).bind
    (Reads.expect (reads_pure _ next)))

/-- The tokens of a size in brackets, if there is one. -/
def sizeTokens : Option Expr → List Token
  | none => []
  | some e => between .lBracket .rBracket (e.tokensAt 0)

theorem scans_sized {s : String} {ts : List Token} (hs : Scans closesToken s ts) (h : optionPrintable o) :
    Scans closesToken (s ++ sizeText o) (ts ++ sizeTokens o) := by
  cases o with
  | none => exact hs.append (scans_empty closesToken) fun _ hrest c hc => hrest c hc
  | some e =>
    have hsize := hs.bracketed (e.scans 0 h) (p := .lBracket) (q := .rBracket) rfl (by decide) rfl (by decide)
    simp only [String.append_assoc] at hsize
    simp only [sizeText, String.append_assoc]
    exact hsize.ofAnything

theorem reads_size (h : optionPrintable o) (hnext : isPunctuation .lBracket next = false) :
    Reads Grammar.designator? (sizeTokens o) next (optionWithParens o) := by
  refine Reads.bounded fun n hn => ?_
  cases o with
  | none => exact reads_designator?_none hnext
  | some e =>
    rw [sizeTokens, length_between] at hn
    have hclose : Follows 1 (some (.punctuation .rBracket)) := follows_of_closes rfl 1
    exact reads_designator? (reads_whole h hclose (Nat.lt_of_le_of_lt (Nat.le_add_right _ _) hn))

/-- Names with indices, which can be read. -/
def operandsPrintable (es : List Expr) : Prop := ∀ e ∈ es, e.isOperand = true ∧ e.Printable

theorem operandsPrintable.exprs (h : operandsPrintable es) : exprsPrintable es :=
  exprsPrintable_iff.2 fun e he => (h e he).2

/-- An operand starts with a name, and goes on with an index if it goes on. -/
theorem Expr.tokensAt_operand : ∀ (e : Expr) (least : Nat), e.isOperand = true →
    ∃ n ts, e.tokensAt least = .name n :: ts ∧ (ts = [] ∨ ∃ ts', ts = .punctuation .lBracket :: ts')
  | .name n, _, _ => ⟨n, [], rfl, Or.inl rfl⟩
  | .index base items, _, h => by
    obtain ⟨n, ts, hbase, hts⟩ := base.tokensAt_operand Expr.atomStrength h
    rw [Expr.tokensAt, hbase]
    refine ⟨n, _, rfl, Or.inr ?_⟩
    obtain rfl | ⟨ts', rfl⟩ := hts
    · exact ⟨_, rfl⟩
    · exact ⟨_, rfl⟩
  | .int _, _, h | .float _, _, h | .imaginary _, _, h | .bool _, _, h | .bits _, _, h | .duration _ _, _, h
  | .constant _, _, h | .unary _ _, _, h | .binary _ _ _, _, h | .call _ _, _, h | .cast _ _, _, h | .array _, _, h
  | .measure _, _, h | .paren _, _, h => nomatch h

theorem reads_operand {e : Expr} (hoperand : e.isOperand = true) (h : e.Printable)
    (hparen : isPunctuation .lParen next = false) (hbracket : isPunctuation .lBracket next = false) :
    Reads Grammar.operand (e.tokensAt 0) next (e.withParens 0) := by
  refine Reads.bounded fun n hn => ?_
  have hreads := (e.readBack 0 n h (Nat.le_of_lt hn)).operand hoperand
  have hread := @hreads [] next (e.withParens 0) hparen fun fuel _ => reads_indexed_stop hbracket fuel _
  rwa [List.append_nil] at hread

theorem reads_operandList (h : operandsPrintable es) (hne : es ≠ []) :
    Reads operandList (commaTokens (exprsTokens es)) (some (.punctuation .semicolon)) (exprsWithParens es) := by
  have heach : ReadEach Grammar.operand (some (.punctuation .semicolon)) (exprsTokens es) (exprsWithParens es) := by
    clear hne
    induction es with
    | nil => exact .nil
    | cons e es ih =>
      obtain ⟨⟨hoperand, hprintable⟩, hes⟩ := List.forall_mem_cons.1 h
      exact .cons ⟨reads_operand hoperand hprintable rfl rfl, reads_operand hoperand hprintable rfl rfl⟩ (ih hes)
  refine reads_commaSeparated heach (fun hnone => hne ?_) rfl
  cases es with
  | nil => rfl
  | cons e es => nomatch hnone

theorem operandTokens_first (h : operandsPrintable es) (hne : es ≠ []) :
    ∃ n ts, commaTokens (exprsTokens es) = .name n :: ts := by
  cases es with
  | nil => exact absurd rfl hne
  | cons e es =>
    obtain ⟨n, ts, he, -⟩ := e.tokensAt_operand 0 (h e List.mem_cons_self).1
    rw [exprsTokens, commaTokens, he]
    exact ⟨n, _, rfl⟩

/-- Expressions with commas between them, before what may end a statement. -/
theorem scansEnd_exprs (h : exprsPrintable es) :
    Scans endsToken (exprsText es) (commaTokens (exprsTokens es)) := by
  have hall : List.Forall₂ (Scans endsToken) (exprTexts es) (exprsTokens es) := by
    induction es with
    | nil => exact .nil
    | cons e es ih =>
      rw [exprsPrintable] at h
      exact .cons (e.scansEnd 0 h.1) (ih h.2)
  rw [exprsText, ← exprTexts_eq]
  generalize exprTexts es = ss, exprsTokens es = tss at hall
  cases hall with
  | nil => exact scans_empty _
  | cons he hes => exact he.commas (fun _ => endsToken_of_closes) hes

end Expressions

section Names

variable {ns : List String}

/-- The tokens of some names. -/
def namesTokens (ns : List String) : List (List Token) := ns.map fun n => [.name n]

/-- Each of the names is an identifier. -/
def namesSpelled (ns : List String) : Prop := ∀ n ∈ ns, (Token.name n).Spells n

theorem scans_names (h : namesSpelled ns) : Scans closesToken (commaJoin ns) (commaTokens (namesTokens ns)) := by
  refine scans_commas ?_
  rw [namesTokens, List.forall₂_map_right_iff, List.forall₂_same]
  exact fun n hn => (h n hn).scans rfl

theorem readEach_names (ns : List String) (next : Option Token) : ReadEach Parser.name next (namesTokens ns) ns := by
  rw [ReadEach, namesTokens, List.forall₂_map_left_iff, List.forall₂_same]
  exact fun n _ => ⟨reads_name n _, reads_name n _⟩

end Names

section Modifiers

/-- A control count or an exponent in parentheses. -/
def countTokens : Option Expr → List Token
  | none => []
  | some e => between .lParen .rParen (e.tokensAt 0)

def Modifier.tokens : Modifier → List Token
  | .ctrl count => .keyword .ctrl :: countTokens count
  | .negctrl count => .keyword .negctrl :: countTokens count
  | .inv => [.keyword .inv]
  | .pow e => .keyword .pow :: between .lParen .rParen (e.tokensAt 0)

def Modifier.Printable : Modifier → Prop
  | .ctrl count | .negctrl count => optionPrintable count
  | .inv => True
  | .pow e => e.Printable

def Modifier.withParens : Modifier → Modifier
  | .ctrl count => .ctrl (optionWithParens count)
  | .negctrl count => .negctrl (optionWithParens count)
  | .inv => .inv
  | .pow e => .pow (e.withParens 0)

theorem Modifier.plain_withParens : ∀ m : Modifier, m.withParens.plain = m.plain
  | .ctrl count => congrArg Modifier.ctrl (optionWithoutParens_withParens count)
  | .negctrl count => congrArg Modifier.negctrl (optionWithoutParens_withParens count)
  | .inv => rfl
  | .pow e => congrArg Modifier.pow (e.withoutParens_withParens 0)

theorem scans_counted {k : Keyword} {e : Expr} (h : e.Printable) :
    Scans closesToken (k.text ++ "(" ++ e.text ++ ")") (.keyword k :: between .lParen .rParen (e.tokensAt 0)) :=
  ((scans_keyword k).bracketed (e.scans 0 h) (p := .lParen) (q := .rParen) rfl (by decide) rfl (by decide)).ofAnything

theorem Modifier.scans : ∀ m : Modifier, m.Printable → Scans closesToken m.text m.tokens
  | .ctrl none, _ => scans_keyword .ctrl
  | .ctrl (some _), h => scans_counted (k := .ctrl) h
  | .negctrl none, _ => scans_keyword .negctrl
  | .negctrl (some _), h => scans_counted (k := .negctrl) h
  | .inv, _ => scans_keyword .inv
  | .pow _, h => scans_counted (k := .pow) h

/-- Modifiers, each with the sign that ends it. -/
def modifiersTokens (ms : List Modifier) : List Token := ms.flatMap fun m => m.tokens ++ [Token.punctuation .atSign]

theorem scans_modifiers {ms : List Modifier} (h : ∀ m ∈ ms, m.Printable) :
    Scans anything (String.join (ms.map fun m => m.text ++ " @ ")) (modifiersTokens ms) := by
  have hat : Scans anything " @ " [.punctuation .atSign] :=
    (scans_space.then (scans_mark (Or.inr rfl))).then scans_space
  induction ms with
  | nil => exact scans_empty _
  | cons m ms ih =>
    obtain ⟨hm, hms⟩ := List.forall_mem_cons.1 h
    have hmarked : Scans anything (m.text ++ " @ ") (m.tokens ++ [Token.punctuation .atSign]) :=
      (m.scans hm).append hat fun _ _ c hc => by
        cases hc
        rfl
    rw [List.map_cons, String.join_cons, modifiersTokens, List.flatMap_cons]
    exact hmarked.then (ih hms)

theorem reads_controlCount {o : Option Expr} (h : optionPrintable o) :
    Reads controlCount? (countTokens o) (some (.punctuation .atSign)) (optionWithParens o) := by
  cases o with
  | none => exact Reads.refuse rfl (reads_pure none _)
  | some e => exact Reads.accept ((reads_closed h rfl).bind (Reads.expect (reads_pure (some (e.withParens 0)) _)))

theorem Modifier.reads : ∀ m : Modifier, m.Printable →
    Reads modifier? m.tokens (some (.punctuation .atSign)) (some m.withParens)
  | .ctrl _, h => Reads.peek (Reads.skip ((reads_controlCount h).last (reads_pure _ _)))
  | .negctrl _, h => Reads.peek (Reads.skip ((reads_controlCount h).last (reads_pure _ _)))
  | .inv, _ => Reads.peek (Reads.skip (reads_pure _ _))
  | .pow _, h =>
    Reads.peek (Reads.skip (Reads.expect ((reads_closed h rfl).bind
      (Reads.expect (reads_pure (some (Modifier.pow _)) _)))))

theorem reads_modifiers {ms : List Modifier} (h : ∀ m ∈ ms, m.Printable) (n : String) :
    Reads (bounded modifiers) (modifiersTokens ms) (some (.name n)) (ms.map Modifier.withParens) := by
  suffices hfuel : ∀ fuel, (modifiersTokens ms).length < fuel →
      Reads (modifiers fuel) (modifiersTokens ms) (some (.name n)) (ms.map Modifier.withParens) from
    Reads.bounded hfuel
  induction ms with
  | nil =>
    intro fuel hfuel
    obtain ⟨fuel, rfl⟩ : ∃ k, fuel = k + 1 := Nat.exists_eq_succ_of_ne_zero (Nat.ne_of_gt hfuel)
    exact Reads.look (Reads.peek (reads_pure none _)) (reads_pure [] _)
  | cons m ms ih =>
    intro fuel hfuel
    obtain ⟨fuel, rfl⟩ : ∃ k, fuel = k + 1 :=
      Nat.exists_eq_succ_of_ne_zero (Nat.ne_of_gt (Nat.zero_lt_of_lt hfuel))
    obtain ⟨hm, hms⟩ := List.forall_mem_cons.1 h
    have hrest : (modifiersTokens ms).length < fuel := by
      rw [modifiersTokens, List.flatMap_cons, List.length_append, List.length_append] at hfuel
      rw [modifiersTokens]
      simp only [List.length_singleton] at hfuel
      omega
    have hmore : Reads (modifiers fuel >>= fun others => pure (m.withParens :: others)) (modifiersTokens ms)
        (some (.name n)) (m.withParens :: ms.map Modifier.withParens) :=
      (ih hms fuel hrest).last (reads_pure _ _)
    have hmodifiers : Reads (modifiers (fuel + 1)) (m.tokens ++ .punctuation .atSign :: modifiersTokens ms)
        (some (.name n)) (m.withParens :: ms.map Modifier.withParens) :=
      (m.reads hm).bind (Reads.expect hmore)
    have htokens : modifiersTokens (m :: ms) = m.tokens ++ .punctuation .atSign :: modifiersTokens ms := by
      rw [modifiersTokens, List.flatMap_cons, List.append_assoc]
      rfl
    rw [htokens]
    exact hmodifiers

end Modifiers

section Calls

variable {n : String} {texts : List String} {args mts : List (List Token)} {qts : List Token} {es qs : List Expr}
  {ms : List Modifier} {next : Option Token}

/-- The tokens of arguments, which are left out with their parentheses if there are none. -/
def argumentTokens (args : List (List Token)) : List Token :=
  if args = [] then [] else between .lParen .rParen (commaTokens args)

/-- The tokens of a call, up to the end of the statement, given those of its parameters and operands. -/
def callTokens (ms : List Modifier) (n : String) (args : List (List Token)) (qts : List Token) : List Token :=
  modifiersTokens ms ++ .name n :: (argumentTokens args ++ (qts ++ [Token.punctuation .semicolon]))

theorem scans_arguments (h : List.Forall₂ (Scans closesToken) texts args) (hn : (Token.name n).Spells n) :
    Scans closesToken (n ++ if texts.isEmpty then "" else "(" ++ ", ".intercalate texts ++ ")")
      (.name n :: argumentTokens args) := by
  have hhead := hn.scans rfl
  cases h with
  | nil =>
    have happend := hhead.append (scans_empty closesToken) fun _ hrest c hc => hrest c hc
    exact happend
  | cons hs hss =>
    have hcall := hhead.bracketed (scans_commas (List.Forall₂.cons hs hss)) (p := .lParen) (q := .rParen) rfl
      (by decide) rfl (by decide)
    rw [List.isEmpty_cons, if_neg Bool.false_ne_true, argumentTokens, if_neg (List.cons_ne_nil _ _)]
    simp only [String.append_assoc] at hcall ⊢
    exact hcall.mono fun _ _ => rfl

/-- The text of a call is cut into its tokens. -/
theorem scans_call {operands : String} (hms : ∀ m ∈ ms, m.Printable) (hn : (Token.name n).Spells n)
    (hargs : List.Forall₂ (Scans closesToken) texts args) (hqs : Scans endsToken operands qts) :
    Scans anything (String.join (ms.map fun m => m.text ++ " @ ") ++
        (n ++ if texts.isEmpty then "" else "(" ++ ", ".intercalate texts ++ ")") ++ " " ++ operands ++ ";")
      (callTokens ms n args qts) := by
  have hcall := (((scans_modifiers hms).then (scans_arguments hargs hn)).spaced hqs).ended
  simp only [callTokens, List.append_assoc, List.cons_append] at hcall ⊢
  exact hcall

theorem reads_gateOperands (hqs : Reads operandList qts (some (.punctuation .semicolon)) qs) (ms : List Modifier)
    (n : String) (params : List Expr) :
    Reads (gateOperands ms n params) (qts ++ [Token.punctuation .semicolon]) next (.gate ⟨n, params, qs, ms⟩) :=
  hqs.bind (Reads.expect (reads_pure _ next))

/-- What follows the name of a gate. -/
def afterName (ms : List Modifier) (n : String) : Parser StatementKind := do
  if ← accept .lParen then
    let params ← Grammar.arguments
    gateOperands ms n params
  else gateOperands ms n []

/-- How the tokens of the parameters and of the operands are read. The operands start with a name. -/
structure ReadsCall (args : List (List Token)) (es : List Expr) (qts : List Token) (qs : List Expr) : Prop where
  none : args = [] → es = []
  params : args ≠ [] → ∀ next, Reads Grammar.arguments (commaTokens args ++ [Token.punctuation .rParen]) next es
  operands : Reads operandList qts (some (.punctuation .semicolon)) qs
  first : ∃ x ts, qts = .name x :: ts

theorem ReadsCall.afterName (h : ReadsCall args es qts qs) (ms : List Modifier) (n : String) :
    Reads (afterName ms n) (argumentTokens args ++ (qts ++ [Token.punctuation .semicolon])) next
      (.gate ⟨n, es, qs, ms⟩) := by
  have hoperands (params : List Expr) : Reads (gateOperands ms n params) (qts ++ [Token.punctuation .semicolon]) next
      (.gate ⟨n, params, qs, ms⟩) := reads_gateOperands h.operands ms n params
  obtain ⟨x, ts, hstart⟩ := h.first
  by_cases hargs : args = []
  · obtain rfl := h.none hargs
    rw [argumentTokens, if_pos hargs, List.nil_append]
    refine Reads.refuse ?_ (hoperands [])
    rw [hstart]
    rfl
  · have hread := (h.params hargs _).bind (hoperands es)
    rw [List.append_assoc] at hread
    rw [argumentTokens, if_neg hargs, between, List.cons_append, List.cons_append, List.append_assoc]
    exact Reads.accept hread

theorem ReadsCall.gateStatement (h : ReadsCall args es qts qs) (hms : ∀ m ∈ ms, m.Printable) (n : String) :
    Reads gateStatement (callTokens ms n args qts) next (.gate ⟨n, es, qs, ms.map Modifier.withParens⟩) := by
  have hcall : Reads (Parser.name >>= OpenQasm.afterName (ms.map Modifier.withParens))
      (.name n :: (argumentTokens args ++ (qts ++ [Token.punctuation .semicolon]))) next
      (.gate ⟨n, es, qs, ms.map Modifier.withParens⟩) := Reads.name (h.afterName _ n)
  exact (reads_modifiers hms n).bind hcall

/-- A call without modifiers is told from other statements by its second token. -/
theorem ReadsCall.nameStatement (h : ReadsCall args es qts qs) (n : String) :
    Reads nameStatement (callTokens [] n args qts) next (.gate ⟨n, es, qs, []⟩) := by
  have hnone : ∀ m ∈ ([] : List Modifier), m.Printable := nofun
  have hgate : Reads Grammar.gateStatement (callTokens [] n args qts) next (.gate ⟨n, es, qs, []⟩) :=
    h.gateStatement hnone n
  obtain ⟨x, ts, hstart⟩ := h.first
  have htokens : callTokens [] n args qts =
      .name n :: (argumentTokens args ++ (qts ++ [Token.punctuation .semicolon])) := rfl
  rw [htokens] at hgate ⊢
  by_cases hargs : args = []
  · rw [argumentTokens, if_pos hargs, List.nil_append, hstart] at hgate ⊢
    exact Reads.peekSecond hgate
  · -- Operands and not the end of the statement come after the arguments.
    let ending (es : List Expr) : Parser StatementKind := do
      if ← accept .semicolon then return .evaluate (.call n es)
      gateOperands [] n es
    have hending : Reads (ending es) (qts ++ [Token.punctuation .semicolon]) next (.gate ⟨n, es, qs, []⟩) := by
      refine Reads.refuse ?_ (reads_gateOperands h.operands [] n es)
      rw [hstart]
      rfl
    have hread : Reads (expect .lParen >>= fun _ => Grammar.arguments >>= ending)
        (.punctuation .lParen :: ((commaTokens args ++ [Token.punctuation .rParen]) ++
          (qts ++ [Token.punctuation .semicolon]))) next (.gate ⟨n, es, qs, []⟩) :=
      Reads.expect ((h.params hargs _).bind hending)
    rw [argumentTokens, if_neg hargs, between, List.cons_append, List.cons_append]
    exact Reads.peekSecond (Reads.name hread)

/-- The tokens of a call are read as the call. -/
theorem ReadsCall.statementKind (h : ReadsCall args es qts qs) (hms : ∀ m ∈ ms, m.Printable) (n : String)
    (self : Parser Statement) :
    Reads (statementKind self) (callTokens ms n args qts) next (.gate ⟨n, es, qs, ms.map Modifier.withParens⟩) := by
  cases ms with
  | nil => exact Reads.peek (h.nameStatement n)
  | cons m ms =>
    have hgate : Reads Grammar.gateStatement (callTokens (m :: ms) n args qts) next
        (.gate ⟨n, es, qs, (m :: ms).map Modifier.withParens⟩) := h.gateStatement hms n
    refine Reads.peek ?_
    cases m <;> exact hgate

def GateCall.tokens (c : GateCall) : List Token :=
  callTokens c.modifiers c.name (exprsTokens c.params) (commaTokens (exprsTokens c.qubits))

structure GateCall.Printable (c : GateCall) : Prop where
  name : (Token.name c.name).Spells c.name
  params : exprsPrintable c.params
  qubits : operandsPrintable c.qubits
  qubits_ne : c.qubits ≠ []
  modifiers : ∀ m ∈ c.modifiers, m.Printable

def GateCall.withParens (c : GateCall) : GateCall :=
  ⟨c.name, exprsWithParens c.params, exprsWithParens c.qubits, c.modifiers.map Modifier.withParens⟩

theorem GateCall.plain_withParens (c : GateCall) : c.withParens.plain = c.plain := by
  unfold GateCall.withParens GateCall.plain
  rw [exprsWithoutParens_withParens, exprsWithoutParens_withParens, List.map_map]
  congr 2
  exact funext Modifier.plain_withParens

theorem GateCall.scans {c : GateCall} (h : c.Printable) : Scans anything (c.text ++ ";") c.tokens := by
  have hcall := scans_call h.modifiers h.name (exprs_scan c.params h.params) (scansEnd_exprs h.qubits.exprs)
  rw [exprTexts_eq, List.isEmpty_map] at hcall
  simp only [GateCall.text, String.append_assoc] at hcall ⊢
  exact hcall

theorem GateCall.reads {c : GateCall} (h : c.Printable) (self : Parser Statement) :
    Reads (Grammar.statementKind self) c.tokens next (.gate c.withParens) := by
  have hcall : ReadsCall (exprsTokens c.params) (exprsWithParens c.params) (commaTokens (exprsTokens c.qubits))
      (exprsWithParens c.qubits) := by
    refine ⟨fun hnone => ?_, fun _ next => reads_argumentList h.params next,
      reads_operandList h.qubits h.qubits_ne, operandTokens_first h.qubits h.qubits_ne⟩
    cases hparams : c.params with
    | nil => rfl
    | cons e es =>
      rw [hparams] at hnone
      nomatch hnone
  exact hcall.statementKind h.modifiers c.name self

end Calls

section Declarations

variable {next : Option Token}

def directionTokens : Option Direction → List Token
  | none => []
  | some .input => [.keyword .input]
  | some .output => [.keyword .output]

def initTokens : Option Expr → List Token
  | none => []
  | some e => .punctuation .eq :: e.tokensAt 0

def ClassicalDecl.tokens (d : ClassicalDecl) : List Token :=
  (if d.isConst then [.keyword .const] else []) ++ (directionTokens d.direction ++ (d.type.tokens ++
    .name d.name :: (initTokens d.init ++ [Token.punctuation .semicolon])))

structure ClassicalDecl.Printable (d : ClassicalDecl) : Prop where
  type : d.type.Printable
  name : (Token.name d.name).Spells d.name
  init : optionPrintable d.init

def ClassicalDecl.withParens (d : ClassicalDecl) : ClassicalDecl :=
  { d with type := d.type.withParens, init := optionWithParens d.init }

theorem ClassicalDecl.plain_withParens (d : ClassicalDecl) : d.withParens.plain = d.plain := by
  unfold ClassicalDecl.withParens ClassicalDecl.plain
  rw [TypeExpr.withoutParens_withParens, optionWithoutParens_withParens]

/-- A name with the value that it is given, if there is one. -/
theorem scansEnd_initialized {n : String} (hn : (Token.name n).Spells n) (o : Option Expr) :
    optionPrintable o → Scans endsToken (n ++ match o with
      | none => ""
      | some e => " = " ++ e.text) (.name n :: initTokens o) := by
  intro h
  cases o with
  | none => exact (hn.scansEnd rfl).append (scans_empty endsToken) fun _ hrest c hc => hrest c hc
  | some e =>
    have hvalue := ((hn.scans rfl).symbol .eq).then (e.scansEnd 0 h)
    simp only [String.append_assoc] at hvalue ⊢
    exact hvalue

theorem scans_direction (o : Option Direction) : Scans anything
    (match o with
      | none => ""
      | some x => x.text ++ " ") (directionTokens o) :=
  match o with
  | none => scans_empty _
  | some .input => (scans_keyword .input).space
  | some .output => (scans_keyword .output).space

theorem ClassicalDecl.scans {d : ClassicalDecl} (h : d.Printable) : Scans anything d.text d.tokens := by
  have hconst : Scans anything (if d.isConst then "const " else "") (if d.isConst then [.keyword .const] else []) := by
    cases d.isConst with
    | true => exact (scans_keyword .const).space
    | false => exact scans_empty _
  have htype := (hconst.then (scans_direction d.direction)).then (d.type.scans_printable h.type)
  have hdecl := (htype.spaced (scansEnd_initialized h.name d.init h.init)).ended
  simp only [ClassicalDecl.text, ClassicalDecl.tokens, String.append_assoc, List.append_assoc, List.cons_append]
    at hdecl ⊢
  exact hdecl

theorem reads_direction {k : Keyword} (hk : k.startsType = true) (o : Option Direction) :
    Reads direction? (directionTokens o) (some (.keyword k)) o := by
  match o with
  | some .input => exact Reads.acceptKeyword (reads_pure _ _)
  | some .output => exact Reads.refuseKeyword rfl (Reads.acceptKeyword (reads_pure _ _))
  | none =>
    have hinput : isKeyword .input (some (.keyword k)) = false := decide_eq_false (by rintro rfl; nomatch hk)
    have houtput : isKeyword .output (some (.keyword k)) = false := decide_eq_false (by rintro rfl; nomatch hk)
    exact Reads.refuseKeyword hinput (Reads.refuseKeyword houtput (reads_pure _ _))

theorem reads_initializer {o : Option Expr} (h : optionPrintable o) :
    Reads initializer? (initTokens o) (some (.punctuation .semicolon)) (optionWithParens o) := by
  cases o with
  | none => exact Reads.refuse rfl (reads_pure none _)
  | some e => exact Reads.accept ((reads_expression h (follows_punctuation rfl)).last (reads_pure (some _) _))

theorem isKeyword_of_ne {k l : Keyword} (h : l ≠ k) : isKeyword k (some (.keyword l)) = false := decide_eq_false h

/-- The keywords that a declaration starts with. -/
def startsDeclaration (k : Keyword) : Bool := k = .const || k = .input || k = .output || k.startsType

theorem ClassicalDecl.tokens_first {d : ClassicalDecl} (h : d.Printable) :
    ∃ k ts, d.tokens = .keyword k :: ts ∧ startsDeclaration k = true := by
  obtain ⟨type, n, init, isConst, direction⟩ := d
  obtain ⟨k, ts, htype, hk⟩ := type.tokens_startsType h.type
  unfold ClassicalDecl.tokens
  cases isConst with
  | true => exact ⟨.const, _, rfl, rfl⟩
  | false =>
    match direction with
    | some .input => exact ⟨.input, _, rfl, rfl⟩
    | some .output => exact ⟨.output, _, rfl, rfl⟩
    | none =>
      refine ⟨k, ts ++ .name n :: (initTokens init ++ [Token.punctuation .semicolon]), ?_, ?_⟩
      · dsimp only [directionTokens]
        rw [htype]
        rfl
      · rw [startsDeclaration, hk, Bool.or_true]

theorem ClassicalDecl.reads_declaration {d : ClassicalDecl} (h : d.Printable) :
    Reads classicalDeclaration d.tokens next (.classical d.withParens) := by
  obtain ⟨type, n, init, isConst, direction⟩ := d
  obtain ⟨k, ts, htype, hk⟩ := type.tokens_startsType h.type
  have hfirst (ts' : List Token) : (type.tokens ++ ts').head?.or next = some (.keyword k) := by
    rw [htype]
    rfl
  have hrest (isConst : Bool) : Reads (direction? >>= fun direction => Grammar.type >>= fun type =>
      Parser.name >>= fun n => initializer? >>= fun init => ended (.classical ⟨type, n, init, isConst, direction⟩))
      (directionTokens direction ++ (type.tokens ++ Token.name n :: (initTokens init ++ [Token.punctuation .semicolon])))
      next (.classical ⟨type.withParens, n, optionWithParens init, isConst, direction⟩) :=
    (reads_direction hk direction).before (hfirst _) ((reads_type h.type rfl).bind (Reads.name
      ((reads_initializer h.init).bind (Reads.expect (reads_pure _ next)))))
  cases isConst with
  | true => exact Reads.acceptKeyword (hrest true)
  | false =>
    refine Reads.refuseKeyword ?_ (hrest false)
    match direction with
    | some .input | some .output => rfl
    | none =>
      show isKeyword .const ((type.tokens ++ _).head?.or next) = false
      rw [hfirst]
      exact isKeyword_of_ne (by rintro rfl; nomatch hk)

theorem keywordLed_declaration {k : Keyword} (hk : startsDeclaration k = true) (self : Parser Statement) :
    keywordLed self k = classicalDeclaration := by
  cases k <;> first | rfl | nomatch hk

/-- A declaration is told from other statements by its first keyword. -/
theorem ClassicalDecl.reads {d : ClassicalDecl} (h : d.Printable) (self : Parser Statement) :
    Reads (Grammar.statementKind self) d.tokens next (.classical d.withParens) := by
  obtain ⟨k, ts, htokens, hk⟩ := ClassicalDecl.tokens_first h
  have hread : Reads classicalDeclaration _ next _ := ClassicalDecl.reads_declaration h
  rw [← keywordLed_declaration hk self] at hread
  refine Reads.peek ?_
  rw [htokens] at hread ⊢
  exact hread

end Declarations

section Formals

variable {next : Option Token}

def Formal.tokens : Formal → List Token
  | .classical t n => t.tokens ++ [Token.name n]
  | .qubit n size => .keyword .qubit :: (sizeTokens size ++ [Token.name n])

def Formal.Printable : Formal → Prop
  | .classical t n => t.Printable ∧ (Token.name n).Spells n
  | .qubit n size => (Token.name n).Spells n ∧ optionPrintable size

def Formal.withParens : Formal → Formal
  | .classical t n => .classical t.withParens n
  | .qubit n size => .qubit n (optionWithParens size)

theorem Formal.plain_withParens : ∀ f : Formal, f.withParens.plain = f.plain
  | .classical t n => congrArg (Formal.classical · n) t.withoutParens_withParens
  | .qubit n size => congrArg (Formal.qubit n) (optionWithoutParens_withParens size)

theorem Formal.scans : ∀ f : Formal, f.Printable → Scans closesToken f.text f.tokens
  | .classical t _, h => (t.scans_printable h.1).spaced (h.2.scans rfl)
  | .qubit _ _, h => (scans_sized (scans_keyword .qubit) h.2).spaced (h.1.scans rfl)

theorem Formal.tokens_first : ∀ f : Formal, f.Printable → ∃ k ts, f.tokens = .keyword k :: ts
  | .classical t n, h => by
    obtain ⟨k, ts, htype, -⟩ := t.tokens_startsType h.1
    exact ⟨k, ts ++ [Token.name n], by rw [Formal.tokens, htype]; rfl⟩
  | .qubit _ _, _ => ⟨.qubit, _, rfl⟩

theorem reads_skipAccess (k : Keyword) : Reads skipAccess [] (some (.keyword k)) () :=
  Reads.peek (reads_pure () _)

theorem Formal.reads : ∀ f : Formal, f.Printable → Reads formal f.tokens next f.withParens
  | .qubit n size, h => by
    rw [Formal.tokens]
    exact (reads_skipAccess .qubit).look (Reads.acceptKeyword ((reads_size h.2 rfl).bind
      (Reads.name (reads_pure _ next))))
  | .classical t n, h => by
    obtain ⟨k, ts, htype, hk⟩ := t.tokens_startsType h.1
    have hfirst : (t.tokens ++ [Token.name n]).head?.or next = some (.keyword k) := by
      rw [htype]
      rfl
    have hqubit : isKeyword .qubit ((t.tokens ++ [Token.name n]).head?.or next) = false := by
      rw [hfirst]
      exact isKeyword_of_ne (by rintro rfl; nomatch hk)
    have hqreg : isKeyword .qreg ((t.tokens ++ [Token.name n]).head?.or next) = false := by
      rw [hfirst]
      exact isKeyword_of_ne (by rintro rfl; nomatch hk)
    have hskip : Reads skipAccess [] ((t.tokens ++ [Token.name n]).head?.or next) () := by
      rw [hfirst]
      exact reads_skipAccess k
    exact hskip.look (Reads.refuseKeyword hqubit (Reads.refuseKeyword hqreg
      ((reads_type h.1 rfl).bind (Reads.name (reads_pure _ next)))))

/-- Formal parameters with commas between them, up to the parenthesis that closes them. -/
theorem scans_formals {formals : List Formal} (h : ∀ f ∈ formals, f.Printable) :
    Scans closesToken (commaJoin (formals.map Formal.text)) (commaTokens (formals.map Formal.tokens)) := by
  refine scans_commas ?_
  rw [List.forall₂_map_left_iff, List.forall₂_map_right_iff, List.forall₂_same]
  exact fun f hf => f.scans (h f hf)

theorem reads_formals {formals : List Formal} (h : ∀ f ∈ formals, f.Printable) :
    Reads (itemsBefore .rParen formal) (commaTokens (formals.map Formal.tokens)) (some (.punctuation .rParen))
      (formals.map Formal.withParens) := by
  refine reads_itemsBefore ?_ (fun ts hts => ?_) nofun
  · rw [ReadEach, List.forall₂_map_left_iff, List.forall₂_map_right_iff, List.forall₂_same]
    exact fun f hf => ⟨f.reads (h f hf), f.reads (h f hf)⟩
  · obtain ⟨f, hf, rfl⟩ := List.mem_map.1 hts
    obtain ⟨k, ts, htokens⟩ := f.tokens_first (h f hf)
    exact ⟨_, ts, htokens, nofun⟩

end Formals

section Loops

theorem reads_loopRange {r : RangeExpr} (h : r.Printable) :
    Reads Grammar.range r.tokens (some (.punctuation .rBracket)) r.withParens := by
  refine Reads.bounded fun n hn => ?_
  obtain ⟨k, rfl⟩ : ∃ k, n = k + 1 := Nat.exists_eq_succ_of_ne_zero (Nat.ne_of_gt (Nat.zero_lt_of_lt hn))
  obtain ⟨hstart, hstep, hstop⟩ := r.length_parts
  have hrange := reads_rangeAfter (n := k) h (Or.inr rfl) (option_readBack r.step k h.2.1 (by omega))
    (option_readBack r.stop k h.2.2 (by omega))
  rw [RangeExpr.tokens_eq]
  exact (reads_start h.1 (option_readBack r.start k h.1 (by omega))).bind ((reads_at? .colon _).look hrange)

def LoopValues.tokens : LoopValues → List Token
  | .range r => between .lBracket .rBracket r.tokens
  | .set items => between .lBrace .rBrace (commaTokens (exprsTokens items))
  | .array e => e.tokensAt 0

/-- The values of a loop that starts with a brace are those of a set. -/
def LoopValues.Printable : LoopValues → Prop
  | .range r => r.Printable
  | .set items => exprsPrintable items
  | .array e => e.opensBrace = false ∧ e.Printable

def LoopValues.withParens : LoopValues → LoopValues
  | .range r => .range r.withParens
  | .set items => .set (exprsWithParens items)
  | .array e => .array (e.withParens 0)

theorem LoopValues.plain_withParens : ∀ v : LoopValues, v.withParens.plain = v.plain
  | .range r => congrArg LoopValues.range r.withoutParens_withParens
  | .set items => congrArg LoopValues.set (exprsWithoutParens_withParens items)
  | .array e => congrArg LoopValues.array (e.withoutParens_withParens 0)

theorem LoopValues.scans : ∀ v : LoopValues, v.Printable → Scans closesToken v.text v.tokens
  | .range r, h => ((r.scans h).between (p := .lBracket) (q := .rBracket) rfl rfl (by decide)).ofAnything
  | .set _, h => ((scansEnd_exprs h).closed.between (p := .lBrace) (q := .rBrace) rfl rfl (by decide)).ofAnything
  | .array e, h => e.scans 0 h.2

/-- The values of a loop are told by their first token. -/
theorem LoopValues.reads : ∀ v : LoopValues, v.Printable →
    Reads loopValues v.tokens (some (.punctuation .lBrace)) v.withParens
  | .range _, h => Reads.accept ((reads_loopRange h).bind (Reads.expect (reads_pure (LoopValues.range _) _)))
  | .set _, h =>
    Reads.refuse rfl ((reads_at? .lBrace _).look ((reads_set h _).last (reads_pure (LoopValues.set _) _)))
  | .array e, h => by
    have hbrace := e.not_brace h.2 h.1 (some (.punctuation .lBrace))
    obtain ⟨t, ts, htokens, ht⟩ := (e.opening 0 h.2).ne (p := .lBracket) rfl
    have hbracket : isPunctuation .lBracket ((e.tokensAt 0).head?.or (some (.punctuation .lBrace))) = false := by
      rw [htokens]
      exact isPunctuation_of_ne ht
    have hvalue : Reads (Grammar.expression >>= fun e => pure (LoopValues.array e)) (e.tokensAt 0)
        (some (.punctuation .lBrace)) (.array (e.withParens 0)) :=
      (reads_expression h.2 (follows_punctuation rfl)).last (reads_pure _ _)
    refine Reads.refuse hbracket ((reads_at? .lBrace _).look ?_)
    rw [LoopValues.tokens, hbrace]
    exact hvalue

end Loops

end OpenQasm
