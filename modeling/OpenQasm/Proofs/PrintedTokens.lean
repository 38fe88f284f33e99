import Mathlib.Data.List.Forall2
import OpenQasm.Grammar.Expression
import OpenQasm.Proofs.Scanning
import OpenQasm.Syntax.Print

/-!
The tokens of a printed expression. Where each leaf is printed as the one token that it is read from, the
printed text is cut into these tokens.
-/
namespace OpenQasm

namespace Token

/-- The symbol of an operator. -/
def ofBinary : BinaryOp → Punctuation
  | .add => .plus
  | .sub => .minus
  | .mul => .star
  | .div => .slash
  | .mod => .percent
  | .pow => .starStar
  | .eq => .eqEq
  | .notEq => .bangEq
  | .lt => .less
  | .ltEq => .lessEq
  | .gt => .greater
  | .gtEq => .greaterEq
  | .and => .ampAmp
  | .or => .pipePipe
  | .bitAnd => .amp
  | .bitOr => .pipe
  | .bitXor => .caret
  | .shiftLeft => .lessLess
  | .shiftRight => .greaterGreater
  | .concat => .plusPlus

end Token

def MathConstant.keyword : MathConstant → Keyword
  | .pi => .pi
  | .tau => .tau
  | .euler => .euler

def SizedKind.keyword : SizedKind → Keyword
  | .int => .int
  | .uint => .uint
  | .float => .float
  | .angle => .angle
  | .bit => .bit
  | .complex => .complex

/-- Token lists with commas between them. -/
def commaTokens : List (List Token) → List Token
  | [] => []
  | ts :: tss => ts ++ tss.flatMap (.punctuation .comma :: ·)

/-- The tokens between two symbols. -/
def between (first last : Punctuation) (ts : List Token) : List Token :=
  .punctuation first :: ts ++ [Token.punctuation last]

def guardedTokens (strength least : Nat) (ts : List Token) : List Token :=
  if strength < least then between .lParen .rParen ts else ts

mutual

/-- The tokens of an expression at a place that asks for a strength. -/
def Expr.tokensAt (least : Nat) : Expr → List Token
  | .int n => [.int n]
  | .float x => [.float x]
  | .imaginary x => [.imaginary x]
  | .bool true => [.keyword .true]
  | .bool false => [.keyword .false]
  | .bits digits => [.string digits]
  | .duration x u => [.duration x u]
  | .name n => [.name n]
  | .constant c => [.keyword c.keyword]
  | .unary op e =>
    guardedTokens UnaryOp.strength least
      (.punctuation (Token.ofUnary op) :: e.tokensAt UnaryOp.strength)
  | .binary l op r =>
    guardedTokens op.strength least
      (l.tokensAt op.leftStrength ++ .punctuation (Token.ofBinary op) :: r.tokensAt op.rightStrength)
  | .call f args => .name f :: between .lParen .rParen (commaTokens (exprsTokens args))
  | .index base items =>
    base.tokensAt Expr.atomStrength ++ between .lBracket .rBracket (commaTokens (itemsTokens items))
  | .cast type e => type.tokens ++ between .lParen .rParen (e.tokensAt 0)
  | .array items => between .lBrace .rBrace (commaTokens (exprsTokens items))
  | .measure e => .keyword .measure :: e.tokensAt Expr.atomStrength
  | .paren e => between .lParen .rParen (e.tokensAt 0)

def exprsTokens : List Expr → List (List Token)
  | [] => []
  | e :: es => e.tokensAt 0 :: exprsTokens es

def optionTokens : Option Expr → List Token
  | none => []
  | some e => e.tokensAt 0

def RangeExpr.tokens : RangeExpr → List Token
  | ⟨start, some step, stop⟩ =>
    optionTokens start ++ .punctuation .colon :: (step.tokensAt 0 ++ .punctuation .colon :: optionTokens stop)
  | ⟨start, none, stop⟩ => optionTokens start ++ .punctuation .colon :: optionTokens stop

def IndexItem.tokens : IndexItem → List Token
  | .single e => e.tokensAt 0
  | .range r => r.tokens
  | .set items => between .lBrace .rBrace (commaTokens (exprsTokens items))

def itemsTokens : List IndexItem → List (List Token)
  | [] => []
  | i :: is => i.tokens :: itemsTokens is

def TypeExpr.tokens : TypeExpr → List Token
  | .bool => [.keyword .bool]
  | .sized kind none => [.keyword kind.keyword]
  | .sized .complex (some w) =>
    .keyword .complex ::
      between .lBracket .rBracket (.keyword .float :: between .lBracket .rBracket (w.tokensAt 0))
  | .sized kind (some w) => .keyword kind.keyword :: between .lBracket .rBracket (w.tokensAt 0)
  | .duration => [.keyword .duration]
  | .stretch => [.keyword .stretch]
  | .array element dims =>
    .keyword .array :: between .lBracket .rBracket (commaTokens (element.tokens :: exprsTokens dims))

end

/-- A name with indices. -/
def Expr.isOperand : Expr → Bool
  | .name _ => true
  | .index base _ => base.isOperand
  | _ => false

def Expr.isMeasure : Expr → Bool
  | .measure _ => true
  | _ => false

/-- Whether the text of an expression starts with a brace. -/
def Expr.opensBrace (e : Expr) : Bool := e.text.toList.head? = some '\x7b'

mutual

/-- Expressions whose text can be read. Each leaf is printed as a single token, which is read as the leaf;
names are identifiers and not keywords; the indices of a measured operand belong to the operand, and an
index that starts with a brace is a set. -/
def Expr.Printable : Expr → Prop
  | .int n => (Token.int n).Spells (toString n.toNat)
  | .float x => (Token.float x).Spells (Decimal.literal x)
  | .imaginary x => (Token.imaginary x).Spells (Decimal.literal x ++ "im")
  | .bool _ => True
  | .bits digits =>
    (Token.string digits).Spells ("\"" ++ digits ++ "\"") ∧
      Grammar.Nested.bitDigits? digits = some digits
  | .duration x u => (Token.duration x u).Spells (Decimal.literal x ++ u.text)
  | .name n => (Token.name n).Spells n
  | .constant _ => True
  | .unary _ e => e.Printable
  | .binary l _ r => l.Printable ∧ r.Printable
  | .call f args => (Token.name f).Spells f ∧ exprsPrintable args
  | .index base items =>
    base.Printable ∧ base.isMeasure = false ∧ items ≠ [] ∧ itemsPrintable items
  | .cast type e => type.Castable ∧ e.Printable
  | .array items => exprsPrintable items
  | .measure e => e.isOperand = true ∧ e.Printable
  | .paren e => e.Printable

def exprsPrintable : List Expr → Prop
  | [] => True
  | e :: es => e.Printable ∧ exprsPrintable es

def optionPrintable : Option Expr → Prop
  | none => True
  | some e => e.Printable

def IndexItem.Printable : IndexItem → Prop
  | .single e => e.opensBrace = false ∧ e.Printable
  | .range ⟨start, step, stop⟩ =>
    start.all (fun e => !e.opensBrace) = true ∧ optionPrintable start ∧ optionPrintable step ∧
      optionPrintable stop
  | .set items => exprsPrintable items

def itemsPrintable : List IndexItem → Prop
  | [] => True
  | i :: is => i.Printable ∧ itemsPrintable is

/-- The types that a value can be converted to, with widths that can be read. -/
def TypeExpr.Castable : TypeExpr → Prop
  | .bool => True
  | .sized _ width => optionPrintable width
  | .duration => True
  | .stretch => False
  | .array _ _ => False

end

/-- The parts of a range can be read. -/
def RangeExpr.Printable (r : RangeExpr) : Prop :=
  optionPrintable r.start ∧ optionPrintable r.step ∧ optionPrintable r.stop

open Token

section Composition

variable {follow : Char → Bool} {s s' : String} {ts ts' : List Token}

/-- A text and a symbol that ends its last token. -/
theorem Token.Scans.close (h : Scans closesToken s ts) {p : Punctuation} (hp : standsAlone p = true)
    (hclose : p ≠ .lBrace) : Scans anything (s ++ p.text) (ts ++ [Token.punctuation p]) := by
  refine h.append (scans_alone hp) fun rest _ c hc => ?_
  obtain rfl | rfl | rfl | rfl | rfl | rfl | rfl | rfl := cases_standsAlone hp
  · cases hc; rfl
  · cases hc; rfl
  · cases hc; rfl
  · cases hc; rfl
  · exact absurd rfl hclose
  · cases hc; rfl
  · cases hc; rfl
  · cases hc; rfl

theorem Token.Scans.space (h : Scans closesToken s ts) : Scans anything (s ++ " ") ts := by
  have happend := h.append scans_space fun rest _ c hc => by
    cases hc
    rfl
  rwa [List.append_nil] at happend

/-- A text between two symbols. -/
theorem Token.Scans.between (h : Scans closesToken s ts) {p q : Punctuation}
    (hp : standsAlone p = true) (hq : standsAlone q = true) (hclose : q ≠ .lBrace) :
    Scans anything (p.text ++ s ++ q.text) (between p q ts) :=
  ((scans_alone hp).then h).close hq hclose

/-- A text between two symbols, after another text. -/
theorem Token.Scans.bracketed (h : Scans closesToken s ts) (h' : Scans closesToken s' ts')
    {p q : Punctuation} (hp : standsAlone p = true) (hp' : p ≠ .lBrace) (hq : standsAlone q = true)
    (hq' : q ≠ .lBrace) : Scans anything (s ++ p.text ++ s' ++ q.text) (ts ++ OpenQasm.between p q ts') := by
  have hfirst := ((h.close hp hp').then h').close hq hq'
  rwa [List.append_assoc, List.append_assoc] at hfirst

theorem scans_width {kind width : String} {k : Keyword} (h : Scans closesToken kind [.keyword k])
    (h' : Scans closesToken width ts) :
    Scans closesToken (kind ++ "[" ++ width ++ "]") (.keyword k :: between .lBracket .rBracket ts) :=
  (h.bracketed h' (p := .lBracket) (q := .rBracket) rfl nofun rfl nofun).mono fun _ _ => rfl

theorem Token.Scans.guarded (h : Scans endsToken s ts) (strength least : Nat) :
    Scans endsToken (guarded strength least s) (guardedTokens strength least ts) := by
  unfold OpenQasm.guarded guardedTokens
  split
  · exact (h.closed.between (p := .lParen) (q := .rParen) rfl rfl nofun).mono fun _ _ => rfl
  · exact h

theorem scansEnd_keyword (k : Keyword) : Scans endsToken k.text [.keyword k] :=
  (spells_keyword k).scansEnd rfl

theorem scans_keyword (k : Keyword) : Scans closesToken k.text [.keyword k] := (scansEnd_keyword k).closed

theorem scans_symbol (p : Punctuation) : Scans closesToken p.text [.punctuation p] :=
  Spells.scans (by cases p <;> exact ⟨_, _, rfl, rfl⟩) rfl

theorem scans_binary (op : BinaryOp) : Scans closesToken op.symbol [.punctuation (ofBinary op)] := by
  have hsymbol : op.symbol = (ofBinary op).text := by cases op <;> rfl
  rw [hsymbol]
  exact scans_symbol _

/-- Texts with commas between them, before what may follow the last one. -/
theorem Token.Scans.commas (hfollow : ∀ c, closesToken c = true → follow c = true) (h : Scans follow s ts)
    {ss : List String} {tss : List (List Token)} (hss : List.Forall₂ (Scans follow) ss tss) :
    Scans follow (commaJoin (s :: ss)) (commaTokens (ts :: tss)) := by
  induction hss generalizing s ts with
  | nil =>
    rw [commaTokens, List.flatMap_nil, List.append_nil]
    exact h
  | @cons s' ts' ss tss hs' _ ih =>
    have hjoined : commaJoin (s :: s' :: ss) = commaJoin ((s ++ ", " ++ s') :: ss) := rfl
    have hcomma : Scans anything (s ++ ", ") (ts ++ [Token.punctuation .comma]) := by
      have hspace := (((h.mono hfollow).close (p := .comma) rfl nofun).mono (fun _ _ => rfl)).space
      rwa [String.append_assoc] at hspace
    have htokens : commaTokens (ts :: ts' :: tss) =
        commaTokens ((ts ++ [Token.punctuation .comma] ++ ts') :: tss) := by
      simp only [commaTokens, List.flatMap_cons, List.append_assoc, List.cons_append, List.nil_append]
    rw [hjoined, htokens]
    exact ih (hcomma.then hs')

theorem scans_commas {ss : List String} {tss : List (List Token)}
    (hss : List.Forall₂ (Scans closesToken) ss tss) :
    Scans closesToken (commaJoin ss) (commaTokens tss) := by
  cases hss with
  | nil => exact scans_empty _
  | cons hs hss => exact hs.commas (fun _ hc => hc) hss

end Composition

section Opening

/-- A token and a character that an expression may start with. -/
def opens (c : Char) (t : Token) : Bool :=
  notCompound c && match t with
  | .punctuation .lBrace => c = '\x7b'
  | .punctuation s => [.lParen, .minus, .bang, .tilde].contains s
  | _ => true

theorem Token.Spells.opens {t : Token} {s : String} (h : t.Spells s) (ht : ∀ p, t ≠ .punctuation p) :
    ∃ c cs, s.toList = c :: cs ∧ opens c t = true := by
  obtain ⟨c, cs, htext, hpiece⟩ := h
  have hcompound : notCompound c = true := by
    by_contra hc
    obtain ⟨p, hp⟩ := headPiece_compound (Bool.eq_false_iff.2 hc) hpiece
    exact ht p hp
  refine ⟨c, cs, htext, ?_⟩
  unfold OpenQasm.opens
  rw [hcompound]
  cases t with
  | punctuation p => exact absurd rfl (ht p)
  | _ => rfl

/-- An expression has a first token, and its text a first character, that an expression may start with. -/
def Opening (s : String) (ts : List Token) : Prop :=
  ∃ c cs t ts', s.toList = c :: cs ∧ ts = t :: ts' ∧ opens c t = true

theorem Opening.append {s : String} {ts : List Token} (h : Opening s ts) (s' : String)
    (ts' : List Token) : Opening (s ++ s') (ts ++ ts') := by
  obtain ⟨c, cs, t, rest, hs, rfl, ht⟩ := h
  exact ⟨c, cs ++ s'.toList, t, rest ++ ts', by rw [String.toList_append, hs, List.cons_append], rfl, ht⟩

theorem opening_between {p q : Punctuation} {c : Char} {cs : List Char} (hp : p.text.toList = c :: cs)
    (hopens : opens c (.punctuation p) = true) (s s' : String) (ts : List Token) :
    Opening (p.text ++ s ++ s') (between p q ts) :=
  ⟨c, cs ++ s.toList ++ s'.toList, .punctuation p, ts ++ [Token.punctuation q],
    by rw [String.toList_append, String.toList_append, hp, List.cons_append, List.cons_append], rfl, hopens⟩

theorem Opening.guarded {s : String} {ts : List Token} (h : Opening s ts) (strength least : Nat) :
    Opening (guarded strength least s) (guardedTokens strength least ts) := by
  unfold OpenQasm.guarded guardedTokens
  split
  · exact opening_between (p := .lParen) rfl rfl s ")" ts
  · exact h

theorem opening_keyword (k : Keyword) : Opening k.text [.keyword k] := by
  obtain ⟨c, cs, htext, hopens⟩ := (spells_keyword k).opens fun _ h => by cases h
  exact ⟨c, cs, _, [], htext, rfl, hopens⟩

theorem opening_width (k : Keyword) (s : String) (ts : List Token) :
    Opening (k.text ++ "[" ++ s ++ "]") (.keyword k :: between .lBracket .rBracket ts) := by
  rw [String.append_assoc, String.append_assoc]
  exact (opening_keyword k).append _ _

theorem TypeExpr.opening : ∀ t : TypeExpr, t.Castable → Opening t.text t.tokens
  | .bool, _ => opening_keyword .bool
  | .duration, _ => opening_keyword .duration
  | .sized kind none, _ => by
    cases kind with
    | int => exact opening_keyword .int
    | uint => exact opening_keyword .uint
    | float => exact opening_keyword .float
    | angle => exact opening_keyword .angle
    | bit => exact opening_keyword .bit
    | complex => exact opening_keyword .complex
  | .sized .complex (some w), _ => by
    have hopening : "complex[float[" = Keyword.complex.text ++ "[float[" := rfl
    rw [TypeExpr.text, TypeExpr.tokens, hopening, String.append_assoc, String.append_assoc]
    exact (opening_keyword .complex).append _ _
  | .sized .int (some w), _ => opening_width .int (w.textAt 0) _
  | .sized .uint (some w), _ => opening_width .uint (w.textAt 0) _
  | .sized .float (some w), _ => opening_width .float (w.textAt 0) _
  | .sized .angle (some w), _ => opening_width .angle (w.textAt 0) _
  | .sized .bit (some w), _ => opening_width .bit (w.textAt 0) _
  | .stretch, h => by
    rw [TypeExpr.Castable] at h
    exact h.elim
  | .array _ _, h => by
    rw [TypeExpr.Castable] at h
    exact h.elim

theorem Expr.opening : ∀ (e : Expr) (least : Nat), e.Printable →
    Opening (e.textAt least) (e.tokensAt least)
  | .int n, _, h | .float x, _, h | .imaginary x, _, h | .duration x u, _, h | .name n, _, h => by
    rw [Expr.Printable] at h
    obtain ⟨c, cs, htext, hopens⟩ := h.opens nofun
    exact ⟨c, cs, _, [], htext, rfl, hopens⟩
  | .bits digits, _, _ => ⟨'"', digits.toList ++ ['"'], .string digits, [],
      by rw [Expr.textAt, String.toList_append, String.toList_append]; rfl, rfl, rfl⟩
  | .bool true, _, _ => opening_keyword .true
  | .bool false, _, _ => opening_keyword .false
  | .constant .pi, _, _ => opening_keyword .pi
  | .constant .tau, _, _ => opening_keyword .tau
  | .constant .euler, _, _ => opening_keyword .euler
  | .unary op e, least, _ => by
    rw [Expr.textAt, Expr.tokensAt]
    have hop : Opening op.symbol [.punctuation (ofUnary op)] := by
      cases op <;> exact ⟨_, _, _, _, rfl, rfl, rfl⟩
    exact (hop.append _ _).guarded _ _
  | .binary l op r, least, h => by
    rw [Expr.Printable] at h
    rw [Expr.textAt, Expr.tokensAt]
    refine Opening.guarded ?_ _ _
    simp only [String.append_assoc]
    exact (l.opening op.leftStrength h.1).append _ _
  | .call f args, _, h => by
    rw [Expr.Printable] at h
    obtain ⟨c, cs, htext, hopens⟩ := h.1.opens nofun
    have hf : Opening f [.name f] := ⟨c, cs, _, [], htext, rfl, hopens⟩
    rw [Expr.textAt, Expr.tokensAt]
    simp only [String.append_assoc]
    exact hf.append _ _
  | .index base items, _, h => by
    rw [Expr.Printable] at h
    rw [Expr.textAt, Expr.tokensAt]
    simp only [String.append_assoc]
    exact (base.opening Expr.atomStrength h.1).append _ _
  | .cast type e, _, h => by
    rw [Expr.Printable] at h
    rw [Expr.textAt, Expr.tokensAt]
    simp only [String.append_assoc]
    exact (type.opening h.1).append _ _
  | .array items, _, _ => by
    rw [Expr.textAt, Expr.tokensAt]
    exact opening_between (p := .lBrace) rfl rfl _ _ _
  | .measure e, _, _ => by
    rw [Expr.textAt, Expr.tokensAt]
    have hmeasure : Opening "measure " [.keyword .measure] := ⟨_, _, _, _, rfl, rfl, rfl⟩
    exact hmeasure.append _ _
  | .paren e, _, _ => by
    rw [Expr.textAt, Expr.tokensAt]
    exact opening_between (p := .lParen) rfl rfl _ _ _

end Opening

mutual

theorem Expr.scansEnd : ∀ (e : Expr) (least : Nat), e.Printable →
    Scans endsToken (e.textAt least) (e.tokensAt least)
  | .int n, _, h | .float x, _, h | .imaginary x, _, h | .duration x u, _, h | .name n, _, h => by
    rw [Expr.Printable] at h
    rw [Expr.textAt, Expr.tokensAt]
    exact h.scansEnd rfl
  | .bits digits, _, h => by
    rw [Expr.Printable] at h
    rw [Expr.textAt, Expr.tokensAt]
    exact h.1.scansEnd rfl
  | .bool true, _, _ => scansEnd_keyword .true
  | .bool false, _, _ => scansEnd_keyword .false
  | .constant .pi, _, _ => scansEnd_keyword .pi
  | .constant .tau, _, _ => scansEnd_keyword .tau
  | .constant .euler, _, _ => scansEnd_keyword .euler
  | .unary op e, least, h => by
    rw [Expr.Printable] at h
    rw [Expr.textAt, Expr.tokensAt]
    have happend := (scans_unary op).append (e.scansEnd UnaryOp.strength h) fun rest _ c hc => by
      obtain ⟨d, ds, _, _, htext, -, hopens⟩ := e.opening UnaryOp.strength h
      rw [htext] at hc
      cases hc
      exact (Bool.and_eq_true_iff.1 hopens).1
    exact happend.guarded _ _
  | .binary l op r, least, h => by
    rw [Expr.Printable] at h
    have hl := (l.scansEnd op.leftStrength h.1).closed.space.then (scans_binary op)
    have hr := hl.space.then (r.scansEnd op.rightStrength h.2)
    rw [List.append_assoc] at hr
    rw [Expr.textAt, Expr.tokensAt]
    exact hr.guarded _ _
  | .call f args, _, h => by
    rw [Expr.Printable] at h
    have hcall := (h.1.scans rfl).bracketed (scans_commas (exprs_scan args h.2)) (p := .lParen)
      (q := .rParen) rfl nofun rfl nofun
    rw [Expr.textAt, Expr.tokensAt]
    exact hcall.mono fun _ _ => rfl
  | .index base items, _, h => by
    rw [Expr.Printable] at h
    have hindex := (base.scansEnd Expr.atomStrength h.1).closed.bracketed (scans_commas (items_scan items h.2.2.2))
      (p := .lBracket) (q := .rBracket) rfl nofun rfl nofun
    rw [Expr.textAt, Expr.tokensAt]
    exact hindex.mono fun _ _ => rfl
  | .cast type e, _, h => by
    rw [Expr.Printable] at h
    have hcast := (type.scans h.1).bracketed (e.scansEnd 0 h.2).closed (p := .lParen) (q := .rParen) rfl nofun rfl
      nofun
    rw [Expr.textAt, Expr.tokensAt]
    exact hcast.mono fun _ _ => rfl
  | .array items, _, h => by
    rw [Expr.Printable] at h
    rw [Expr.textAt, Expr.tokensAt]
    exact ((scans_commas (exprs_scan items h)).between (p := .lBrace) (q := .rBrace) rfl rfl nofun).mono
      fun _ _ => rfl
  | .measure e, _, h => by
    rw [Expr.Printable] at h
    rw [Expr.textAt, Expr.tokensAt]
    exact (scans_keyword .measure).space.then (e.scansEnd Expr.atomStrength h.2)
  | .paren e, _, h => by
    rw [Expr.Printable] at h
    rw [Expr.textAt, Expr.tokensAt]
    exact ((e.scansEnd 0 h).closed.between (p := .lParen) (q := .rParen) rfl rfl nofun).mono fun _ _ => rfl

theorem exprs_scan : ∀ es : List Expr, exprsPrintable es →
    List.Forall₂ (Scans closesToken) (exprTexts es) (exprsTokens es)
  | [], _ => List.Forall₂.nil
  | e :: es, h => by
    rw [exprsPrintable] at h
    exact List.Forall₂.cons (e.scansEnd 0 h.1).closed (exprs_scan es h.2)

theorem option_scans : ∀ o : Option Expr, optionPrintable o →
    Scans closesToken (optionText o) (optionTokens o)
  | none, _ => scans_empty _
  | some e, h => (e.scansEnd 0 h).closed

theorem RangeExpr.scans : ∀ r : RangeExpr, r.Printable → Scans closesToken r.text r.tokens
  | ⟨start, none, stop⟩, h => by
    have hstart := (option_scans start h.1).close (p := .colon) rfl nofun
    have hstop := hstart.then (option_scans stop h.2.2)
    rw [List.append_assoc] at hstop
    exact hstop
  | ⟨start, some step, stop⟩, h => by
    have hstart := (option_scans start h.1).close (p := .colon) rfl nofun
    have hstep := (hstart.then (step.scansEnd 0 h.2.1).closed).close (p := .colon) rfl nofun
    have hstop := hstep.then (option_scans stop h.2.2)
    rw [List.append_assoc, List.append_assoc, List.append_assoc] at hstop
    exact hstop

theorem IndexItem.scans : ∀ i : IndexItem, i.Printable → Scans closesToken i.text i.tokens
  | .single e, h => by
    rw [IndexItem.Printable] at h
    exact (e.scansEnd 0 h.2).closed
  | .range r, h => by
    obtain ⟨start, step, stop⟩ := r
    rw [IndexItem.Printable] at h
    exact RangeExpr.scans ⟨start, step, stop⟩ h.2
  | .set items, h => by
    rw [IndexItem.Printable] at h
    rw [IndexItem.text, IndexItem.tokens]
    exact ((scans_commas (exprs_scan items h)).between (p := .lBrace) (q := .rBrace) rfl rfl nofun).mono
      fun _ _ => rfl

theorem items_scan : ∀ is : List IndexItem, itemsPrintable is →
    List.Forall₂ (Scans closesToken) (itemTexts is) (itemsTokens is)
  | [], _ => List.Forall₂.nil
  | i :: is, h => by
    rw [itemsPrintable] at h
    exact List.Forall₂.cons (i.scans h.1) (items_scan is h.2)

theorem TypeExpr.scans : ∀ t : TypeExpr, t.Castable → Scans closesToken t.text t.tokens
  | .bool, _ => scans_keyword .bool
  | .duration, _ => scans_keyword .duration
  | .sized kind none, _ => by
    cases kind with
    | int => exact scans_keyword .int
    | uint => exact scans_keyword .uint
    | float => exact scans_keyword .float
    | angle => exact scans_keyword .angle
    | bit => exact scans_keyword .bit
    | complex => exact scans_keyword .complex
  | .sized .complex (some w), h => by
    rw [TypeExpr.Castable, optionPrintable] at h
    have hfloat := (scans_keyword .float).bracketed (w.scansEnd 0 h).closed (p := .lBracket) (q := .rBracket) rfl
      nofun rfl nofun
    have hcomplex := (scans_keyword .complex).bracketed (hfloat.mono fun _ _ => rfl) (p := .lBracket)
      (q := .rBracket) rfl nofun rfl nofun
    have htext : "complex[float[" ++ w.textAt 0 ++ "]]" =
        "complex" ++ "[" ++ ("float" ++ "[" ++ w.textAt 0 ++ "]") ++ "]" := by
      have hopening : "complex[float[" = "complex" ++ "[" ++ "float" ++ "[" := rfl
      have hclosing : "]]" = "]" ++ "]" := rfl
      rw [hopening, hclosing]
      simp only [String.append_assoc]
    rw [TypeExpr.text, TypeExpr.tokens, htext]
    exact hcomplex.mono fun _ _ => rfl
  | .sized .int (some w), h => scans_width (scans_keyword .int) (w.scansEnd 0 h).closed
  | .sized .uint (some w), h => scans_width (scans_keyword .uint) (w.scansEnd 0 h).closed
  | .sized .float (some w), h => scans_width (scans_keyword .float) (w.scansEnd 0 h).closed
  | .sized .angle (some w), h => scans_width (scans_keyword .angle) (w.scansEnd 0 h).closed
  | .sized .bit (some w), h => scans_width (scans_keyword .bit) (w.scansEnd 0 h).closed
  | .stretch, h => by
    rw [TypeExpr.Castable] at h
    exact h.elim
  | .array _ _, h => by
    rw [TypeExpr.Castable] at h
    exact h.elim

end

theorem Expr.scans (e : Expr) (least : Nat) (h : e.Printable) :
    Scans closesToken (e.textAt least) (e.tokensAt least) :=
  (e.scansEnd least h).closed

/-- A text that is cut into tokens holds these, and no character is left over. -/
theorem Token.Scans.scan {follow : Char → Bool} {text : String} {ts : List Token} (h : Scans follow text ts) :
    (scan (Source.ofString text)).map (·.token) = ts.map some := by
  obtain ⟨ls, offset, hscan, htokens⟩ := h 0 [] nofun
  rw [List.append_nil, scanFrom, List.append_nil] at hscan
  exact (congrArg _ hscan).trans htokens

/-- The text of an expression that can be read holds its tokens, and no character is left over. -/
theorem scan_text {e : Expr} (h : e.Printable) :
    (scan (Source.ofString e.text)).map (·.token) = (e.tokensAt 0).map some :=
  (e.scans 0 h).scan

end OpenQasm
