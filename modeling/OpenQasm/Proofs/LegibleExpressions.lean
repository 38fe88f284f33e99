import OpenQasm.Proofs.LegibleSyntax
import OpenQasm.Proofs.PrintedNumbers

/-!
Expressions that have been read. The grammar puts names, indices, measurements and conversions where their text can be
read, so that only the literals decide whether the text of the expression can be.
-/
namespace OpenQasm

open OpenQasm.Parser OpenQasm.Grammar OpenQasm.Grammar.Nested

section Grants

variable {α β : Type} {p : Parser α} {f : α → Parser β} {P P' : α → Prop} {Q : β → Prop} {o : Option Token}

/-- All tokens that are left are printed as they are read. -/
def Cursor.Kept (c : Cursor) : Prop := ∀ t ∈ c.rest, t.token.Kept

/-- Before the next token, what is read has the property. -/
def GrantsFrom (o : Option Token) (p : Parser α) (P : α → Prop) : Prop :=
  ∀ (s : Source) (c : Cursor) (a : α) (d : Cursor), c.Kept → c.head? = o → p s c = (.ok a, d) → d.Kept ∧ P a

/-- Whatever the next token is, what is read has the property. -/
def Grants (p : Parser α) (P : α → Prop) : Prop := ∀ o, GrantsFrom o p P

theorem GrantsFrom.bind (hp : GrantsFrom o p P) (hf : ∀ a, P a → Grants (f a) Q) : GrantsFrom o (p >>= f) Q := by
  intro s c b e hc ho h
  rw [Excerpt.run_bind] at h
  rcases hr : p s c with ⟨err | a, d⟩
  · rw [hr] at h
    cases h
  · rw [hr] at h
    obtain ⟨hd, ha⟩ := hp s c a d hc ho hr
    exact hf a ha _ s d b e hd rfl h

theorem Grants.bind (hp : Grants p P) (hf : ∀ a, P a → Grants (f a) Q) : Grants (p >>= f) Q :=
  fun o => (hp o).bind hf

theorem GrantsFrom.mono (h : GrantsFrom o p P) (hP : ∀ a, P a → P' a) : GrantsFrom o p P' := fun s c a d hc ho hr =>
  (h s c a d hc ho hr).imp_right (hP a)

theorem Grants.mono (h : Grants p P) (hP : ∀ a, P a → P' a) : Grants p P' := fun o => (h o).mono hP

theorem grants_pure {a : α} (h : P a) : Grants (pure a) P := by
  intro o s c b d hc _ hr
  cases hr
  exact ⟨hc, h⟩

theorem grants_unexpected (expected : String) : Grants (unexpected expected : Parser α) P := by
  intro o s c a d _ _ hr
  obtain ⟨err, herr⟩ := Excerpt.unexpected_error (α := α) expected s c
  nomatch herr.symm.trans hr

theorem GrantsFrom.peek {f : Option Token → Parser β} (h : GrantsFrom o (f o) Q) :
    GrantsFrom o (Parser.peek >>= f) Q := by
  intro s c b d hc ho hr
  rw [Excerpt.run_peek, ho] at hr
  exact h s c b d hc ho hr

theorem Grants.peek {f : Option Token → Parser β} (h : ∀ o, GrantsFrom o (f o) Q) : Grants (Parser.peek >>= f) Q :=
  fun o => (h o).peek

theorem Cursor.Kept.suffix {c d : Cursor} (h : c.Kept) (hsuffix : d.rest <:+ c.rest) : d.Kept := fun t ht =>
  h t (hsuffix.subset ht)

theorem Cursor.Kept.next {c : Cursor} (h : c.Kept) : c.next.Kept := h.suffix (List.tail_suffix _)

theorem Cursor.Kept.head {c : Cursor} (h : c.Kept) {t : Token} (ht : c.head? = some t) : t.Kept := by
  obtain ⟨p, hp, rfl⟩ := Option.map_eq_some_iff.1 ht
  exact h p (List.mem_of_mem_head? hp)

theorem Grants.skip {f : Unit → Parser β} (h : Grants (f ()) Q) : Grants (advance >>= f) Q :=
  fun _ s c b d hc _ hr => h _ s c.next b d hc.next rfl hr

theorem grantsFrom_advance {a : α} (h : P a) : GrantsFrom o (advance >>= fun _ => pure a) P :=
  Grants.skip (f := fun _ => pure a) (grants_pure h) o

theorem GrantsFrom.accept {w : Punctuation} {f : Bool → Parser β} (hyes : isPunctuation w o = true → Grants (f true) Q)
    (hno : isPunctuation w o = false → GrantsFrom o (f false) Q) : GrantsFrom o (Parser.accept w >>= f) Q := by
  rw [Excerpt.accept_bind]
  refine .peek ?_
  cases hw : isPunctuation w o with
  | true => exact (hyes hw).skip o
  | false => exact hno hw

theorem Grants.accept {w : Punctuation} {f : Bool → Parser β} (hyes : Grants (f true) Q) (hno : Grants (f false) Q) :
    Grants (Parser.accept w >>= f) Q :=
  fun o => .accept (fun _ => hyes) fun _ => hno o

theorem Grants.acceptKeyword {w : Keyword} {f : Bool → Parser β} (hyes : Grants (f true) Q) (hno : Grants (f false) Q) :
    Grants (Parser.acceptKeyword w >>= f) Q := by
  rw [Excerpt.acceptKeyword_bind]
  refine .peek fun o => ?_
  cases isKeyword w o with
  | true => exact hyes.skip o
  | false => exact hno o

theorem Grants.expect {w : Punctuation} {f : Unit → Parser β} (h : Grants (f ()) Q) :
    Grants (Parser.expect w >>= f) Q := by
  rw [Excerpt.expect_bind]
  refine .peek fun o => ?_
  split
  · exact h.skip o
  · exact grants_unexpected _ o

theorem Grants.expectKeyword {w : Keyword} {f : Unit → Parser β} (h : Grants (f ()) Q) :
    Grants (Parser.expectKeyword w >>= f) Q := by
  rw [Excerpt.expectKeyword_bind]
  refine .peek fun o => ?_
  split
  · exact h.skip o
  · exact grants_unexpected _ o

theorem GrantsFrom.at? {w : Punctuation} {f : Bool → Parser β} (h : GrantsFrom o (f (isPunctuation w o)) Q) :
    GrantsFrom o (Parser.at? w >>= f) Q :=
  fun s c b d hc ho hr => h s c b d hc ho (ho ▸ hr)

theorem Grants.at? {w : Punctuation} {f : Bool → Parser β} (h : ∀ b, Grants (f b) Q) :
    Grants (Parser.at? w >>= f) Q := fun o => .at? (h _ o)

theorem grants_name : Grants Parser.name fun n => (Token.name n).Spells n := by
  refine .peek fun o => ?_
  split
  · next n =>
    intro s c a d hc ho hr
    cases hr
    exact ⟨hc.next, hc.head ho⟩
  · exact grants_unexpected _ _

/-- A name that comes next is spelled as it is. -/
theorem GrantsFrom.name {n : String} {f : Unit → Parser β} (h : (Token.name n).Spells n → Grants (f ()) Q) :
    GrantsFrom (some (.name n)) (advance >>= f) Q :=
  fun s c b d hc ho hr => h (hc.head ho) _ s c.next b d hc.next rfl hr

theorem Grants.bounded {p : Nat → Parser α} (h : ∀ n, Grants (p n) P) : Grants (bounded p) P :=
  fun o s c => h _ o s c

theorem GrantsFrom.bounded {p : Nat → Parser α} (h : ∀ n, GrantsFrom o (p n) P) : GrantsFrom o (bounded p) P :=
  fun s c => h _ s c

theorem grants_moreItems (h : Grants p P) : ∀ n, Grants (moreItems p n) fun as => ∀ a ∈ as, P a
  | 0 => grants_pure nofun
  | n + 1 => .accept (h.bind fun _ ha => (grants_moreItems h n).bind fun _ has =>
      grants_pure (List.forall_mem_cons.2 ⟨ha, has⟩)) (grants_pure nofun)

theorem grants_commaSeparated (h : Grants p P) : Grants (commaSeparated p) fun as => as ≠ [] ∧ ∀ a ∈ as, P a :=
  h.bind fun _ ha => (Grants.bounded (grants_moreItems h)).bind fun _ has =>
    grants_pure ⟨List.cons_ne_nil _ _, List.forall_mem_cons.2 ⟨ha, has⟩⟩

theorem grants_itemsBefore (h : Grants p P) (close : Punctuation) :
    Grants (itemsBefore close p) fun as => ∀ a ∈ as, P a :=
  .at? fun closed => by
    cases closed with
    | true => exact grants_pure nofun
    | false => exact (grants_commaSeparated h).mono fun _ has => has.2

end Grants

section Results

variable {o : Option Token} {e base : Expr} {es : List Expr}

/-- If the literals of the expression are legible, its text can be read. -/
def Expr.Sound (e : Expr) : Prop := e.Legible → e.Printable

def optionSound (o : Option Expr) : Prop := optionLegible o → optionPrintable o

def RangeExpr.Sound (r : RangeExpr) : Prop := r.Legible → r.Printable

def IndexItem.Sound (i : IndexItem) : Prop := i.Legible → i.Printable

def TypeExpr.Sound (t : TypeExpr) : Prop := t.Legible → t.Printable

/-- The text starts with a brace only if the expression is read from one. -/
def Expr.StartsFrom (o : Option Token) (e : Expr) : Prop :=
  ∀ least, (e.tokensAt least).head? = some (.punctuation .lBrace) → o = some (.punctuation .lBrace)

/-- An expression that has been read from the token on. -/
structure Expr.ReadFrom (o : Option Token) (e : Expr) : Prop where
  sound : e.Sound
  starts : e.StartsFrom o

theorem exprs_sound (h : ∀ e ∈ es, e.Sound) (hes : exprsLegible es) : exprsPrintable es :=
  exprsPrintable_iff.2 fun e he => h e he (exprsLegible_iff.1 hes e he)

/-- The text of an expression starts with a brace if its first token is one. -/
theorem opensBrace_eq_false (h : e.Printable) (hfirst : (e.tokensAt 0).head? ≠ some (.punctuation .lBrace)) :
    e.opensBrace = false := by
  refine decide_eq_false fun hbrace => hfirst ?_
  obtain ⟨cs, htext⟩ := List.head?_eq_some_iff.1 hbrace
  have hscan := scan_text h
  have hpiece : Token.headPiece '\x7b' cs = (.token (.punctuation .lBrace), 1) :=
    Token.headPiece_symbol (c := '\x7b') rfl (fun d _ => Token.ofPair?_alone (Or.inr rfl)) rfl rfl
  have hcut := Token.scanFrom_cons 0 '\x7b' cs
  rw [hpiece] at hcut
  have hchars : Token.scan (Source.ofString e.text) = Token.scanFrom 0 ('\x7b' :: cs) :=
    congrArg (Token.scanFrom 0) htext
  rw [hchars, hcut] at hscan
  obtain ⟨t, ts, htokens, ht, -⟩ := List.map_eq_cons_iff.1 hscan.symm
  rw [htokens, List.head?_cons]
  exact ht

theorem Expr.ReadFrom.opensBrace (h : e.ReadFrom o) (ho : isPunctuation .lBrace o = false) (hlegible : e.Legible) :
    e.opensBrace = false :=
  opensBrace_eq_false (h.sound hlegible) fun hfirst => by
    rw [h.starts 0 hfirst] at ho
    nomatch ho

theorem head?_guardedTokens {strength least : Nat} {ts : List Token}
    (h : (guardedTokens strength least ts).head? = some (.punctuation .lBrace)) :
    ts.head? = some (.punctuation .lBrace) := by
  unfold guardedTokens at h
  split at h
  · nomatch h
  · exact h

theorem startsFrom_binary {l r : Expr} {op : BinaryOp} (h : l.StartsFrom o) : (Expr.binary l op r).StartsFrom o := by
  intro least hfirst
  rw [Expr.tokensAt] at hfirst
  replace hfirst := head?_guardedTokens hfirst
  rw [List.head?_append] at hfirst
  cases hl : (l.tokensAt op.leftStrength).head? with
  | none =>
    rw [hl] at hfirst
    cases op <;> nomatch hfirst
  | some t =>
    rw [hl] at hfirst
    cases hfirst
    exact h _ hl

theorem startsFrom_unary (op : UnaryOp) (e : Expr) : (Expr.unary op e).StartsFrom o := by
  intro least hfirst
  rw [Expr.tokensAt] at hfirst
  cases op <;> nomatch head?_guardedTokens hfirst

theorem startsFrom_index {items : List IndexItem} (h : base.StartsFrom o) : (Expr.index base items).StartsFrom o := by
  intro least hfirst
  rw [Expr.tokensAt, List.head?_append] at hfirst
  cases hbase : (base.tokensAt Expr.atomStrength).head? with
  | none =>
    rw [hbase] at hfirst
    nomatch hfirst
  | some t =>
    rw [hbase] at hfirst
    cases hfirst
    exact h _ hbase

theorem TypeExpr.tokens_first (t : TypeExpr) : ∃ k ts, t.tokens = .keyword k :: ts := by
  cases t with
  | bool | duration | stretch | array => exact ⟨_, _, rfl⟩
  | sized kind width =>
    cases width with
    | none => exact ⟨_, _, rfl⟩
    | some w => cases kind <;> exact ⟨_, _, rfl⟩

theorem startsFrom_cast (t : TypeExpr) (e : Expr) : (Expr.cast t e).StartsFrom o := by
  intro least hfirst
  obtain ⟨k, ts, htokens⟩ := t.tokens_first
  rw [Expr.tokensAt, htokens] at hfirst
  nomatch hfirst

end Results

section Stops

variable {self : Nested} {s : Source} {c d : Cursor} {e : Expr}

theorem bind_ok {α β : Type} {p : Parser α} {f : α → Parser β} {b : β} (h : (p >>= f) s c = (.ok b, d)) :
    ∃ a c', p s c = (.ok a, c') ∧ f a s c' = (.ok b, d) := by
  rw [Excerpt.run_bind] at h
  rcases hr : p s c with ⟨err | a, c'⟩
  · rw [hr] at h
    nomatch h
  · rw [hr] at h
    exact ⟨a, c', rfl, h⟩

theorem indexed_succ (self : Nested) (n : Nat) (base : Expr) (s : Source) (c : Cursor) :
    self.indexed (n + 1) base s c = if isPunctuation .lBracket c.head? then
      (commaSeparated self.indexItem >>= fun items => expect .rBracket >>= fun _ =>
        self.indexed n (.index base items)) s c.next
      else (.ok base, c) := by
  show (accept .lBracket >>= fun more => if more then _ else _) s c = _
  rw [Excerpt.accept_bind, Excerpt.run_peek]
  cases isPunctuation .lBracket c.head? <;> rfl

/-- With a bound above the number of tokens that are left, all indices are read. -/
theorem indexed_stops (hforward : self.Forward) : ∀ (n : Nat) (base : Expr) (c : Cursor), c.left < n →
    self.indexed n base s c = (.ok e, d) → isPunctuation .lBracket d.head? = false
  | 0, _, _, hn, _ => absurd hn (Nat.not_lt_zero _)
  | n + 1, base, c, hn, hr => by
    rw [indexed_succ] at hr
    split at hr
    · next hbracket =>
      have hitems : Forward (commaSeparated self.indexItem) :=
        forward_of_alike fun _ _ => .commaSeparated hforward.alike.indexItem
      have hfirst : AdvancesFrom (some (.punctuation .lBracket)) (advance >>= fun _ => commaSeparated self.indexItem) :=
        Advances.skip hitems
      obtain ⟨items, c₁, hitem, hr⟩ := bind_ok hr
      obtain ⟨_, c₂, hclose, hr⟩ := bind_ok hr
      have hlt : c₁.left < c.left := hfirst s c c₁ items (Excerpt.eq_of_isPunctuation hbracket) hitem
      have hle : c₂.left ≤ c₁.left := by
        have hleft := (forward_expect .rBracket).left_le s c₁
        rwa [hclose] at hleft
      exact indexed_stops hforward n (.index base items) c₂ (by omega) hr
    · next hbracket =>
      cases hr
      exact Bool.eq_false_iff.2 hbracket

/-- A measurement takes all indices that follow. -/
theorem primary_stops (hforward : self.Forward) (hc : c.head? = some (.keyword .measure))
    (hr : self.primary s c = (.ok e, d)) : isPunctuation .lBracket d.head? = false := by
  rw [primary, Excerpt.run_peek, hc] at hr
  obtain ⟨q, c₁, hoperand, hr⟩ := bind_ok (p := self.operand) (c := c.next) hr
  obtain ⟨n, c₂, -, hindexed⟩ := bind_ok hoperand
  cases hr
  exact indexed_stops hforward _ _ c₂ (Nat.lt_succ_self _) hindexed

end Stops

/-- What the readers of nested parts give. -/
structure NestedSound (parts : Nested) : Prop where
  expression : ∀ least o, GrantsFrom o (parts.expression least) (Expr.ReadFrom o)
  type : Grants parts.type TypeExpr.Sound

namespace NestedSound

variable {self : Nested} {o : Option Token} {base : Expr}

theorem whole (h : NestedSound self) (o : Option Token) : GrantsFrom o self.whole (Expr.ReadFrom o) := h.expression 1 o

theorem grants_whole (h : NestedSound self) : Grants self.whole Expr.Sound := fun o =>
  (h.whole o).mono fun _ he => he.sound

theorem designator? (h : NestedSound self) : Grants self.designator? optionSound :=
  .accept (h.grants_whole.bind fun _ he => .expect (grants_pure he)) (grants_pure fun _ => trivial)

theorem arguments (h : NestedSound self) : Grants self.arguments fun es => exprsLegible es → exprsPrintable es :=
  (grants_itemsBefore h.grants_whole .rParen).bind fun _ hes => .expect (grants_pure (exprs_sound hes))

theorem braced (h : NestedSound self) : Grants self.braced fun es => exprsLegible es → exprsPrintable es :=
  .expect ((grants_itemsBefore h.grants_whole .rBrace).bind fun _ hes => .expect (grants_pure (exprs_sound hes)))

theorem rangePart? (h : NestedSound self) : Grants self.rangePart? optionSound := by
  refine .peek fun o => ?_
  split
  · exact grants_pure (fun _ => trivial) _
  · exact grants_pure (fun _ => trivial) _
  · exact grants_pure (fun _ => trivial) _
  · exact grants_pure (fun _ => trivial) _
  · exact h.grants_whole.bind (fun e he => grants_pure (a := some e) he) _

theorem rangeAfter (h : NestedSound self) {start : Option Expr} (hstart : optionSound start) :
    Grants (self.rangeAfter start) fun r => r.Sound ∧ r.start = start :=
  .expect (h.rangePart?.bind fun _ hsecond =>
    .accept
      (h.rangePart?.bind fun _ hthird =>
        grants_pure ⟨fun hr => ⟨hstart hr.1, hsecond hr.2.1, hthird hr.2.2⟩, rfl⟩)
      (grants_pure ⟨fun hr => ⟨hstart hr.1, trivial, hsecond hr.2.2⟩, rfl⟩))

theorem rangeStart? (h : NestedSound self) (o : Option Token) :
    GrantsFrom o self.rangeStart? fun start => ∀ e ∈ start, e.ReadFrom o := by
  refine .at? ?_
  cases isPunctuation .colon o with
  | true => exact grants_pure nofun o
  | false => exact (h.whole o).bind fun _ he => grants_pure fun _ ha => Option.mem_some.1 ha ▸ he

theorem optionSound_of {start : Option Expr} (h : ∀ e ∈ start, e.ReadFrom o) : optionSound start := by
  cases start with
  | none => exact fun _ => trivial
  | some e => exact (h e rfl).sound

theorem range (h : NestedSound self) : Grants self.range RangeExpr.Sound := fun o =>
  (h.rangeStart? o).bind fun start hstart => by
    refine .at? fun colon => ?_
    cases colon with
    | true => exact (h.rangeAfter (optionSound_of hstart)).mono fun _ hr => hr.1
    | false => exact (grants_unexpected _).bind fun _ (hnone : False) => hnone.elim

/-- An index that starts with a brace is a set. -/
theorem indexItem (h : NestedSound self) : Grants self.indexItem IndexItem.Sound := by
  intro o
  refine .at? ?_
  cases hbrace : isPunctuation .lBrace o with
  | true => exact h.braced.bind (fun _ hes => grants_pure hes) o
  | false =>
    refine (h.rangeStart? o).bind fun start hstart => .at? fun colon => ?_
    cases colon with
    | true =>
      refine (h.rangeAfter (optionSound_of hstart)).bind fun r hr => grants_pure fun hlegible => ?_
      obtain ⟨start', step, stop⟩ := r
      obtain ⟨hsound, rfl⟩ := hr
      refine ⟨?_, hsound hlegible⟩
      cases start' with
      | none => rfl
      | some e =>
        rw [Option.all_some, (hstart e rfl).opensBrace hbrace hlegible.1]
        rfl
    | false =>
      cases start with
      | none => exact grants_unexpected _
      | some e =>
        have he : e.ReadFrom o := hstart e rfl
        exact grants_pure fun hlegible => ⟨he.opensBrace hbrace hlegible, he.sound hlegible⟩

theorem indexed (h : NestedSound self) : ∀ (n : Nat) (base : Expr), base.ReadFrom o → base.isMeasure = false →
    Grants (self.indexed n base) fun e => e.ReadFrom o ∧ (base.isOperand = true → e.isOperand = true)
  | 0, base, hbase, _ => grants_pure ⟨hbase, id⟩
  | n + 1, base, hbase, hmeasure => by
    refine .accept ((grants_commaSeparated h.indexItem).bind fun items hitems => .expect ?_) (grants_pure ⟨hbase, id⟩)
    have hsound : (Expr.index base items).Sound := fun hlegible => ⟨hbase.sound hlegible.1, hmeasure, hitems.1,
      itemsPrintable_iff.2 fun i hi => hitems.2 i hi (itemsLegible_iff.1 hlegible.2 i hi)⟩
    exact h.indexed n (.index base items) ⟨hsound, startsFrom_index hbase.starts⟩ rfl

theorem operand (h : NestedSound self) : Grants self.operand fun e => e.isOperand = true ∧ e.Sound :=
  grants_name.bind fun n hn => .bounded fun fuel =>
    have hname : (Expr.name n).ReadFrom none := ⟨fun _ => hn, fun _ hfirst => nomatch hfirst⟩
    (h.indexed fuel (.name n) hname rfl).mono fun _ he => ⟨he.2 rfl, he.1.sound⟩

theorem dimensions (h : NestedSound self) : Grants self.dimensions fun es => ∀ e ∈ es, e.Sound :=
  .bounded (grants_moreItems h.grants_whole)

/-- A type that has been read; one that a conversion may start with is one of a conversion. -/
def TypeFrom (o : Option Token) (t : TypeExpr) : Prop :=
  t.Sound ∧ ∀ k, o = some (.keyword k) → startsCast k = true → t.Legible → t.Castable

theorem typeFrom_sized {kind : SizedKind} {width : Option Expr} (h : optionSound width) :
    TypeFrom o (.sized kind width) := ⟨h, fun _ _ _ hlegible => h hlegible⟩

theorem typeFrom_keyword {k : Keyword} {t : TypeExpr} (hsound : t.Sound) (hcast : startsCast k = true → t.Castable) :
    TypeFrom (some (.keyword k)) t :=
  ⟨hsound, fun k' hk hstarts _ => by
    cases hk
    exact hcast hstarts⟩

theorem typeLevel (h : NestedSound self) (o : Option Token) : GrantsFrom o self.typeLevel (TypeFrom o) := by
  refine .peek ?_
  split
  · exact grantsFrom_advance (typeFrom_keyword (fun _ => trivial) fun _ => trivial)
  · exact grantsFrom_advance (typeFrom_keyword (fun _ => trivial) fun _ => trivial)
  · exact grantsFrom_advance (typeFrom_keyword (fun _ => trivial) nofun)
  · refine Grants.skip ?_ _
    refine Grants.accept (Grants.expectKeyword (h.designator?.bind fun width hwidth => .expect ?_)) ?_
    · exact grants_pure (typeFrom_sized hwidth)
    · exact grants_pure (typeFrom_sized fun _ => trivial)
  · refine Grants.skip (.expect (h.type.bind fun element helement => h.dimensions.bind fun dims hdims => .expect ?_)) _
    split
    · exact (grants_unexpected _).bind fun _ (hnone : False) => hnone.elim
    · next hne =>
      refine grants_pure (typeFrom_keyword (fun hlegible => ?_) nofun)
      refine ⟨helement hlegible.1, ?_, exprs_sound hdims hlegible.2⟩
      rintro rfl
      exact hne rfl
  · split
    · exact Grants.skip (h.designator?.bind fun width hwidth => grants_pure (typeFrom_sized hwidth)) _
    · exact grants_unexpected _ _
  · exact grants_unexpected _ _

/-- A primary expression that has been read; a measurement is read from its keyword. -/
structure PrimaryFrom (o : Option Token) (e : Expr) : Prop where
  read : e.ReadFrom o
  measure : e.isMeasure = true → o = some (.keyword .measure)

/-- A primary expression that starts with a word, a number or a parenthesis. -/
theorem primaryFrom {e : Expr} (hsound : e.Sound) (hmeasure : e.isMeasure = false)
    (hfirst : ∀ least, (e.tokensAt least).head? ≠ some (.punctuation .lBrace)) : PrimaryFrom o e :=
  ⟨⟨hsound, fun least h => absurd h (hfirst least)⟩, fun h => nomatch hmeasure.symm.trans h⟩

theorem grantsFrom_leaf {e : Expr} (h : PrimaryFrom o e) : GrantsFrom o (leaf e) (PrimaryFrom o) :=
  grantsFrom_advance h

theorem sound_int (n : UInt64) : (Expr.int n).Sound := fun _ => by
  have hspells := Token.spells_nat (n := n.toNat) n.toNat_lt
  have hn : n.toNat.toUInt64 = n := UInt64.ofNat_toNat
  rwa [hn] at hspells

theorem sound_bits {text digits : String} (h : bitDigits? text = some digits) : (Expr.bits digits).Sound := by
  intro hlegible
  have hne : digits.toList ≠ [] := fun hnil => hlegible (String.toList_eq_nil_iff.1 hnil)
  refine ⟨⟨'"', digits.toList ++ ['"'], ?_, ?_⟩, (bitDigits?_digits h).trans (if_neg hne)⟩
  · simp only [String.toList_append]
    rfl
  · have hbody : (digits.toList ++ ['"']).takeWhile (· ≠ '"') = digits.toList := by
      have hdigits : ∀ c ∈ digits.toList, decide (c ≠ '"') = true := fun c hc => by
        obtain rfl | rfl := isBit_of_bitDigits? h c hc <;> rfl
      rw [List.takeWhile_append_of_pos hdigits]
      exact List.append_nil _
    rw [Token.headPiece_quote, hbody, List.length_append, List.length_singleton, if_pos (Nat.lt_succ_self _),
      String.ofList_toList]

theorem primary (h : NestedSound self) (o : Option Token) : GrantsFrom o self.primary (PrimaryFrom o) := by
  refine .peek ?_
  split
  · exact grantsFrom_leaf (primaryFrom (sound_int _) rfl nofun)
  · exact grantsFrom_leaf (primaryFrom id rfl nofun)
  · exact grantsFrom_leaf (primaryFrom id rfl nofun)
  · exact grantsFrom_leaf (primaryFrom id rfl nofun)
  · split
    · next hdigits => exact grantsFrom_leaf (primaryFrom (sound_bits hdigits) rfl nofun)
    · exact grants_unexpected _ _
  · exact grantsFrom_leaf (primaryFrom (fun _ => trivial) rfl nofun)
  · exact grantsFrom_leaf (primaryFrom (fun _ => trivial) rfl nofun)
  · exact grantsFrom_leaf (primaryFrom (fun _ => trivial) rfl nofun)
  · exact grantsFrom_leaf (primaryFrom (fun _ => trivial) rfl nofun)
  · exact grantsFrom_leaf (primaryFrom (fun _ => trivial) rfl nofun)
  · next n =>
    refine GrantsFrom.name fun hn => ?_
    refine Grants.accept ?_ ?_
    · exact h.arguments.bind fun args hargs =>
        grants_pure (primaryFrom (fun hlegible => ⟨hn, hargs hlegible⟩) rfl nofun)
    · exact grants_pure (primaryFrom (fun _ => hn) rfl nofun)
  · refine Grants.skip (h.grants_whole.bind fun inner hinner => .expect ?_) _
    exact grants_pure (primaryFrom hinner rfl nofun)
  · refine h.braced.bind (fun items hitems => grants_pure ?_) _
    exact ⟨⟨hitems, fun _ _ => rfl⟩, nofun⟩
  · refine Grants.skip (h.operand.bind fun q hq => grants_pure ?_) _
    exact ⟨⟨fun hlegible => ⟨hq.1, hq.2 hlegible⟩, fun _ hfirst => nomatch hfirst⟩, fun _ => rfl⟩
  · split
    · next hk =>
      refine (h.typeLevel _).bind fun t ht => .expect (h.grants_whole.bind fun e he => .expect (grants_pure ?_))
      exact ⟨⟨fun hlegible => ⟨ht.2 _ rfl hk hlegible.1, he hlegible.2⟩, startsFrom_cast t e⟩, nofun⟩
    · exact grants_unexpected _ _
  · exact grants_unexpected _ _

theorem unary (h : NestedSound self) (hforward : self.Forward) (o : Option Token) :
    GrantsFrom o self.unary (Expr.ReadFrom o) := by
  refine .peek ?_
  cases hop : unaryOp? o with
  | some op =>
    refine Grants.skip (fun o' => (h.expression _ o').bind fun e he => grants_pure ?_) _
    exact ⟨he.sound, startsFrom_unary op e⟩
  | none =>
    intro s c e d hc ho hr
    obtain ⟨base, c', hprimary, hindexed⟩ := bind_ok hr
    obtain ⟨hc', hbase⟩ := h.primary o s c base c' hc ho hprimary
    cases hmeasure : base.isMeasure with
    | false => exact ((h.indexed _ base hbase.read hmeasure).mono fun _ he => he.1) _ s c' e d hc' rfl hindexed
    | true =>
      have hstop := primary_stops hforward (ho.trans (hbase.measure hmeasure)) hprimary
      replace hindexed : self.indexed (c'.left + 1) base s c' = (.ok e, d) := hindexed
      rw [indexed_succ, if_neg (Bool.eq_false_iff.1 hstop)] at hindexed
      cases hindexed
      exact ⟨hc', hbase.read⟩

theorem operators (least : Nat) (h : NestedSound self) : ∀ (n : Nat) (left : Expr), left.ReadFrom o →
    Grants (self.operators least n left) (Expr.ReadFrom o)
  | 0, _, hleft => grants_pure hleft
  | n + 1, left, hleft => .peek fun next => by
    cases hop : binaryOp? next with
    | none => exact grants_pure hleft next
    | some op =>
      dsimp only
      split
      · exact grants_pure hleft next
      · refine Grants.skip (fun o' => (h.expression _ o').bind fun right hright => ?_) next
        have hsound : (Expr.binary left op right).Sound := fun hlegible =>
          ⟨hleft.sound hlegible.1, hright.sound hlegible.2⟩
        exact h.operators least n _ ⟨hsound, startsFrom_binary hleft.starts⟩

theorem expressionLevel (h : NestedSound self) (hforward : self.Forward) (least : Nat) (o : Option Token) :
    GrantsFrom o (self.expressionLevel least) (Expr.ReadFrom o) :=
  (h.unary hforward o).bind fun left hleft => .bounded fun fuel => h.operators least fuel left hleft

end NestedSound

theorem nestedSound : ∀ n, NestedSound (nested n)
  | 0 => ⟨fun _ _ => grants_unexpected _ _, grants_unexpected _⟩
  | n + 1 => ⟨(nestedSound n).expressionLevel (forward_nested n),
    fun o => ((nestedSound n).typeLevel o).mono fun _ ht => ht.1⟩

section Readers

theorem grantsFrom_expression (o : Option Token) : GrantsFrom o Grammar.expression (Expr.ReadFrom o) :=
  .bounded fun n => (nestedSound n).whole o

theorem grants_expression : Grants Grammar.expression Expr.Sound := .bounded fun n => (nestedSound n).grants_whole

theorem grants_type : Grants Grammar.type TypeExpr.Sound := .bounded fun n => (nestedSound n).type

theorem grants_operand : Grants Grammar.operand fun e => e.isOperand = true ∧ e.Sound :=
  .bounded fun n => (nestedSound n).operand

theorem grants_range : Grants Grammar.range RangeExpr.Sound := .bounded fun n => (nestedSound n).range

theorem grants_braced : Grants Grammar.braced fun es => exprsLegible es → exprsPrintable es :=
  .bounded fun n => (nestedSound n).braced

theorem grants_arguments : Grants Grammar.arguments fun es => exprsLegible es → exprsPrintable es :=
  .bounded fun n => (nestedSound n).arguments

theorem grants_designator? : Grants Grammar.designator? optionSound := .bounded fun n => (nestedSound n).designator?

end Readers

end OpenQasm
