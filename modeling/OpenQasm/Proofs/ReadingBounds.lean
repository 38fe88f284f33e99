import OpenQasm.Proofs.RelocatedPrograms

/-!
The readers of nested parts and the loops of the grammar run under a bound. A bound above the number of tokens
left is never met: nested parts and further rounds start behind a token of their own. So the readers satisfy the
equations of the grammar, in which there is no bound.
-/
namespace OpenQasm

open OpenQasm.Parser OpenQasm.Grammar

variable {α β : Type}

/-- Whatever the bound is, the same is read, as long as it is above the number of tokens left. -/
def Unmet (p : Nat → Parser α) : Prop :=
  ∀ (s : Source) (c : Cursor) (n m : Nat), c.left < n → c.left < m → p n s c = p m s c

/-- What a reader leaves is the end of what it found. -/
def Forward (p : Parser α) : Prop := ∀ (s : Source) (c : Cursor), (p s c).2.rest <:+ c.rest

theorem Forward.left_le {p : Parser α} (h : Forward p) (s : Source) (c : Cursor) : (p s c).2.left ≤ c.left := by
  rw [Cursor.left_eq, Cursor.left_eq]
  exact (h s c).length_le

/-- Before the cursors with a property, two readers do the same and go forward. -/
structure ReadAlike (s : Source) (P : Cursor → Prop) (p q : Parser α) : Prop where
  same : ∀ c, P c → p s c = q s c
  rest : ∀ c, P c → (p s c).2.rest <:+ c.rest

namespace ReadAlike

variable {s : Source} {P Q : Cursor → Prop} {p q : Parser α} {f g : α → Parser β} {k : Nat} {o : Option Token}

theorem mono (h : ReadAlike s P p q) (hPQ : ∀ c, Q c → P c) : ReadAlike s Q p q where
  same c hc := h.same c (hPQ c hc)
  rest c hc := h.rest c (hPQ c hc)

theorem below {j : Nat} (h : ReadAlike s (Cursor.Below k) p q) (hjk : j ≤ k) : ReadAlike s (Cursor.Below j) p q :=
  h.mono fun _ hc => Nat.lt_of_lt_of_le hc hjk

theorem facing (h : ReadAlike s (Cursor.Below k) p q) : ReadAlike s (Cursor.Facing o k) p q := h.mono fun _ hc => hc.1

theorem ofNever (h : ∀ c, ¬P c) : ReadAlike s P p q where
  same c hc := (h c hc).elim
  rest c hc := (h c hc).elim

theorem ofForward (h : Forward p) : ReadAlike s P p p := ⟨fun _ _ => rfl, fun c _ => h s c⟩

theorem ofPhrase {p' : Parser α} (h : Excerpt.Phrase (.alone s) P p p') : ReadAlike s P p p :=
  ⟨fun _ _ => rfl, h.rest⟩

theorem ofClause {p' : Parser α} {m : α → α} (h : Excerpt.Clause (.alone s) P m p p') : ReadAlike s P p p :=
  ⟨fun _ _ => rfl, h.rest⟩

theorem ofPure (a : α) : ReadAlike s P (pure a) (pure a) := ⟨fun _ _ => rfl, fun _ _ => List.suffix_rfl⟩

theorem andThen {R : α → Cursor → Prop} (hp : ReadAlike s P p q)
    (hR : ∀ c a d, P c → p s c = (.ok a, d) → R a d) (hf : ∀ a, ReadAlike s (R a) (f a) (g a)) :
    ReadAlike s P (p >>= f) (q >>= g) where
  same c hc := by
    rw [Excerpt.run_bind, Excerpt.run_bind, ← hp.same c hc]
    rcases hr : p s c with ⟨err | a, d⟩
    · rfl
    · exact (hf a).same d (hR c a d hc hr)
  rest c hc := by
    have hrest := hp.rest c hc
    rw [Excerpt.run_bind]
    rcases hr : p s c with ⟨err | a, d⟩
    · rwa [hr] at hrest
    · rw [hr] at hrest
      exact ((hf a).rest d (hR c a d hc hr)).trans hrest

theorem left_lt (h : ReadAlike s P p q) {c d : Cursor} {r : Except SyntaxError α} (hc : P c) (hr : p s c = (r, d))
    (hk : c.left < k) : d.left < k := by
  have hle := (h.rest c hc).length_le
  rw [hr, ← Cursor.left_eq, ← Cursor.left_eq] at hle
  exact Nat.lt_of_le_of_lt hle hk

theorem bind (hp : ReadAlike s (Cursor.Below k) p q) (hf : ∀ a, ReadAlike s (Cursor.Below k) (f a) (g a)) :
    ReadAlike s (Cursor.Below k) (p >>= f) (q >>= g) :=
  hp.andThen (R := fun _ => Cursor.Below k) (fun _ _ _ hc hr => hp.left_lt hc hr hc) hf

/-- What is read depends on the next token. -/
theorem peek {f g : Option Token → Parser β} (hf : ∀ o, ReadAlike s (Cursor.Facing o k) (f o) (g o)) :
    ReadAlike s (Cursor.Below k) (Parser.peek >>= f) (Parser.peek >>= g) where
  same c hc := (hf c.head?).same c ⟨hc, rfl⟩
  rest c hc := (hf c.head?).rest c ⟨hc, rfl⟩

/-- Behind a token, one token less is left. -/
theorem skip {t : Token} {f g : Unit → Parser β} (hf : ReadAlike s (Cursor.Below k) (f ()) (g ())) :
    ReadAlike s (Cursor.Facing (some t) (k + 1)) (advance >>= f) (advance >>= g) :=
  have hadvance : ReadAlike s (Cursor.Facing (some t) (k + 1)) advance advance :=
    ⟨fun _ _ => rfl, fun _ _ => List.tail_suffix _⟩
  hadvance.andThen (R := fun _ => Cursor.Below k) (fun c _ d hc hr => by
    cases hr
    obtain ⟨-, -, -, -, hlt⟩ := Excerpt.Cursor.Facing.next hc
    exact hlt) fun _ => hf

theorem ofUnexpected (expected : String) :
    ReadAlike s P (unexpected expected : Parser α) (unexpected expected) where
  same _ _ := rfl
  rest c _ := by
    obtain ⟨err, herr⟩ := Excerpt.unexpected_error (α := α) expected s c
    exact herr ▸ List.suffix_rfl

/-- Where a token may come next, what follows it is read with one token less. -/
theorem peekIf {r : Option Token → Bool} {f g : Unit → Parser β} {p q : Parser β} (hnone : r none = false)
    (hf : ReadAlike s (Cursor.Below k) (f ()) (g ())) (hp : ReadAlike s (Cursor.Below (k + 1)) p q) :
    ReadAlike s (Cursor.Below (k + 1)) (Parser.peek >>= fun o => if r o then advance >>= f else p)
      (Parser.peek >>= fun o => if r o then advance >>= g else q) := by
  refine peek fun o => ?_
  cases ho : r o with
  | false => exact hp.facing
  | true =>
    cases o with
    | none => nomatch hnone.symm.trans ho
    | some t => exact skip hf

theorem accept {w : Punctuation} {f g : Bool → Parser β} (htrue : ReadAlike s (Cursor.Below k) (f true) (g true))
    (hfalse : ReadAlike s (Cursor.Below (k + 1)) (f false) (g false)) :
    ReadAlike s (Cursor.Below (k + 1)) (Parser.accept w >>= f) (Parser.accept w >>= g) := by
  rw [Excerpt.accept_bind, Excerpt.accept_bind]
  exact peekIf rfl htrue hfalse

theorem expect {w : Punctuation} {f g : Unit → Parser β} (hf : ReadAlike s (Cursor.Below k) (f ()) (g ())) :
    ReadAlike s (Cursor.Below (k + 1)) (Parser.expect w >>= f) (Parser.expect w >>= g) := by
  rw [Excerpt.expect_bind, Excerpt.expect_bind]
  exact peekIf rfl hf (ofUnexpected _)

theorem bounded {p q : Nat → Parser α} (h : ∀ n ≤ k, ReadAlike s (Cursor.Below n) (p n) (q n)) :
    ReadAlike s (Cursor.Below k) (bounded p) (bounded q) where
  same c hc := (h (c.left + 1) hc).same c (Nat.lt_succ_self _)
  rest c hc := (h (c.left + 1) hc).rest c (Nat.lt_succ_self _)

section Symbols

variable {w : Punctuation}

theorem ofAccept : ReadAlike s (Cursor.Below k) (Parser.accept w) (Parser.accept w) := by
  refine below ?_ (Nat.le_succ k)
  rw [← Excerpt.bind_pure (Parser.accept w)]
  exact accept (ofPure true) (ofPure false)

theorem ofExpect : ReadAlike s (Cursor.Below k) (Parser.expect w) (Parser.expect w) := by
  refine below ?_ (Nat.le_succ k)
  rw [← Excerpt.bind_pure (Parser.expect w)]
  exact expect (ofPure ())

theorem ofAt? : ReadAlike s (Cursor.Below k) (at? w) (at? w) := peek fun o => ofPure (isPunctuation w o)

end Symbols

section Repetitions

variable {item item' : Parser α} {close : Punctuation}

/-- A loop may take as many rounds as there are tokens: what is known where no token is left, and of one token and
one round more, is known of every number of rounds that is not less than that of the tokens. -/
theorem rounds {most : Nat} {R : Nat → Nat → Nat → Prop} (hnone : ∀ n m, R 0 n m)
    (hround : ∀ j < most, ∀ n m, R j n m → R (j + 1) (n + 1) (m + 1)) :
    ∀ j ≤ most, ∀ n m, j ≤ n → j ≤ m → R j n m
  | 0, _, n, m, _, _ => hnone n m
  | j + 1, hj, n + 1, m + 1, hn, hm =>
    have hbefore := rounds hnone hround j (Nat.le_of_succ_le hj) n m (Nat.le_of_succ_le_succ hn)
      (Nat.le_of_succ_le_succ hm)
    hround j hj n m hbefore

/-- A further item stands behind a comma, so both loops end with the tokens. -/
theorem moreItems (h : ReadAlike s (Cursor.Below k) item item') : ∀ j ≤ k + 1, ∀ n m, j ≤ n → j ≤ m →
    ReadAlike s (Cursor.Below j) (moreItems item n) (moreItems item' m) := by
  refine rounds (fun _ _ => ofNever fun _ => Nat.not_lt_zero _) fun j hj n m hmore => ?_
  have hitem := h.below (Nat.le_of_lt_succ hj)
  exact accept (hitem.bind fun a => hmore.bind fun others => ofPure _) (ofPure [])

theorem commaSeparated (h : ReadAlike s (Cursor.Below k) item item') :
    ReadAlike s (Cursor.Below k) (commaSeparated item) (commaSeparated item') :=
  h.bind fun _ => (bounded fun n hn => moreItems h n (Nat.le_succ_of_le hn) n n (Nat.le_refl n) (Nat.le_refl n)).bind
    fun _ => ofPure _

theorem itemsBefore (h : ReadAlike s (Cursor.Below k) item item') :
    ReadAlike s (Cursor.Below k) (itemsBefore close item) (itemsBefore close item') :=
  ofAt?.bind fun closed => by
    cases closed with
    | true => exact ofPure []
    | false => exact commaSeparated h

end Repetitions

end ReadAlike

/-- Readers for nested parts that agree before fewer than so many tokens. -/
structure NestedAlike (s : Source) (k : Nat) (inner inner' : Nested) : Prop where
  expression : ∀ least, ReadAlike s (Cursor.Below k) (inner.expression least) (inner'.expression least)
  type : ReadAlike s (Cursor.Below k) inner.type inner'.type

namespace NestedAlike

open ReadAlike

variable {s : Source} {k : Nat} {inner inner' : Nested}

theorem whole (h : NestedAlike s k inner inner') : ReadAlike s (Cursor.Below k) inner.whole inner'.whole :=
  h.expression 1

theorem designator? (h : NestedAlike s k inner inner') :
    ReadAlike s (Cursor.Below (k + 1)) inner.designator? inner'.designator? :=
  accept (h.whole.bind fun _ => ofExpect.bind fun _ => ofPure _) (ofPure none)

theorem arguments (h : NestedAlike s k inner inner') :
    ReadAlike s (Cursor.Below k) inner.arguments inner'.arguments :=
  (itemsBefore h.whole).bind fun _ => ofExpect.bind fun _ => ofPure _

theorem braced (h : NestedAlike s k inner inner') :
    ReadAlike s (Cursor.Below (k + 1)) inner.braced inner'.braced :=
  expect ((itemsBefore h.whole).bind fun _ => ofExpect.bind fun _ => ofPure _)

theorem rangePart? (h : NestedAlike s k inner inner') :
    ReadAlike s (Cursor.Below k) inner.rangePart? inner'.rangePart? := by
  refine peek fun o => ?_
  have hpart := (h.whole.bind fun a => ofPure (some a)).facing (o := o)
  cases o with
  | none => exact ofPure none
  | some t =>
    cases t with
    | punctuation w => cases w <;> first | exact ofPure none | exact hpart
    | _ => exact hpart

theorem rangeAfter (h : NestedAlike s k inner inner') (start : Option Expr) :
    ReadAlike s (Cursor.Below (k + 1)) (inner.rangeAfter start) (inner'.rangeAfter start) := by
  refine expect (h.rangePart?.bind fun _ => ofAccept.bind fun stepped => ?_)
  cases stepped with
  | true => exact h.rangePart?.bind fun _ => ofPure _
  | false => exact ofPure _

theorem rangeStart? (h : NestedAlike s k inner inner') :
    ReadAlike s (Cursor.Below k) inner.rangeStart? inner'.rangeStart? := by
  refine ofAt?.bind fun colon => ?_
  cases colon with
  | true => exact ofPure none
  | false => exact h.whole.bind fun _ => ofPure _

theorem indexItem (h : NestedAlike s k inner inner') :
    ReadAlike s (Cursor.Below k) inner.indexItem inner'.indexItem := by
  refine ofAt?.bind fun set => ?_
  cases set with
  | true => exact (h.braced.below (Nat.le_succ k)).bind fun _ => ofPure _
  | false =>
    refine h.rangeStart?.bind fun start => ofAt?.bind fun colon => ?_
    cases colon with
    | true => exact ((h.rangeAfter start).below (Nat.le_succ k)).bind fun _ => ofPure _
    | false =>
      cases start with
      | some _ => exact ofPure _
      | none => exact ofUnexpected _

/-- Further indices stand behind a bracket. -/
theorem indexed (h : NestedAlike s k inner inner') : ∀ j ≤ k + 1, ∀ n m, j ≤ n → j ≤ m → ∀ base,
    ReadAlike s (Cursor.Below j) (inner.indexed n base) (inner'.indexed m base) := by
  refine rounds (fun _ _ _ => ofNever fun _ => Nat.not_lt_zero _) fun j hj n m hmore base => ?_
  have hitems := (commaSeparated h.indexItem).below (Nat.le_of_lt_succ hj)
  exact accept (hitems.bind fun items => ofExpect.bind fun _ => hmore (.index base items)) (ofPure base)

theorem boundedIndexed (h : NestedAlike s k inner inner') (base : Expr) :
    ReadAlike s (Cursor.Below (k + 1)) (Parser.bounded fun n => inner.indexed n base)
      (Parser.bounded fun n => inner'.indexed n base) :=
  bounded fun n hn => h.indexed n hn n n (Nat.le_refl n) (Nat.le_refl n) base

theorem operand (h : NestedAlike s k inner inner') :
    ReadAlike s (Cursor.Below (k + 1)) inner.operand inner'.operand :=
  (ofPhrase Excerpt.phrase_name).bind fun n => h.boundedIndexed (.name n)

theorem dimensions (h : NestedAlike s k inner inner') :
    ReadAlike s (Cursor.Below (k + 1)) inner.dimensions inner'.dimensions :=
  bounded fun n hn => moreItems h.whole n hn n n (Nat.le_refl n) (Nat.le_refl n)

theorem typeLevel (h : NestedAlike s k inner inner') :
    ReadAlike s (Cursor.Below (k + 1)) inner.typeLevel inner'.typeLevel := by
  refine peek fun o => ?_
  have hfail : ReadAlike s (Cursor.Facing o (k + 1)) (unexpected "type" : Parser TypeExpr) (unexpected "type") :=
    ofUnexpected _
  have hdesignator := h.designator?.below (Nat.le_succ k)
  cases o with
  | none => exact hfail
  | some t =>
    cases t with
    | keyword w =>
      have hsized (kind : SizedKind) : ReadAlike s (Cursor.Facing (some (.keyword w)) (k + 1))
          (advance >>= fun _ => inner.designator? >>= fun width => pure (TypeExpr.sized kind width))
          (advance >>= fun _ => inner'.designator? >>= fun width => pure (TypeExpr.sized kind width)) :=
        skip (hdesignator.bind fun _ => ofPure _)
      cases w with
      | bool | duration | stretch => exact skip (ofPure _)
      | int => exact hsized .int
      | uint => exact hsized .uint
      | float => exact hsized .float
      | angle => exact hsized .angle
      | bit => exact hsized .bit
      | complex =>
        refine skip (ofAccept.bind fun width => ?_)
        cases width with
        | true =>
          exact (ofPhrase Excerpt.phrase_expectKeyword).bind fun _ => hdesignator.bind fun _ =>
            ofExpect.bind fun _ => ofPure _
        | false => exact ofPure _
      | array =>
        refine skip (ofExpect.bind fun _ => h.type.bind fun element =>
          (h.dimensions.below (Nat.le_succ k)).bind fun dims => ofExpect.bind fun _ => ?_)
        cases dims with
        | nil => exact (ofUnexpected _).bind fun _ => ofPure _
        | cons _ _ => exact ofPure _
      | _ => exact hfail
    | _ => exact hfail

theorem primary (h : NestedAlike s k inner inner') :
    ReadAlike s (Cursor.Below (k + 1)) inner.primary inner'.primary := by
  refine peek fun o => ?_
  have hfail : ReadAlike s (Cursor.Facing o (k + 1)) (unexpected "expression" : Parser Expr)
    (unexpected "expression") := ofUnexpected _
  cases o with
  | none => exact hfail
  | some t =>
    have hleaf (a : Expr) : ReadAlike s (Cursor.Facing (some t) (k + 1)) (Nested.leaf a) (Nested.leaf a) :=
      skip (ofPure a)
    cases t with
    | int | float | imaginary | duration => exact hleaf _
    | string text =>
      dsimp only [Nested.primary]
      cases Nested.bitDigits? text with
      | some digits => exact hleaf _
      | none => exact ofUnexpected _
    | pragma text => exact hfail
    | name n =>
      refine skip (ofAccept.bind fun call => ?_)
      cases call with
      | true => exact h.arguments.bind fun _ => ofPure _
      | false => exact ofPure _
    | punctuation w =>
      cases w with
      | lParen => exact skip (h.whole.bind fun _ => ofExpect.bind fun _ => ofPure _)
      | lBrace => exact (h.braced.bind fun _ => ofPure _).facing
      | _ => exact hfail
    | keyword w =>
      have hcast : ReadAlike s (Cursor.Facing (some (.keyword w)) (k + 1))
          (inner.typeLevel >>= fun type => Parser.expect .lParen >>= fun _ => inner.whole >>= fun a =>
            Parser.expect .rParen >>= fun _ => pure (Expr.cast type a))
          (inner'.typeLevel >>= fun type => Parser.expect .lParen >>= fun _ => inner'.whole >>= fun a =>
            Parser.expect .rParen >>= fun _ => pure (Expr.cast type a)) :=
        (h.typeLevel.bind fun _ => expect (h.whole.bind fun _ => ofExpect.bind fun _ => ofPure _)).facing
      cases w with
      | «true» | «false» | pi | tau | euler => exact hleaf _
      | measure => exact skip ((h.operand.below (Nat.le_succ k)).bind fun _ => ofPure _)
      | bit | int | uint | float | angle | bool | complex | duration => exact hcast
      | _ => exact hfail

/-- A further operand stands behind its operator. -/
theorem operators (h : NestedAlike s k inner inner') (least : Nat) : ∀ j ≤ k + 1, ∀ n m, j ≤ n → j ≤ m →
    ∀ left, ReadAlike s (Cursor.Below j) (inner.operators least n left) (inner'.operators least m left) := by
  refine rounds (fun _ _ _ => ofNever fun _ => Nat.not_lt_zero _) fun j hj n m hmore left => peek fun o => ?_
  cases ho : Nested.binaryOp? o with
  | none => exact ofPure left
  | some op =>
    dsimp only
    by_cases hop : op.strength < least
    -- An operator that binds less tightly is left to the expression around this one.
    · rw [if_pos hop, if_pos hop]
      exact ofPure left
    · rw [if_neg hop, if_neg hop]
      cases o with
      | none => nomatch ho
      | some t =>
        have hright := (h.expression op.rightStrength).below (Nat.le_of_lt_succ hj)
        exact skip (hright.bind fun right => hmore (.binary left op right))

theorem unary (h : NestedAlike s k inner inner') : ReadAlike s (Cursor.Below (k + 1)) inner.unary inner'.unary := by
  refine peek fun o => ?_
  cases ho : Nested.unaryOp? o with
  | none => exact (h.primary.bind h.boundedIndexed).facing
  | some op =>
    cases o with
    | none => nomatch ho
    | some t => exact skip ((h.expression _).bind fun _ => ofPure _)

theorem expressionLevel (h : NestedAlike s k inner inner') (least : Nat) :
    ReadAlike s (Cursor.Below (k + 1)) (inner.expressionLevel least) (inner'.expressionLevel least) :=
  h.unary.bind fun left => bounded fun n hn => h.operators least n hn n n (Nat.le_refl n) (Nat.le_refl n) left

end NestedAlike

section Expressions

variable {s : Source} {k n m : Nat} {inner : Nested}

/-- Two readers of nested parts have the same depth, or both may be as deep as there are tokens: what is known at
the bottom of both and where no token is left, and of one token and one level more, is known of them. -/
theorem levels {R : Nat → Nat → Nat → Prop} (hbottom : ∀ k, R k 0 0) (hnone : ∀ n m, R 0 n m)
    (hlevel : ∀ k n m, R k n m → R (k + 1) (n + 1) (m + 1)) : ∀ {n m k : Nat}, n = m ∨ k ≤ n ∧ k ≤ m → R k n m
  | 0, 0, _, _ => hbottom _
  | _, _, 0, _ => hnone _ _
  | 0, m + 1, k + 1, h => absurd h (by omega)
  | n + 1, 0, k + 1, h => absurd h (by omega)
  | n + 1, m + 1, k + 1, h => hlevel k n m (levels hbottom hnone hlevel (by omega))

/-- The readers of parts nested so deep agree before fewer tokens than either may be deep. -/
theorem nestedAlike_nested (s : Source) : ∀ {n m k : Nat}, n = m ∨ k ≤ n ∧ k ≤ m →
    NestedAlike s k (nested n) (nested m) :=
  levels (R := fun k n m => NestedAlike s k (nested n) (nested m))
    (fun _ => ⟨fun _ => .ofUnexpected _, .ofUnexpected _⟩)
    (fun _ _ => ⟨fun _ => .ofNever fun _ => Nat.not_lt_zero _, .ofNever fun _ => Nat.not_lt_zero _⟩)
    fun _ _ _ hinner => ⟨hinner.expressionLevel, hinner.typeLevel⟩

/-- Readers for the nested parts of any depth. -/
def Grammar.parts : Nested where
  expression least := bounded fun n => (nested n).expression least
  type := Grammar.type

/-- Readers for the nested parts that go forward. -/
structure Grammar.Nested.Forward (inner : Nested) : Prop where
  expression : ∀ least, OpenQasm.Forward (inner.expression least)
  type : OpenQasm.Forward inner.type

theorem Grammar.Nested.Forward.alike (h : inner.Forward) : NestedAlike s k inner inner :=
  ⟨fun least => .ofForward (h.expression least), .ofForward h.type⟩

theorem forward_of_alike {p : Parser α} (h : ∀ s k, ReadAlike s (Cursor.Below k) p p) : Forward p :=
  fun s c => (h s (c.left + 1)).rest c (Nat.lt_succ_self _)

theorem forward_nested (n : Nat) : (nested n).Forward :=
  ⟨fun least => forward_of_alike fun s _ => (nestedAlike_nested s (Or.inl rfl)).expression least,
    forward_of_alike fun s _ => (nestedAlike_nested s (Or.inl rfl)).type⟩

theorem forward_bounded {p : Nat → Parser α} (h : ∀ n, Forward (p n)) : Forward (bounded p) :=
  fun s c => h (c.left + 1) s c

theorem forward_parts : parts.Forward :=
  ⟨fun least => forward_bounded fun n => (forward_nested n).expression least,
    forward_bounded fun n => (forward_nested n).type⟩

theorem unmet_of_alike {p : Nat → Parser α}
    (h : ∀ s k n m, k ≤ n → k ≤ m → ReadAlike s (Cursor.Below k) (p n) (p m)) : Unmet p :=
  fun s c n m hn hm => (h s (c.left + 1) n m hn hm).same c (Nat.lt_succ_self _)

theorem unmet_expression (least : Nat) : Unmet fun n => (nested n).expression least :=
  unmet_of_alike fun s _ _ _ hn hm => (nestedAlike_nested s (Or.inr ⟨hn, hm⟩)).expression least

theorem unmet_type : Unmet fun n => (nested n).type :=
  unmet_of_alike fun s _ _ _ hn hm => (nestedAlike_nested s (Or.inr ⟨hn, hm⟩)).type

theorem unmet_moreItems {item : Parser α} (h : Forward item) : Unmet (moreItems item) :=
  unmet_of_alike fun _ k n m hn hm => .moreItems (k := k) (.ofForward h) k (Nat.le_succ k) n m hn hm

theorem unmet_indexed (h : inner.Forward) (base : Expr) : Unmet fun n => inner.indexed n base :=
  unmet_of_alike fun _ k n m hn hm => h.alike.indexed k (Nat.le_succ k) n m hn hm base

theorem unmet_operators (h : inner.Forward) (least : Nat) (left : Expr) :
    Unmet fun n => inner.operators least n left :=
  unmet_of_alike fun _ k n m hn hm => h.alike.operators least k (Nat.le_succ k) n m hn hm left

/-- A reader with any bound that is large enough agrees with the reader without one. -/
theorem Unmet.alike {p : Nat → Parser α} (h : Unmet p) (hforward : ∀ n, Forward (p n)) (hk : k ≤ n) :
    ReadAlike s (Cursor.Below k) (p n) (bounded p) where
  same c hc := h s c n (c.left + 1) (Nat.lt_of_lt_of_le hc hk) (Nat.lt_succ_self _)
  rest c _ := hforward n s c

theorem nestedAlike_parts (s : Source) (k : Nat) : NestedAlike s k (nested k) parts :=
  ⟨fun least => (unmet_expression least).alike (fun n => (forward_nested n).expression least) (Nat.le_refl k),
    unmet_type.alike (fun n => (forward_nested n).type) (Nat.le_refl k)⟩

/-- Expressions are read by the productions of the grammar, over themselves. -/
theorem parts_expression (least : Nat) : parts.expression least = parts.expressionLevel least := by
  funext s c
  exact ((nestedAlike_parts s c.left).expressionLevel least).same c (Nat.lt_succ_self _)

theorem parts_type : parts.type = parts.typeLevel := by
  funext s c
  exact (nestedAlike_parts s c.left).typeLevel.same c (Nat.lt_succ_self _)

end Expressions

section Statements

open ReadAlike

variable {s : Source} {k : Nat} {self self' : Parser Statement}

theorem alike_recovering {P : Cursor → Prop} {p q : Parser α} (h : ReadAlike s P p q) :
    ReadAlike s P (recovering p) (recovering q) where
  same c hc := by
    rw [Excerpt.run_recovering, Excerpt.run_recovering, h.same c hc]
  rest c hc := by
    have hrest := h.rest c hc
    rw [Excerpt.run_recovering]
    rcases hr : p s c with ⟨err | a, d⟩
    · rw [hr] at hrest
      exact (Excerpt.skipFrom_suffix _ _ _).trans hrest
    · rwa [hr] at hrest

theorem alike_moving {P : Cursor → Prop} {p q : Parser α} (keep : PlacedToken → Bool) (h : ReadAlike s P p q) :
    ReadAlike s P (moving keep p) (moving keep q) where
  same c hc := by
    rw [Excerpt.run_moving, Excerpt.run_moving, h.same c hc]
  rest c hc := by
    rw [Excerpt.run_moving]
    split
    · exact (List.tail_suffix _).trans (h.rest c hc)
    · exact h.rest c hc

/-- Where a statement of a block is broken, recovery moves on, so the loop ends with the tokens. -/
theorem alike_blockItems (h : ReadAlike s (Cursor.Below k) self self') : ∀ j ≤ k, ∀ n m, j ≤ n → j ≤ m →
    ReadAlike s (Cursor.Below j) (blockItems self n) (blockItems self' m) := by
  refine rounds (fun _ _ => ofNever fun _ => Nat.not_lt_zero _) fun j hj n m hmore => peek fun o => ?_
  have hself := alike_recovering (h.below hj)
  cases o with
  | none => exact ofPure []
  | some t =>
    -- What is read in a round may be no token at all, but then the token where recovery stopped is left out.
    have hgo (ht : isPunctuation .rBrace (some t) = false) :
        ReadAlike s (Cursor.Facing (some t) (j + 1))
          (moving (fun t => isPunctuation .rBrace (some t.token)) (recovering self) >>= fun first =>
            blockItems self n >>= fun others => pure (first.toList ++ others))
          (moving (fun t => isPunctuation .rBrace (some t.token)) (recovering self') >>= fun first =>
            blockItems self' m >>= fun others => pure (first.toList ++ others)) := by
      refine (alike_moving _ hself.facing).andThen (R := fun _ => Cursor.Below j) (fun c first d hc hr => ?_)
        fun first => hmore.bind fun others => ofPure _
      obtain ⟨p, ts, hts, rfl, -⟩ := Excerpt.Cursor.Facing.next hc
      have hlt := Excerpt.left_moving_lt (fun t => isPunctuation .rBrace (some t.token))
        (hself.rest c hc.1) (List.head?_eq_some_iff.2 ⟨ts, hts⟩) ht
      rw [hr] at hlt
      exact Nat.lt_of_lt_of_le hlt (Nat.le_of_lt_succ hc.1)
    cases t with
    | punctuation w => cases w <;> first | exact ofPure [] | exact hgo rfl
    | _ => exact hgo rfl

theorem alike_inBlock {p q : Parser α} (h : ReadAlike s (Cursor.Below k) p q) :
    ReadAlike s (Cursor.Below k) (inBlock p) (inBlock q) where
  same c hc := by
    rw [Excerpt.run_inBlock, Excerpt.run_inBlock, h.same { c with nesting := c.nesting + 1 } hc]
  rest c hc := h.rest { c with nesting := c.nesting + 1 } hc

theorem alike_block (h : ReadAlike s (Cursor.Below k) self self') :
    ReadAlike s (Cursor.Below (k + 1)) (block self) (block self') := by
  have hitems := bounded fun n hn => alike_blockItems h n hn n n (Nat.le_refl n) (Nat.le_refl n)
  exact expect ((alike_inBlock hitems).bind fun _ => ofExpect.bind fun _ => ofPure _)

theorem alike_body (h : ReadAlike s (Cursor.Below k) self self') :
    ReadAlike s (Cursor.Below k) (body self) (body self') := by
  refine ofAt?.bind fun brace => ?_
  cases brace with
  | true => exact (alike_block h).below (Nat.le_succ k)
  | false => exact h.bind fun _ => ofPure _

theorem alike_condition_bind {f g : Expr → Parser β} {t : Token} (hf : ∀ a, ReadAlike s (Cursor.Below k) (f a) (g a)) :
    ReadAlike s (Cursor.Facing (some t) (k + 1)) (condition >>= f) (condition >>= g) := by
  rw [Excerpt.condition_bind, Excerpt.condition_bind]
  exact skip (ofExpect.bind fun _ => (ofPhrase Excerpt.phrase_expression).bind fun a =>
    ofExpect.bind fun _ => hf a)

theorem alike_branchStatement {t : Token} (h : ReadAlike s (Cursor.Below k) self self') :
    ReadAlike s (Cursor.Facing (some t) (k + 1)) (branchStatement self) (branchStatement self') := by
  refine alike_condition_bind fun cond => (alike_body h).bind fun thenBody =>
    (ofPhrase Excerpt.phrase_acceptKeyword).bind fun other => ?_
  cases other with
  | true => exact (alike_body h).bind fun _ => ofPure _
  | false => exact ofPure _

theorem alike_whileStatement {t : Token} (h : ReadAlike s (Cursor.Below k) self self') :
    ReadAlike s (Cursor.Facing (some t) (k + 1)) (whileStatement self) (whileStatement self') :=
  alike_condition_bind fun _ => (alike_body h).bind fun _ => ofPure _

theorem alike_forStatement {t : Token} (h : ReadAlike s (Cursor.Below k) self self') :
    ReadAlike s (Cursor.Facing (some t) (k + 1)) (forStatement self) (forStatement self') :=
  skip ((ofPhrase Excerpt.phrase_loopType?).bind fun _ => (ofPhrase Excerpt.phrase_name).bind fun _ =>
    (ofPhrase Excerpt.phrase_expectKeyword).bind fun _ => (ofPhrase Excerpt.phrase_loopValues).bind fun _ =>
      (alike_body h).bind fun _ => ofPure _)

theorem alike_subroutineDefinition {t : Token} (h : ReadAlike s (Cursor.Below k) self self') :
    ReadAlike s (Cursor.Facing (some t) (k + 1)) (subroutineDefinition self) (subroutineDefinition self') := by
  have hblock := ((alike_block h).below (Nat.le_succ k))
  have hformals : ReadAlike s (Cursor.Below k) (Parser.itemsBefore .rParen formal) (Parser.itemsBefore .rParen formal) :=
    ofPhrase (Excerpt.phrase_itemsBefore (Excerpt.phrase_formal.below (Nat.le_succ k)))
  have htype : ReadAlike s (Cursor.Below k) (some <$> type) (some <$> type) :=
    (ofPhrase Excerpt.phrase_type).bind fun _ => ofPure _
  refine skip ((ofPhrase Excerpt.phrase_name).bind fun _ => ofExpect.bind fun _ => hformals.bind fun _ =>
    ofExpect.bind fun _ => ofAccept.bind fun arrow => ?_)
  cases arrow with
  | true => exact htype.bind fun _ => hblock.bind fun _ => ofPure _
  | false => exact (ofPure none).bind fun _ => hblock.bind fun _ => ofPure _

theorem alike_gateDefinition {t : Token} (h : ReadAlike s (Cursor.Below k) self self') :
    ReadAlike s (Cursor.Facing (some t) (k + 1)) (gateDefinition self) (gateDefinition self') :=
  skip ((ofPhrase Excerpt.phrase_name).bind fun _ => (ofPhrase Excerpt.phrase_gateParams).bind fun _ =>
    (ofPhrase Excerpt.phrase_nameList).bind fun _ => ((alike_block h).below (Nat.le_succ k)).bind fun _ => ofPure _)

/-- Most statements nest no others, and are read alike over any readers for these. -/
theorem alike_keywordLed (w : Keyword) (h : ReadAlike s (Cursor.Below k) self self') :
    ReadAlike s (Cursor.Facing (some (.keyword w)) (k + 1)) (keywordLed self w) (keywordLed self' w) := by
  have hleaf : ReadAlike s (Cursor.Facing (some (.keyword w)) (k + 1)) (keywordLed statement w) (keywordLed statement w) :=
    ofClause (Excerpt.clause_keywordLed w Excerpt.clause_statement)
  cases w with
  | «if» => exact alike_branchStatement h
  | «for» => exact alike_forStatement h
  | «while» => exact alike_whileStatement h
  | define => exact alike_subroutineDefinition h
  | gate => exact alike_gateDefinition h
  | _ => exact hleaf

theorem alike_statementKind (h : ReadAlike s (Cursor.Below k) self self') :
    ReadAlike s (Cursor.Below (k + 1)) (statementKind self) (statementKind self') := by
  refine peek fun o => ?_
  cases o with
  | none => exact ofUnexpected _
  | some t =>
    cases t with
    | keyword w => exact alike_keywordLed w h
    | pragma text => exact skip (ofPure _)
    | name n => exact ofClause Excerpt.clause_nameStatement
    | punctuation w =>
      cases w with
      | lBrace => exact ((alike_block h).bind fun _ => ofPure _).facing
      | atSign => exact ofClause (Excerpt.clause_annotated nofun)
      | _ => exact ofUnexpected _
    | _ => exact ofUnexpected _

theorem alike_statementLevel (h : ReadAlike s (Cursor.Below k) self self') :
    ReadAlike s (Cursor.Below (k + 1)) (statementLevel self) (statementLevel self') :=
  have hhere : ReadAlike s (Cursor.Below (k + 1)) here here := ⟨fun _ _ => rfl, fun _ _ => List.suffix_rfl⟩
  hhere.bind fun _ => (alike_statementKind h).bind fun _ => ofPure _

theorem alike_nestedStatement (s : Source) : ∀ {n m k : Nat}, n = m ∨ k ≤ n ∧ k ≤ m →
    ReadAlike s (Cursor.Below k) (nestedStatement n) (nestedStatement m) :=
  levels (R := fun k n m => ReadAlike s (Cursor.Below k) (nestedStatement n) (nestedStatement m))
    (fun _ => ofUnexpected _) (fun _ _ => ofNever fun _ => Nat.not_lt_zero _) fun _ _ _ => alike_statementLevel

theorem forward_nestedStatement (n : Nat) : Forward (nestedStatement n) :=
  forward_of_alike fun s _ => alike_nestedStatement s (Or.inl rfl)

theorem forward_statement : Forward statement := forward_bounded forward_nestedStatement

theorem unmet_nestedStatement : Unmet nestedStatement :=
  unmet_of_alike fun s _ _ _ hn hm => alike_nestedStatement s (Or.inr ⟨hn, hm⟩)

theorem unmet_blockItems (h : Forward self) : Unmet (blockItems self) :=
  unmet_of_alike fun _ k n m hn hm => alike_blockItems (k := k) (.ofForward h) k (Nat.le_refl k) n m hn hm

/-- A further modifier stands behind an at sign. -/
theorem alike_modifiers (k : Nat) : ∀ j ≤ k, ∀ n m, j ≤ n → j ≤ m →
    ReadAlike s (Cursor.Below j) (modifiers n) (modifiers m) := by
  refine rounds (fun _ _ => ofNever fun _ => Nat.not_lt_zero _) fun j _ n m hmore => ?_
  refine (ofPhrase Excerpt.phrase_modifier?).bind fun modifier => ?_
  cases modifier with
  | none => exact ofPure []
  | some modifier => exact expect (hmore.bind fun _ => ofPure _)

theorem unmet_modifiers : Unmet modifiers :=
  unmet_of_alike fun _ k n m hn hm => alike_modifiers k k (Nat.le_refl k) n m hn hm

theorem unmet_statements : Unmet statements := fun _ _ _ _ => statements_bound

/-- Statements are read by the productions of the grammar, over themselves. -/
theorem statement_eq : statement = statementLevel statement := by
  funext s c
  -- As deep as there are tokens, the statements within are read by either reader.
  have hnested : ReadAlike s (Cursor.Below c.left) (nestedStatement c.left) statement :=
    unmet_nestedStatement.alike forward_nestedStatement (Nat.le_refl _)
  exact (alike_statementLevel hnested).same c (Nat.lt_succ_self _)

end Statements

end OpenQasm
