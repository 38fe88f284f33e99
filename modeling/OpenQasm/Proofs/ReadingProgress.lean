import OpenQasm.Proofs.JoinedPrograms
import OpenQasm.Proofs.ReadingBounds

/-!
Reading comes to an end and leaves nothing out. A statement that can be read takes a token at least, the loops
over statements end with the tokens, and where no error is recorded the statements stand one behind the other.
-/
namespace OpenQasm

open OpenQasm.Parser OpenQasm.Grammar

variable {α β : Type}

section Forward

variable {p : Parser α} {f : α → Parser β} {self : Parser Statement}

theorem Forward.bind (hp : Forward p) (hf : ∀ a, Forward (f a)) : Forward (p >>= f) := by
  intro s c
  have hfirst := hp s c
  rw [Excerpt.run_bind]
  rcases hr : p s c with ⟨err | a, d⟩
  · rwa [hr] at hfirst
  · rw [hr] at hfirst
    exact (hf a s d).trans hfirst

theorem forward_pure (a : α) : Forward (pure a : Parser α) := fun _ _ => List.suffix_rfl

theorem forward_advance : Forward advance := fun _ _ => List.tail_suffix _

theorem forward_here : Forward here := fun _ _ => List.suffix_rfl

theorem forward_unexpected (expected : String) : Forward (unexpected expected : Parser α) :=
  forward_of_alike fun _ _ => .ofUnexpected expected

theorem forward_of_phrase (h : ∀ s k, Excerpt.Phrase (.alone s) (Cursor.Below k) p p) : Forward p :=
  forward_of_alike fun s k => .ofPhrase (h s k)

theorem forward_of_clause {m : Source → α → α}
    (h : ∀ s k, Excerpt.Clause (.alone s) (Cursor.Below k) (m s) p p) : Forward p :=
  forward_of_alike fun s k => .ofClause (h s k)

theorem forward_accept (w : Punctuation) : Forward (accept w) := forward_of_alike fun _ _ => .ofAccept

theorem forward_expect (w : Punctuation) : Forward (expect w) := forward_of_alike fun _ _ => .ofExpect

theorem forward_name : Forward Parser.name := forward_of_phrase fun _ _ => Excerpt.phrase_name

theorem forward_expression : Forward expression := forward_of_phrase fun _ _ => Excerpt.phrase_expression

theorem forward_operand : Forward operand := forward_of_phrase fun _ _ => Excerpt.phrase_operand

theorem forward_designator? : Forward designator? := forward_of_phrase fun _ _ => Excerpt.phrase_designator?

theorem forward_block (h : Forward self) : Forward (block self) :=
  forward_of_alike fun _ k => (alike_block (k := k) (.ofForward h)).below (Nat.le_succ k)

theorem forward_body (h : Forward self) : Forward (body self) :=
  forward_of_alike fun _ _ => alike_body (.ofForward h)

theorem forward_recovering (h : Forward p) : Forward (recovering p) :=
  forward_of_alike fun _ _ => alike_recovering (.ofForward h)

theorem forward_formal : Forward formal :=
  forward_of_phrase fun _ k => Excerpt.phrase_formal.below (Nat.le_succ k)

theorem forward_indexItem : Forward parts.indexItem := forward_of_alike fun _ _ => forward_parts.alike.indexItem

end Forward

/-- Where a reader succeeds before a token, or at the end, it has moved past a token. -/
def AdvancesFrom (o : Option Token) (p : Parser α) : Prop :=
  ∀ (s : Source) (c d : Cursor) (a : α), c.head? = o → p s c = (.ok a, d) → d.left < c.left

/-- Where a reader succeeds, it has moved past a token. -/
def Advances (p : Parser α) : Prop := ∀ o, AdvancesFrom o p

theorem Advances.left_lt {p : Parser α} (h : Advances p) {s : Source} {c d : Cursor} {a : α}
    (hr : p s c = (.ok a, d)) : d.left < c.left := h c.head? s c d a rfl hr

namespace Advances

variable {p : Parser α} {f : α → Parser β} {t : Token}

/-- What follows a reader that moves on does not go back. -/
theorem first (hp : Advances p) (hf : ∀ a, Forward (f a)) : Advances (p >>= f) := by
  intro o s c d b _ h
  rw [Excerpt.run_bind] at h
  rcases hr : p s c with ⟨err | a, c'⟩
  · rw [hr] at h
    nomatch h
  · rw [hr] at h
    replace h : f a s c' = (.ok b, d) := h
    have hlt : c'.left < c.left := hp.left_lt hr
    have hle := (hf a).left_le s c'
    rw [h] at hle
    exact Nat.lt_of_le_of_lt hle hlt

/-- What comes before a reader that moves on does not go back. -/
theorem last (hp : Forward p) (hf : ∀ a, Advances (f a)) : Advances (p >>= f) := by
  intro o s c d b _ h
  have hle := hp.left_le s c
  rw [Excerpt.run_bind] at h
  rcases hr : p s c with ⟨err | a, c'⟩
  · rw [hr] at h
    nomatch h
  · rw [hr] at h hle
    have hlt : d.left < c'.left := (hf a).left_lt h
    exact Nat.lt_of_lt_of_le hlt hle

theorem ofFailing (h : ∀ s c, ∃ err, (p s c).1 = .error err) : Advances p := by
  intro o s c d a _ hr
  obtain ⟨err, herr⟩ := h s c
  rw [hr] at herr
  nomatch herr

theorem ofUnexpected (expected : String) : Advances (unexpected expected : Parser α) :=
  ofFailing fun s c => by
    obtain ⟨err, herr⟩ := Excerpt.unexpected_error (α := α) expected s c
    exact ⟨err, by rw [herr]⟩

/-- What is read depends on the next token. -/
theorem peek {f : Option Token → Parser β} (hf : ∀ o, AdvancesFrom o (f o)) : Advances (Parser.peek >>= f) :=
  fun _ s c d b _ h => hf c.head? s c d b rfl h

/-- Moving past the next token. -/
theorem skip {f : Unit → Parser β} (hf : Forward (f ())) : AdvancesFrom (some t) (advance >>= f) := by
  intro s c d b hc h
  have hfacing : Cursor.Facing (some t) (c.left + 1) c := ⟨Nat.lt_succ_self _, hc⟩
  obtain ⟨-, -, -, -, hlt⟩ := Excerpt.Cursor.Facing.next hfacing
  have hle := hf.left_le s c.next
  replace h : f () s c.next = (.ok b, d) := h
  rw [h] at hle
  exact Nat.lt_of_le_of_lt hle hlt

end Advances

section Statements

open Advances

variable {self : Parser Statement}

theorem advances_expect (w : Punctuation) : Advances (expect w) := by
  rw [← Excerpt.bind_pure (expect w), Excerpt.expect_bind]
  refine .peek fun o => ?_
  cases ho : isPunctuation w o with
  | false => exact ofUnexpected _ o
  | true =>
    obtain rfl := Excerpt.eq_of_isPunctuation ho
    exact skip (forward_pure ())

theorem advances_name : Advances Parser.name := by
  refine .peek fun o => ?_
  cases o with
  | none => exact ofUnexpected _ none
  | some t =>
    cases t with
    | name n => exact skip (forward_pure n)
    | _ => exact ofUnexpected _ _

theorem advances_ended (kind : StatementKind) : Advances (ended kind) :=
  .first (advances_expect _) fun _ => forward_pure _

/-- A block ends with its brace. -/
theorem advances_block (h : Forward self) : Advances (block self) := by
  have hitems : Forward (inBlock (bounded (blockItems self))) := forward_of_alike fun _ _ =>
    alike_inBlock (.bounded fun n _ => alike_blockItems (.ofForward h) n (Nat.le_refl n) n n (Nat.le_refl n) (Nat.le_refl n))
  exact .first (advances_expect _) fun _ => hitems.bind fun _ => (forward_expect _).bind fun _ => forward_pure _

theorem advances_condition : Advances condition :=
  .last forward_advance fun _ => .first (advances_expect _) fun _ =>
    forward_expression.bind fun _ => (forward_expect _).bind fun _ => forward_pure _

theorem advances_gateOperands (ms : List Modifier) (n : String) (params : List Expr) :
    Advances (gateOperands ms n params) :=
  .last (forward_of_phrase fun _ _ => Excerpt.phrase_operandList) fun _ => advances_ended _

theorem advances_gateStatement : Advances gateStatement := by
  have hmodifiers : Forward (bounded modifiers) := forward_of_alike fun _ _ =>
    .bounded fun n _ => alike_modifiers n n (Nat.le_refl n) n n (Nat.le_refl n) (Nat.le_refl n)
  refine .last hmodifiers fun ms => .last forward_name fun n => .last (forward_accept _) fun given => ?_
  cases given with
  | true => exact .last (forward_of_phrase fun _ _ => Excerpt.phrase_arguments) fun _ => advances_gateOperands _ _ _
  | false => exact advances_gateOperands _ _ _

theorem advances_assignment : Advances assignment := by
  refine .last forward_operand fun target => .last (p := peek) (fun _ _ => List.suffix_rfl) fun o => ?_
  split
  · refine .last forward_advance fun _ => .last forward_expression fun value => ?_
    split <;> exact advances_ended _
  · exact ofUnexpected _

theorem advances_nameStatement : Advances nameStatement := by
  refine .last (p := peekSecond) (fun _ _ => List.suffix_rfl) fun o => ?_
  split
  · refine .first advances_name fun n => (forward_expect _).bind fun _ =>
      (forward_of_phrase fun _ _ => Excerpt.phrase_arguments).bind fun args => (forward_accept _).bind fun ended => ?_
    cases ended with
    | true => exact forward_pure _
    | false =>
      show Forward (gateOperands [] n args)
      exact forward_of_clause fun _ _ => Excerpt.clause_gateOperands _ _ _
  · exact advances_gateStatement
  · exact .last forward_name fun _ => advances_ended _
  · exact advances_assignment

theorem advances_classicalDeclaration : Advances classicalDeclaration :=
  .last (forward_of_phrase fun _ _ => Excerpt.phrase_acceptKeyword) fun _ =>
    .last (forward_of_phrase fun _ _ => Excerpt.phrase_direction?) fun _ =>
      .last (forward_of_phrase fun _ _ => Excerpt.phrase_type) fun _ => .last forward_name fun _ =>
        .last (forward_of_phrase fun _ _ => Excerpt.phrase_initializer?) fun _ => advances_ended _

theorem advances_includeStatement : Advances includeStatement := by
  refine .last forward_advance fun _ => .last (p := peek) (fun _ _ => List.suffix_rfl) fun o => ?_
  split
  · exact .last forward_advance fun _ => advances_ended _
  · exact ofUnexpected _

theorem advances_measureStatement : Advances measureStatement := by
  refine .last forward_advance fun _ => .last forward_operand fun _ => .last (forward_accept _) fun target => ?_
  cases target with
  | true => exact .last forward_operand fun _ => advances_ended _
  | false => exact advances_ended _

theorem advances_barrierStatement : Advances barrierStatement := by
  refine .last forward_advance fun _ => .last (forward_of_phrase fun _ _ => Excerpt.phrase_at?) fun bare => ?_
  cases bare with
  | true => exact advances_ended _
  | false => exact .last (forward_of_phrase fun _ _ => Excerpt.phrase_operandList) fun _ => advances_ended _

theorem advances_returnStatement : Advances returnStatement := by
  refine .last forward_advance fun _ => .last (forward_of_phrase fun _ _ => Excerpt.phrase_at?) fun bare => ?_
  cases bare with
  | true => exact advances_ended _
  | false => exact .last forward_expression fun _ => advances_ended _

theorem advances_branchStatement (h : Forward self) : Advances (branchStatement self) := by
  refine .first advances_condition fun _ => (forward_body h).bind fun _ =>
    (forward_of_phrase fun _ _ => Excerpt.phrase_acceptKeyword).bind fun other => ?_
  cases other with
  | true => exact (forward_body h).bind fun _ => forward_pure _
  | false => exact forward_pure _

theorem advances_forStatement (h : Forward self) : Advances (forStatement self) :=
  .last forward_advance fun _ => .last (forward_of_phrase fun _ _ => Excerpt.phrase_loopType?) fun _ =>
    .first advances_name fun _ => (forward_of_phrase fun _ _ => Excerpt.phrase_expectKeyword).bind fun _ =>
      (forward_of_phrase fun _ _ => Excerpt.phrase_loopValues).bind fun _ => (forward_body h).bind fun _ =>
        forward_pure _

theorem advances_subroutineDefinition (h : Forward self) : Advances (subroutineDefinition self) := by
  have hformals : Forward (itemsBefore .rParen formal) := forward_of_phrase fun _ k =>
    Excerpt.phrase_itemsBefore (Excerpt.phrase_formal.below (Nat.le_succ k))
  have htype : Forward (some <$> type) :=
    (forward_of_phrase fun _ _ => Excerpt.phrase_type).bind fun _ => forward_pure _
  refine .last forward_advance fun _ => .first advances_name fun _ => (forward_expect _).bind fun _ =>
    hformals.bind fun _ => (forward_expect _).bind fun _ => (forward_accept _).bind fun arrow => ?_
  cases arrow with
  | true => exact htype.bind fun _ => (forward_block h).bind fun _ => forward_pure _
  | false => exact (forward_pure none).bind fun _ => (forward_block h).bind fun _ => forward_pure _

theorem advances_gateDefinition (h : Forward self) : Advances (gateDefinition self) :=
  .last forward_advance fun _ => .first advances_name fun _ =>
    (forward_of_phrase fun _ _ => Excerpt.phrase_gateParams).bind fun _ =>
      (forward_of_phrase fun _ _ => Excerpt.phrase_nameList).bind fun _ => (forward_block h).bind fun _ =>
        forward_pure _

theorem advances_keywordLed (w : Keyword) (h : Forward self) : Advances (keywordLed self w) := by
  cases w with
  | openqasm => exact ofFailing fun _ _ => ⟨_, rfl⟩
  | «include» => exact advances_includeStatement
  | qubit => exact .last forward_advance fun _ => .last forward_designator? fun _ => .last forward_name fun _ => advances_ended _
  | qreg | creg =>
    exact .last forward_advance fun _ => .last forward_name fun _ => .last forward_designator? fun _ => advances_ended _
  | «let» =>
    exact .last forward_advance fun _ => .last forward_name fun _ => .last (forward_expect _) fun _ =>
      .last forward_expression fun _ => advances_ended _
  | measure => exact advances_measureStatement
  | reset => exact .last forward_advance fun _ => .last forward_operand fun _ => advances_ended _
  | barrier => exact advances_barrierStatement
  | «if» => exact advances_branchStatement h
  | «for» => exact advances_forStatement h
  | «while» => exact .first advances_condition fun _ => (forward_body h).bind fun _ => forward_pure _
  | «break» | «continue» => exact .last forward_advance fun _ => advances_ended _
  | «return» => exact advances_returnStatement
  | define => exact advances_subroutineDefinition h
  | gate => exact advances_gateDefinition h
  | inv | pow | ctrl | negctrl => exact advances_gateStatement
  | _ => first | exact advances_classicalDeclaration | exact ofUnexpected _

/-- An annotation takes its keyword and the tokens of its line. -/
theorem advances_annotated {t : Token} : AdvancesFrom (some t) annotated := by
  have hline (n : String) : Forward (Excerpt.annotatedLine n) := fun _ _ =>
    (List.dropWhile_suffix _).trans (List.tail_suffix _)
  rw [Excerpt.annotated_eq]
  refine skip (Forward.bind (p := peek) (fun _ _ => List.suffix_rfl) fun o => ?_)
  split
  · exact hline _
  · exact forward_unexpected _

theorem advances_statementKind (h : Forward self) : Advances (statementKind self) := by
  refine .peek fun o => ?_
  cases o with
  | none => exact ofUnexpected _ none
  | some t =>
    cases t with
    | keyword w => exact advances_keywordLed w h _
    | pragma text => exact skip (forward_pure _)
    | name n => exact advances_nameStatement _
    | punctuation w =>
      cases w with
      | lBrace => exact (advances_block h).first (fun _ => forward_pure _) _
      | atSign => exact advances_annotated
      | _ => exact ofUnexpected _ _
    | _ => exact ofUnexpected _ _

/-- A statement that can be read takes a token at least. -/
theorem advances_statement : Advances statement := by
  rw [statement_eq]
  exact .last forward_here fun _ => (advances_statementKind forward_statement).first fun _ => forward_pure _

end Statements

section Blocks

theorem block_nesting (s : Source) (c : Cursor) : (block statement s c).2.nesting = c.nesting :=
  (Excerpt.clause_block (e := .alone s) (k := c.left) Excerpt.clause_statement).nesting c (Nat.lt_succ_self _)

theorem forward_versionLine : Forward versionLine := by
  refine forward_advance.bind fun _ => forward_here.bind fun span =>
    Forward.bind (p := peek) (fun _ _ => List.suffix_rfl) fun o => ?_
  split
  · exact forward_unexpected _
  · refine forward_advance.bind fun _ => ?_
    split
    · split
      · exact (forward_expect _).bind fun _ => forward_pure _
      · exact fun _ _ => List.suffix_rfl
    · exact fun _ _ => List.suffix_rfl

theorem forward_version? : Forward version? := by
  refine Forward.bind (p := peek) (fun _ _ => List.suffix_rfl) fun o => ?_
  split
  · exact forward_recovering forward_versionLine
  · exact forward_pure _

end Blocks

section Programs

variable {s : Source} {c d : Cursor}

/-- Reading statements takes all tokens and closes no block. -/
theorem remaining_end (s : Source) (c : Cursor) :
    (remaining s c).2.rest = [] ∧ (remaining s c).2.nesting = c.nesting := by
  induction c using remaining_induction s with
  | nil c hc =>
    rw [remaining_nil hc]
    exact ⟨hc, rfl⟩
  | cons c hc ih =>
    obtain ⟨first, hfirst⟩ := item_ok s c
    obtain ⟨others, hothers, -⟩ := remaining_ok s (item s c).2
    have hnesting : (item s c).2.nesting = c.nesting := (tracks_item (.alone s)).nesting c hc
    rw [remaining_cons hc hfirst, Excerpt.run_bind, hothers]
    exact ⟨ih.1, ih.2.trans hnesting⟩

/-- A version line opens no block and records no error by itself. -/
theorem versionLine_kept (s : Source) (c : Cursor) :
    (versionLine s c).2.nesting = c.nesting ∧ (versionLine s c).2.errors = c.errors := by
  cases hr : (versionLine s c).1 with
  | ok v =>
    obtain ⟨t, u, w, ts, -, -, -, -, hd⟩ := versionLine_ok_iff.1 (Prod.ext hr rfl : versionLine s c = (.ok v, _))
    have hnesting := congrArg Cursor.nesting hd
    have herrors := congrArg Cursor.errors hd
    exact ⟨hnesting, herrors⟩
  | error err =>
    obtain ⟨rest, left, rfl, nesting, errors⟩ := c
    match rest with
    | t :: u :: ts =>
      have hd := congrArg Prod.snd (versionLine_error rfl hr)
      have hnesting := congrArg Cursor.nesting hd
      have herrors := congrArg Cursor.errors hd
      exact ⟨hnesting, herrors⟩
    | [] | [_] => exact ⟨rfl, rfl⟩

theorem program_run (s : Source) (c : Cursor) : ∃ v c' body d, version? s c = (.ok v, c') ∧
    remaining s c' = (.ok body, d) ∧ program s c = (.ok ⟨v, body⟩, d) := by
  obtain ⟨v, hv⟩ := version?_ok s c
  obtain ⟨body, hbody, -⟩ := remaining_ok s (version? s c).2
  refine ⟨v, _, body, _, hv, hbody, ?_⟩
  show (version? >>= fun v => remaining >>= fun ss => pure (Program.mk v ss)) s c = _
  rw [Excerpt.run_bind, hv]
  dsimp only
  rw [Excerpt.run_bind, hbody]
  rfl

theorem forward_remaining : Forward remaining := by
  intro s c
  -- Nothing is left at all.
  rw [(remaining_end s c).1]
  exact List.nil_suffix

theorem version?_kept (s : Source) (c : Cursor) :
    (version? s c).2.nesting = c.nesting ∧ c.errors <+: (version? s c).2.errors := by
  have hkept := versionLine_kept s c
  cases hc : isKeyword .openqasm c.head? with
  | false =>
    rw [version?_none hc]
    exact ⟨rfl, List.prefix_rfl⟩
  | true =>
    rw [version?_openqasm hc, Excerpt.run_recovering]
    rcases hr : versionLine s c with ⟨err | v, d⟩ <;> rw [hr] at hkept
    · exact ⟨hkept.1, hkept.2 ▸ List.prefix_append _ _⟩
    · exact ⟨hkept.1, hkept.2 ▸ List.prefix_rfl⟩

/-- Where no error is recorded, the version line is read, or there is none. -/
theorem version?_silent (herrors : (version? s c).2.errors = c.errors) :
    version? s c = (.ok none, c) ∨ ∃ v d, versionLine s c = (.ok v, d) ∧ version? s c = (.ok (some v), d) := by
  have hkept := (versionLine_kept s c).2
  cases hc : isKeyword .openqasm c.head? with
  | false => exact Or.inl (version?_none hc)
  | true =>
    rw [version?_openqasm hc, Excerpt.run_recovering] at herrors ⊢
    rcases hr : versionLine s c with ⟨err | v, d⟩
    · rw [hr] at herrors hkept
      replace hkept : d.errors = c.errors := hkept
      replace herrors : d.errors ++ [err] = c.errors := herrors
      rw [hkept] at herrors
      exact absurd herrors (by simp)
    · exact Or.inr ⟨v, d, rfl, rfl⟩

/-- Statements that are read one behind the other, each with the tokens that it takes. -/
inductive InTurn (s : Source) : Cursor → List (List PlacedToken × Statement) → Cursor → Prop
  | nil (c : Cursor) : InTurn s c [] c
  | cons {c d e : Cursor} {taken : List PlacedToken} {a : Statement} {pieces : List (List PlacedToken × Statement)} :
    statement s c = (.ok a, d) → taken ≠ [] → c.rest = taken ++ d.rest → InTurn s d pieces e →
      InTurn s c ((taken, a) :: pieces) e

theorem InTurn.tokens {pieces : List (List PlacedToken × Statement)} (h : InTurn s c pieces d) :
    c.rest = (pieces.map Prod.fst).flatten ++ d.rest := by
  induction h with
  | nil c => rfl
  | cons _ _ htaken _ ih => rw [htaken, ih, List.map_cons, List.flatten_cons, List.append_assoc]

/-- A statement that can be read has moved on, so no token is dropped behind it. -/
theorem moving_eq {a : Statement} (h : statement s c = (.ok a, d)) (keep : PlacedToken → Bool) :
    moving keep (recovering statement) s c = (.ok (some a), d) := by
  have hlt : d.left < c.left := advances_statement.left_lt h
  have hrecovering : recovering statement s c = (.ok (some a), d) := by rw [Excerpt.run_recovering, h]
  rw [Excerpt.run_moving, hrecovering]
  dsimp only
  rw [decide_eq_false (Nat.ne_of_lt hlt), Bool.false_and, if_neg Bool.false_ne_true]

theorem item_eq {a : Statement} (h : statement s c = (.ok a, d)) : item s c = (.ok (some a), d) :=
  moving_eq h fun _ => false

theorem taken_of_statement {a : Statement} (h : statement s c = (.ok a, d)) :
    ∃ taken, taken ≠ [] ∧ c.rest = taken ++ d.rest := by
  have hrest := forward_statement s c
  rw [h] at hrest
  obtain ⟨taken, htaken⟩ := hrest
  refine ⟨taken, fun hnil => ?_, htaken.symm⟩
  have hlt : d.left < c.left := advances_statement.left_lt h
  rw [Cursor.left_eq, Cursor.left_eq, ← htaken, hnil] at hlt
  exact Nat.lt_irrefl _ hlt

/-- Where no error is recorded, the statements take all tokens in turn. -/
theorem inTurn_of_silent (s : Source) (c : Cursor) : ∀ body, (remaining s c).1 = .ok body →
    (remaining s c).2.errors = c.errors → ∃ pieces, InTurn s c pieces (remaining s c).2 ∧ body = pieces.map Prod.snd := by
  induction c using remaining_induction s with
  | nil c hc =>
    intro body hbody _
    rw [remaining_nil hc] at hbody ⊢
    cases hbody
    exact ⟨[], .nil c, rfl⟩
  | cons c hc ih =>
    intro body hbody herrors
    obtain ⟨others, hothers, hmore⟩ := remaining_ok s (item s c).2
    -- Errors are only added, so there is none of the first statement either: it can be read, and has moved on.
    have hsilent : (item s c).2.errors = c.errors := by
      have hprefix := remaining_errors (s := s) hc
      rw [herrors] at hprefix
      exact hprefix.eq_of_length_le ((tracks_item (.alone s)).errors c hc).length_le
    obtain ⟨a, ha⟩ := readable_of_clean hsilent
    have hstatement : statement s c = (.ok a, (statement s c).2) := Prod.ext ha rfl
    have hitem := item_eq hstatement
    obtain ⟨taken, hne, htaken⟩ := taken_of_statement hstatement
    have hrun : remaining s c = (.ok (a :: others), (remaining s (item s c).2).2) := by
      rw [remaining_cons hc hitem, Excerpt.run_bind, ← congrArg Prod.snd hitem, hothers]
      rfl
    rw [hrun] at hbody herrors ⊢
    cases hbody
    obtain ⟨pieces, hturn, rfl⟩ := ih others (congrArg Prod.fst hothers) (herrors.trans hsilent.symm)
    rw [hitem] at hturn ⊢
    exact ⟨(taken, a) :: pieces, .cons hstatement hne htaken hturn, rfl⟩

/-- What a program consists of where no error is recorded: its version line, if it has one, and its statements,
one behind the other. -/
theorem covered_of_silent {p : Program} (hrun : program s c = (.ok p, d)) (herrors : d.errors = c.errors) :
    ∃ header c' pieces, c.rest = header ++ (pieces.map Prod.fst).flatten ∧
      (p.version = none ∧ c' = c ∨ ∃ v, p.version = some v ∧ versionLine s c = (.ok v, c')) ∧
      c.rest = header ++ c'.rest ∧ InTurn s c' pieces d ∧ p.statements = pieces.map Prod.snd := by
  obtain ⟨v, c', body, d', hversion, hbody, hprogram⟩ := program_run s c
  cases hrun.symm.trans hprogram
  have hkept := (version?_kept s c).2
  obtain ⟨-, -, hmore⟩ := remaining_ok s c'
  rw [hversion] at hkept
  rw [hbody] at hmore
  have hsilent : c'.errors = c.errors :=
    (hmore.trans (herrors ▸ List.prefix_rfl)).eq_of_length_le hkept.length_le
  obtain ⟨pieces, hturn, hpieces⟩ := inTurn_of_silent s c' body (congrArg Prod.fst hbody) (by
    rw [hbody]
    exact herrors.trans hsilent.symm)
  obtain ⟨header, hheader⟩ : c'.rest <:+ c.rest := by
    have hforward := forward_version? s c
    rwa [hversion] at hforward
  have hend : d.rest = [] := by
    have hall := (remaining_end s c').1
    rwa [hbody] at hall
  rw [hbody] at hturn
  -- The header is what was read for the version line, which is nothing where there is none.
  refine ⟨header, c', pieces, ?_, ?_, hheader.symm, hturn, hpieces⟩
  · rw [← hheader, hturn.tokens, hend, List.append_nil]
  · rcases version?_silent (s := s) (c := c) (by rw [hversion]; exact hsilent) with hnone | ⟨v', e, hline, hsome⟩
    · cases hversion.symm.trans hnone
      exact Or.inl ⟨rfl, rfl⟩
    · cases hversion.symm.trans hsome
      exact Or.inr ⟨v', rfl, hline⟩

end Programs

/-- Reading comes to an end and goes forward. The readers satisfy the equations of the grammar, over themselves and
without a bound, and no bound on depth or on the rounds of a loop is met before the tokens end; nothing goes back
to a token that has been read, and a statement takes a token at least; a program is read to its last token, with
all blocks closed, and a block leaves as many open as it found; and where no error is recorded, the version line
and the statements stand one behind the other and are all that there is. -/
theorem reading_ends_and_progresses :
    ((∀ least, parts.expression least = parts.expressionLevel least) ∧ parts.type = parts.typeLevel ∧
      statement = statementLevel statement) ∧
    ((∀ least, Unmet fun n => (nested n).expression least) ∧ (Unmet fun n => (nested n).type) ∧
      Unmet nestedStatement) ∧
    (Unmet (moreItems parts.whole) ∧ Unmet (moreItems parts.indexItem) ∧ Unmet (moreItems operand) ∧
      Unmet (moreItems formal) ∧ Unmet (moreItems Parser.name) ∧ (∀ base, Unmet fun n => parts.indexed n base) ∧
      (∀ least left, Unmet fun n => parts.operators least n left) ∧ Unmet modifiers ∧
      Unmet (blockItems statement) ∧ Unmet statements) ∧
    ((∀ least, Forward (parts.expression least)) ∧ Forward parts.type ∧ Forward statement ∧
      Forward (block statement) ∧ Forward program) ∧
    Advances statement ∧
    (∀ s tokens errors, ∃ p d, program s (.start tokens errors) = (.ok p, d) ∧ d.rest = [] ∧ d.nesting = 0) ∧
    (∀ s c, (block statement s c).2.nesting = c.nesting) ∧
    ∀ s tokens errors p d, program s (.start tokens errors) = (.ok p, d) → d.errors = errors →
      ∃ header c pieces, tokens = header ++ (pieces.map Prod.fst).flatten ∧
        (p.version = none ∧ c = .start tokens errors ∨
          ∃ v, p.version = some v ∧ versionLine s (.start tokens errors) = (.ok v, c)) ∧
        tokens = header ++ c.rest ∧ InTurn s c pieces d ∧ p.statements = pieces.map Prod.snd := by
  have hprogram : Forward program := forward_version?.bind fun _ => forward_remaining.bind fun _ => forward_pure _
  have hend (s : Source) (tokens : List PlacedToken) (errors : List SyntaxError) :
      ∃ p d, program s (.start tokens errors) = (.ok p, d) ∧ d.rest = [] ∧ d.nesting = 0 := by
    obtain ⟨v, c, body, d, hversion, hbody, hrun⟩ := program_run s (.start tokens errors)
    have hkept := (version?_kept s (.start tokens errors)).1
    have hall := remaining_end s c
    rw [hversion] at hkept
    rw [hbody] at hall
    exact ⟨_, d, hrun, hall.1, hall.2.trans hkept⟩
  exact ⟨⟨parts_expression, parts_type, statement_eq⟩,
    ⟨unmet_expression, unmet_type, unmet_nestedStatement⟩,
    ⟨unmet_moreItems (forward_parts.expression 1), unmet_moreItems forward_indexItem,
      unmet_moreItems forward_operand, unmet_moreItems forward_formal, unmet_moreItems forward_name,
      unmet_indexed forward_parts, unmet_operators forward_parts, unmet_modifiers,
      unmet_blockItems forward_statement, unmet_statements⟩,
    ⟨forward_parts.expression, forward_parts.type, forward_statement, forward_block forward_statement, hprogram⟩,
    advances_statement, hend, block_nesting, fun _ _ _ _ _ => covered_of_silent⟩

end OpenQasm
