import Mathlib.Data.List.DropRight
import OpenQasm.Proofs.LexemeTiling
import OpenQasm.Proofs.ReadingProgress

/-!
Where statements stand. A position is the number of line breaks before an offset and the number of bytes since the
last one, so later offsets have later positions. A statement stands where its first token does, and the statements
inside of it have their tokens behind that one; so the positions of all statements grow in the order of the text.
-/
namespace OpenQasm

open OpenQasm.Parser OpenQasm.Grammar

/-- A position stands before another one in the order of a text. -/
def Span.Before (a b : Span) : Prop := a.line < b.line ∨ a.line = b.line ∧ a.column < b.column

/-- The characters of a text that end at an offset or before it. -/
def Source.before : Nat → List Char → List Char
  | _, [] => []
  | offset, c :: cs => if c.utf8Size ≤ offset then c :: before (offset - c.utf8Size) cs else []

mutual

/-- The positions of a statement and of all statements inside of it, in the order of the text. -/
def Statement.spans : Statement → List Span
  | ⟨kind, span⟩ => span :: kind.spans

def StatementKind.spans : StatementKind → List Span
  | .branch _ thenBody none => bodySpans thenBody
  | .branch _ thenBody (some elseBody) => bodySpans thenBody ++ bodySpans elseBody
  | .forLoop _ _ _ body | .whileLoop _ body | .block body => bodySpans body
  | .defineSubroutine ⟨_, _, _, body⟩ | .defineGate ⟨_, _, _, body⟩ => bodySpans body
  | _ => []

def bodySpans : List Statement → List Span
  | [] => []
  | s :: ss => s.spans ++ bodySpans ss

end

section Positions

variable {cs : List Char} {o o' line start : Nat} {xs : List Nat}

theorem before_split (cs : List Char) : ∀ o, ∃ rest, cs = Source.before o cs ++ rest ∧
    byteLength (Source.before o cs) ≤ o ∧ ∀ c ∈ rest.head?, o < byteLength (Source.before o cs) + c.utf8Size := by
  induction cs with
  | nil => exact fun o => ⟨[], rfl, Nat.zero_le o, nofun⟩
  | cons c cs ih =>
    intro o
    rw [Source.before]
    split
    · next hle =>
      obtain ⟨rest, hsplit, hbytes, hnext⟩ := ih (o - c.utf8Size)
      refine ⟨rest, by rw [List.cons_append, ← hsplit], ?_, fun d hd => ?_⟩
      · rw [byteLength]
        omega
      · have hlt := hnext d hd
        rw [byteLength]
        omega
    · next hgt =>
      refine ⟨c :: cs, rfl, Nat.zero_le o, fun d hd => ?_⟩
      obtain rfl := Option.some.inj hd
      rw [byteLength]
      omega

theorem lastLineStart_concat (cs : List Char) (c : Char) :
    lastLineStart (cs ++ [c]) = if c = '\n' then byteLength (cs ++ [c]) else lastLineStart cs := by
  have hlines : laterLines 0 (cs ++ [c]) =
      laterLines 0 cs ++ if c = '\n' then [byteLength (cs ++ [c])] else [] := by
    rw [laterLines_append, byteLength_append]
    simp only [laterLines, byteLength, Nat.zero_add, Nat.add_zero]
  rw [lastLineStart, hlines]
  split
  · rw [List.getLast?_concat]
    rfl
  · rw [List.append_nil]
    rfl

/-- The last line starts behind the last line break. -/
theorem lastLineStart_eq (cs : List Char) : lastLineStart cs = byteLength (cs.rdropWhile (· ≠ '\n')) := by
  induction cs using List.reverseRecOn with
  | nil => rfl
  | append_singleton cs c ih =>
    rw [lastLineStart_concat, List.rdropWhile_concat, ih]
    by_cases hc : c = '\n'
    · rw [if_pos hc, if_neg (by simp [hc])]
    · rw [if_neg hc, if_pos (by simp [hc])]

theorem le_laterLines {c : Char} {offset x : Nat} (hx : x ∈ laterLines offset (c :: cs)) :
    offset + c.utf8Size ≤ x := by
  rw [laterLines_cons] at hx
  split at hx
  · rcases List.mem_cons.1 hx with rfl | hx
    · exact Nat.le_refl _
    · exact (mem_laterLines _ _ hx).1.le
  · exact (mem_laterLines _ _ hx).1.le

/-- The position of an offset counts the line breaks before it and the bytes since the last one. -/
theorem spanAt_eq (cs : List Char) (o : Nat) : (Source.ofChars cs).spanAt o =
    ⟨1 + (Source.before o cs).count '\n',
      1 + (o - byteLength ((Source.before o cs).rdropWhile (· ≠ '\n')))⟩ := by
  obtain ⟨rest, hsplit, hbytes, hnext⟩ := before_split cs o
  have hlines : laterLines 0 cs =
      laterLines 0 (Source.before o cs) ++ laterLines (byteLength (Source.before o cs)) rest := by
    conv_lhs => rw [hsplit, laterLines_append, Nat.zero_add]
  have hbefore (x : Nat) (hx : x ∈ laterLines 0 (Source.before o cs)) : x ≤ o := by
    have hmem := mem_laterLines _ 0 hx
    omega
  have hafter (y : Nat) (hy : y ∈ (laterLines (byteLength (Source.before o cs)) rest).head?) : o < y := by
    cases rest with
    | nil => cases hy
    | cons c rest => exact (hnext c rfl).trans_le (le_laterLines (List.mem_of_mem_head? hy))
  show Source.spanFrom o 1 0 (laterLines 0 cs) = _
  rw [hlines, spanFrom_pass hbefore, length_laterLines]
  rw [← lastLineStart_eq, Nat.add_comm 1 (o - _), ← List.nil_append (laterLines _ rest)]
  exact spanFrom_append hafter

/-- Later offsets have later positions. -/
theorem spanFrom_lt (h : o < o') (hstart : start ≤ o) :
    (Source.spanFrom o line start xs).Before (Source.spanFrom o' line start xs) := by
  induction xs generalizing line start with
  | nil => exact Or.inr ⟨rfl, by simp only [Source.spanFrom]; omega⟩
  | cons x xs ih =>
    rw [Source.spanFrom, Source.spanFrom]
    by_cases hx : x ≤ o
    · rw [if_pos hx, if_pos (hx.trans h.le)]
      exact ih hx
    rw [if_neg hx]
    split
    · exact Or.inl le_spanFrom_line
    · exact Or.inr ⟨rfl, by dsimp only; omega⟩

end Positions

theorem bodySpans_append (body more : List Statement) :
    bodySpans (body ++ more) = bodySpans body ++ bodySpans more := by
  induction body with
  | nil => rfl
  | cons st body ih => rw [List.cons_append, bodySpans, bodySpans, ih, List.append_assoc]

section Notes

variable {α β : Type} {before : List Span} {mid spans : α → List Span} {last : β → List Span} {p : Parser α}
  {f : α → Parser β} {self : Parser Statement}

/-- A reader that succeeds notes in its result, behind some positions, those of tokens that it has read, in their
order. -/
def Notes (before : List Span) (spans : α → List Span) (p : Parser α) : Prop :=
  ∀ (s : Source) (c d : Cursor) (a : α), p s c = (.ok a, d) → ∃ read picked : List PlacedToken,
    c.rest = read ++ d.rest ∧ picked.Sublist read ∧ spans a = before ++ picked.map (s.spanAt ·.start)

theorem Forward.notes (hp : Forward p) : Notes before (fun _ => before) p := by
  intro s c d a h
  obtain ⟨read, hread⟩ := hp s c
  rw [h] at hread
  exact ⟨read, [], hread.symm, List.nil_sublist _, (List.append_nil _).symm⟩

theorem Notes.bind (hp : Notes before mid p) (hf : ∀ a, Notes (mid a) last (f a)) :
    Notes before last (p >>= f) := by
  intro s c e b h
  rw [Excerpt.run_bind] at h
  rcases hr : p s c with ⟨err | a, d⟩
  · rw [hr] at h
    cases h
  rw [hr] at h
  obtain ⟨read, picked, hread, hpicked, hspans⟩ := hp s c d a hr
  obtain ⟨read', picked', hread', hpicked', hspans'⟩ := hf a s d e b h
  refine ⟨read ++ read', picked ++ picked', ?_, hpicked.append hpicked', ?_⟩
  · rw [hread, hread', List.append_assoc]
  · rw [hspans', hspans, List.map_append, List.append_assoc]

/-- A reader that notes nothing goes before. -/
theorem Notes.after (hp : Forward p) (hf : ∀ a, Notes before last (f a)) : Notes before last (p >>= f) :=
  hp.notes.bind hf

theorem notes_pure {a : α} (h : spans a = before) : Notes before spans (pure a) := by
  intro s c d b hr
  cases hr
  exact ⟨[], [], rfl, List.nil_sublist _, by rw [h, List.map_nil, List.append_nil]⟩

theorem Notes.behind (h : Notes [] spans p) (before : List Span) : Notes before (fun a => before ++ spans a) p := by
  intro s c d a hr
  obtain ⟨read, picked, hread, hpicked, hspans⟩ := h s c d a hr
  exact ⟨read, picked, hread, hpicked, congrArg (before ++ ·) hspans⟩

theorem Notes.ofFailing (h : ∀ s c, ∃ err, (p s c).1 = .error err) : Notes before spans p := by
  intro s c d a hr
  obtain ⟨err, herr⟩ := h s c
  rw [hr] at herr
  cases herr

theorem Notes.bounded {p : Nat → Parser α} (h : ∀ n, Notes before spans (p n)) :
    Notes before spans (bounded p) := fun s c d a hr => h (c.left + 1) s c d a hr

theorem notes_inBlock (h : Notes before spans p) : Notes before spans (inBlock p) := by
  intro s c d a hr
  rw [Excerpt.run_inBlock] at hr
  obtain ⟨hok, hd⟩ := Prod.mk.inj hr
  obtain ⟨read, picked, hread, hpicked, hspans⟩ := h s _ _ a (Prod.ext hok rfl)
  exact ⟨read, picked, hd ▸ hread, hpicked, hspans⟩

/-- A broken statement leaves no position behind. -/
theorem notes_recovering (hself : Forward self) (h : Notes [] Statement.spans self) :
    Notes [] (fun first => bodySpans first.toList) (recovering self) := by
  intro s c d first hr
  have hforward := forward_recovering hself s c
  rw [hr] at hforward
  rw [Excerpt.run_recovering] at hr
  rcases hread : self s c with ⟨err | a, d'⟩
  · rw [hread] at hr
    obtain ⟨read, hskipped⟩ := hforward
    cases hr
    exact ⟨read, [], hskipped.symm, List.nil_sublist _, rfl⟩
  · rw [hread] at hr
    cases hr
    obtain ⟨read, picked, hrest, hpicked, hspans⟩ := h s c _ a hread
    exact ⟨read, picked, hrest, hpicked, (List.append_nil _).trans hspans⟩

theorem notes_moving (keep : PlacedToken → Bool) (h : Notes before spans p) :
    Notes before spans (moving keep p) := by
  intro s c d a hr
  rw [Excerpt.run_moving] at hr
  obtain ⟨hok, hd⟩ := Prod.mk.inj hr
  obtain ⟨read, picked, hread, hpicked, hspans⟩ := h s c (p s c).2 a (Prod.ext hok rfl)
  split at hd
  · -- A token is dropped behind what has been read.
    obtain ⟨dropped, hdropped⟩ := List.tail_suffix (p s c).2.rest
    refine ⟨read ++ dropped, picked, ?_, hpicked.trans (List.sublist_append_left _ _), hspans⟩
    rw [hread, ← hd, List.append_assoc]
    exact congrArg (read ++ ·) hdropped.symm
  · exact ⟨read, picked, hd ▸ hread, hpicked, hspans⟩

/-- One statement is read, and others behind it. -/
theorem notes_items {first : Parser (Option Statement)} {others : Parser (List Statement)}
    (hfirst : Notes [] (fun first => bodySpans first.toList) first) (hothers : Notes [] bodySpans others) :
    Notes [] bodySpans (first >>= fun first => others >>= fun others => pure (first.toList ++ others)) :=
  hfirst.bind fun _ => (hothers.behind _).bind fun _ => notes_pure (bodySpans_append _ _)

theorem notes_blockItems (hself : Forward self) (h : Notes [] Statement.spans self) :
    ∀ n, Notes [] bodySpans (blockItems self n)
  | 0 => notes_pure rfl
  | n + 1 => by
    refine .after (p := peek) (fun _ _ => List.suffix_rfl) fun o => ?_
    have hitems : Notes [] bodySpans (moving (fun t => isPunctuation .rBrace (some t.token)) (recovering self) >>=
        fun first => blockItems self n >>= fun others => pure (first.toList ++ others)) :=
      notes_items (notes_moving _ (notes_recovering hself h)) (notes_blockItems hself h n)
    split
    · exact notes_pure rfl
    · exact notes_pure rfl
    · exact hitems

/-- What a block notes stands behind its brace. -/
theorem notes_braced (hself : Forward self) (h : Notes [] Statement.spans self) :
    Notes [] bodySpans (inBlock (bounded (blockItems self)) >>= fun body => expect .rBrace >>= fun _ => pure body) :=
  (notes_inBlock (.bounded (notes_blockItems hself h))).bind fun _ => .after (forward_expect _) fun _ => notes_pure rfl

theorem notes_block (hself : Forward self) (h : Notes [] Statement.spans self) : Notes [] bodySpans (block self) :=
  .after (forward_expect _) fun _ => notes_braced hself h

theorem notes_body (hself : Forward self) (h : Notes [] Statement.spans self) : Notes [] bodySpans (body self) := by
  refine .after (forward_of_phrase fun _ _ => Excerpt.phrase_at?) fun braced => ?_
  cases braced with
  | true => exact notes_block hself h
  | false => exact h.bind fun a => notes_pure (List.append_nil _)

end Notes

section Kinds

variable {β : Type} {p : Parser StatementKind} {q : Parser β} {f : β → Parser StatementKind}
  {self : Parser Statement}

/-- Nothing stands inside of the statements that a reader gives. -/
def Bare (p : Parser StatementKind) : Prop :=
  ∀ (s : Source) (c d : Cursor) (kind : StatementKind), p s c = (.ok kind, d) → kind.spans = []

theorem Bare.bind (hf : ∀ a, Bare (f a)) : Bare (q >>= f) := by
  intro s c e kind h
  rw [Excerpt.run_bind] at h
  rcases hr : q s c with ⟨err | a, d⟩
  · rw [hr] at h
    cases h
  · rw [hr] at h
    exact hf a s d e kind h

theorem bare_pure {kind : StatementKind} (h : kind.spans = []) : Bare (pure kind) := by
  intro s c d kind' hr
  cases hr
  exact h

theorem Bare.ofFailing (h : ∀ s c, ∃ err, (p s c).1 = .error err) : Bare p := by
  intro s c d kind hr
  obtain ⟨err, herr⟩ := h s c
  rw [hr] at herr
  cases herr

theorem bare_unexpected (expected : String) : Bare (unexpected expected) :=
  .ofFailing fun s c => by
    obtain ⟨err, herr⟩ := Excerpt.unexpected_error (α := StatementKind) expected s c
    exact ⟨err, by rw [herr]⟩

theorem bare_ended {kind : StatementKind} (h : kind.spans = []) : Bare (ended kind) := .bind fun _ => bare_pure h

theorem bare_gateOperands (ms : List Modifier) (n : String) (params : List Expr) :
    Bare (gateOperands ms n params) := .bind fun _ => bare_ended rfl

theorem bare_gateStatement : Bare gateStatement := by
  refine .bind fun ms => .bind fun n => .bind fun given => ?_
  cases given with
  | true => exact .bind fun params => bare_gateOperands ms n params
  | false => exact bare_gateOperands ms n []

theorem bare_assignment : Bare assignment := by
  refine .bind fun target => .bind fun o => ?_
  split
  · refine .bind fun _ => .bind fun value => ?_
    split <;> exact bare_ended rfl
  · exact bare_unexpected _

theorem bare_nameStatement : Bare nameStatement := by
  refine .bind fun o => ?_
  split
  · refine .bind fun n => .bind fun _ => .bind fun args => .bind fun closed => ?_
    cases closed with
    | true => exact bare_pure rfl
    | false => exact bare_gateOperands [] n args
  · exact bare_gateStatement
  · exact .bind fun _ => bare_ended rfl
  · exact bare_assignment

theorem bare_classicalDeclaration : Bare classicalDeclaration :=
  .bind fun _ => .bind fun _ => .bind fun _ => .bind fun _ => .bind fun _ => bare_ended rfl

theorem bare_includeStatement : Bare includeStatement := by
  refine .bind fun _ => .bind fun o => ?_
  split
  · exact .bind fun _ => bare_ended rfl
  · exact bare_unexpected _

theorem bare_measureStatement : Bare measureStatement := by
  refine .bind fun _ => .bind fun _ => .bind fun target => ?_
  cases target with
  | true => exact .bind fun _ => bare_ended rfl
  | false => exact bare_ended rfl

theorem bare_barrierStatement : Bare barrierStatement := by
  refine .bind fun _ => .bind fun none => ?_
  cases none with
  | true => exact bare_ended rfl
  | false => exact .bind fun _ => bare_ended rfl

theorem bare_returnStatement : Bare returnStatement := by
  refine .bind fun _ => .bind fun none => ?_
  cases none with
  | true => exact bare_ended rfl
  | false => exact .bind fun _ => bare_ended rfl

theorem bare_annotated : Bare annotated := by
  intro s c d kind hr
  unfold annotated at hr
  split at hr
  · cases hr
    rfl
  · exact bare_unexpected _ s _ d kind hr
  · exact bare_unexpected _ s _ d kind hr

/-- What stands inside of the statements that a reader gives has its tokens behind the first one that is read. -/
def Inside (p : Parser StatementKind) : Prop :=
  ∀ (s : Source) (c d : Cursor) (kind : StatementKind), p s c = (.ok kind, d) → kind.spans = [] ∨
    ∃ (t : PlacedToken) (read picked : List PlacedToken), c.rest = t :: (read ++ d.rest) ∧ picked.Sublist read ∧
      kind.spans = picked.map (s.spanAt ·.start)

theorem Bare.inside (h : Bare p) : Inside p := fun s c d kind hr => Or.inl (h s c d kind hr)

theorem taken_of_advances {α : Type} {p : Parser α} (hp : Advances p) (hforward : Forward p) {s : Source}
    {c d : Cursor} {a : α} (h : p s c = (.ok a, d)) : ∃ t read, c.rest = t :: (read ++ d.rest) := by
  have hrest := hforward s c
  rw [h] at hrest
  obtain ⟨taken, htaken⟩ := hrest
  cases taken with
  | nil =>
    have hlt : d.left < c.left := hp.left_lt h
    rw [Cursor.left_eq, Cursor.left_eq, ← htaken] at hlt
    exact absurd hlt (Nat.lt_irrefl _)
  | cons t read => exact ⟨t, read, htaken.symm⟩

theorem Inside.first (hp : Advances q) (hforward : Forward q)
    (hf : ∀ a, Notes [] StatementKind.spans (f a)) : Inside (q >>= f) := by
  intro s c e kind h
  rw [Excerpt.run_bind] at h
  rcases hr : q s c with ⟨err | a, d⟩
  · rw [hr] at h
    cases h
  rw [hr] at h
  obtain ⟨t, read, hread⟩ := taken_of_advances hp hforward hr
  obtain ⟨read', picked, hread', hpicked, hspans⟩ := hf a s d e kind h
  refine Or.inr ⟨t, read ++ read', picked, ?_, hpicked.trans (List.sublist_append_right _ _), hspans⟩
  rw [hread, hread', List.append_assoc]

theorem Inside.last (hforward : Forward q) (hf : ∀ a, Inside (f a)) : Inside (q >>= f) := by
  intro s c e kind h
  have hrest := hforward s c
  rw [Excerpt.run_bind] at h
  rcases hr : q s c with ⟨err | a, d⟩
  · rw [hr] at h
    cases h
  rw [hr] at h hrest
  refine (hf a s d e kind h).imp_right ?_
  rintro ⟨t, read, picked, hread, hpicked, hspans⟩
  obtain ⟨skipped, hskipped⟩ := hrest
  replace hskipped : skipped ++ d.rest = c.rest := hskipped
  cases skipped with
  | nil => exact ⟨t, read, picked, hskipped.symm.trans hread, hpicked, hspans⟩
  | cons u skipped =>
    refine ⟨u, skipped ++ t :: read, picked, ?_, ?_, hspans⟩
    · rw [← hskipped, hread, List.append_assoc, List.cons_append, List.cons_append]
    · exact hpicked.trans ((List.sublist_cons_self t read).trans (List.sublist_append_right _ _))

theorem forward_condition : Forward condition :=
  forward_advance.bind fun _ => (forward_expect _).bind fun _ => forward_expression.bind fun _ =>
    (forward_expect _).bind fun _ => forward_pure _

theorem inside_branchStatement (hself : Forward self) (h : Notes [] Statement.spans self) :
    Inside (branchStatement self) := by
  refine .first advances_condition forward_condition fun cond => (notes_body hself h).bind fun thenBody =>
    .after (forward_of_phrase fun _ _ => Excerpt.phrase_acceptKeyword) fun other => ?_
  cases other with
  | true => exact ((notes_body hself h).behind _).bind fun elseBody => notes_pure rfl
  | false => exact notes_pure rfl

theorem inside_whileStatement (hself : Forward self) (h : Notes [] Statement.spans self) :
    Inside (whileStatement self) :=
  .first advances_condition forward_condition fun _ => (notes_body hself h).bind fun _ => notes_pure rfl

theorem inside_forStatement (hself : Forward self) (h : Notes [] Statement.spans self) :
    Inside (forStatement self) :=
  .last forward_advance fun _ => .last (forward_of_phrase fun _ _ => Excerpt.phrase_loopType?) fun _ =>
    .first advances_name forward_name fun _ =>
      .after (forward_of_phrase fun _ _ => Excerpt.phrase_expectKeyword) fun _ =>
        .after (forward_of_phrase fun _ _ => Excerpt.phrase_loopValues) fun _ =>
          (notes_body hself h).bind fun _ => notes_pure rfl

theorem inside_subroutineDefinition (hself : Forward self) (h : Notes [] Statement.spans self) :
    Inside (subroutineDefinition self) := by
  have hformals : Forward (itemsBefore .rParen formal) := forward_of_phrase fun _ k =>
    Excerpt.phrase_itemsBefore (Excerpt.phrase_formal.below (Nat.le_succ k))
  have htype : Forward (some <$> type) :=
    (forward_of_phrase fun _ _ => Excerpt.phrase_type).bind fun _ => forward_pure _
  refine .last forward_advance fun _ => .first advances_name forward_name fun _ => .after (forward_expect _) fun _ =>
    .after hformals fun _ => .after (forward_expect _) fun _ => .after (forward_accept _) fun arrow => ?_
  cases arrow with
  | true => exact .after htype fun _ => (notes_block hself h).bind fun _ => notes_pure rfl
  | false => exact .after (forward_pure none) fun _ => (notes_block hself h).bind fun _ => notes_pure rfl

theorem inside_gateDefinition (hself : Forward self) (h : Notes [] Statement.spans self) :
    Inside (gateDefinition self) :=
  .last forward_advance fun _ => .first advances_name forward_name fun _ =>
    .after (forward_of_phrase fun _ _ => Excerpt.phrase_gateParams) fun _ =>
      .after (forward_of_phrase fun _ _ => Excerpt.phrase_nameList) fun _ =>
        (notes_block hself h).bind fun _ => notes_pure rfl

theorem inside_keywordLed (w : Keyword) (hself : Forward self) (h : Notes [] Statement.spans self) :
    Inside (keywordLed self w) := by
  cases w with
  | openqasm => exact (Bare.ofFailing fun _ _ => ⟨_, rfl⟩).inside
  | «include» => exact bare_includeStatement.inside
  | qubit | qreg | creg => exact (Bare.bind fun _ => .bind fun _ => .bind fun _ => bare_ended rfl).inside
  | «let» => exact (Bare.bind fun _ => .bind fun _ => .bind fun _ => .bind fun _ => bare_ended rfl).inside
  | measure => exact bare_measureStatement.inside
  | reset => exact (Bare.bind fun _ => .bind fun _ => bare_ended rfl).inside
  | barrier => exact bare_barrierStatement.inside
  | «if» => exact inside_branchStatement hself h
  | «for» => exact inside_forStatement hself h
  | «while» => exact inside_whileStatement hself h
  | «break» | «continue» => exact (Bare.bind fun _ => bare_ended rfl).inside
  | «return» => exact bare_returnStatement.inside
  | define => exact inside_subroutineDefinition hself h
  | gate => exact inside_gateDefinition hself h
  | inv | pow | ctrl | negctrl => exact bare_gateStatement.inside
  | _ => first | exact bare_classicalDeclaration.inside | exact (bare_unexpected _).inside

theorem inside_statementKind (hself : Forward self) (h : Notes [] Statement.spans self) :
    Inside (statementKind self) := by
  refine .last (q := peek) (fun _ _ => List.suffix_rfl) fun o => ?_
  cases o with
  | none => exact (bare_unexpected _).inside
  | some t =>
    cases t with
    | keyword w => exact inside_keywordLed w hself h
    | pragma text => exact (Bare.bind fun _ => bare_pure rfl).inside
    | name n => exact bare_nameStatement.inside
    | punctuation w =>
      cases w with
      | lBrace =>
        have hblock : Inside (block self >>= fun body => pure (.block body)) := by
          rw [block, Excerpt.bind_assoc]
          exact .first (advances_expect _) (forward_expect _) fun _ =>
            (notes_braced hself h).bind fun _ => notes_pure rfl
        exact hblock
      | atSign => exact bare_annotated.inside
      | _ => exact (bare_unexpected _).inside
    | _ => exact (bare_unexpected _).inside

theorem forward_statementKind (hself : Forward self) : Forward (statementKind self) :=
  forward_of_alike fun _ k => (alike_statementKind (.ofForward hself)).below (Nat.le_succ k)

/-- A statement stands at its first token, and the statements inside of it have theirs behind that. -/
theorem notes_statementLevel (hself : Forward self) (h : Notes [] Statement.spans self) :
    Notes [] Statement.spans (statementLevel self) := by
  intro s c d st hr
  have hrun : statementLevel self s c =
      (statementKind self >>= fun kind => pure ⟨kind, s.spanAt ((c.rest.head?.map (·.start)).getD s.size)⟩) s c := rfl
  rw [hrun, Excerpt.run_bind] at hr
  rcases hkind : statementKind self s c with ⟨err | kind, d'⟩
  · rw [hkind] at hr
    cases hr
  rw [hkind] at hr
  cases hr
  rcases inside_statementKind hself h s c _ kind hkind with hbare | ⟨t, read, picked, hread, hpicked, hspans⟩
  · obtain ⟨t, read, hread⟩ :=
      taken_of_advances (advances_statementKind hself) (forward_statementKind hself) hkind
    refine ⟨t :: read, [t], hread, List.singleton_sublist.2 List.mem_cons_self, ?_⟩
    rw [Statement.spans, hbare, hread]
    rfl
  · refine ⟨t :: read, t :: picked, hread, hpicked.cons_cons t, ?_⟩
    rw [Statement.spans, hspans, hread]
    rfl

theorem notes_nestedStatement : ∀ n, Notes [] Statement.spans (nestedStatement n)
  | 0 => .ofFailing fun s c => by
    obtain ⟨err, herr⟩ := Excerpt.unexpected_error (α := Statement) "statement" s c
    exact ⟨err, by rw [nestedStatement, herr]⟩
  | n + 1 => notes_statementLevel (forward_nestedStatement n) (notes_nestedStatement n)

theorem notes_statement : Notes [] Statement.spans statement := .bounded notes_nestedStatement

theorem notes_statements : ∀ n, Notes [] bodySpans (statements n)
  | 0 => notes_pure rfl
  | n + 1 => by
    refine .after (p := peek) (fun _ _ => List.suffix_rfl) fun o => ?_
    cases o with
    | none => exact notes_pure rfl
    | some t =>
      exact notes_items (notes_moving _ (notes_recovering forward_statement notes_statement)) (notes_statements n)

end Kinds

/-- A token starts behind the ones before it. -/
theorem tokensFrom_increasing (offset : Nat) (cs : List Char) :
    (tokensFrom offset cs).Pairwise (·.start < ·.start) := by
  obtain ⟨hplaces, hpairs⟩ := (Token.scanFrom_tiled cs offset).ordered
  have hstarts := hpairs.imp_of_mem fun hl _ hle => (hplaces _ hl).2.trans_le hle
  refine List.Pairwise.filterMap _ (fun l l' hlt t ht t' ht' => ?_) hstarts
  obtain ⟨token, -, rfl⟩ := Option.map_eq_some_iff.1 ht
  obtain ⟨token', -, rfl⟩ := Option.map_eq_some_iff.1 ht'
  exact hlt

/-- The positions of the statements of a text are those of some of its tokens, in their order. -/
theorem parse_notes (text : String) : ∃ picked : List PlacedToken,
    picked.Sublist (tokensFrom 0 text.toList) ∧
      bodySpans (Program.parse text).1.statements = picked.map ((Source.ofString text).spanAt ·.start) := by
  let s := Source.ofString text
  obtain ⟨v, c, body, d, hversion, hbody, hrun⟩ := program_run s (cursor s)
  have hparse : (Program.parse text).1.statements = body := by
    rw [Program.parse, show program (Source.ofString text) (cursor (Source.ofString text)) = _ from hrun]
  have hrest := forward_version? s (cursor s)
  rw [hversion] at hrest
  have hstatements : Notes [] bodySpans remaining := .bounded notes_statements
  obtain ⟨read, picked, hread, hpicked, hspans⟩ := hstatements s c d body hbody
  refine ⟨picked, hpicked.trans ?_, by rw [hparse, hspans, List.nil_append]⟩
  have hwithin : read.Sublist c.rest := hread ▸ List.sublist_append_left _ _
  exact hwithin.trans hrest.sublist

/-- The lexemes of a text are not empty, stand one behind the other and cover it up to blanks and closed comments,
and the text of a token is that token by itself; a position is the line and the column that the line breaks before
an offset give, so that later offsets have later positions; and every statement, however deep it is nested, stands
at the start of a lexeme, behind all the statements that start before it. -/
theorem lexemes_tile_and_positions_increase (text : String) :
    let s := Source.ofString text
    let spans := bodySpans (Program.parse text).1.statements
    (Token.Tiled 0 text.toList (Token.scan s) ∧ (∀ l ∈ Token.scan s, l.start < l.stop) ∧
      (Token.scan s).Pairwise (·.stop ≤ ·.start)) ∧
    (∀ l ∈ Token.scan s, ∀ t, l.token = some t →
      Token.scan (.ofString (String.ofList l.chars)) = [⟨some t, l.chars, 0, l.stop - l.start⟩]) ∧
    (∀ o, s.spanAt o = ⟨1 + (Source.before o text.toList).count '\n',
      1 + (o - byteLength ((Source.before o text.toList).rdropWhile (· ≠ '\n')))⟩) ∧
    (∀ o o', o < o' → (s.spanAt o).Before (s.spanAt o')) ∧
    (∀ span ∈ spans, ∃ l ∈ Token.scan s, span = s.spanAt l.start) ∧
    spans.Pairwise Span.Before := by
  intro s spans
  have htiled := Token.scanFrom_tiled text.toList 0
  obtain ⟨hplaces, hpairs⟩ := htiled.ordered
  have hlater (o o' : Nat) (h : o < o') : (s.spanAt o).Before (s.spanAt o') := spanFrom_lt h (Nat.zero_le o)
  obtain ⟨picked, hpicked, hspans⟩ := parse_notes text
  have htokens := tokensFrom_increasing 0 text.toList
  refine ⟨⟨htiled, fun l hl => (hplaces l hl).2, hpairs⟩, fun l hl t ht => ?_, spanAt_eq text.toList, hlater, ?_, ?_⟩
  · show Token.scanFrom 0 (String.ofList l.chars).toList = _
    rw [String.toList_ofList]
    exact Token.scanFrom_single text.toList 0 l hl t ht
  · intro span hspan
    rw [show spans = _ from hspans] at hspan
    obtain ⟨t, ht, rfl⟩ := List.mem_map.1 hspan
    obtain ⟨l, hl, hlt⟩ := List.mem_filterMap.1 (hpicked.subset ht)
    obtain ⟨token, -, rfl⟩ := Option.map_eq_some_iff.1 hlt
    exact ⟨l, hl, rfl⟩
  · rw [show spans = _ from hspans]
    exact List.pairwise_map.2 ((htokens.sublist hpicked).imp fun h => hlater _ _ h)

end OpenQasm
