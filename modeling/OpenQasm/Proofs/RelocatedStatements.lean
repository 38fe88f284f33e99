import OpenQasm.Proofs.RelocatedBlocks

/-!
Statements are clauses: whatever a statement consists of, it fails before the end of a text that has its only
semicolon there, if it fails.
-/
namespace OpenQasm.Excerpt

open OpenQasm.Parser OpenQasm.Grammar

variable {α β : Type} {e : Excerpt} {k : Nat} {self self' : Parser Statement}

theorem clause_ended {kind : StatementKind} (h : kind.moved e.move = kind) :
    Clause e (Cursor.Below k) (·.moved e.move) (ended kind) (ended kind) := by
  have hclose : Clause e (Cursor.Below k) (·.moved e.move) (ended kind) (ended (kind.moved e.move)) :=
    clause_close .semicolon kind
  rwa [h] at hclose

section Parts

theorem phrase_operandList : Phrase e (Cursor.Below k) operandList operandList :=
  phrase_commaSeparated phrase_operand

theorem phrase_nameList : Phrase e (Cursor.Below k) nameList nameList := phrase_commaSeparated phrase_name

theorem phrase_direction? : Phrase e (Cursor.Below k) direction? direction? := by
  refine .bind phrase_acceptKeyword fun input => ?_
  cases input with
  | true => exact phrase_pure _
  | false =>
    refine .bind phrase_acceptKeyword fun output => ?_
    cases output <;> exact phrase_pure _

theorem phrase_initializer? : Phrase e (Cursor.Below k) initializer? initializer? := by
  refine .bind (phrase_accept nofun) fun given => ?_
  cases given with
  | true => exact .bind phrase_expression fun _ => phrase_pure _
  | false => exact phrase_pure _

/-- An expression in parentheses. -/
theorem phrase_parenthesized {f f' : Expr → Parser α} (hf : ∀ a, Phrase e (Cursor.Below k) (f a) (f' a)) :
    Phrase e (Cursor.Below k)
      (expect .lParen >>= fun _ => expression >>= fun a => expect .rParen >>= fun _ => f a)
      (expect .lParen >>= fun _ => expression >>= fun a => expect .rParen >>= fun _ => f' a) :=
  .bind (phrase_expect nofun) fun _ => .bind phrase_expression fun a =>
    .bind (phrase_expect nofun) fun _ => hf a

theorem phrase_loopType? : Phrase e (Cursor.Below k) loopType? loopType? := by
  refine .peek fun o => ?_
  cases o with
  | none => exact phrase_pure none
  | some t =>
    cases t with
    | keyword w =>
      dsimp only
      cases w.startsType with
      | true => exact .facing (.bind phrase_type fun _ => phrase_pure _)
      | false => exact phrase_pure none
    | _ => exact phrase_pure none

theorem phrase_loopValues : Phrase e (Cursor.Below k) loopValues loopValues := by
  refine .bind (phrase_accept nofun) fun bracket => ?_
  cases bracket with
  | true => exact .bind phrase_range fun _ => .bind (phrase_expect nofun) fun _ => phrase_pure _
  | false =>
    refine .bind phrase_at? fun brace => ?_
    cases brace with
    | true => exact .bind phrase_braced fun _ => phrase_pure _
    | false => exact .bind phrase_expression fun _ => phrase_pure _

theorem phrase_skipAccess : Phrase e (Cursor.Below (k + 1)) skipAccess skipAccess := by
  refine .peek fun o => ?_
  cases o with
  | none => exact phrase_pure ()
  | some t =>
    cases t with
    | name n =>
      dsimp only
      by_cases hn : (n = "readonly" || n = "mutable") = true
      · rw [if_pos hn]
        have hskip : Phrase e (Cursor.Facing (some (.name n)) (k + 1)) (advance >>= pure) (advance >>= pure) :=
          .skip nofun (phrase_pure ())
        rwa [bind_pure] at hskip
      · rw [if_neg hn]
        exact phrase_pure ()
    | _ => exact phrase_pure ()

theorem phrase_formal : Phrase e (Cursor.Below (k + 1)) formal formal := by
  refine .bind phrase_skipAccess fun _ => .bind phrase_acceptKeyword fun qubit => ?_
  cases qubit with
  | true => exact .bind phrase_designator? fun _ => .bind phrase_name fun _ => phrase_pure _
  | false =>
    refine .bind phrase_acceptKeyword fun qreg => ?_
    cases qreg with
    | true => exact .bind phrase_name fun _ => .bind phrase_designator? fun _ => phrase_pure _
    | false => exact .bind phrase_type fun _ => .bind phrase_name fun _ => phrase_pure _

theorem phrase_gateParams :
    Phrase e (Cursor.Below k) gateDefinition.gateParams gateDefinition.gateParams := by
  refine .bind (phrase_accept nofun) fun given => ?_
  cases given with
  | true =>
    exact .bind (phrase_itemsBefore phrase_name) fun _ => .bind (phrase_expect nofun) fun _ => phrase_pure _
  | false => exact phrase_pure []

theorem phrase_controlCount? : Phrase e (Cursor.Below k) controlCount? controlCount? := by
  refine .bind (phrase_accept nofun) fun given => ?_
  cases given with
  | true => exact .bind phrase_expression fun _ => .bind (phrase_expect nofun) fun _ => phrase_pure _
  | false => exact phrase_pure none

theorem phrase_modifier? : Phrase e (Cursor.Below (k + 1)) modifier? modifier? := by
  refine .peek fun o => ?_
  cases o with
  | none => exact phrase_pure none
  | some t =>
    cases t with
    | keyword w =>
      cases w with
      | inv => exact .skip nofun (phrase_pure _)
      | pow => exact .skip nofun (phrase_parenthesized fun _ => phrase_pure _)
      | ctrl | negctrl => exact .skip nofun (.bind phrase_controlCount? fun _ => phrase_pure _)
      | _ => exact phrase_pure none
    | _ => exact phrase_pure none

theorem phrase_modifiers : ∀ n, Phrase e (Cursor.Below n) (modifiers n) (modifiers (n + e.after.length))
  | 0 => .ofNever fun _ => Nat.not_lt_zero _
  | n + 1 => by
    rw [Nat.add_right_comm]
    refine .bind phrase_modifier? fun m => ?_
    cases m with
    | none => exact phrase_pure []
    | some m => exact .expect nofun (.bind (phrase_modifiers n) fun _ => phrase_pure _)

end Parts

section Simple

theorem clause_includeStatement {w : Keyword} :
    Clause e (Cursor.Facing (some (.keyword w)) (k + 1)) (·.moved e.move) includeStatement includeStatement := by
  refine .skip nofun (.below (.peek fun o => ?_) (Nat.le_succ k))
  cases o with
  | none => exact clause_unexpected _
  | some t =>
    cases t with
    | string path => exact .skip nofun (clause_ended rfl)
    | _ => exact clause_unexpected _

theorem clause_classicalDeclaration :
    Clause e (Cursor.Below k) (·.moved e.move) classicalDeclaration classicalDeclaration :=
  .after phrase_acceptKeyword fun _ => .after phrase_direction? fun _ => .after phrase_type fun _ =>
    .after phrase_name fun _ => .after phrase_initializer? fun _ => clause_ended rfl

theorem clause_measureStatement {w : Keyword} :
    Clause e (Cursor.Facing (some (.keyword w)) (k + 1)) (·.moved e.move) measureStatement measureStatement := by
  refine .skip nofun (.after phrase_operand fun _ => .after (phrase_accept nofun) fun target => ?_)
  cases target with
  | true => exact .after phrase_operand fun _ => clause_ended rfl
  | false => exact clause_ended rfl

theorem clause_barrierStatement {w : Keyword} :
    Clause e (Cursor.Facing (some (.keyword w)) (k + 1)) (·.moved e.move) barrierStatement barrierStatement := by
  refine .skip nofun (.after phrase_at? fun bare => ?_)
  cases bare with
  | true => exact clause_ended rfl
  | false => exact .after phrase_operandList fun _ => clause_ended rfl

theorem clause_returnStatement {w : Keyword} :
    Clause e (Cursor.Facing (some (.keyword w)) (k + 1)) (·.moved e.move) returnStatement returnStatement := by
  refine .skip nofun (.after phrase_at? fun bare => ?_)
  cases bare with
  | true => exact clause_ended rfl
  | false => exact .after phrase_expression fun _ => clause_ended rfl

theorem clause_gateOperands (ms : List Modifier) (n : String) (params : List Expr) :
    Clause e (Cursor.Below k) (·.moved e.move) (gateOperands ms n params) (gateOperands ms n params) :=
  .after phrase_operandList fun _ => clause_ended rfl

theorem clause_gateStatement :
    Clause e (Cursor.Below k) (·.moved e.move) gateStatement gateStatement := by
  refine .after (.bounded fun n _ => phrase_modifiers n) fun ms => .after phrase_name fun n =>
    .after (phrase_accept nofun) fun given => ?_
  cases given with
  | true => exact .after phrase_arguments fun params => clause_gateOperands ms n params
  | false => exact clause_gateOperands ms n []

theorem clause_assignment :
    Clause e (Cursor.Below (k + 1)) (·.moved e.move) assignment assignment := by
  refine .after phrase_operand fun target => .peek fun o => ?_
  cases ho : assignOp? o with
  | none => exact clause_unexpected _
  | some op =>
    cases o with
    | none => nomatch ho
    | some t =>
      refine .skip (fun ht => ?_) (.after phrase_expression fun value => ?_)
      · rw [ht] at ho
        nomatch ho
      · split <;> exact clause_ended rfl

end Simple

section Names

/-- The place after the next token. In the longer text there may be a token where the text has none, so a clause
that asks for it has to come to the end and fail there. -/
theorem Clause.peekSecond {P : Cursor → Prop} {m : β → β} {f f' : Option Token → Parser β}
    (hf : ∀ o, Clause e P m (f o) (f' o))
    (hlast : ∀ c, P c → c.rest.tail = [] → (f none e.text c).2.rest = [] ∧ ∃ err, (f none e.text c).1 = .error err) :
    Clause e P m (peekSecond >>= f) (peekSecond >>= f') :=
  .ofLook (r := fun _ c => c.rest[1]?.map PlacedToken.token) (g := id) (fun o => (hf o).mono fun _ hc => hc.1)
    fun c c' hc hmatch => by
      rw [hmatch.rest]
      match hrest : c.rest with
      | [] | [_] => exact Or.inr (hlast c hc (by rw [hrest]; rfl))
      | _ :: _ :: _ => exact Or.inl rfl

/-- A name by itself is not an assignment. -/
theorem assignment_alone {n : String} {s : Source} {c : Cursor} {start stop : Nat}
    (hc : c.rest = [⟨.name n, start, stop⟩]) :
    (assignment s c).2.rest = [] ∧ ∃ err, (assignment s c).1 = .error err := by
  obtain ⟨rest, left, hleft, nesting, errors⟩ := c
  cases hc
  cases hleft
  exact ⟨rfl, _, rfl⟩

theorem clause_nameStatement {n : String} :
    Clause e (Cursor.Facing (some (.name n)) (k + 1)) (·.moved e.move) nameStatement nameStatement := by
  refine .peekSecond (fun o => ?_) fun c hc hnil => ?_
  · have hassign : Clause e (Cursor.Facing (some (.name n)) (k + 1)) (·.moved e.move) assignment assignment :=
      clause_assignment.facing
    cases o with
    | none => exact hassign
    | some t =>
      cases t with
      | name _ => exact clause_gateStatement.facing
      | punctuation s =>
        cases s with
        | semicolon => exact .facing (.after phrase_name fun _ => clause_ended rfl)
        | lParen =>
          refine .facing (.after phrase_name fun n => .after (phrase_expect nofun) fun _ =>
            .after phrase_arguments fun args => ?_)
          rw [accept_bind]
          refine .peek fun o => ?_
          cases ho : isPunctuation .semicolon o with
          | false => exact (clause_gateOperands [] n args).facing
          | true =>
            cases o with
            | none => nomatch ho
            | some t => exact clause_last _
        | _ => exact hassign
      | _ => exact hassign
  · obtain ⟨p, ts, hts, hp, -⟩ := Cursor.Facing.next hc
    obtain ⟨token, start, stop⟩ := p
    cases hp
    rw [hts] at hnil
    cases hnil
    exact assignment_alone hts

theorem byteLength_dropBytes_le : ∀ (n : Nat) (cs : List Char),
    n ≤ byteLength cs → n + byteLength (Source.dropBytes n cs) ≤ byteLength cs
  | _, [], hn => hn
  | n, c :: cs, hn => by
    rw [Source.dropBytes]
    split
    · next h0 => exact Nat.le_of_eq (by rw [h0, Nat.zero_add])
    · have hle := byteLength_dropBytes_le (n - c.utf8Size) cs
      simp only [byteLength] at hn ⊢
      omega

theorem byteLength_takeWhile_le (p : Char → Bool) (cs : List Char) :
    byteLength (cs.takeWhile p) ≤ byteLength cs := by
  induction cs with
  | nil => exact Nat.le_refl _
  | cons c cs ih =>
    rw [List.takeWhile_cons]
    split
    · exact Nat.add_le_add_left ih _
    · exact Nat.zero_le _

/-- A line ends before its text does. -/
theorem lineEnd_le {s : Source} {n : Nat} (hn : n ≤ s.size) : n + byteLength (s.lineRest n) ≤ s.size :=
  Nat.le_trans (Nat.add_le_add_left (byteLength_takeWhile_le _ _) n) (byteLength_dropBytes_le n s.chars hn)

theorem dropWhile_moved {n : Nat} (hn : n ≤ e.text.size) (ts : List PlacedToken) :
    (ts.map e.token ++ e.after).dropWhile (·.start < e.offset + n) =
      (ts.dropWhile (·.start < n)).map e.token ++ e.after := by
  induction ts with
  | nil =>
    cases hafter : e.after with
    | nil => rfl
    | cons t ts =>
      have hstart := e.after_start t (by rw [hafter]; rfl)
      exact List.dropWhile_cons_of_neg (by rw [decide_eq_true_eq]; omega)
  | cons t ts ih =>
    have htoken : ((e.token t).start < e.offset + n) = (t.start < n) := propext Nat.add_lt_add_iff_left
    rw [List.map_cons, List.cons_append, List.dropWhile_cons, List.dropWhile_cons, ih]
    simp only [htoken]
    split <;> rfl

/-- Reads the keyword of an annotation and the rest of its line. -/
def annotatedLine (keyword : String) : Parser StatementKind := fun s c =>
  let stop := (c.rest.head?.map PlacedToken.stop).getD 0
  let content := s.lineRest stop
  (.ok (.annotated keyword (String.ofList (trimBlanks content))),
    c.moveTo (c.rest.tail.dropWhile (·.start < stop + byteLength content)))

theorem annotated_eq : annotated = (advance >>= fun _ => Parser.peek >>= fun o =>
    match o with
    | some (.name keyword) => annotatedLine keyword
    | _ => unexpected "identifier") := by
  funext s ⟨rest, left, hleft, nesting, errors⟩
  subst hleft
  match rest with
  | [] => rfl
  | [_] => rfl
  | _ :: ⟨token, _, _⟩ :: _ => cases token <;> rfl

theorem clause_annotatedLine {n : String} :
    Clause e (Cursor.Facing (some (.name n)) (k + 1)) (·.moved e.move) (annotatedLine n) (annotatedLine n) where
  rest c _ := (List.dropWhile_suffix _).trans (List.tail_suffix _)
  nesting _ _ := rfl
  errors _ _ := List.prefix_rfl
  place _ _ _ := nofun
  final _ _ _ := ⟨rfl, nofun⟩
  demands c hc hnil := by
    obtain ⟨p, ts, hts, -⟩ := Cursor.Facing.next hc
    nomatch hts.symm.trans hnil
  same c c' hc hmatch _ := by
    obtain ⟨p, ts, hts, -⟩ := Cursor.Facing.next hc
    have hstop : p.stop ≤ e.text.size := (hmatch.inside p (hts ▸ List.mem_cons_self)).2
    have hline : e.whole.lineRest (e.token p).stop = e.text.lineRest p.stop := e.lineRest p.stop hstop
    have hrest := hmatch.rest
    rw [hts, List.map_cons, List.cons_append] at hrest
    unfold annotatedLine
    rw [hrest, hts]
    dsimp only [List.head?_cons, Option.map_some, Option.getD_some, List.tail_cons]
    rw [hline]
    refine ⟨_, rfl, ?_, hmatch.nesting, hmatch.errors, fun t ht => ?_⟩
    · have hmoved := dropWhile_moved (lineEnd_le hstop) ts
      rw [← Nat.add_assoc] at hmoved
      exact hmoved
    · exact hmatch.inside t (hts ▸ List.mem_cons_of_mem p ((List.dropWhile_suffix _).subset ht))

/-- An annotation is read to the end of its line. -/
theorem clause_annotated {t : Token} (ht : t ≠ .punctuation .semicolon) :
    Clause e (Cursor.Facing (some t) (k + 1)) (·.moved e.move) annotated annotated := by
  rw [annotated_eq]
  refine .skip ht (.below (.peek fun o => ?_) (Nat.le_succ k))
  cases o with
  | none => exact clause_unexpected _
  | some t =>
    cases t with
    | name n => exact clause_annotatedLine
    | _ => exact clause_unexpected _

end Names

section Compound

/-- No `else` comes after the text, so where there is none in the text there is none in the longer one. -/
theorem Matches.isKeyword_else {c c' : Cursor} (h : e.Matches c c') :
    isKeyword .else c'.head? = isKeyword .else c.head? := by
  by_cases hnil : c.rest = []
  · have hafter : c'.head? = e.after.head?.map PlacedToken.token := by
      rw [Cursor.head?, h.rest, hnil]
      rfl
    rw [hafter, Cursor.head?, hnil]
    cases hhead : e.after.head? with
    | none => rfl
    | some t =>
      refine Bool.eq_false_iff.2 fun helse => e.after_else t hhead ?_
      exact Option.some.inj (eq_of_isKeyword helse)
  · rw [h.head? hnil]

theorem Closing.acceptElse {m : β → β} {f f' : Bool → Parser β}
    (htrue : Clause e (Cursor.Below k) m (f true) (f' true))
    (hfalse : Closing e (Cursor.Below (k + 1)) m (f false) (f' false)) :
    Closing e (Cursor.Below (k + 1)) m (acceptKeyword .else >>= f) (acceptKeyword .else >>= f') := by
  have helse : Clause e (Cursor.Facing (some (.keyword .else)) (k + 1)) m (advance >>= fun _ => f true)
      (advance >>= fun _ => f' true) := .skip nofun htrue
  have hfacing {c : Cursor} (hc : c.Below (k + 1)) (hw : isKeyword .else c.head? = true) :
      Cursor.Facing (some (.keyword .else)) (k + 1) c := ⟨hc, eq_of_isKeyword hw⟩
  rw [acceptKeyword_bind, acceptKeyword_bind]
  have hrun (c : Cursor) (hc : c.Below (k + 1)) (motive : Parser β → Prop)
      (htrue : Cursor.Facing (some (.keyword .else)) (k + 1) c → motive (advance >>= fun _ => f true))
      (hfalse : motive (f false)) :
      motive (if isKeyword .else c.head? then advance >>= fun _ => f true else f false) := by
    cases hw : isKeyword .else c.head? with
    | true => exact htrue (hfacing hc hw)
    | false => exact hfalse
  exact
    { rest := fun c hc => hrun c hc (fun p => (p e.text c).2.rest <:+ c.rest)
        (helse.rest c) (hfalse.rest c hc)
      nesting := fun c hc => hrun c hc (fun p => (p e.text c).2.nesting = c.nesting)
        (helse.nesting c) (hfalse.nesting c hc)
      errors := fun c hc => hrun c hc (fun p => c.errors <+: (p e.text c).2.errors)
        (helse.errors c) (hfalse.errors c hc)
      place := fun c hc => hrun c hc (fun p => ∀ err, (p e.text c).1 = .error err →
          ∀ t ∈ (p e.text c).2.rest.head?, err.span = e.text.spanAt t.start)
        (helse.place c) (hfalse.place c hc)
      same := fun c c' hc hmatch => by
        rw [run_peek, run_peek, hmatch.isKeyword_else]
        cases hw : isKeyword .else c.head? with
        | true => exact helse.same c c' (hfacing hc hw) hmatch
        | false => exact hfalse.same c c' hc hmatch
      final := fun c hc hend => by
        rw [run_peek]
        cases hw : isKeyword .else c.head? with
        | true =>
          refine helse.final c (hfacing hc hw) (hend.resolve_left fun hnil => ?_)
          rw [Cursor.head?, hnil] at hw
          nomatch hw
        | false => exact hfalse.final c hc hend }

theorem clause_body (h : Clause e (Cursor.Below k) (·.moved e.move) self self') :
    Clause e (Cursor.Below k) (bodyMoved e.move) (body self) (body self') := by
  refine .after phrase_at? fun brace => ?_
  cases brace with
  | true => exact (clause_block h).below (Nat.le_succ k)
  | false => exact .bind h fun s => closing_pure [s]

theorem condition_bind (f : Expr → Parser β) : (condition >>= f) = advance >>= fun _ =>
    expect .lParen >>= fun _ => expression >>= fun a => expect .rParen >>= fun _ => f a := by
  unfold condition
  simp only [bind_assoc]
  rfl

theorem clause_branchStatement {w : Keyword} (h : Clause e (Cursor.Below k) (·.moved e.move) self self') :
    Clause e (Cursor.Facing (some (.keyword w)) (k + 1)) (·.moved e.move) (branchStatement self)
      (branchStatement self') := by
  unfold branchStatement
  rw [condition_bind, condition_bind]
  refine .skip nofun (.after (phrase_expect nofun) fun _ => .after phrase_expression fun cond =>
    .after (phrase_expect nofun) fun _ => .bind (clause_body h) fun thenBody => ?_)
  refine Closing.mono (.acceptElse (.bind (clause_body h) fun elseBody => closing_pure _) (closing_pure _)) ?_
  exact fun c hc => Nat.lt_succ_of_lt hc

theorem clause_whileStatement {w : Keyword} (h : Clause e (Cursor.Below k) (·.moved e.move) self self') :
    Clause e (Cursor.Facing (some (.keyword w)) (k + 1)) (·.moved e.move) (whileStatement self)
      (whileStatement self') := by
  unfold whileStatement
  rw [condition_bind, condition_bind]
  exact .skip nofun (.after (phrase_expect nofun) fun _ => .after phrase_expression fun cond =>
    .after (phrase_expect nofun) fun _ => .bind (clause_body h) fun _ => closing_pure _)

theorem clause_forStatement {w : Keyword} (h : Clause e (Cursor.Below k) (·.moved e.move) self self') :
    Clause e (Cursor.Facing (some (.keyword w)) (k + 1)) (·.moved e.move) (forStatement self)
      (forStatement self') :=
  .skip nofun (.after phrase_loopType? fun _ => .after phrase_name fun _ =>
    .after phrase_expectKeyword fun _ => .after phrase_loopValues fun _ =>
      .bind (clause_body h) fun _ => closing_pure _)

theorem clause_subroutineDefinition {w : Keyword}
    (h : Clause e (Cursor.Below k) (·.moved e.move) self self') :
    Clause e (Cursor.Facing (some (.keyword w)) (k + 1)) (·.moved e.move) (subroutineDefinition self)
      (subroutineDefinition self') := by
  have hresult : Phrase e (Cursor.Below k) (some <$> type) (some <$> type) :=
    .bind phrase_type fun _ => phrase_pure _
  refine .skip nofun (.after phrase_name fun _ => .after (phrase_expect nofun) fun _ =>
    .after (phrase_itemsBefore (phrase_formal.below (Nat.le_succ k))) fun _ =>
      .after (phrase_expect nofun) fun _ => .after (phrase_accept nofun) fun arrow => ?_)
  have hblock := (clause_block h).below (Nat.le_succ k)
  cases arrow with
  | true => exact .after hresult fun _ => .bind hblock fun _ => closing_pure _
  | false => exact .after (phrase_pure none) fun _ => .bind hblock fun _ => closing_pure _

theorem clause_gateDefinition {w : Keyword} (h : Clause e (Cursor.Below k) (·.moved e.move) self self') :
    Clause e (Cursor.Facing (some (.keyword w)) (k + 1)) (·.moved e.move) (gateDefinition self)
      (gateDefinition self') :=
  .skip nofun (.after phrase_name fun _ => .after phrase_gateParams fun _ => .after phrase_nameList fun _ =>
    .bind ((clause_block h).below (Nat.le_succ k)) fun _ => closing_pure _)

end Compound

section Levels

theorem clause_keywordStatement {w : Keyword} {kind : StatementKind} (hkind : kind.moved e.move = kind) :
    Clause e (Cursor.Facing (some (.keyword w)) (k + 1)) (·.moved e.move) (keywordStatement kind)
      (keywordStatement kind) :=
  .skip nofun (clause_ended hkind)

/-- A version line that comes late is not read at all. -/
theorem clause_late : Clause e (Cursor.Below k) (·.moved e.move) (keywordLed self .openqasm)
    (keywordLed self' .openqasm) := by
  let late (s : Source) (c : Cursor) : Except SyntaxError StatementKind :=
    .error ⟨.lateVersion, s.spanAt ((c.rest.head?.map PlacedToken.start).getD s.size)⟩
  have hphrase : Phrase e (Cursor.Below k) (keywordLed self .openqasm) (keywordLed self' .openqasm) := by
    refine .ofStay (late e.text) (late e.whole) (fun _ => rfl) (fun _ => rfl) ?_ ?_
    · intro c err herr t ht
      cases herr
      rw [ht]
      rfl
    · intro c c' hc hrest hmatch
      obtain ⟨t, ts, hts⟩ := List.exists_cons_of_ne_nil hrest
      have hspan : e.whole.spanAt (e.token t).start = e.move (e.text.spanAt t.start) :=
        e.spanAt t.start (hmatch.inside t (hts ▸ List.mem_cons_self)).1
      unfold late
      rw [hmatch.rest, hts]
      show Except.error (SyntaxError.mk .lateVersion (e.whole.spanAt (e.token t).start)) = _
      rw [hspan]
      rfl
  exact .ofFailing hphrase fun _ => ⟨_, rfl⟩

theorem clause_keywordLed (w : Keyword) (h : Clause e (Cursor.Below k) (·.moved e.move) self self') :
    Clause e (Cursor.Facing (some (.keyword w)) (k + 1)) (·.moved e.move) (keywordLed self w)
      (keywordLed self' w) := by
  have hfail : Clause e (Cursor.Facing (some (.keyword w)) (k + 1)) (·.moved e.move)
    (unexpected "statement" : Parser StatementKind) (unexpected "statement") := clause_unexpected _
  have hclassical : Clause e (Cursor.Facing (some (.keyword w)) (k + 1)) (·.moved e.move)
    classicalDeclaration classicalDeclaration := clause_classicalDeclaration.facing
  cases w with
  | openqasm => exact clause_late.facing
  | «include» => exact clause_includeStatement
  | qubit =>
    exact .skip nofun (.after phrase_designator? fun _ => .after phrase_name fun _ => clause_ended rfl)
  | qreg | creg =>
    exact .skip nofun (.after phrase_name fun _ => .after phrase_designator? fun _ => clause_ended rfl)
  | const | input | output => exact hclassical
  | «let» =>
    exact .skip nofun (.after phrase_name fun _ => .after (phrase_expect nofun) fun _ =>
      .after phrase_expression fun _ => clause_ended rfl)
  | measure => exact clause_measureStatement
  | reset => exact .skip nofun (.after phrase_operand fun _ => clause_ended rfl)
  | barrier => exact clause_barrierStatement
  | «if» => exact clause_branchStatement h
  | «for» => exact clause_forStatement h
  | «while» => exact clause_whileStatement h
  | «break» | «continue» => exact clause_keywordStatement rfl
  | «return» => exact clause_returnStatement
  | define => exact clause_subroutineDefinition h
  | gate => exact clause_gateDefinition h
  | inv | pow | ctrl | negctrl => exact clause_gateStatement.facing
  | _ => first | exact hclassical | exact hfail

theorem clause_statementKind (h : Clause e (Cursor.Below k) (·.moved e.move) self self') :
    Clause e (Cursor.Below (k + 1)) (·.moved e.move) (statementKind self) (statementKind self') := by
  refine .peek fun o => ?_
  cases o with
  | none => exact clause_unexpected _
  | some t =>
    cases t with
    | keyword w => exact clause_keywordLed w h
    | pragma text => exact clause_last _
    | name n => exact clause_nameStatement
    | punctuation s =>
      cases s with
      | lBrace => exact .facing (.bind (clause_block h) fun _ => closing_pure _)
      | atSign => exact clause_annotated nofun
      | _ => exact clause_unexpected _
    | _ => exact clause_unexpected _

theorem clause_nestedStatement (e : Excerpt) : ∀ n, Clause e (Cursor.Below n) (·.moved e.move)
    (nestedStatement n) (nestedStatement (n + e.after.length))
  | 0 => .ofNever fun _ => Nat.not_lt_zero _
  | n + 1 => by
    rw [Nat.add_right_comm]
    exact .here fun span => .bind (clause_statementKind (clause_nestedStatement e n)) fun kind => closing_pure _

/-- A statement is a clause. -/
theorem clause_statement {P : Cursor → Prop} : Clause e P (·.moved e.move) statement statement :=
  .ofBelow fun _ => .bounded fun n _ => clause_nestedStatement e n

end Levels

end OpenQasm.Excerpt
