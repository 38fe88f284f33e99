import OpenQasm.Proofs.LegibleExpressions
import OpenQasm.Proofs.SourceCharacters

/-!
Programs that have been read. What is printed for a program that was read from a text is read without an error as a
program that says the same, if its literals are printed as they are read.
-/
namespace OpenQasm

open OpenQasm.Parser OpenQasm.Grammar OpenQasm.Token

section Phrases

variable {n : String} {o : Option Token} {k : StatementKind} {es : List Expr}

/-- If the literals of the statement are legible, its text can be read. -/
def StatementKind.Sound (k : StatementKind) : Prop := k.Legible → k.Printable

def Statement.Sound (s : Statement) : Prop := s.Legible → s.Printable

def bodySound (body : List Statement) : Prop := bodyLegible body → bodyPrintable body

theorem grants_ended (h : k.Sound) : Grants (ended k) StatementKind.Sound := .expect (grants_pure h)

/-- An operand whose text can be read if its literals are legible. -/
def Expr.OperandSound (e : Expr) : Prop := e.isOperand = true ∧ e.Sound

theorem operands_sound (h : ∀ e ∈ es, e.OperandSound) (hes : exprsLegible es) : operandsPrintable es := fun e he =>
  ⟨(h e he).1, (h e he).2 (exprsLegible_iff.1 hes e he)⟩

theorem grants_operandList : Grants operandList fun es => es ≠ [] ∧ ∀ e ∈ es, e.OperandSound :=
  grants_commaSeparated grants_operand

theorem grants_nameList : Grants nameList fun ns => ns ≠ [] ∧ namesSpelled ns := grants_commaSeparated grants_name

theorem grants_includeStatement : Grants includeStatement StatementKind.Sound := by
  refine .skip (.peek fun o => ?_)
  split
  · next path =>
    intro s c k d hc ho hr
    exact grants_ended (k := .includeFile path) (fun _ => hc.head ho) _ s c.next k d hc.next rfl hr
  · exact grants_unexpected _ _

theorem grants_qubitDeclaration : Grants qubitDeclaration StatementKind.Sound :=
  .skip (grants_designator?.bind fun _ hsize => grants_name.bind fun _ hn =>
    grants_ended fun hlegible => ⟨hn, hsize hlegible⟩)

theorem grants_qregDeclaration : Grants qregDeclaration StatementKind.Sound :=
  .skip (grants_name.bind fun _ hn => grants_designator?.bind fun _ hsize =>
    grants_ended fun hlegible => ⟨hn, hsize hlegible⟩)

theorem grants_cregDeclaration : Grants cregDeclaration StatementKind.Sound :=
  .skip (grants_name.bind fun _ hn => grants_designator?.bind fun _ hsize =>
    grants_ended fun hlegible => ⟨hsize hlegible.type, hn, trivial⟩)

theorem grants_direction? : Grants direction? fun _ => True :=
  .acceptKeyword (grants_pure trivial) (.acceptKeyword (grants_pure trivial) (grants_pure trivial))

theorem grants_initializer? : Grants initializer? optionSound :=
  .accept (grants_expression.bind fun e he => grants_pure (a := some e) he) (grants_pure fun _ => trivial)

theorem grants_acceptKeyword (w : Keyword) : Grants (acceptKeyword w) fun _ => True := by
  rw [← Excerpt.bind_pure (acceptKeyword w)]
  exact .acceptKeyword (grants_pure trivial) (grants_pure trivial)

theorem grants_classicalDeclaration : Grants classicalDeclaration StatementKind.Sound :=
  (grants_acceptKeyword .const).bind fun _ _ => grants_direction?.bind fun _ _ => grants_type.bind fun _ htype =>
    grants_name.bind fun _ hn => grants_initializer?.bind fun _ hinit =>
      grants_ended fun hlegible => ⟨htype hlegible.type, hn, hinit hlegible.init⟩

theorem grants_aliasStatement : Grants aliasStatement StatementKind.Sound :=
  .skip (grants_name.bind fun _ hn => .expect (grants_expression.bind fun _ he =>
    grants_ended fun hlegible => ⟨hn, he hlegible⟩))

theorem grants_measureStatement : Grants measureStatement StatementKind.Sound :=
  .skip (grants_operand.bind fun _ hq => .accept
    (grants_operand.bind fun _ ht => grants_ended fun hlegible => ⟨⟨hq.1, hq.2 hlegible.1⟩, ht.1, ht.2 hlegible.2⟩)
    (grants_ended fun hlegible => ⟨hq.1, hq.2 hlegible.1⟩))

theorem grants_resetStatement : Grants resetStatement StatementKind.Sound :=
  .skip (grants_operand.bind fun _ he => grants_ended fun hlegible => ⟨he.1, he.2 hlegible⟩)

theorem grants_barrierStatement : Grants barrierStatement StatementKind.Sound := by
  refine .skip (.at? fun bare => ?_)
  cases bare with
  | true => exact grants_ended fun _ => nofun
  | false => exact grants_operandList.bind fun _ hes => grants_ended fun hlegible => operands_sound hes.2 hlegible

theorem grants_returnStatement : Grants returnStatement StatementKind.Sound := by
  refine .skip (.at? fun bare => ?_)
  cases bare with
  | true => exact grants_ended fun _ => trivial
  | false => exact grants_expression.bind fun _ he => grants_ended he

theorem grants_condition : Grants condition Expr.Sound :=
  .skip (.expect (grants_expression.bind fun _ he => .expect (grants_pure he)))

theorem grants_loopType? : Grants loopType? fun type => ∀ t ∈ type, t.Sound := by
  refine .peek fun o => ?_
  split
  · split
    · exact grants_type.bind (fun t ht => grants_pure fun _ ha => Option.mem_some.1 ha ▸ ht) _
    · exact grants_pure nofun _
  · exact grants_pure nofun _

theorem grants_loopValues : Grants loopValues fun v => v.Legible → v.Printable := by
  refine .accept (grants_range.bind fun r hr => .expect (grants_pure (a := LoopValues.range r) hr)) fun o => .at? ?_
  cases hbrace : isPunctuation .lBrace o with
  | true => exact grants_braced.bind (fun es hes => grants_pure (a := LoopValues.set es) hes) o
  | false =>
    exact (grantsFrom_expression o).bind fun e he => grants_pure (a := LoopValues.array e) fun hlegible =>
      ⟨he.opensBrace hbrace hlegible, he.sound hlegible⟩

theorem grants_skipAccess : Grants skipAccess fun _ => True := by
  refine .peek fun o => ?_
  split
  · split
    · exact grantsFrom_advance trivial
    · exact grants_pure trivial _
  · exact grants_pure trivial _

theorem grants_formal : Grants formal fun f => f.Legible → f.Printable :=
  grants_skipAccess.bind fun _ _ => .acceptKeyword
    (grants_designator?.bind fun size hsize => grants_name.bind fun n hn =>
      grants_pure (a := Formal.qubit n size) fun hlegible => ⟨hn, hsize hlegible⟩)
    (.acceptKeyword
      (grants_name.bind fun n hn => grants_designator?.bind fun size hsize =>
        grants_pure (a := Formal.qubit n size) fun hlegible => ⟨hn, hsize hlegible⟩)
      (grants_type.bind fun t ht => grants_name.bind fun n hn =>
        grants_pure (a := Formal.classical t n) fun hlegible => ⟨ht hlegible, hn⟩))

theorem grants_gateParams : Grants gateDefinition.gateParams namesSpelled :=
  .accept ((grants_itemsBefore grants_name .rParen).bind fun _ hns => .expect (grants_pure hns)) (grants_pure nofun)

theorem grants_controlCount? : Grants controlCount? optionSound :=
  .accept (grants_expression.bind fun e he => .expect (grants_pure (a := some e) he)) (grants_pure fun _ => trivial)

/-- If the literals of the modifier are legible, its text can be read. -/
def Modifier.Sound (m : Modifier) : Prop := m.Legible → m.Printable

theorem grants_modifier? : Grants modifier? fun found => ∀ m ∈ found, m.Sound := by
  have hsome {m : Modifier} (h : m.Sound) : ∀ m' ∈ some m, m'.Sound := fun _ ha => Option.mem_some.1 ha ▸ h
  refine .peek fun o => ?_
  split
  · exact grantsFrom_advance (hsome fun _ => trivial)
  · refine Grants.skip (.expect (grants_expression.bind fun e he => .expect ?_)) _
    exact grants_pure (hsome (m := .pow e) he)
  · exact Grants.skip (grants_controlCount?.bind fun count hcount => grants_pure (hsome (m := .ctrl count) hcount)) _
  · exact Grants.skip (grants_controlCount?.bind fun count hcount => grants_pure (hsome (m := .negctrl count) hcount)) _
  · exact grants_pure nofun _

theorem grants_modifiers : ∀ n, Grants (modifiers n) fun ms => ∀ m ∈ ms, m.Sound
  | 0 => grants_pure nofun
  | n + 1 => grants_modifier?.bind fun m hm => by
    cases m with
    | none => exact grants_pure nofun
    | some m =>
      refine .expect ((grants_modifiers n).bind fun ms hms => grants_pure ?_)
      exact List.forall_mem_cons.2 ⟨hm m rfl, hms⟩

theorem grants_gateOperands {ms : List Modifier} {params : List Expr} (hms : ∀ m ∈ ms, m.Sound)
    (hn : (Token.name n).Spells n) (hparams : exprsLegible params → exprsPrintable params) :
    Grants (gateOperands ms n params) StatementKind.Sound :=
  grants_operandList.bind fun _ hqubits => grants_ended fun hlegible =>
    ⟨hn, hparams hlegible.params, operands_sound hqubits.2 hlegible.qubits, hqubits.1,
      fun m hm => hms m hm (hlegible.modifiers m hm)⟩

theorem grants_gateStatement : Grants gateStatement StatementKind.Sound :=
  (Grants.bounded grants_modifiers).bind fun _ hms => grants_name.bind fun _ hn => .accept
    (grants_arguments.bind fun _ hparams => grants_gateOperands hms hn hparams)
    (grants_gateOperands hms hn fun _ => trivial)

/-- What is assigned by a plain assignment is no measurement, which is a statement by itself. -/
theorem grants_assignment : Grants assignment StatementKind.Sound := by
  refine grants_operand.bind fun target htarget => .peek fun o => ?_
  split
  · refine Grants.skip (grants_expression.bind fun value hvalue => ?_) _
    split
    · next q _ =>
      refine grants_ended fun hlegible => ?_
      have hq : q.isOperand = true ∧ q.Printable := hvalue hlegible.1
      exact ⟨hq, htarget.1, htarget.2 hlegible.2⟩
    · next hmeasure =>
      refine grants_ended fun hlegible => ⟨⟨htarget.1, htarget.2 hlegible.1⟩, hvalue hlegible.2, fun hset => ?_⟩
      cases value with
      | measure q => exact (hmeasure q hset rfl).elim
      | _ => rfl
  · exact grants_unexpected _ _

theorem grants_peekSecond {f : Option Token → Parser StatementKind} (h : ∀ o, Grants (f o) StatementKind.Sound) :
    Grants (peekSecond >>= f) StatementKind.Sound :=
  fun _ s c k d hc _ hr => h _ _ s c k d hc rfl hr

theorem grants_nameStatement : Grants nameStatement StatementKind.Sound := by
  refine grants_peekSecond fun o => ?_
  split
  · refine grants_name.bind fun n hn => .expect (grants_arguments.bind fun args hargs => .accept ?_ ?_)
    · exact grants_pure (a := StatementKind.evaluate (.call n args)) fun hlegible => ⟨rfl, hn, hargs hlegible⟩
    · exact grants_gateOperands nofun hn hargs
  · exact grants_gateStatement
  · exact grants_name.bind fun n hn => grants_ended (k := .evaluate (.name n)) fun _ => ⟨rfl, hn⟩
  · exact grants_assignment

/-- An annotation ends with its line. -/
theorem contentPrintable_lineRest (s : Source) (offset : Nat)
    (hvalid : LexicallyValid (trimBlanks (s.lineRest offset))) :
    ContentPrintable (String.ofList (trimBlanks (s.lineRest offset))) := by
  refine ⟨?_, ?_, ?_⟩ <;> rw [String.toList_ofList]
  · intro hmem
    have hline : decide ('\n' ≠ '\n') = true := List.mem_takeWhile_imp (p := (· ≠ '\n')) (trimBlanks_subset _ hmem)
    exact of_decide_eq_true hline rfl
  · exact trimBlanks_idem _
  · exact hvalid

theorem grants_annotated : Grants annotated StatementKind.Sound := by
  rw [Excerpt.annotated_eq]
  refine .skip (.peek fun o => ?_)
  split
  · next n =>
    intro s c k d hc ho hr
    cases hr
    refine ⟨hc.suffix ((List.dropWhile_suffix _).trans (List.tail_suffix _)), fun hlegible => ⟨hc.head ho, ?_⟩⟩
    rw [StatementKind.Legible, String.toList_ofList] at hlegible
    exact contentPrintable_lineRest s _ hlegible
  · exact grants_unexpected _ _

end Phrases

section Blocks

variable {α : Type} {p : Parser α} {P : α → Prop} {self : Parser Statement}

/-- A statement that cannot be read is left out. -/
theorem grants_recovering (hforward : Forward p) (h : Grants p P) : Grants (recovering p) fun o => ∀ a ∈ o, P a := by
  intro o s c found d hc ho hr
  have hsuffix := forward_recovering hforward s c
  rw [hr] at hsuffix
  refine ⟨hc.suffix hsuffix, fun a ha => ?_⟩
  rw [Excerpt.run_recovering] at hr
  rcases hp : p s c with ⟨err | a', e⟩ <;> rw [hp] at hr <;> cases hr
  · nomatch ha
  · cases ha
    exact (h o s c a d hc ho hp).2

theorem grants_moving (keep : PlacedToken → Bool) (h : Grants p P) : Grants (moving keep p) P := by
  intro o s c a d hc ho hr
  rw [Excerpt.run_moving] at hr
  rcases hp : p s c with ⟨err | a', e⟩ <;> rw [hp] at hr <;> dsimp only at hr <;> split at hr <;> cases hr
  · have hread := h o s c a e hc ho hp
    exact ⟨hread.1.next, hread.2⟩
  · exact h o s c a d hc ho hp

theorem bodySound_append {first : Option Statement} {others : List Statement} (hfirst : ∀ a ∈ first, a.Sound)
    (hothers : bodySound others) : bodySound (first.toList ++ others) := by
  cases first with
  | none => exact hothers
  | some a => exact fun hlegible => ⟨hfirst a rfl hlegible.1, hothers hlegible.2⟩

theorem grants_blockItems (hforward : Forward self) (h : Grants self Statement.Sound) :
    ∀ n, Grants (blockItems self n) bodySound
  | 0 => grants_pure fun _ => trivial
  | n + 1 => .peek fun o => by
    have hitems := (grants_moving (fun t => isPunctuation .rBrace (some t.token)) (grants_recovering hforward h)).bind
      fun first hfirst => (grants_blockItems hforward h n).bind fun others hothers =>
        grants_pure (bodySound_append hfirst hothers)
    split
    · exact grants_pure (fun _ => trivial) _
    · exact grants_pure (fun _ => trivial) _
    · exact hitems _

theorem grants_inBlock (h : Grants p P) : Grants (inBlock p) P := by
  intro o s c a d hc ho hr
  rcases hp : p s { c with nesting := c.nesting + 1 } with ⟨r, e⟩
  have hrun : inBlock p s c = (r, { e with nesting := e.nesting - 1 }) := by
    unfold inBlock
    rw [hp]
  rw [hrun] at hr
  cases hr
  exact h o s { c with nesting := c.nesting + 1 } a e hc ho hp

theorem grants_block (hforward : Forward self) (h : Grants self Statement.Sound) : Grants (block self) bodySound :=
  .expect ((grants_inBlock (.bounded (grants_blockItems hforward h))).bind fun _ hbody => .expect (grants_pure hbody))

theorem grants_body (hforward : Forward self) (h : Grants self Statement.Sound) : Grants (body self) bodySound := by
  refine .at? fun brace => ?_
  cases brace with
  | true => exact grants_block hforward h
  | false => exact h.bind fun s hs => grants_pure (a := [s]) fun hlegible => ⟨hs hlegible.1, trivial⟩

end Blocks

section Statements

variable {self : Parser Statement}

theorem grants_branchStatement (hforward : Forward self) (h : Grants self Statement.Sound) :
    Grants (branchStatement self) StatementKind.Sound :=
  grants_condition.bind fun _ hcond => (grants_body hforward h).bind fun _ hthen => .acceptKeyword
    ((grants_body hforward h).bind fun _ helse =>
      grants_pure fun hlegible => ⟨hcond hlegible.1, hthen hlegible.2.1, helse hlegible.2.2⟩)
    (grants_pure fun hlegible => ⟨hcond hlegible.1, hthen hlegible.2⟩)

theorem grants_forStatement (hforward : Forward self) (h : Grants self Statement.Sound) :
    Grants (forStatement self) StatementKind.Sound :=
  .skip (grants_loopType?.bind fun _ htype => grants_name.bind fun _ hn => .expectKeyword
    (grants_loopValues.bind fun _ hvalues => (grants_body hforward h).bind fun _ hbody => grants_pure fun hlegible =>
      ⟨fun t ht => htype t ht (hlegible.1 t ht), hn, hvalues hlegible.2.1, hbody hlegible.2.2⟩))

theorem grants_whileStatement (hforward : Forward self) (h : Grants self Statement.Sound) :
    Grants (whileStatement self) StatementKind.Sound :=
  grants_condition.bind fun _ hcond => (grants_body hforward h).bind fun _ hbody =>
    grants_pure fun hlegible => ⟨hcond hlegible.1, hbody hlegible.2⟩

theorem grants_subroutineDefinition (hforward : Forward self) (h : Grants self Statement.Sound) :
    Grants (subroutineDefinition self) StatementKind.Sound := by
  refine .skip (grants_name.bind fun n hn => .expect ((grants_itemsBefore grants_formal .rParen).bind
    fun formals hformals => .expect ?_))
  have hdefinition (result : Option TypeExpr) (hresult : ∀ t ∈ result, t.Sound) :
      Grants (block self >>= fun body => pure (StatementKind.defineSubroutine ⟨n, formals, result, body⟩))
        StatementKind.Sound :=
    (grants_block hforward h).bind fun body hbody => grants_pure fun hlegible => ⟨hn,
      fun f hf => hformals f hf (hlegible.1 f hf), fun t ht => hresult t ht (hlegible.2.1 t ht), hbody hlegible.2.2⟩
  have htype : Grants (some <$> type) fun result => ∀ t ∈ result, t.Sound :=
    grants_type.bind fun t ht => grants_pure fun _ ha => Option.mem_some.1 ha ▸ ht
  exact .accept (htype.bind hdefinition) (hdefinition none nofun)

theorem grants_gateDefinition (hforward : Forward self) (h : Grants self Statement.Sound) :
    Grants (gateDefinition self) StatementKind.Sound :=
  .skip (grants_name.bind fun _ hn => grants_gateParams.bind fun _ hparams => grants_nameList.bind fun _ hqubits =>
    (grants_block hforward h).bind fun _ hbody => grants_pure fun hlegible =>
      ⟨hn, hparams, hqubits.2, hqubits.1, hbody hlegible⟩)

theorem grants_keywordStatement {k : StatementKind} (h : k.Sound) : Grants (keywordStatement k) StatementKind.Sound :=
  .skip (grants_ended h)

theorem grants_keywordLed (hforward : Forward self) (h : Grants self Statement.Sound) (w : Keyword) :
    Grants (keywordLed self w) StatementKind.Sound := by
  cases w with
  | openqasm => exact fun _ _ _ _ _ _ _ hr => nomatch hr
  | «include» => exact grants_includeStatement
  | qubit => exact grants_qubitDeclaration
  | qreg => exact grants_qregDeclaration
  | creg => exact grants_cregDeclaration
  | «let» => exact grants_aliasStatement
  | measure => exact grants_measureStatement
  | reset => exact grants_resetStatement
  | barrier => exact grants_barrierStatement
  | «if» => exact grants_branchStatement hforward h
  | «for» => exact grants_forStatement hforward h
  | «while» => exact grants_whileStatement hforward h
  | «break» => exact grants_keywordStatement (k := .breakLoop) fun _ => trivial
  | «continue» => exact grants_keywordStatement (k := .continueLoop) fun _ => trivial
  | «return» => exact grants_returnStatement
  | define => exact grants_subroutineDefinition hforward h
  | gate => exact grants_gateDefinition hforward h
  | inv | pow | ctrl | negctrl => exact grants_gateStatement
  | _ => first | exact grants_classicalDeclaration | exact grants_unexpected _

theorem grants_statementKind (hforward : Forward self) (h : Grants self Statement.Sound) :
    Grants (statementKind self) StatementKind.Sound := by
  refine .peek fun o => ?_
  split
  · exact grants_keywordLed hforward h _ _
  · exact (grants_block hforward h).bind (fun body hbody => grants_pure (a := StatementKind.block body) hbody) _
  · next text =>
    intro s c k d hc ho hr
    cases hr
    exact ⟨hc.next, fun _ => hc.head ho⟩
  · exact grants_annotated _
  · exact grants_nameStatement _
  · exact grants_unexpected _ _

theorem grants_statementLevel (hforward : Forward self) (h : Grants self Statement.Sound) :
    Grants (statementLevel self) Statement.Sound := by
  have hhere : Grants here fun _ => True := fun _ _ _ _ _ hc _ hr => by
    cases hr
    exact ⟨hc, trivial⟩
  exact hhere.bind fun span _ => (grants_statementKind hforward h).bind fun k hk =>
    grants_pure (a := Statement.mk k span) hk

theorem grants_nestedStatement : ∀ n, Grants (nestedStatement n) Statement.Sound
  | 0 => grants_unexpected _
  | n + 1 => grants_statementLevel (forward_nestedStatement n) (grants_nestedStatement n)

theorem grants_statement : Grants statement Statement.Sound := .bounded grants_nestedStatement

end Statements

section Decisions

deriving instance DecidableEq for Token
deriving instance DecidableEq for Piece

instance (t : Token) (text : String) : Decidable (t.Spells text) :=
  match h : text.toList with
  | [] => isFalse (by rintro ⟨c, cs, htext, -⟩; cases h.symm.trans htext)
  | c :: cs => decidable_of_iff (headPiece c cs = (.token t, cs.length + 1))
    ⟨fun hpiece => ⟨c, cs, h, hpiece⟩, by rintro ⟨c', cs', htext, hpiece⟩; cases h.symm.trans htext; exact hpiece⟩

mutual

def Expr.decideLegible : (e : Expr) → Decidable e.Legible
  | .float x => inferInstanceAs (Decidable ((Token.float x).Spells (Decimal.literal x)))
  | .imaginary x => inferInstanceAs (Decidable ((Token.imaginary x).Spells (Decimal.literal x ++ "im")))
  | .duration x u => inferInstanceAs (Decidable ((Token.duration x u).Spells (Decimal.literal x ++ u.text)))
  | .bits digits => inferInstanceAs (Decidable (digits ≠ ""))
  | .int _ | .bool _ | .name _ | .constant _ => isTrue trivial
  | .unary _ e | .measure e | .paren e => e.decideLegible
  | .binary l _ r => @instDecidableAnd _ _ l.decideLegible r.decideLegible
  | .call _ es | .array es => decideExprsLegible es
  | .index base items => @instDecidableAnd _ _ base.decideLegible (decideItemsLegible items)
  | .cast type e => @instDecidableAnd _ _ type.decideLegible e.decideLegible

def decideExprsLegible : (es : List Expr) → Decidable (exprsLegible es)
  | [] => isTrue trivial
  | e :: es => @instDecidableAnd _ _ e.decideLegible (decideExprsLegible es)

def decideOptionLegible : (o : Option Expr) → Decidable (optionLegible o)
  | none => isTrue trivial
  | some e => e.decideLegible

def RangeExpr.decideLegible : (r : RangeExpr) → Decidable r.Legible
  | ⟨start, step, stop⟩ => @instDecidableAnd _ _ (decideOptionLegible start)
      (@instDecidableAnd _ _ (decideOptionLegible step) (decideOptionLegible stop))

def IndexItem.decideLegible : (i : IndexItem) → Decidable i.Legible
  | .single e => e.decideLegible
  | .range r => r.decideLegible
  | .set items => decideExprsLegible items

def decideItemsLegible : (is : List IndexItem) → Decidable (itemsLegible is)
  | [] => isTrue trivial
  | i :: is => @instDecidableAnd _ _ i.decideLegible (decideItemsLegible is)

def TypeExpr.decideLegible : (t : TypeExpr) → Decidable t.Legible
  | .bool | .duration | .stretch => isTrue trivial
  | .sized _ width => decideOptionLegible width
  | .array element dims => @instDecidableAnd _ _ element.decideLegible (decideExprsLegible dims)

end

instance : DecidablePred Expr.Legible := Expr.decideLegible
instance : DecidablePred exprsLegible := decideExprsLegible
instance : DecidablePred optionLegible := decideOptionLegible
instance : DecidablePred RangeExpr.Legible := RangeExpr.decideLegible
instance : DecidablePred TypeExpr.Legible := TypeExpr.decideLegible

instance : DecidablePred LoopValues.Legible
  | .range r => inferInstanceAs (Decidable r.Legible)
  | .set items => inferInstanceAs (Decidable (exprsLegible items))
  | .array e => inferInstanceAs (Decidable e.Legible)

instance : DecidablePred Modifier.Legible
  | .ctrl count | .negctrl count => inferInstanceAs (Decidable (optionLegible count))
  | .inv => isTrue trivial
  | .pow e => inferInstanceAs (Decidable e.Legible)

instance : DecidablePred GateCall.Legible := fun c =>
  decidable_of_iff (exprsLegible c.params ∧ exprsLegible c.qubits ∧ ∀ m ∈ c.modifiers, m.Legible)
    ⟨fun ⟨h₁, h₂, h₃⟩ => ⟨h₁, h₂, h₃⟩, fun ⟨h₁, h₂, h₃⟩ => ⟨h₁, h₂, h₃⟩⟩

instance : DecidablePred ClassicalDecl.Legible := fun d =>
  decidable_of_iff (d.type.Legible ∧ optionLegible d.init) ⟨fun ⟨h₁, h₂⟩ => ⟨h₁, h₂⟩, fun ⟨h₁, h₂⟩ => ⟨h₁, h₂⟩⟩

instance : DecidablePred Formal.Legible
  | .classical t _ => inferInstanceAs (Decidable t.Legible)
  | .qubit _ size => inferInstanceAs (Decidable (optionLegible size))

instance : DecidablePred LexicallyValid := fun cs =>
  inferInstanceAs (Decidable (∀ l ∈ scanFrom 0 cs, l.token ≠ none))

mutual

def Statement.decideLegible : (s : Statement) → Decidable s.Legible
  | ⟨kind, _⟩ => kind.decideLegible

def StatementKind.decideLegible : (k : StatementKind) → Decidable k.Legible
  | .includeFile _ | .breakLoop | .continueLoop | .pragma _ => isTrue trivial
  | .qubits _ size => inferInstanceAs (Decidable (optionLegible size))
  | .classical d => inferInstanceAs (Decidable d.Legible)
  | .alias _ e | .reset e | .evaluate e => inferInstanceAs (Decidable e.Legible)
  | .gate c => inferInstanceAs (Decidable c.Legible)
  | .measure q target => inferInstanceAs (Decidable (q.Legible ∧ optionLegible target))
  | .barrier es => inferInstanceAs (Decidable (exprsLegible es))
  | .branch c thenBody none => @instDecidableAnd _ _ c.decideLegible (decideBodyLegible thenBody)
  | .branch c thenBody (some elseBody) =>
    @instDecidableAnd _ _ c.decideLegible
      (@instDecidableAnd _ _ (decideBodyLegible thenBody) (decideBodyLegible elseBody))
  | .forLoop type _ values body => @instDecidableAnd _ _ (inferInstanceAs (Decidable (∀ t ∈ type, t.Legible)))
      (@instDecidableAnd _ _ (inferInstanceAs (Decidable values.Legible)) (decideBodyLegible body))
  | .whileLoop c body => @instDecidableAnd _ _ c.decideLegible (decideBodyLegible body)
  | .returnValue value => inferInstanceAs (Decidable (optionLegible value))
  | .block body => decideBodyLegible body
  | .defineSubroutine d => d.decideLegible
  | .defineGate d => d.decideLegible
  | .assign target _ e => inferInstanceAs (Decidable (target.Legible ∧ e.Legible))
  | .annotated _ content => inferInstanceAs (Decidable (LexicallyValid content.toList))

def SubroutineDefinition.decideLegible : (d : SubroutineDefinition) → Decidable d.Legible
  | ⟨_, formals, result, body⟩ => @instDecidableAnd _ _ (inferInstanceAs (Decidable (∀ f ∈ formals, f.Legible)))
      (@instDecidableAnd _ _ (inferInstanceAs (Decidable (∀ t ∈ result, t.Legible))) (decideBodyLegible body))

def GateDefinition.decideLegible : (d : GateDefinition) → Decidable d.Legible
  | ⟨_, _, _, body⟩ => decideBodyLegible body

def decideBodyLegible : (body : List Statement) → Decidable (bodyLegible body)
  | [] => isTrue trivial
  | s :: ss => @instDecidableAnd _ _ s.decideLegible (decideBodyLegible ss)

end

instance : DecidablePred bodyLegible := decideBodyLegible

/-- A duration that is printed with an exponent and a bit string without digits are not legible. -/
example : ¬bodyLegible (Program.parse "duration d = 0.00001s;\n").1.statements ∧
    ¬bodyLegible (Program.parse "bit b = \"_\";\n").1.statements := by
  rw [Program.parse_ofList, Program.parse_ofList]
  decide +kernel

end Decisions

section Programs

variable {v : String}

theorem grants_statements : ∀ n, Grants (statements n) bodySound
  | 0 => grants_pure fun _ => trivial
  | n + 1 => .peek fun o => by
    have hitem := grants_moving (fun _ => false) (grants_recovering forward_statement grants_statement)
    split
    · exact grants_pure (fun _ => trivial) _
    · exact (hitem.bind fun _ hfirst => (grants_statements n).bind fun _ hothers =>
        grants_pure (bodySound_append hfirst hothers)) _

theorem grants_versionLine : Grants versionLine fun v => knownVersion v = true := by
  intro o s c v d hc _ hr
  obtain ⟨t, u, w, ts, hrest, -, hknown, -, rfl⟩ := versionLine_ok_iff.1 hr
  have hsuffix : ts <:+ c.rest := ⟨[t, u, w], hrest.symm⟩
  exact ⟨hc.suffix hsuffix, hknown⟩

theorem grants_version? : Grants version? fun version => ∀ v ∈ version, knownVersion v = true := by
  refine .peek fun o => ?_
  split
  · exact grants_recovering forward_versionLine grants_versionLine _
  · exact grants_pure nofun _

/-- If the literals of the program are legible, its text can be read. -/
theorem grants_program : Grants Grammar.program fun p => p.Legible → p.Printable :=
  grants_version?.bind fun version hversion => (Grants.bounded grants_statements).bind fun body hbody =>
    grants_pure (a := Program.mk version body) fun hlegible => by
      refine ⟨fun v hv => ⟨hversion v hv, ?_⟩, hbody hlegible.statements⟩
      obtain ⟨x, hspells, hliteral⟩ := hlegible.version v hv
      exact ⟨.float x, hspells, rfl, congrArg some hliteral⟩

/-- All tokens of a text are printed as they are read. -/
theorem kept_cursor (text : String) : (Grammar.cursor (Source.ofString text)).Kept := by
  intro t ht
  have hplaced : t ∈ tokensFrom 0 text.toList := ht
  exact kept_tokensFrom hplaced

/-- What is printed for a program that was read is read without an error, as a program that says the same, if the
literals are printed as they are read. -/
theorem legible_program_reads_back (text : String) (h : (Program.parse text).1.Legible) :
    (Program.parse (Program.parse text).1.text).2 = [] ∧
      (Program.parse (Program.parse text).1.text).1.plain = (Program.parse text).1.plain := by
  obtain ⟨v, -, body, d, -, -, hrun⟩ := program_run (Source.ofString text) (Grammar.cursor (Source.ofString text))
  have hparse : (Program.parse text).1 = ⟨v, body⟩ := by
    unfold Program.parse
    dsimp only
    rw [hrun]
  rw [hparse] at h ⊢
  exact printed_program_reads_back ((grants_program _ _ _ _ d (kept_cursor text) rfl hrun).2 h)

theorem rotation_reads_back :
    let text := "OPENQASM 3.0;\nqubit[2] q;\nbit[2] c;\nctrl @ rx(-(pi / 0.5)) q[0], q[1];\nc = measure q;\n" ++
      "if (c[0] == 1) x q[1];\nelse \x7b @note kept\n reset q; \x7d\n"
    (Program.parse text).1.Legible ∧ (Program.parse (Program.parse text).1.text).2 = [] ∧
      (Program.parse (Program.parse text).1.text).1.plain = (Program.parse text).1.plain := by
  intro text
  obtain ⟨hversion, hbody⟩ : (Program.parse text).1.version = some "3.0" ∧
      bodyLegible (Program.parse text).1.statements := by
    unfold text
    rw [← String.ofList_append, Program.parse_ofList]
    decide +kernel
  have hlegible : (Program.parse text).1.Legible := by
    refine ⟨fun v hv => ?_, hbody⟩
    obtain rfl : v = "3.0" := Option.some.inj (hv.symm.trans hversion)
    exact ⟨3.0, by decide +kernel, by decide +kernel⟩
  exact ⟨hlegible, legible_program_reads_back text hlegible⟩

end Programs

end OpenQasm
