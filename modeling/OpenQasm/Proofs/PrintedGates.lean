import OpenQasm.Flat.Print
import OpenQasm.Grammar.Statement
import OpenQasm.Proofs.PrintedNumbers
import OpenQasm.Proofs.PrintedPhrases

/-!
Printed gate operations. The controls are printed as counted runs, the parameters as numbers and the
operands as elements of registers; what is printed is read as one call of the gate.
-/
namespace OpenQasm

open OpenQasm.Parser OpenQasm.Grammar OpenQasm.Grammar.Nested OpenQasm.Token

def Control.modifier : Control → Option Expr → Modifier
  | positive => .ctrl
  | negative => .negctrl

/-- So many equal controls in a row. -/
structure ControlRun where
  state : Control
  count : Nat

namespace ControlRun

def text (r : ControlRun) : String :=
  (if r.count = 1 then r.state.word else r.state.word ++ "(" ++ toString r.count ++ ")") ++ " @ "

/-- The count, if it is written. -/
def written (r : ControlRun) : Option Expr := if r.count = 1 then none else some (.int r.count.toUInt64)

def modifier (r : ControlRun) : Modifier := r.state.modifier r.written

/-- The controls of the runs. -/
def controls (rs : List ControlRun) : List Control := rs.flatMap fun r => List.replicate r.count r.state

end ControlRun

theorem takeWhile_eq_replicate (c : Control) (cs : List Control) :
    cs.takeWhile (· = c) = List.replicate (cs.takeWhile (· = c)).length c := by
  refine List.eq_replicate_iff.2 ⟨rfl, fun d hd => ?_⟩
  have hsame := List.mem_takeWhile_imp hd
  exact of_decide_eq_true hsame

/-- Controls are printed as runs that they consist of. -/
theorem Gate.exists_runs (cs : List Control) : ∃ rs : List ControlRun,
    controlsText cs = String.join (rs.map ControlRun.text) ∧ ControlRun.controls rs = cs ∧
      ∀ r ∈ rs, 0 < r.count := by
  fun_induction controlsText cs with
  | case1 => exact ⟨[], rfl, rfl, nofun⟩
  | case2 c cs run word ih =>
    obtain ⟨rs, htext, hcontrols, hpos⟩ := ih
    have hrun : run = (cs.takeWhile (· = c)).length + 1 := Nat.add_comm _ _
    refine ⟨⟨c, run⟩ :: rs, ?_, ?_, List.forall_mem_cons.2 ⟨hrun ▸ Nat.succ_pos _, hpos⟩⟩
    · rw [htext, List.map_cons, String.join_cons]
      rfl
    · show List.replicate run c ++ ControlRun.controls rs = c :: cs
      rw [hcontrols, hrun, List.replicate_succ, ← takeWhile_eq_replicate, List.cons_append,
        List.takeWhile_append_dropWhile]

/-- An element of a register, given by the name of the register and the place. -/
structure NamedElement where
  name : String
  place : Nat

namespace NamedElement

def text (e : NamedElement) : String := e.name ++ "[" ++ toString e.place ++ "]"

def expr (e : NamedElement) : Expr := .index (.name e.name) [.single (.int e.place.toUInt64)]

/-- The element can be written. -/
structure Writable (e : NamedElement) : Prop where
  name : (Token.name e.name).Spells e.name
  place : e.place < Bound.literal

end NamedElement

section Scanning

/-- A run is printed as a modifier is. -/
theorem ControlRun.text_eq {r : ControlRun} (h : r.count < Bound.literal) :
    r.text = r.modifier.text ++ " @ " := by
  have hvalue : r.count.toUInt64.toNat = r.count := Nat.mod_eq_of_lt h
  obtain ⟨state, count⟩ := r
  unfold ControlRun.text ControlRun.modifier ControlRun.written
  by_cases hone : count = 1
  · cases state <;> simp only [if_pos hone] <;> rfl
  · have htext : (Expr.int count.toUInt64).text = toString count := congrArg _ hvalue
    cases state <;> simp only [if_neg hone, Control.modifier, Modifier.text, htext] <;> rfl

theorem ControlRun.printable {r : ControlRun} (h : r.count < Bound.literal) : r.modifier.Printable := by
  have hcount : optionPrintable r.written := by
    unfold ControlRun.written
    split
    · trivial
    · exact (printable_nat h).1
  unfold ControlRun.modifier
  cases r.state <;> exact hcount

/-- No parentheses are printed within a run. -/
theorem ControlRun.withParens_modifier (r : ControlRun) : r.modifier.withParens = r.modifier := by
  have hcount : optionWithParens r.written = r.written := by
    unfold ControlRun.written
    split <;> rfl
  unfold ControlRun.modifier
  cases r.state <;> exact congrArg _ hcount

/-- The names and places of elements are operands. -/
theorem NamedElement.Writable.operand {e : NamedElement} (h : e.Writable) : e.expr.isOperand = true ∧ e.expr.Printable := by
  obtain ⟨hplace, hbrace⟩ := printable_nat h.place
  exact ⟨rfl, h.name, rfl, List.cons_ne_nil _ _, ⟨hbrace, hplace⟩, trivial⟩

theorem NamedElement.Writable.text_eq {e : NamedElement} (h : e.Writable) : e.text = e.expr.text := by
  have hvalue : e.place.toUInt64.toNat = e.place := Nat.mod_eq_of_lt h.place
  show e.name ++ "[" ++ toString e.place ++ "]" = e.name ++ "[" ++ toString e.place.toUInt64.toNat ++ "]"
  rw [hvalue]

variable {elements : List NamedElement}

theorem operandsPrintable_elements (h : ∀ e ∈ elements, e.Writable) :
    operandsPrintable (elements.map NamedElement.expr) :=
  List.forall_mem_map.2 fun e he => (h e he).operand

/-- The tokens of an application of a gate. -/
def applicationTokens (rs : List ControlRun) (name : String) (args : List (List Token))
    (elements : List NamedElement) : List Token :=
  callTokens (rs.map ControlRun.modifier) name args (commaTokens (exprsTokens (elements.map NamedElement.expr)))

def applicationCall (rs : List ControlRun) (name : String) (args : List Expr)
    (elements : List NamedElement) : GateCall :=
  ⟨name, args, elements.map NamedElement.expr, rs.map ControlRun.modifier⟩

/-- The text of an application of a gate is cut into its tokens. -/
theorem scans_application {rs : List ControlRun} {name : String} {texts : List String}
    {args : List (List Token)} (hrs : ∀ r ∈ rs, r.count < Bound.literal)
    (hname : (Token.name name).Spells name) (hargs : List.Forall₂ (Scans closesToken) texts args)
    (helements : ∀ e ∈ elements, e.Writable) :
    Scans anything (String.join (rs.map ControlRun.text) ++
        (name ++ if texts.isEmpty then "" else "(" ++ ", ".intercalate texts ++ ")") ++ " " ++
        commaJoin (elements.map NamedElement.text) ++ ";")
      (applicationTokens rs name args elements) := by
  have hmodifiers : ∀ m ∈ rs.map ControlRun.modifier, m.Printable :=
    List.forall_mem_map.2 fun r hr => ControlRun.printable (hrs r hr)
  have hcall := scans_call hmodifiers hname hargs (scansEnd_exprs (operandsPrintable_elements helements).exprs)
  have hruns : (rs.map ControlRun.modifier).map (fun m => m.text ++ " @ ") = rs.map ControlRun.text := by
    rw [List.map_map]
    exact List.map_congr_left fun r hr => (ControlRun.text_eq (hrs r hr)).symm
  have hoperands : exprsText (elements.map NamedElement.expr) = commaJoin (elements.map NamedElement.text) := by
    rw [exprsText, List.map_map]
    exact congrArg _ (List.map_congr_left fun e he => (helements e he).text_eq.symm)
  rwa [hruns, hoperands] at hcall

end Scanning

section Reading

variable {next : Option Token} {n : String} {rs : List ControlRun} {elements : List NamedElement}
  {args : List (List Token)} {es : List Expr}

theorem reads_numerals (h : List.Forall₂ (fun ts e => ∃ x, SignedNumeral ts e x) args es) (hne : args ≠ []) :
    Reads Grammar.arguments (commaTokens args ++ [Token.punctuation .rParen]) next es := by
  have hopen : ∀ ts ∈ args, ∃ t ts', ts = t :: ts' ∧ t ≠ .punctuation .rParen := by
    clear hne
    induction h with
    | nil => nofun
    | cons he _ ih =>
      obtain ⟨x, hx⟩ := he
      exact List.forall_mem_cons.2 ⟨hx.opens, ih⟩
  have heach (n : Nat) : ReadEach (nested (n + 2)).whole (some (.punctuation .rParen)) args es := by
    clear hne hopen
    induction h with
    | nil => exact List.Forall₂.nil
    | cons he _ ih =>
      obtain ⟨x, hx⟩ := he
      exact List.Forall₂.cons ⟨hx.reads n rfl, hx.reads n rfl⟩ ih
  -- There is a token before the parenthesis, so the readers may be nested as deep as is needed.
  have hlength : 0 < (commaTokens args).length := by
    obtain ⟨ts, args', rfl⟩ := List.exists_cons_of_ne_nil hne
    obtain ⟨t, ts', rfl, -⟩ := hopen _ List.mem_cons_self
    have hle : (t :: ts').length ≤ (commaTokens ((t :: ts') :: args')).length :=
      length_le_commaTokens List.mem_cons_self
    exact Nat.lt_of_lt_of_le (Nat.succ_pos _) hle
  refine Reads.bounded fun k hk => ?_
  rw [List.length_append, List.length_singleton] at hk
  obtain ⟨n, rfl⟩ : ∃ n, k = n + 2 := ⟨k - 2, by omega⟩
  exact reads_arguments (heach n) hopen

/-- Names and places stand without parentheses. -/
theorem exprsWithParens_elements (elements : List NamedElement) :
    exprsWithParens (elements.map NamedElement.expr) = elements.map NamedElement.expr := by
  induction elements with
  | nil => rfl
  | cons e es ih =>
    rw [List.map_cons, exprsWithParens, ih]
    rfl

/-- The tokens of an application of a gate are read as a call of the gate. -/
theorem reads_application (hrs : ∀ r ∈ rs, r.count < Bound.literal)
    (h : List.Forall₂ (fun ts e => ∃ x, SignedNumeral ts e x) args es)
    (helements : ∀ e ∈ elements, e.Writable) (hne : elements ≠ []) (self : Parser Statement) :
    Reads (statementKind self) (applicationTokens rs n args elements) next
      (.gate (applicationCall rs n es elements)) := by
  have hoperands := operandsPrintable_elements helements
  have hne' : elements.map NamedElement.expr ≠ [] := fun hnil => hne (List.map_eq_nil_iff.1 hnil)
  have hcall : ReadsCall args es (commaTokens (exprsTokens (elements.map NamedElement.expr)))
      (elements.map NamedElement.expr) := by
    refine ⟨fun hnone => ?_, fun hargs _ => reads_numerals h hargs, ?_, operandTokens_first hoperands hne'⟩
    · subst hnone
      cases h
      rfl
    · have hread := reads_operandList hoperands hne'
      rwa [exprsWithParens_elements] at hread
  have hmodifiers : ∀ m ∈ rs.map ControlRun.modifier, m.Printable :=
    List.forall_mem_map.2 fun r hr => ControlRun.printable (hrs r hr)
  have hkept : (rs.map ControlRun.modifier).map Modifier.withParens = rs.map ControlRun.modifier := by
    rw [List.map_map]
    exact List.map_congr_left fun r _ => r.withParens_modifier
  have hread : Reads (Grammar.statementKind self) _ next _ := hcall.statementKind hmodifiers n self
  rw [hkept] at hread
  exact hread

/-- A text that holds the tokens of a statement is read as the statement, to its end and without an error. -/
theorem reads_statement {text : String} {ts : List Token} {kind : StatementKind}
    (hscans : Scans anything text ts) (hreads : ∀ self, Reads (statementKind self) ts none kind) :
    let source := Source.ofString text
    ∃ span c, Grammar.statement source (Grammar.cursor source) = (.ok ⟨kind, span⟩, c) ∧
      c.rest = [] ∧ c.errors = [] := by
  intro source
  obtain ⟨ps, hps, hcursor⟩ := cursor_of_scan hscans.scan
  let span := source.spanAt ((ps.head?.map (·.start)).getD source.size)
  let self : Parser Statement := fun s c => nestedStatement ps.length s c
  have hread : Reads (statementKind self >>= fun k => pure (Statement.mk k span)) ts none ⟨kind, span⟩ :=
    (hreads self).last (reads_pure _ none)
  have hrun := hread source (Cursor.start [] []) ps [] hps rfl
  rw [List.append_nil] at hrun
  have hstatement : Grammar.statement source (.start ps []) =
      (statementKind self >>= fun k => pure (Statement.mk k span)) source
        ((Cursor.start [] []).moveTo ps) := rfl
  rw [hcursor, hstatement, hrun]
  exact ⟨span, _, rfl, rfl, rfl⟩

end Reading

end OpenQasm
