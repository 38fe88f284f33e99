import Mathlib.Data.List.DropRight
import Mathlib.Data.List.TakeWhile
import OpenQasm.Proofs.PrintedLiterals
import OpenQasm.Proofs.PrintedPrograms

/-!
What has to hold of the literals of a program so that its text can be read, and what holds of the names, strings and
pragmas of every text: they are printed as they are read.
-/
namespace OpenQasm

open OpenQasm.Token

section Literals

mutual

/-- Numbers that are printed as the literal that is read as them, and bit strings that have a digit. -/
def Expr.Legible : Expr → Prop
  | .float x => (Token.float x).Spells (Decimal.literal x)
  | .imaginary x => (Token.imaginary x).Spells (Decimal.literal x ++ "im")
  | .duration x u => (Token.duration x u).Spells (Decimal.literal x ++ u.text)
  | .bits digits => digits ≠ ""
  | .int _ | .bool _ | .name _ | .constant _ => True
  | .unary _ e | .measure e | .paren e => e.Legible
  | .binary l _ r => l.Legible ∧ r.Legible
  | .call _ es | .array es => exprsLegible es
  | .index base items => base.Legible ∧ itemsLegible items
  | .cast type e => type.Legible ∧ e.Legible

def exprsLegible : List Expr → Prop
  | [] => True
  | e :: es => e.Legible ∧ exprsLegible es

def optionLegible : Option Expr → Prop
  | none => True
  | some e => e.Legible

def RangeExpr.Legible : RangeExpr → Prop
  | ⟨start, step, stop⟩ => optionLegible start ∧ optionLegible step ∧ optionLegible stop

def IndexItem.Legible : IndexItem → Prop
  | .single e => e.Legible
  | .range r => r.Legible
  | .set items => exprsLegible items

def itemsLegible : List IndexItem → Prop
  | [] => True
  | i :: is => i.Legible ∧ itemsLegible is

def TypeExpr.Legible : TypeExpr → Prop
  | .bool | .duration | .stretch => True
  | .sized _ width => optionLegible width
  | .array element dims => element.Legible ∧ exprsLegible dims

end

def LoopValues.Legible : LoopValues → Prop
  | .range r => r.Legible
  | .set items => exprsLegible items
  | .array e => e.Legible

def Modifier.Legible : Modifier → Prop
  | .ctrl count | .negctrl count => optionLegible count
  | .inv => True
  | .pow e => e.Legible

structure GateCall.Legible (c : GateCall) : Prop where
  params : exprsLegible c.params
  qubits : exprsLegible c.qubits
  modifiers : ∀ m ∈ c.modifiers, m.Legible

structure ClassicalDecl.Legible (d : ClassicalDecl) : Prop where
  type : d.type.Legible
  init : optionLegible d.init

def Formal.Legible : Formal → Prop
  | .classical t _ => t.Legible
  | .qubit _ size => optionLegible size

mutual

def Statement.Legible : Statement → Prop
  | ⟨kind, _⟩ => kind.Legible

/-- Statements with literals that are, where no annotation starts a string or a comment that its line does not end. -/
def StatementKind.Legible : StatementKind → Prop
  | .includeFile _ | .breakLoop | .continueLoop | .pragma _ => True
  | .qubits _ size => optionLegible size
  | .classical d => d.Legible
  | .alias _ e | .reset e | .evaluate e => e.Legible
  | .gate c => c.Legible
  | .measure q target => q.Legible ∧ optionLegible target
  | .barrier es => exprsLegible es
  | .branch c thenBody none => c.Legible ∧ bodyLegible thenBody
  | .branch c thenBody (some elseBody) => c.Legible ∧ bodyLegible thenBody ∧ bodyLegible elseBody
  | .forLoop type _ values body => (∀ t ∈ type, t.Legible) ∧ values.Legible ∧ bodyLegible body
  | .whileLoop c body => c.Legible ∧ bodyLegible body
  | .returnValue value => optionLegible value
  | .block body => bodyLegible body
  | .defineSubroutine d => d.Legible
  | .defineGate d => d.Legible
  | .assign target _ e => target.Legible ∧ e.Legible
  | .annotated _ content => LexicallyValid content.toList

def SubroutineDefinition.Legible : SubroutineDefinition → Prop
  | ⟨_, formals, result, body⟩ => (∀ f ∈ formals, f.Legible) ∧ (∀ t ∈ result, t.Legible) ∧ bodyLegible body

def GateDefinition.Legible : GateDefinition → Prop
  | ⟨_, _, _, body⟩ => bodyLegible body

def bodyLegible : List Statement → Prop
  | [] => True
  | s :: ss => s.Legible ∧ bodyLegible ss

end

/-- A program whose literals are printed as they are read, its version among them. -/
structure Program.Legible (p : Program) : Prop where
  version : ∀ v ∈ p.version, ∃ x, (Token.float x).Spells v ∧ Decimal.literal x = v
  statements : bodyLegible p.statements

theorem exprsLegible_iff {es : List Expr} : exprsLegible es ↔ ∀ e ∈ es, e.Legible := by
  induction es with
  | nil => exact ⟨fun _ => nofun, fun _ => trivial⟩
  | cons e es ih => rw [exprsLegible, List.forall_mem_cons, ih]

theorem itemsLegible_iff {is : List IndexItem} : itemsLegible is ↔ ∀ i ∈ is, i.Legible := by
  induction is with
  | nil => exact ⟨fun _ => nofun, fun _ => trivial⟩
  | cons i is ih => rw [itemsLegible, List.forall_mem_cons, ih]

theorem itemsPrintable_iff {is : List IndexItem} : itemsPrintable is ↔ ∀ i ∈ is, i.Printable := by
  induction is with
  | nil => exact ⟨fun _ => nofun, fun _ => trivial⟩
  | cons i is ih => rw [itemsPrintable, List.forall_mem_cons, ih]

end Literals

section Blanks

theorem trimBlanks_eq (cs : List Char) : trimBlanks cs = (cs.dropWhile isBlank).rdropWhile isBlank := rfl

theorem dropWhile_trimBlanks (cs : List Char) : (trimBlanks cs).dropWhile isBlank = trimBlanks cs := by
  rw [trimBlanks_eq]
  have hprefix := List.rdropWhile_prefix isBlank (cs.dropWhile isBlank)
  cases htrimmed : (cs.dropWhile isBlank).rdropWhile isBlank with
  | nil => rfl
  | cons x xs =>
    rw [htrimmed] at hprefix
    obtain ⟨ys, hys⟩ := hprefix
    have hx : isBlank x = false := by
      have hhead := List.head_dropWhile_not (p := isBlank) (l := cs) (by rw [← hys]; exact List.cons_ne_nil _ _)
      simpa [← hys] using hhead
    rw [List.dropWhile_cons, if_neg (Bool.eq_false_iff.1 hx)]

theorem trimBlanks_idem (cs : List Char) : trimBlanks (trimBlanks cs) = trimBlanks cs := by
  rw [trimBlanks_eq (trimBlanks cs), dropWhile_trimBlanks, trimBlanks_eq, List.rdropWhile_idempotent]

theorem trimBlanks_subset (cs : List Char) : trimBlanks cs ⊆ cs := by
  rw [trimBlanks_eq]
  exact List.Subset.trans (List.rdropWhile_prefix _ _).subset (List.dropWhile_suffix _).subset

end Blanks

section Tokens

variable {c : Char} {cs : List Char} {t : Token} {n : Nat}

/-- Names, strings and pragmas are printed as the token that they are read from. -/
def Token.Kept : Token → Prop
  | .name n => (Token.name n).Spells n
  | .string text => (Token.string text).Spells ("\"" ++ text ++ "\"")
  | .pragma text => (Token.pragma text).Spells ("#pragma " ++ text)
  | _ => True

theorem kept_word (hc : isNameStart c = true) : (ofWord (c :: cs.takeWhile isNameChar)).Kept := by
  unfold ofWord
  dsimp only
  cases hword : Keyword.ofText? (String.ofList (c :: cs.takeWhile isNameChar)) with
  | some k => exact trivial
  | none =>
    refine ⟨c, cs.takeWhile isNameChar, String.toList_ofList, ?_⟩
    have hname : ofWord (c :: cs.takeWhile isNameChar) = .name (String.ofList (c :: cs.takeWhile isNameChar)) := by
      unfold ofWord
      dsimp only
      rw [hword]
    rw [headPiece_word hc, List.takeWhile_idem, hname]
    rfl

theorem kept_string (cs : List Char) : (Token.string (String.ofList (cs.takeWhile (· ≠ '"')))).Kept := by
  have hbody : (cs.takeWhile (· ≠ '"') ++ ['"']).takeWhile (· ≠ '"') = cs.takeWhile (· ≠ '"') := by
    rw [List.takeWhile_append_of_pos fun x hx => List.mem_takeWhile_imp (p := (· ≠ '"')) hx]
    exact List.append_nil _
  refine ⟨'"', cs.takeWhile (· ≠ '"') ++ ['"'], ?_, ?_⟩
  · simp only [String.toList_append, String.toList_ofList]
    rfl
  · rw [headPiece_quote, hbody, List.length_append, List.length_singleton, if_pos (Nat.lt_succ_self _)]

theorem kept_pragma (cs : List Char) :
    (Token.pragma (String.ofList (trimBlanks (cs.takeWhile (· ≠ '\n'))))).Kept := by
  have hline : ∀ x ∈ trimBlanks (cs.takeWhile (· ≠ '\n')), decide (x ≠ '\n') = true := fun x hx =>
    List.mem_takeWhile_imp (p := (· ≠ '\n')) (trimBlanks_subset _ hx)
  have htrimmed := trimBlanks_idem (cs.takeWhile (· ≠ '\n'))
  generalize trimBlanks (cs.takeWhile (· ≠ '\n')) = body at hline htrimmed
  have hrest : (' ' :: body).takeWhile (· ≠ '\n') = ' ' :: body :=
    List.takeWhile_eq_self_iff.2 (List.forall_mem_cons.2 ⟨rfl, hline⟩)
  have htrim : trimBlanks (' ' :: body) = body := htrimmed
  have hdrop : (pragmaWord ++ ' ' :: body).drop pragmaWord.length = ' ' :: body := List.drop_left
  refine ⟨'#', pragmaWord ++ ' ' :: body, ?_, ?_⟩
  · simp only [String.toList_append, String.toList_ofList]
    rfl
  · rw [headPiece_hash, if_pos (List.isPrefixOf_iff_prefix.2 (List.prefix_append _ _)), hdrop, hrest, htrim,
      List.length_append, List.length_cons]
    exact Prod.ext rfl (by dsimp only; omega)

theorem kept_ofNat {n : Nat} (h : ofNat n = .token t) : t.Kept := by
  unfold ofNat at h
  split at h <;> cases h
  exact trivial

theorem kept_decimal (h : (decimal cs).1 = .token t) : t.Kept := by
  rw [decimal_eq] at h
  dsimp only at h
  split at h
  · cases h
    exact trivial
  · rw [match_im] at h
    split at h
    · cases h
      exact trivial
    · split at h
      · cases h
        exact trivial
      · exact kept_ofNat h

theorem kept_number (h : (number (c :: cs)).1 = .token t) : t.Kept := by
  by_cases hc : c = '0'
  · subst hc
    cases cs with
    | nil => exact kept_decimal h
    | cons x cs =>
      rw [number_zero] at h
      dsimp only at h
      split at h
      · exact kept_ofNat h
      · split at h
        · exact kept_ofNat h
        · exact kept_decimal h
  · rw [number_other hc] at h
    exact kept_decimal h

theorem kept_numberOrPunctuation (h : (numberOrPunctuation c cs).1 = .token t) : t.Kept := by
  unfold numberOrPunctuation at h
  dsimp only at h
  split at h
  · exact kept_number h
  · split at h
    · cases h
      exact trivial
    · split at h <;> cases h
      exact trivial

theorem kept_headPiece (h : (headPiece c cs).1 = .token t) : t.Kept := by
  unfold headPiece at h
  split at h
  · nomatch h
  split at h
  · next hname =>
    cases h
    exact kept_word hname
  split at h
  · dsimp only at h
    split at h <;> cases h
    exact kept_string cs
  split at h
  · cases h
    exact kept_pragma (cs.drop pragmaWord.length)
  split at h
  · nomatch h
  split at h
  · split at h <;> nomatch h
  · exact kept_numberOrPunctuation h

theorem kept_scan (cs : List Char) : ∀ offset, ∀ l ∈ scanFrom offset cs, ∀ t ∈ l.token, t.Kept := by
  induction cs using scan_induction with
  | nil =>
    intro offset l hl
    rw [scanFrom_nil] at hl
    cases hl
  | cons c cs ih =>
    intro offset l hl t ht
    rw [scanFrom_cons] at hl
    rcases List.mem_append.1 hl with hl | hl
    · cases hpiece : (headPiece c cs).1 with
      | token t' =>
        rw [hpiece] at hl
        obtain rfl := Option.mem_some.1 (Option.mem_toList.1 hl)
        cases ht
        exact kept_headPiece hpiece
      | separator =>
        rw [hpiece] at hl
        cases hl
      | invalid =>
        rw [hpiece] at hl
        obtain rfl := Option.mem_some.1 (Option.mem_toList.1 hl)
        cases ht
    · exact ih _ _ l hl t ht

/-- The names, strings and pragmas of a text are printed as they are read. -/
theorem kept_tokensFrom {p : PlacedToken} {offset : Nat} (hp : p ∈ tokensFrom offset cs) : p.token.Kept := by
  obtain ⟨l, hl, hlp⟩ := List.mem_filterMap.1 hp
  obtain ⟨t, ht, rfl⟩ := Option.map_eq_some_iff.1 hlp
  exact kept_scan cs offset l hl t ht

end Tokens

end OpenQasm
