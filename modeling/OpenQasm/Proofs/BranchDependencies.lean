import OpenQasm.Proofs.AssignedNames
import OpenQasm.Proofs.EmittedNames
import OpenQasm.Proofs.Occurrences
import OpenQasm.Proofs.PartialEvaluation
import OpenQasm.Proofs.SourceCharacters
import OpenQasm.Proofs.StoredSymbols

/-!
The bits that a branch is said to depend on, and the registers that its condition names in the flat program. The
bits are collected from the condition of the source by what its names stand for, and the condition of the flat
program is what is left of it. The two agree unless a part that reads bits is known, so that its names are gone,
or a name stands for a variable that has become a register of the flat program without standing for its bits.
-/
namespace OpenQasm

mutual

/-- The names of the variables in an expression. -/
def Expr.names : Expr → List String
  | .name n => [n]
  | .unary _ e | .measure e | .paren e => e.names
  | .binary l _ r => l.names ++ r.names
  | .call _ args => exprsNames args
  | .index base items => base.names ++ itemsNames items
  | .cast t e => t.names ++ e.names
  | .array items => exprsNames items
  | _ => []

def exprsNames : List Expr → List String
  | [] => []
  | e :: es => e.names ++ exprsNames es

def TypeExpr.names : TypeExpr → List String
  | .sized _ width => optionNames width
  | .array element dims => element.names ++ exprsNames dims
  | _ => []

def optionNames : Option Expr → List String
  | none => []
  | some e => e.names

def RangeExpr.names : RangeExpr → List String
  | ⟨start, step, stop⟩ => optionNames start ++ optionNames step ++ optionNames stop

def IndexItem.names : IndexItem → List String
  | .single e => e.names
  | .range r => r.names
  | .set items => exprsNames items

def itemsNames : List IndexItem → List String
  | [] => []
  | item :: items => item.names ++ itemsNames items

end

mutual

/-- The names that the bits of a condition are looked up for: not those in indices and types. -/
def Expr.reads : Expr → List String
  | .name n => [n]
  | .index base _ => base.reads
  | .unary _ e | .cast _ e | .paren e => e.reads
  | .binary l _ r => l.reads ++ r.reads
  | .call _ items | .array items => exprsRead items
  | _ => []

def exprsRead : List Expr → List String
  | [] => []
  | e :: es => e.reads ++ exprsRead es

end

/-- The parts of an expression that are rewritten if the expression itself is. -/
inductive Expr.Operand : Expr → Expr → Prop
  | self (e : Expr) : Operand e e
  | unary {op : UnaryOp} {e p : Expr} : Operand e p → Operand (.unary op e) p
  | cast {type : TypeExpr} {e p : Expr} : Operand e p → Operand (.cast type e) p
  | paren {e p : Expr} : Operand e p → Operand (.paren e) p
  | base {e p : Expr} {items : List IndexItem} : Operand e p → Operand (.index e items) p
  | left {l r p : Expr} {op : BinaryOp} : Operand l p → Operand (.binary l op r) p
  | right {l r p : Expr} {op : BinaryOp} : Operand r p → Operand (.binary l op r) p
  | argument {f : String} {es : List Expr} {e p : Expr} : e ∈ es → Operand e p → Operand (.call f es) p
  | item {es : List Expr} {e p : Expr} : e ∈ es → Operand e p → Operand (.array es) p

section Literals

theorem Value.intExpr_names (n : Int64) : (Value.intExpr n).names = [] := by
  unfold intExpr
  split <;> rfl

theorem Value.floatExpr_names (x : Float) : (Value.floatExpr x).names = [] := by
  unfold floatExpr
  split <;> rfl

theorem Value.complexExpr_names (z : Complex) : (Value.complexExpr z).names = [] := by
  unfold complexExpr
  split
  · exact floatExpr_names _
  · split
    · exact congrArg (· ++ []) (floatExpr_names _)
    · exact congrArg (· ++ []) (floatExpr_names _)

mutual

/-- Nothing is named in the literal of a value. -/
theorem Value.toExpr_names : ∀ v : Value, v.toExpr.names = []
  | .bool _ | .duration _ _ => rfl
  | .int n => intExpr_names n
  | .float x => floatExpr_names x
  | .complex z => complexExpr_names z
  | .array items => toExprs_names items

theorem Value.toExprs_names : ∀ vs : List Value, exprsNames (Value.toExprs vs) = []
  | [] => rfl
  | v :: vs => by
    rw [Value.toExprs, exprsNames, toExpr_names v, toExprs_names vs]
    rfl

end

theorem exprsNames_eq_nil {es : List Expr} (h : ∀ e ∈ es, e.names = []) : exprsNames es = [] := by
  induction es with
  | nil => rfl
  | cons e es ih =>
    rw [exprsNames, h e List.mem_cons_self, ih fun e he => h e (List.mem_cons_of_mem _ he)]
    rfl

theorem ClassicalType.toExpr_names (t : ClassicalType) : t.toExpr.names = [] := by
  induction t with
  | array element dims ih =>
    have hdims : exprsNames (dims.map intExpr) = [] := exprsNames_eq_nil fun e he => by
      obtain ⟨n, -, rfl⟩ := List.mem_map.1 he
      rfl
    rw [toExpr, TypeExpr.names, ih, hdims]
    rfl
  | _ => rfl

theorem Analysis.literalItem_names (single : Bool) (positions : List Nat) :
    (literalItem single positions).names = [] := by
  have hpositions : exprsNames (positions.map positionExpr) = [] := exprsNames_eq_nil fun e he => by
    obtain ⟨p, -, rfl⟩ := List.mem_map.1 he
    rfl
  unfold literalItem
  split
  · rfl
  · exact hpositions

end Literals

namespace Analysis

variable {n : Nat} {config : Config} {s t u i j k : State} {e shown : Expr}

section Following

/-- A state after another one, where expressions have been evaluated only. -/
structure Follows (config : Config) (s t : State) : Prop where
  evaluated : Evaluated s.scopes t
  transitions : Transitions config s t

theorem Evaluated.trans {before : Scopes} (h : Evaluated before s) (h' : Evaluated s.scopes t) :
    Evaluated before t where
  numbered := h'.numbered
  stays := h.stays.trans h'.stays
  kept k name x hx := by
    obtain ⟨y, hy, hxy⟩ := h.kept k name x hx
    obtain ⟨z, hz, hyz⟩ := h'.kept k name y hy
    exact ⟨z, hz, hxy.trans hyz⟩

namespace Follows

theorem refl (hs : s.scopes.Sound) : Follows config s s := ⟨.refl hs.numbered, .refl s⟩

theorem trans (h : Follows config s t) (h' : Follows config t u) : Follows config s u :=
  ⟨h.evaluated.trans h'.evaluated, h.transitions.trans h'.transitions⟩

theorem sound (h : Follows config s t) (hs : s.scopes.Sound) : t.scopes.Sound := h.transitions.sound hs

theorem step {α : Type} {x : Analysis α} {r : Except Failure α} (hs : s.scopes.Sound)
    (hagree : Agree (.evaluated s.scopes) x x) (horderly : Orderly x) (hr : x config s = (r, t)) :
    Follows config s t :=
  ⟨((Evaluated.refl hs.numbered).step hagree hr).1, horderly.transitions hs hr⟩

/-- A name stands for the same as before, and keeps the name that it has in the flat program. -/
theorem resolve? (h : Follows config s t) (hs : s.scopes.Sound) {name : String} {x : Symbol}
    (hx : s.scopes.resolve? name = some x) : ∃ y, t.scopes.resolve? name = some y ∧ x.Kept False y :=
  h.evaluated.resolve? hs.numbered hx

theorem emits (h : Follows config s t) (hs : s.scopes.Sound) {name m : String} (hm : s.scopes.Emits name m) :
    t.scopes.Emits name m := by
  obtain ⟨x, hx, hname⟩ := hm
  obtain ⟨y, hy, hkept⟩ := h.resolve? hs hx
  exact ⟨y, hy, hkept.emitName_eq hname⟩

theorem binding_eq (h : Follows config s t) (hs : s.scopes.Sound) {name : String} {y : Symbol}
    (hy : t.scopes.resolve? name = some y) : ∃ x, s.scopes.resolve? name = some x ∧ x.binding = y.binding := by
  obtain ⟨x, hx, hkey, -⟩ := h.evaluated.stays.symm.resolve?_scope (h.sound hs).numbered hs.numbered hy
  exact ⟨x, hx, congrArg (·.2.2) hkey⟩

end Follows

theorem fold_follows (hs : s.scopes.Sound) {r : Except Failure (Option Value)}
    (h : fold (.nested n) e config s = (r, t)) : Follows config s t :=
  .step hs (fold_agree (nested_evaluated _ n) e (Nat.le_of_eq (weigh_zero _))) (fold_orderly (nested_orderly n) e) h

theorem residualize_follows (hs : s.scopes.Sound) {r : Except Failure Expr}
    (h : residualize (.nested n) e config s = (r, t)) : Follows config s t :=
  .step hs (residualize_agree (nested_evaluated _ n) e (Nat.le_of_eq (weigh_zero _)))
    (residualize_orderly (nested_orderly n) e) h

end Following

section Rewriting

/-- An expression is known in a state, or becomes known while others are evaluated. -/
def Known (n : Nat) (config : Config) (s : State) (e : Expr) : Prop :=
  ∃ t u v, Follows config s t ∧ fold (.nested n) e config t = (.ok (some v), u)

theorem Known.earlier (hst : Follows config s t) (h : Known n config t e) : Known n config s e := by
  obtain ⟨i, j, v, hi, hv⟩ := h
  exact ⟨i, j, v, hst.trans hi, hv⟩

/-- The value of a variable is not known in a state, or not while expressions are evaluated. -/
def Unvalued (config : Config) (s : State) (name : String) : Prop :=
  ∃ t, Follows config s t ∧ nameValue name config t = (.ok none, t)

theorem Unvalued.earlier {name : String} (hst : Follows config s t) (h : Unvalued config t name) :
    Unvalued config s name := by
  obtain ⟨i, hi, hnone⟩ := h
  exact ⟨i, hst.trans hi, hnone⟩

/-- Between two states, some names are written into the flat program: nothing else than the names of variables
that are read and not known is written, and all names that are read are but for those in known operands. -/
structure Shows (n : Nat) (config : Config) (s t : State) (reads : List String) (operand : Expr → Prop)
    (names : List String) : Prop where
  follows : Follows config s t
  written : ∀ m ∈ names, ∃ name ∈ reads, t.scopes.Emits name m ∧ Unvalued config s name
  kept : ∀ name ∈ reads, (∃ p, operand p ∧ name ∈ p.reads ∧ Known n config s p) ∨
    ∃ m ∈ names, t.scopes.Emits name m

namespace Shows

variable {reads reads' names names' : List String} {operand operand' : Expr → Prop}

theorem nothing (h : Follows config s t) : Shows n config s t [] operand [] := ⟨h, nofun, nofun⟩

theorem mono (h : Shows n config s t reads operand names) (hoperand : ∀ p, operand p → operand' p) :
    Shows n config s t reads operand' names where
  follows := h.follows
  written := h.written
  kept name hname := (h.kept name hname).imp_left fun ⟨p, hp, hread⟩ => ⟨p, hoperand p hp, hread⟩

theorem earlier (h : Shows n config t u reads operand names) (hst : Follows config s t) :
    Shows n config s u reads operand names where
  follows := hst.trans h.follows
  written m hm := by
    obtain ⟨name, hname, hemits, hunvalued⟩ := h.written m hm
    exact ⟨name, hname, hemits, hunvalued.earlier hst⟩
  kept name hname :=
    (h.kept name hname).imp_left fun ⟨p, hp, hread, hknown⟩ => ⟨p, hp, hread, hknown.earlier hst⟩

theorem append (h : Shows n config s t reads operand names) (h' : Shows n config t u reads' operand names')
    (hs : s.scopes.Sound) : Shows n config s u (reads ++ reads') operand (names ++ names') where
  follows := h.follows.trans h'.follows
  written m hm := by
    rcases List.mem_append.1 hm with hm | hm
    · obtain ⟨name, hname, hemits, hunvalued⟩ := h.written m hm
      exact ⟨name, List.mem_append_left _ hname, h'.follows.emits (h.follows.sound hs) hemits, hunvalued⟩
    · obtain ⟨name, hname, hemits, hunvalued⟩ := h'.written m hm
      exact ⟨name, List.mem_append_right _ hname, hemits, hunvalued.earlier h.follows⟩
  kept name hname := by
    rcases List.mem_append.1 hname with hname | hname
    · refine (h.kept name hname).imp_right fun ⟨m, hm, hemits⟩ => ?_
      exact ⟨m, List.mem_append_left _ hm, h'.follows.emits (h.follows.sound hs) hemits⟩
    · refine ((h'.earlier h.follows).kept name hname).imp_right fun ⟨m, hm, hemits⟩ => ?_
      exact ⟨m, List.mem_append_right _ hm, hemits⟩

end Shows

/-- The literal of a known expression names nothing. -/
theorem shows_literal {v : Value} (hs : s.scopes.Sound)
    (h : fold (.nested n) e config s = (.ok (some v), t)) : Shows n config s t e.reads e.Operand v.toExpr.names where
  follows := fold_follows hs h
  written m hm := by
    rw [Value.toExpr_names] at hm
    nomatch hm
  kept name hname := Or.inl ⟨e, .self e, hname, s, t, v, .refl hs, h⟩

/-- Nothing is left to show of a known expression, and of another one the parts are rewritten. -/
theorem shows_or_parts (hs : s.scopes.Sound) (h : residualize (.nested n) e config s = (.ok shown, t)) :
    Shows n config s t e.reads e.Operand shown.names ∨
      ∃ u, fold (.nested n) e config s = (.ok none, u) ∧ Follows config s u ∧
        residualizeParts (.nested n) e config u = (.ok shown, t) := by
  obtain ⟨v, hfold, rfl⟩ | ⟨u, hfold, hparts⟩ := residualize_cases h
  · exact Or.inl (shows_literal hs hfold)
  · exact Or.inr ⟨u, hfold, fold_follows hs hfold, hparts⟩

theorem literalItems_names {calls : Calls} {length : Nat} {items written : List IndexItem}
    (h : literalItems calls length items config s = (.ok written, t)) : itemsNames written = [] := by
  induction items generalizing s t written with
  | nil =>
    cases h
    rfl
  | cons item rest ih =>
    rw [literalItems] at h
    obtain ⟨positions, u, -, h⟩ := run_bind_eq_ok.1 h
    obtain ⟨written', w, hrest, h⟩ := run_bind_eq_ok.1 h
    cases h
    rw [itemsNames, literalItem_names, ih hrest]
    rfl

mutual

/-- What is left of an expression in the flat program names the variables that are read, as far as they are in no
known operand. -/
theorem residualize_shows : ∀ (e : Expr) {s t : State} {shown : Expr}, s.scopes.Sound →
    residualize (.nested n) e config s = (.ok shown, t) →
      Shows n config s t e.reads e.Operand shown.names
  | .name name, s, t, shown, hs, h => by
    rcases shows_or_parts hs h with hshows | ⟨u, hfold, hu, hparts⟩
    · exact hshows
    · obtain ⟨m, w, hname, hparts⟩ := run_bind_eq_ok.1 hparts
      cases hparts
      have hemits := (runtimeName_renames hname).2
      -- To look a variable up changes nothing, so it is not known in the first state already.
      have hunvalued : Unvalued config s name := by
        have hstate : u = s := (congrArg Prod.snd hfold).symm.trans (nameValue_leaves name config s (.refl _))
        exact ⟨s, .refl hs, hstate ▸ hfold⟩
      refine ⟨residualize_follows hs h, fun m' hm' => ?_, fun name' hname' => ?_⟩
      · obtain rfl := List.mem_singleton.1 hm'
        exact ⟨name, List.mem_singleton_self _, hemits, hunvalued⟩
      · obtain rfl := List.mem_singleton.1 hname'
        exact Or.inr ⟨m, List.mem_singleton_self _, hemits⟩
  | .unary op e, s, t, shown, hs, h => by
    rcases shows_or_parts hs h with hshows | ⟨u, -, hu, hparts⟩
    · exact hshows
    · obtain ⟨shown', w, hshown, hparts⟩ := run_bind_eq_ok.1 hparts
      cases hparts
      exact ((residualize_shows e (hu.sound hs) hshown).earlier hu).mono fun _ => .unary
  | .binary l op r, s, t, shown, hs, h => by
    rcases shows_or_parts hs h with hshows | ⟨u, -, hu, hparts⟩
    · exact hshows
    · obtain ⟨left, w, hleft, hparts⟩ := run_bind_eq_ok.1 hparts
      obtain ⟨right, w', hright, hparts⟩ := run_bind_eq_ok.1 hparts
      cases hparts
      have hl := (residualize_shows l (hu.sound hs) hleft).earlier hu
      have hr := residualize_shows r (hl.follows.sound hs) hright
      exact (hl.mono fun p hp => .left hp).append (hr.mono fun p hp => .right hp) hs
  | .call f args, s, t, shown, hs, h => by
    rcases shows_or_parts hs h with hshows | ⟨u, -, hu, hparts⟩
    · exact hshows
    · obtain ⟨shown', w, hshown, hparts⟩ := run_bind_eq_ok.1 hparts
      cases hparts
      exact ((residualizeAll_shows args (hu.sound hs) hshown).earlier hu).mono fun _ ⟨_, he, hp⟩ => .argument he hp
  | .index base items, s, t, shown, hs, h => by
    rcases shows_or_parts hs h with hshows | ⟨u, -, hu, hparts⟩
    · exact hshows
    · obtain ⟨type, v, htype, hparts⟩ := run_bind_eq_ok.1 hparts
      obtain ⟨written, w, hwritten, hparts⟩ := run_bind_eq_ok.1 hparts
      obtain ⟨shown', w', hshown, hparts⟩ := run_bind_eq_ok.1 hparts
      cases hparts
      have hus := hu.sound hs
      have hv : Follows config u v := .step hus (infer_agree (nested_evaluated _ n) base (Nat.le_of_eq (weigh_zero _)))
        (infer_orderly (nested_orderly n) base) htype
      have hw : Follows config v w := .step (hv.sound hus) (literalItems_agree (nested_evaluated _ n) _ items
        (Nat.le_of_eq (weigh_zero _))) (literalItems_orderly (nested_orderly n) _ items) hwritten
      have hbase := residualize_shows base ((hv.trans hw).sound hus) hshown
      -- The indices are written as positions, which name nothing.
      rw [Expr.names, literalItems_names hwritten, List.append_nil]
      exact (hbase.earlier (hu.trans (hv.trans hw))).mono fun _ => .base
  | .cast type e, s, t, shown, hs, h => by
    rcases shows_or_parts hs h with hshows | ⟨u, -, hu, hparts⟩
    · exact hshows
    · obtain ⟨type', v, htype, hparts⟩ := run_bind_eq_ok.1 hparts
      obtain ⟨shown', w, hshown, hparts⟩ := run_bind_eq_ok.1 hparts
      cases hparts
      have hus := hu.sound hs
      have hv : Follows config u v := .step hus
        (resolveType_agree (nested_evaluated _ n) type (Nat.le_of_eq (weigh_zero _)))
        (resolveType_orderly (nested_orderly n) type) htype
      have hoperand := residualize_shows e (hv.sound hus) hshown
      rw [Expr.names, ClassicalType.toExpr_names]
      exact (hoperand.earlier (hu.trans hv)).mono fun _ => .cast
  | .array items, s, t, shown, hs, h => by
    rcases shows_or_parts hs h with hshows | ⟨u, -, hu, hparts⟩
    · exact hshows
    · obtain ⟨shown', w, hshown, hparts⟩ := run_bind_eq_ok.1 hparts
      cases hparts
      exact ((residualizeAll_shows items (hu.sound hs) hshown).earlier hu).mono fun _ ⟨_, he, hp⟩ => .item he hp
  | .paren e, s, t, shown, hs, h => by
    rcases shows_or_parts hs h with hshows | ⟨u, -, hu, hparts⟩
    · exact hshows
    · obtain ⟨shown', w, hshown, hparts⟩ := run_bind_eq_ok.1 hparts
      cases hparts
      exact ((residualize_shows e (hu.sound hs) hshown).earlier hu).mono fun _ => .paren
  | .measure e, s, t, shown, hs, h => by
    rcases shows_or_parts hs h with hshows | ⟨u, hfold, -⟩
    · exact hshows
    · nomatch hfold
  | .int _, s, t, shown, hs, h | .float _, s, t, shown, hs, h | .imaginary _, s, t, shown, hs, h
  | .bool _, s, t, shown, hs, h | .bits _, s, t, shown, hs, h | .duration _ _, s, t, shown, hs, h
  | .constant _, s, t, shown, hs, h => by
    rcases shows_or_parts hs h with hshows | ⟨u, -, hu, hparts⟩
    · exact hshows
    · cases hparts
      exact .nothing hu

theorem residualizeAll_shows : ∀ (es : List Expr) {s t : State} {shown : List Expr}, s.scopes.Sound →
    residualizeAll (.nested n) es config s = (.ok shown, t) →
      Shows n config s t (exprsRead es) (fun p => ∃ e ∈ es, e.Operand p) (exprsNames shown)
  | [], s, t, shown, hs, h => by
    cases h
    exact .nothing (.refl hs)
  | e :: es, s, t, shown, hs, h => by
    obtain ⟨first, u, hfirst, h⟩ := run_bind_eq_ok.1 h
    obtain ⟨rest, w, hrest, h⟩ := run_bind_eq_ok.1 h
    cases h
    have he := residualize_shows e hs hfirst
    have hes := residualizeAll_shows es (he.follows.sound hs) hrest
    refine Shows.append (he.mono fun p hp => ?_) (hes.mono fun p hp => ?_) hs
    · exact ⟨e, List.mem_cons_self, hp⟩
    · obtain ⟨e', he', hp⟩ := hp
      exact ⟨e', List.mem_cons_of_mem _ he', hp⟩

end

end Rewriting

end Analysis

section Labelling

/-- A symbol that stands for bits stands for all of a register, by whose name it goes in the flat program. Every
such name is taken. -/
structure Symbol.Labelled (r : Registers) (x : Symbol) : Prop where
  taken : ∀ m, x.emitName = some m → r.Taken m
  bits : ∀ v, x.binding = .clbits v → ∃ m, x.emitName = some m ∧ r.NamesBits m v

theorem Symbol.Labelled.mono {r r' : Registers} {x : Symbol} (hextends : r.Extends r') (h : x.Labelled r) :
    x.Labelled r' where
  taken m hm := hextends.taken (h.taken m hm)
  bits v hv := (h.bits v hv).imp fun _ hm => ⟨hm.1, hm.2.mono hextends⟩

theorem Symbol.labelled_of_noBits {r : Registers} {x : Symbol} (hbits : ∀ v, x.binding ≠ .clbits v)
    (htaken : ∀ m, x.emitName = some m → r.Taken m) : x.Labelled r :=
  ⟨htaken, fun v hv => absurd hv (hbits v)⟩

/-- The names that symbols have in the flat program are taken. -/
def Facts.taken : Facts :=
  { Facts.trivial with
    target := fun r name => r.Taken name
    target_mono := fun hextends => hextends.taken
    flat_assign := fun _ _ _ => ⟨⟩ }

namespace Analysis

/-- All symbols are labelled. -/
def Labelled (s : State) : Prop := ∀ x, s.scopes.Has x → x.Labelled s.registers

namespace Labelled

variable {s : State}

theorem registers {registers : Registers} (h : Labelled s) (hextends : s.registers.Extends registers) :
    Labelled { s with registers } := fun x hx => (h x hx).mono hextends

/-- The symbol that a name stands for may be changed. -/
theorem modify {f : Symbol → Symbol} {name : String} (h : Labelled s)
    (hf : ∀ x, s.scopes.resolve? name = some x → x.Labelled s.registers → (f x).Labelled s.registers) :
    Labelled { s with scopes := s.scopes.modify name f } := fun y hy => by
  rcases Scopes.has_modify hy with hy | ⟨x, hx, rfl⟩
  · exact h y hy
  · exact hf x hx (h x (Scopes.has_of_resolve? hx))

theorem declare {x : Symbol} {scopes : Scopes} (h : Labelled s) (hx : x.Labelled s.registers)
    (hscopes : s.scopes.declare x = .ok scopes) : Labelled { s with scopes } := fun y hy => by
  cases Scopes.eq_push_of_declare hscopes
  rcases Scopes.has_push hy with rfl | hy
  · exact ⟨hx.taken, hx.bits⟩
  · exact h y hy

end Labelled

end Analysis

open Analysis

/-- The invariant where all symbols are labelled. -/
def StatementInvariant.labelled : StatementInvariant where
  toFacts := .taken
  excuses _ := False
  core := Labelled
  subroutine _ _ := True
  gate _ _ := True
  symbol r x := x.Labelled r
  writable _ _ := True
  writable_mono _ _ := ⟨⟩
  core_congr h hscopes hregisters _ _ := fun x hx => by
    rw [hscopes] at hx
    rw [hregisters]
    exact h x hx
  core_reserve name h := h.registers (Registers.extends_reserve _ name)
  core_allocate h _ hr := h.registers (Registers.extends_allocate hr)
  core_mark q usage h := h.registers (Registers.extends_mark _ q usage)
  tallied_measured h := False.elim h
  target_reserve {s} name _ := s.registers.taken_reserved name
  target_allocate _ hr := (Registers.taken_allocate hr).2
  target_writable h _ hx hm := (h _ (Scopes.has_of_resolve? hx)).taken _ hm
  core_name {s _ _ emitName} h htarget hx _ hnone _ := by
    refine h.modify fun y hy hlabelled => ?_
    cases hx.symm.trans hy
    -- What stands for bits has a name already.
    refine Symbol.labelled_of_noBits (fun v hv => ?_) ?_
    · obtain ⟨m, hm, -⟩ := hlabelled.bits v hv
      nomatch hnone.symm.trans hm
    · rintro _ ⟨⟩
      exact htarget
  symbol_mono hextends h := h.mono hextends
  symbol_none h htaken := Symbol.labelled_of_noBits (fun v hv => nomatch h.symm.trans hv) htaken
  symbol_param h htaken := Symbol.labelled_of_noBits (fun v hv => nomatch h.symm.trans hv) htaken
  symbol_qubits _ h _ htaken := Symbol.labelled_of_noBits (fun v hv => nomatch h.symm.trans hv) htaken
  symbol_clbits h _ htaken hname hnames := by
    refine ⟨htaken, fun v hv => ⟨_, hname, ?_⟩⟩
    cases h.symm.trans hv
    exact hnames
  symbol_copy h hx _ _ hbinding hname _ := by
    have hlabelled := h _ (Scopes.has_of_resolve? hx)
    exact ⟨fun m hm => hlabelled.taken m (hname ▸ hm), fun v hv => hname ▸ hlabelled.bits v (hbinding ▸ hv)⟩
  resolves_subroutine _ _ _ := ⟨⟩
  resolves_gate _ _ _ := ⟨⟩
  resolves_qubits _ _ _ := ⟨⟩
  resolves_clbits _ _ _ := ⟨⟩
  view_element _ _ _ _ := ⟨⟩
  written _ _ := True
  writable_of_resolve _ _ _ _ := ⟨⟩
  core_value value h _ _ _ := ⟨h.modify fun _ _ hx => ⟨hx.taken, hx.bits⟩, ⟨⟩⟩
  core_forget name h := ⟨h.modify fun _ _ hx => ⟨hx.taken, hx.bits⟩, ⟨⟩⟩
  core_declare h hx _ hscopes := h.declare hx hscopes
  core_branch h := h
  core_floor _ h := h
  view_allocate _ _ := ⟨⟩
  place_declared _ _ := ⟨⟩

theorem Analysis.pervasive_labelled : StatementInvariant.labelled.Pervasive where
  entered _ _ h x hx := h x (Scopes.has_enter hx)
  left _ _ _ h x hx := h x (Scopes.has_exit hx)
  measured _ _ := ⟨⟩
  view _ _ _ _ _ := ⟨⟩
  op _ _ _ _ := ⟨⟩
  defined _ hx _ hbits := Symbol.labelled_of_noBits hbits fun _ hm => nomatch hx.emitName.symm.trans hm

theorem Analysis.labelled_initial : Labelled .initial := by
  rintro x (hx | ⟨scope, hscope, -⟩)
  · obtain ⟨g, -, rfl⟩ := List.mem_map.1 (List.mem_reverse.1 hx)
    exact Symbol.labelled_of_noBits nofun nofun
  · nomatch hscope

/-- In every state that occurs, what stands for bits goes by the name of their register. -/
theorem Analysis.Occurs.labelled {config : Config} {s : State} (h : Occurs config s) : Labelled s :=
  h.core pervasive_labelled labelled_initial

end Labelling

section Bits

/-- The bits of a register that stands in the list are those of its view as a whole. -/
theorem Registers.mem_physical_whole {r : Registers} {id c : Nat} {x : Register} (hx : r.list[id]? = some x)
    (hkind : x.kind = .classical) : c ∈ r.physical (View.whole id x.size) ↔ x.holds .classical c = true := by
  have hbase : r.baseOf id = x.base := by
    rw [baseOf, hx]
    rfl
  have hphysical : r.physical (View.whole id x.size) = (List.range x.size).map fun k => x.base + k := by
    rw [physical, View.whole, List.flatMap_singleton, physicalOfSlice]
    refine List.map_congr_left fun k _ => ?_
    have hindex : (((0 : Nat) : Int) + k * 1).toNat = k := by omega
    rw [hbase]
    exact congrArg (x.base + ·) hindex
  rw [hphysical, Register.holds, hkind]
  simp only [List.mem_map, List.mem_range, decide_true, Bool.true_and, Bool.and_eq_true, decide_eq_true_eq]
  constructor
  · rintro ⟨k, hk, hc⟩
    omega
  · intro h
    exact ⟨c - x.base, by omega, by omega⟩

namespace Analysis

variable {n : Nat} {config : Config} {s t u : State} {name m : String} {x : Register}

/-- A register of a later state has a name that was free, unless it was there before. -/
theorem Transition.register_old (h : Transition config s t) (htaken : s.registers.Taken x.name)
    (hx : x ∈ t.registers.list) : x ∈ s.registers.list := by
  cases h with
  | place | report | enter | exit | declare | keepGate | nameSymbol | setValue | addVariable => exact hx
  | mark q usage => rwa [← (Registers.list_mark s.registers q usage).1]
  | @allocate name size id kind v registers hallocated =>
    dsimp only at hx
    rw [Registers.list_eq_of_allocate hallocated] at hx
    rcases List.mem_append.1 hx with hx | hx
    · exact hx
    · obtain rfl := List.mem_singleton.1 hx
      exact absurd htaken (s.registers.not_taken_reserve name)

theorem Transitions.register_old (h : Transitions config s t) (htaken : s.registers.Taken x.name)
    (hx : x ∈ t.registers.list) : x ∈ s.registers.list := by
  induction h with
  | refl => exact hx
  | tail hfirst hstep ih =>
    exact ih (hstep.register_old ((Transitions.before hfirst).registers.taken htaken) hx)

/-- Two registers are not called the same. -/
theorem Distinct.register_eq (h : Distinct s) {y : Register} (hx : x ∈ s.registers.list)
    (hy : y ∈ s.registers.list) (hname : x.name = y.name) : x = y := by
  have hnodup : (s.registers.list.map Register.name).Nodup := (List.nodup_append.1 h.emitted).1
  exact List.inj_on_of_nodup_map hnodup hx hy hname

mutual

/-- The bits that are collected are those of the names that are read. -/
theorem readBits_eq (s : State) : ∀ e : Expr, readBits s e = e.reads.flatMap (bitsOf s)
  | .name n => (List.append_nil _).symm
  | .index base _ => readBits_eq s base
  | .unary _ e | .cast _ e | .paren e => readBits_eq s e
  | .binary l _ r => by rw [readBits, Expr.reads, List.flatMap_append, readBits_eq s l, readBits_eq s r]
  | .call _ items | .array items => readBitsAll_eq s items
  | .int _ | .float _ | .imaginary _ | .bool _ | .bits _ | .duration _ _ | .constant _ | .measure _ => rfl

theorem readBitsAll_eq (s : State) : ∀ es : List Expr, readBitsAll s es = (exprsRead es).flatMap (bitsOf s)
  | [] => rfl
  | e :: es => by rw [readBitsAll, exprsRead, List.flatMap_append, readBits_eq s e, readBitsAll_eq s es]

end

theorem mem_bitsOf {c : Nat} : c ∈ bitsOf s name ↔
    ∃ y v, s.scopes.resolve? name = some y ∧ y.binding = .clbits v ∧ c ∈ s.registers.physical v := by
  unfold bitsOf
  constructor
  · intro hc
    split at hc
    · next v hv =>
      obtain ⟨y, hy, hbinding⟩ := Option.map_eq_some_iff.1 hv
      exact ⟨y, v, hy, hbinding, hc⟩
    · cases hc
  · rintro ⟨y, v, hy, hbinding, hc⟩
    rw [hy, Option.map_some, hbinding]
    exact hc

end Analysis

end Bits

namespace Analysis

section Exactness

variable {n : Nat} {config : Config} {s t u v : State} {condition e shown : Expr} {name : String} {c : Nat}

/-- One of the names in an expression stands for bits. -/
def ReadsBits (s : State) (e : Expr) : Prop :=
  ∃ name ∈ e.reads, ∃ x v, s.scopes.resolve? name = some x ∧ x.binding = .clbits v

/-- A variable that is not known and does not stand for bits is a register of the flat program, or becomes one
while expressions are evaluated. -/
def Hoisted (config : Config) (s : State) (name : String) : Prop :=
  Unvalued config s name ∧ ∃ t x r, Follows config s t ∧ t.scopes.resolve? name = some x ∧
    (∀ v, x.binding ≠ .clbits v) ∧ r ∈ t.registers.list ∧ r.kind = .classical ∧ x.emitName = some r.name

/-- A bit of a register that is named in an expression of the flat program. -/
def NamedBit (r : Registers) (shown : Expr) (c : Nat) : Prop :=
  ∃ x ∈ r.list, x.name ∈ shown.names ∧ x.holds .classical c = true

theorem Occurs.evaluates {α : Type} {x : Analysis α} {r : Except Failure α} (hs : Occurs config s)
    (hx : Evaluation (.nested n) x) (hr : x config s = (r, t)) : Occurs config t := by
  have ht := hs.evaluated hx
  rwa [hr] at ht

/-- What stands for bits is the register of its name. -/
theorem Labelled.register (h : Labelled s) {x : Symbol} {w : View} (hx : s.scopes.resolve? name = some x)
    (hw : x.binding = .clbits w) : ∃ r ∈ s.registers.list, r.kind = .classical ∧ x.emitName = some r.name ∧
      ∀ c, c ∈ s.registers.physical w ↔ r.holds .classical c = true := by
  obtain ⟨m, hm, id, r, hr, hkind, rfl, rfl⟩ := (h x (Scopes.has_of_resolve? hx)).bits w hw
  exact ⟨r, List.mem_of_getElem? hr, hkind, hm, fun c => Registers.mem_physical_whole hr hkind⟩

/-- The bits that a condition reads are those of the registers that are named in what is left of it. -/
theorem readBits_named (hs : Occurs config s) (h : residualize (.nested n) e config s = (.ok shown, t))
    (hknown : ∀ p, e.Operand p → ReadsBits s p → ¬Known n config s p)
    (hhoisted : ∀ name ∈ e.reads, ¬Hoisted config s name) (hu : Transitions config t u) :
    c ∈ readBits t e ↔ NamedBit u.registers shown c := by
  have hsound := hs.reachable.sound
  have hshows := residualize_shows e hsound h
  have ht := hs.evaluates (.shown e) h
  have hlater : ∀ r ∈ t.registers.list, r ∈ u.registers.list := fun r hr => hu.before.registers.list.subset hr
  rw [readBits_eq, List.mem_flatMap]
  constructor
  · -- The name that the bit was looked up for is written, as no operand around it is known.
    rintro ⟨name, hname, hc⟩
    obtain ⟨y, w, hy, hw, hc⟩ := mem_bitsOf.1 hc
    obtain ⟨r, hr, -, hemit, hbits⟩ := ht.labelled.register hy hw
    obtain ⟨x, hx, hbinding⟩ := hshows.follows.binding_eq hsound hy
    rcases hshows.kept name hname with ⟨p, hp, hread, hpknown⟩ | ⟨m, hm, z, hz, hzm⟩
    · exact absurd hpknown (hknown p hp ⟨name, hread, x, w, hx, hbinding.trans hw⟩)
    · cases hy.symm.trans hz
      cases hemit.symm.trans hzm
      exact ⟨r, hlater r hr, hm, (hbits c).1 hc⟩
  · rintro ⟨r, hr, hm, hc⟩
    obtain ⟨name, hname, ⟨y, hy, hemit⟩, hunvalued⟩ := hshows.written r.name hm
    -- The name was taken when the condition was written, and later registers have names that are free.
    have hold : r ∈ t.registers.list :=
      hu.register_old ((ht.labelled y (Scopes.has_of_resolve? hy)).taken _ hemit) hr
    have hbits : ∃ w, y.binding = .clbits w := by
      by_contra hnone
      have hclassical : r.kind = .classical :=
        of_decide_eq_true (Bool.and_eq_true_iff.1 (Bool.and_eq_true_iff.1 hc).1).1
      exact hhoisted name hname
        ⟨hunvalued, t, y, r, hshows.follows, hy, fun w hw => hnone ⟨w, hw⟩, hold, hclassical, hemit⟩
    obtain ⟨w, hw⟩ := hbits
    obtain ⟨r', hr', -, hemit', hbits⟩ := ht.labelled.register hy hw
    have hsame : r = r' := (ht.reachable.distinct distinct_initial).register_eq hold hr'
      (Option.some.inj (hemit.symm.trans hemit'))
    exact ⟨name, hname, mem_bitsOf.2 ⟨y, w, hy, hw, (hbits c).2 (hsame ▸ hc)⟩⟩

/-- Before its bodies, a branch has rewritten its condition and collected the bits. -/
theorem branchHead_reads {calls : Calls} {assigned : Analysis Unit} {head : Expr × List Nat}
    (h : branchHead calls condition assigned config s = (.ok head, t)) :
    ∃ u, residualize calls condition config s = (.ok head.1, u) ∧
      head.2 = (readBits u condition).eraseDups ∧ assigned config u = (.ok (), t) := by
  obtain ⟨shown, u, hshown, hrest⟩ := run_bind_eq_ok.1 h
  rw [run_get] at hrest
  obtain ⟨⟨⟩, w, hassigned, hrest⟩ := run_bind_eq_ok.1 hrest
  cases hrest
  exact ⟨u, hshown, rfl, hassigned⟩

/-- A branch that is decided when the program runs depends, without repetitions, on exactly the bits of the
registers that its condition names in the flat program, in every state that occurs and with all registers that
are declared until the end. This is so where no operand that reads bits is known, and no variable in the
condition is a register without standing for its bits. -/
theorem branch_bits_exact {thenBody : List Statement} {elseBody : Option (List Statement)} {signal : Signal}
    (hs : Occurs config s) (hfold : fold (.nested n) condition config s = (.ok none, v))
    (h : perform (.nested n) (.branch condition thenBody elseBody) config s = (.ok signal, t))
    (hknown : ∀ p, condition.Operand p → ReadsBits v p → ¬Known n config v p)
    (hhoisted : ∀ name ∈ condition.reads, ¬Hoisted config v name) :
    ∃ shown clbits thenPart elsePart before,
      t.output = .branch shown clbits thenPart elsePart :: before ∧ clbits.Nodup ∧
        ∀ u, Transitions config t u → ∀ c, c ∈ clbits ↔ NamedBit u.registers shown c := by
  have hv := hs.evaluates (.value condition) hfold
  rw [perform_branch, branch, run_bind, hfold] at h
  obtain ⟨head, w, thenSignal, a, elseSignal, b, thenPart, elsePart, hhead, hthen, helse, rfl⟩ :=
    runtimeBranch_eq_ok h
  obtain ⟨i, hshown, hclbits, hassigned⟩ := branchHead_reads hhead
  refine ⟨head.1, head.2, thenPart, elsePart, w.output, rfl, hclbits ▸ nodup_eraseDups _, fun u hu c => ?_⟩
  rw [hclbits, List.mem_eraseDups]
  refine readBits_named hv hshown hknown hhoisted (Transitions.trans ?_ hu)
  -- The condition is rewritten first, then the bodies are run one after the other.
  have hcalls := nested_orderly n
  have hi := (hv.evaluates (.shown condition) hshown).reachable.sound
  have hprepared := (materializeAll_orderly _).transitions hi hassigned
  have hopened := hprepared.trans (transitions_opened w)
  have hthened := hopened.trans ((block_orderly hcalls _).transitions (hopened.sound hi) hthen)
  have hreopened := (hthened.trans (transitions_closed w a)).trans (transitions_opened _)
  have helsed := hreopened.trans ((block_orderly hcalls _).transitions (hreopened.sound hi) helse)
  exact (helsed.trans (transitions_closed _ b)).trans (transitions_place rfl)

/-- A variable that has become a register stands for none of its bits, and a part that is known takes the name of
the register away whose bits it reads. -/
theorem branch_bits_differ :
    let branches (p : FlatProgram) := p.statements.filterMap fun
      | .branch condition clbits _ _ => some (condition.text, clbits)
      | _ => none
    let copied := ofSource .default ("def f(qubit a, bit b) \x7b if (b == 1) \x7b x a; \x7d \x7d\n" ++
      "qubit[2] q;\nbit[2] c;\nc[0] = measure q[0];\nf(q[1], c[0]);\n")
    let known := ofSource .default
      "bit[1] a = 1;\nqubit q;\nbit c;\nc = measure q;\nif (a == c) \x7b x q; \x7d\n"
    (copied.diagnostics.length = 0 ∧ branches copied = [("b == 1", [])] ∧
        copied.clbitRegisters.map (fun r => (r.name, r.base, r.size)) = [("c", 0, 2), ("b", 2, 1)]) ∧
      known.diagnostics.length = 0 ∧ branches known = [("1 == c", [0, 1])] ∧
        known.clbitRegisters.map (fun r => (r.name, r.base, r.size)) = [("a", 0, 1), ("c", 1, 1)] := by
  rw [← String.ofList_append, ofSource_ofList, ofSource_ofList]
  decide +kernel

section Instance

/-- What stands for bits is no variable that has become a register. -/
theorem not_hoisted (hs : s.scopes.Sound) {x : Symbol} {w : View} (hx : s.scopes.resolve? name = some x)
    (hw : x.binding = .clbits w) : ¬Hoisted config s name := by
  rintro ⟨-, t, y, r, ht, hy, hbits, -⟩
  obtain ⟨x', hx', hbinding⟩ := ht.binding_eq hs hy
  cases hx.symm.trans hx'
  exact hbits w (hbinding.symm.trans hw)

/-- Bits that are not known do not become known by an evaluation. -/
theorem bits_not_known (hs : s.scopes.Sound) {x : Symbol} {w : View} (hx : s.scopes.resolve? name = some x)
    (hw : x.binding = .clbits w) (hvalue : x.value = none) : ¬Known n config s (.name name) := by
  rintro ⟨t, u, v, ht, hfold⟩
  obtain ⟨y, hy, hkept⟩ := ht.resolve? hs hx
  have hbinding : y.binding = .clbits w := by
    rw [hkept.same]
    exact hw
  obtain ⟨z, t', hz, hfold⟩ := run_bind_eq_ok.1 hfold
  obtain ⟨hz, rfl⟩ := resolve_eq_ok hz
  cases hy.symm.trans hz
  rw [hbinding, hkept.value_none hvalue] at hfold
  generalize y.kind = kind at hfold
  cases kind <;> nomatch hfold

/-- An operation is not known where its left operand is not. -/
theorem not_known_left {l r : Expr} {op : BinaryOp} (h : ¬Known n config s l) : ¬Known n config s (.binary l op r) := by
  rintro ⟨t, u, v, ht, hfold⟩
  simp only [fold] at hfold
  obtain ⟨left, t', hleft, hfold⟩ := run_bind_eq_ok.1 hfold
  cases left with
  | some x => exact h ⟨t, t', x, ht, hleft⟩
  | none =>
    have hundecided : decided? op none = none := by cases op <;> rfl
    rw [hundecided] at hfold
    obtain ⟨_, _, _, hfold⟩ := run_bind_eq_ok.1 hfold
    cases hfold

/-- The condition is on the outcome of a measurement. -/
theorem branch_bits_exact_measured :
    let start := stateAfter .default "qubit q;\nbit[2] a;\nbit c;\nc = measure q;\n" 4
    let ended := (perform (.nested 0)
      (.branch (.binary (.name "c") .eq (.int 1)) [⟨.reset (.name "q"), .none⟩] none) .default start).2
    ∃ shown clbits thenPart elsePart before, ended.output = .branch shown clbits thenPart elsePart :: before ∧
      clbits.Nodup ∧ ∀ c, c ∈ clbits ↔ NamedBit ended.registers shown c := by
  rw [stateAfter_ofList]
  intro start ended
  let condition := Expr.binary (.name "c") .eq (.int 1)
  let folded := (fold (.nested 0) condition .default start).2
  have hs : Occurs .default start := stateAfterRead_occurs .default _ 4
  have hfold : fold (.nested 0) condition .default start = (.ok none, folded) := by
    have hnone : (fold (.nested 0) condition .default start).1.toOption.getD none = none :=
      Option.isNone_iff_eq_none.1 (by decide +kernel)
    exact Prod.ext ((eq_ok_of_isSome none (by decide +kernel)).trans (congrArg _ hnone)) rfl
  have hperform : perform (.nested 0) (.branch condition [⟨.reset (.name "q"), .none⟩] none) .default start =
      (.ok _, ended) := Prod.ext (eq_ok_of_isSome .normal (by decide +kernel)) rfl
  have hsound : folded.scopes.Sound := (hs.evaluates (.value condition) hfold).reachable.sound
  obtain ⟨x, hx, hdeclared⟩ := (Option.any_eq_true (fun x => x.value.isNone &&
    (Symbol.view? .classical x).isSome) (folded.scopes.resolve? "c")).1 (by decide +kernel)
  obtain ⟨hvalue, hview⟩ := Bool.and_eq_true_iff.1 hdeclared
  obtain ⟨w, hview⟩ := Option.isSome_iff_exists.1 hview
  have hw := Symbol.clbits_of_view? hview
  have hname : ¬Known 0 .default folded (.name "c") :=
    bits_not_known hsound hx hw (Option.isNone_iff_eq_none.1 hvalue)
  have hknown : ∀ p, condition.Operand p → ReadsBits folded p → ¬Known 0 .default folded p := by
    intro p (hp : Expr.Operand (.binary (.name "c") .eq (.int 1)) p) hreads
    cases hp with
    | self => exact not_known_left hname
    | left hp =>
      cases hp
      exact hname
    | right hp =>
      cases hp
      obtain ⟨name, hread, -⟩ := hreads
      nomatch hread
  have hhoisted : ∀ name ∈ condition.reads, ¬Hoisted .default folded name := by
    intro name hread
    obtain rfl := List.mem_singleton.1 hread
    exact not_hoisted hsound hx hw
  obtain ⟨shown, clbits, thenPart, elsePart, before, houtput, hnodup, hexact⟩ :=
    branch_bits_exact hs hfold hperform hknown hhoisted
  exact ⟨shown, clbits, thenPart, elsePart, before, houtput, hnodup, hexact ended (.refl _)⟩

end Instance

end Exactness

end Analysis

end OpenQasm
