import OpenQasm.Proofs.ExpressionValues
import OpenQasm.Proofs.Selections

/-!
Indices that are applied one after another, in one pair of brackets or in several. The evaluation counts
positions by a type that it carries along. That type can have another length than the selection: a range or a
set does not change the type of an array, and the type of bits is found anew, with the width from before, where
further brackets follow. Wherever an index names the same positions in both lengths, the evaluation gives what
the indices select, and reports a position outside of the selection.
-/
namespace OpenQasm

namespace Analysis

open ClassicalType

variable {calls : Calls} {config : Config} {s : State} {e base : Expr} {n : Nat}

/-- The evaluation ends with the report that an index is out of range. -/
def OutOfRange {α : Type} (s : State) (r : Except Failure α × State) : Prop :=
  ∃ i n, r = (.error (.statement ⟨.index (.outOfRange i n), s.span⟩), s)

section Items

variable {item : IndexItem} {c : Choice} {ps : List Nat} {i : Int}

/-- What an evaluation reports, it reports whatever would follow. -/
theorem OutOfRange.bind {α β : Type} {m : Analysis α} {f : α → Analysis β} (h : OutOfRange s (m config s)) :
    OutOfRange s ((m >>= f) config s) := by
  obtain ⟨i, n, hrun⟩ := h
  rw [run_bind, hrun]
  exact ⟨i, n, rfl⟩

end Items

section Brackets

variable {x y : Selection} {t u w : ClassicalType} {items : List IndexItem} {cs : List Choice}

/-- Each of the choices names the same positions in the length by which it is counted as in the selection. The
type that is carried along within brackets begins with that of the value. -/
def Counted : ClassicalType → Selection → List Choice → Prop
  | _, _, [] => True
  | t, x, c :: cs =>
    (∀ m, t.width? = some m → c.resolve m = c.resolve x.type.count) ∧
      ∀ ps u, c.resolve x.type.count = some ps → selectedType? t c.isOne ps.length = some u →
        Counted u (x.take c.isOne ps) cs

end Brackets

section Chains

variable {x y : Selection} {t u : ClassicalType} {brackets : List (List IndexItem)} {groups : List (List Choice)}

/-- Indices in one pair of brackets after the other. -/
def indexed (base : Expr) (brackets : List (List IndexItem)) : Expr := brackets.foldl Expr.index base

/-- In all brackets the choices name the same positions in the length by which they are counted as in the
selection. Brackets that follow others begin with the type that is found for these. -/
def Steady : ClassicalType → Selection → List (List Choice) → Prop
  | _, _, [] => True
  | t, x, cs :: groups =>
    Counted t x cs ∧ ∀ u y, t.typeAfter? cs = some u → x.select cs = some y → Steady u y groups

section Steadiness

variable {c : Choice} {ps : List Nat} {single : Bool} {k m : Nat}

theorem width?_eq_count (h : t.Writable ∨ t.hasBits = true) (hm : t.width? = some m) : m = t.count := by
  cases t with
  | sized kind n =>
    cases hm
    rfl
  | array element dims =>
    rcases h with hwritable | hbits
    · cases dims with
      | nil => nomatch hm
      | cons d ds =>
        cases hm
        have hd := (hwritable.2.2 d List.mem_cons_self).2
        exact Nat.min_eq_left (Nat.le_of_lt_succ hd)
    · nomatch hbits
  | _ => nomatch hm

theorem selectedType?_hasBits (h : t.hasBits = true) (hu : selectedType? t single k = some u) :
    u.hasBits = true := by
  obtain ⟨kind, n, rfl, rfl | rfl | rfl⟩ := hasBits_cases h <;> cases single <;> cases hu <;> rfl

theorem selectedType?_writable (h : t.Writable ∨ t.hasBits = true) (hone : t.hasBits = true ∨ single = true)
    (hu : selectedType? t single k = some u) : u.Writable ∨ u.hasBits = true := by
  rcases hone with hbits | rfl
  · exact Or.inr (selectedType?_hasBits hbits hu)
  · exact h.imp (fun ht => ht.indexed hu) (fun hbits => selectedType?_hasBits hbits hu)

/-- The type after an item is that of the selection if the item is an index or selects bits. -/
theorem selectedType?_eq_take (h : x.type.hasBits = true ∨ c.isOne = true) (hps : c.resolve n = some ps)
    (hu : selectedType? x.type c.isOne ps.length = some u) : u = (x.take c.isOne ps).type := by
  obtain ⟨type, value⟩ := x
  cases hone : c.isOne with
  | false =>
    rw [hone] at hu h
    obtain ⟨kind, m, rfl, -⟩ := hasBits_cases (h.resolve_right Bool.false_ne_true)
    cases hu
    rfl
  | true =>
    rw [hone] at hu
    obtain ⟨p, rfl⟩ := Choice.resolve_one hps hone
    have hindexed : type.indexed? = some u := hu
    cases type with
    | sized kind m => cases kind <;> cases hindexed <;> rfl
    | array element dims =>
      cases hindexed
      rfl
    | _ => nomatch hindexed

/-- Bits within brackets, and what indices lead to, are counted by their own lengths. -/
theorem counted_self (ht : x.type.Writable ∨ x.type.hasBits = true)
    (h : x.type.hasBits = true ∨ ∀ c ∈ cs, c.isOne = true) : Counted x.type x cs := by
  induction cs generalizing x with
  | nil => trivial
  | cons c cs ih =>
    have hhead : x.type.hasBits = true ∨ c.isOne = true := h.imp_right fun hones => hones c List.mem_cons_self
    refine ⟨fun m hm => by rw [width?_eq_count ht hm], fun ps u hps hu => ?_⟩
    have hwritable := selectedType?_writable ht hhead hu
    have htail : u.hasBits = true ∨ ∀ c ∈ cs, c.isOne = true :=
      h.imp (fun hbits => selectedType?_hasBits hbits hu) (fun hones c hc => hones c (List.mem_cons_of_mem _ hc))
    obtain rfl := selectedType?_eq_take hhead hps hu
    exact ih hwritable htail

/-- All items of a number stand in the same brackets. -/
theorem steady_bits {v : Option Value} (ht : t.hasBits = true) (cs : List Choice) : Steady t ⟨t, v⟩ [cs] :=
  ⟨counted_self (x := ⟨t, v⟩) (Or.inr ht) (Or.inl ht), fun _ _ _ _ => trivial⟩

theorem select_ones (ht : x.type.Writable ∨ x.type.hasBits = true) (h : ∀ c ∈ cs, c.isOne = true)
    (hu : x.type.typeAfter? cs = some u) (hy : x.select cs = some y) :
    u = y.type ∧ (u.Writable ∨ u.hasBits = true) := by
  induction cs generalizing x with
  | nil =>
    cases hu
    cases hy
    exact ⟨rfl, ht⟩
  | cons c cs ih =>
    obtain ⟨w, hw, hrest⟩ := Option.bind_eq_some_iff.1 hu
    obtain ⟨ps, hps, hselect⟩ := Option.bind_eq_some_iff.1 hy
    have hone := h c List.mem_cons_self
    obtain ⟨-, -, hitem⟩ := Option.bind_eq_some_iff.1 hw
    have hsame : selectedType? x.type c.isOne ps.length = some w := by
      rw [hone] at hitem ⊢
      exact hitem
    have hwritable := selectedType?_writable ht (Or.inr hone) hsame
    obtain rfl := selectedType?_eq_take (Or.inr hone) hps hsame
    exact ih hwritable (fun c hc => h c (List.mem_cons_of_mem _ hc)) hrest hselect

/-- No item is a range or a set. -/
theorem steady_ones (ht : x.type.Writable ∨ x.type.hasBits = true) (h : ∀ cs ∈ groups, ∀ c ∈ cs, c.isOne = true) :
    Steady x.type x groups := by
  induction groups generalizing x with
  | nil => trivial
  | cons cs groups ih =>
    obtain ⟨hcs, hgroups⟩ := List.forall_mem_cons.1 h
    refine ⟨counted_self ht (Or.inr hcs), fun u y hu hy => ?_⟩
    obtain ⟨rfl, hwritable⟩ := select_ones ht hcs hu hy
    exact ih hwritable hgroups

end Steadiness

/-- A number of eight bits. -/
def byte (n : UInt64) : Expr := .cast (.sized .int (some (.int 8))) (.int n)

end Chains

end Analysis
end OpenQasm
