import OpenQasm.Proofs.ExpressionValues
import OpenQasm.Proofs.GatheredBits

/-!
Indices that are applied one after another, in one pair of brackets or in several. A known value is seen as a
sequence, an array of its elements and a number of its bits, of which an index selects an element, or some
elements in the order in which their positions are listed; what it has selected is such a value again. The
evaluation counts positions by a type that it carries along. That type can have another length than the
selection: a range or a set does not change the type of an array, and the type of bits is found anew, with the
width from before, where further brackets follow. Wherever an index names the same positions in both lengths,
the evaluation gives what the indices select, and reports a position outside of the selection.
-/
namespace OpenQasm

/-- What an item of an index names, its numbers being known. The step of a range is one if it is left out. -/
inductive Choice
  | one (i : Int)
  | several (is : List Int)
  | span (start : Option Int) (step : Int) (stop : Option Int) (hstep : step ≠ 0)

namespace Choice

variable {c : Choice} {n p : Nat} {i : Int} {ps : List Nat}

def isOne : Choice → Bool
  | one _ => true
  | _ => false

/-- Where a range begins. Without a start that is the end of the sequence from which the range goes. -/
def first (start : Option Int) (step : Int) (n : Nat) : Int := start.getD (if 0 < step then 0 else (n : Int) - 1)

/-- Where a range ends. Without a stop that is the end of the sequence toward which the range goes. -/
def final (step : Int) (stop : Option Int) (n : Nat) : Int := stop.getD (if 0 < step then (n : Int) - 1 else 0)

/-- The indices that are named, those of a range being its ends. -/
def named (n : Nat) : Choice → List Int
  | one i => [i]
  | several is => is
  | span start step stop _ => [first start step n, final step stop n]

/-- The position of an index, a negative one being counted from the end. -/
def place (n : Nat) (i : Int) : Nat := (if i < 0 then i + n else i).toNat

/-- The positions that are listed, in their order. -/
def positions (n : Nat) : Choice → List Nat
  | one i => [place n i]
  | several is => is.map (place n)
  | span start step stop _ =>
    (Index.progression (place n (first start step n)) step (place n (final step stop n))).map Int.toNat

/-- Every index that is named is one of a sequence. -/
def Inside (n : Nat) (c : Choice) : Prop := ∀ i ∈ c.named n, -n ≤ i ∧ i < n

instance (n : Nat) (c : Choice) : Decidable (c.Inside n) := List.decidableBAll _ _

/-- The positions that are listed in a sequence, if none lies outside of it. -/
def resolve (n : Nat) (c : Choice) : Option (List Nat) := if c.Inside n then some (c.positions n) else none

theorem resolve_one (h : c.resolve n = some ps) (hone : c.isOne = true) : ∃ p, ps = [p] := by
  cases c with
  | one i =>
    unfold resolve at h
    split at h
    · cases h
      exact ⟨_, rfl⟩
    · nomatch h
  | several is => nomatch hone
  | span start step stop hstep => nomatch hone

end Choice

/-- A part of a known value, and its type. Of more bits than a word has no value is kept. -/
structure Selection where
  type : ClassicalType
  value : Option Value

/-- The number of elements, or of bits. -/
def ClassicalType.count : ClassicalType → Nat
  | array _ (d :: _) => d
  | sized _ n => n
  | _ => 0

namespace Value

def elementAt? (ps : List Nat) : Value → Option Value
  | array items => ps.head?.bind (items[·]?)
  | _ => none

def elementsAt? (ps : List Nat) : Value → Option Value
  | array items => (ps.mapM (items[·]?)).map array
  | _ => none

/-- The bits at some positions, the first one being the highest. -/
def bitsAt? (ps : List Nat) : Value → Option Value
  | int w => if ps.length ≤ 64 ∧ ∀ p ∈ ps, p < 64 then some (int (Word.gathered w ps)) else none
  | _ => none

end Value

namespace Selection

/-- The part at some positions; from an array a single one selects an element, not an array of one element. -/
def take (x : Selection) (single : Bool) (ps : List Nat) : Selection :=
  match x.type with
  | .array element dims =>
    if single then ⟨.arrayOf element dims.tail, x.value.bind (·.elementAt? ps)⟩
    else ⟨.array element (ps.length :: dims.tail), x.value.bind (·.elementsAt? ps)⟩
  | _ => ⟨.sized .bit ps.length, x.value.bind (·.bitsAt? ps)⟩

/-- What is selected one after another; nothing if a position lies outside of the selection before. -/
def select (x : Selection) : List Choice → Option Selection
  | [] => some x
  | c :: cs => (c.resolve x.type.count).bind fun ps => (x.take c.isOne ps).select cs

end Selection

namespace ClassicalType

variable {t u t' u' w : ClassicalType} {single : Bool}

/-- The type that is found for a part of a value, if the type has parts. -/
def indexedType? (t : ClassicalType) (single : Bool) : Option ClassicalType :=
  t.width?.bind fun _ => Analysis.itemType? t single

/-- The type that is found after some items. -/
def typeAfter? : ClassicalType → List Choice → Option ClassicalType
  | t, [] => some t
  | t, c :: cs => (t.indexedType? c.isOne).bind (typeAfter? · cs)

/-- Types that are the same but for the length, and for the kind of what is made of bits. -/
inductive Resembles : ClassicalType → ClassicalType → Prop
  | same (t : ClassicalType) : Resembles t t
  | array (element : ClassicalType) (d d' : Nat) (ds : List Nat) :
    Resembles (array element (d :: ds)) (array element (d' :: ds))
  | bits {t u : ClassicalType} (ht : t.hasBits = true) (hu : u.hasBits = true) : Resembles t u

theorem hasBits_cases (h : t.hasBits = true) :
    ∃ kind n, t = sized kind n ∧ (kind = .int ∨ kind = .uint ∨ kind = .bit) := by
  cases t with
  | sized kind n =>
    cases kind with
    | int => exact ⟨.int, n, rfl, Or.inl rfl⟩
    | uint => exact ⟨.uint, n, rfl, Or.inr (Or.inl rfl)⟩
    | bit => exact ⟨.bit, n, rfl, Or.inr (Or.inr rfl)⟩
    | float => nomatch h
    | angle => nomatch h
    | complex => nomatch h
  | _ => nomatch h

/-- Only arrays and bits have parts. -/
theorem indexedType?_cases (h : t.indexedType? single = some u) :
    (∃ element d ds, t = array element (d :: ds) ∧
      u = if single then arrayOf element ds else array element (d :: ds)) ∨
    t.hasBits = true ∧ ∃ n, t.width? = some n ∧ u = if single then sized .bit 1 else sized .bit n := by
  obtain ⟨n, hn, h⟩ := Option.bind_eq_some_iff.1 h
  cases t with
  | array element dims =>
    cases dims with
    | nil => nomatch hn
    | cons d ds => cases single <;> cases h <;> exact Or.inl ⟨element, d, ds, rfl, rfl⟩
  | sized kind m => cases kind <;> cases single <;> cases h <;> exact Or.inr ⟨rfl, m, rfl, rfl⟩
  | _ => nomatch hn

theorem indexedType?_array (element : ClassicalType) (d : Nat) (ds : List Nat) (single : Bool) :
    (array element (d :: ds)).indexedType? single =
      some (if single then arrayOf element ds else array element (d :: ds)) := by
  cases single <;> rfl

theorem indexedType?_bits (h : t.hasBits = true) (single : Bool) :
    ∃ u, t.indexedType? single = some u ∧ u.hasBits = true := by
  obtain ⟨kind, n, rfl, rfl | rfl | rfl⟩ := hasBits_cases h <;> cases single <;> exact ⟨_, rfl, rfl⟩

theorem Resembles.symm (h : Resembles t u) : Resembles u t := by
  cases h with
  | same => exact .same _
  | array element d d' ds => exact .array element d' d ds
  | bits ht hu => exact .bits hu ht

theorem Resembles.trans (h : Resembles t u) (h' : Resembles u w) : Resembles t w := by
  cases h with
  | same => exact h'
  | array element d d' ds =>
    cases h' with
    | same => exact .array element d d' ds
    | array _ _ d'' _ => exact .array element d d'' ds
    | bits hu hw => nomatch hu
  | bits ht hu =>
    cases h' with
    | same => exact .bits ht hu
    | array => nomatch hu
    | bits _ hw => exact .bits ht hw

theorem Resembles.indexedType? (h : Resembles t t') (hu : t.indexedType? single = some u) :
    ∃ u', t'.indexedType? single = some u' ∧ Resembles u u' := by
  cases h with
  | same => exact ⟨u, hu, .same u⟩
  | array element d d' ds =>
    refine ⟨_, indexedType?_array element d' ds single, ?_⟩
    cases (indexedType?_array element d ds single).symm.trans hu
    cases single
    · exact .array element d d' ds
    · exact .same _
  | bits ht ht' =>
    obtain ⟨v, hv, hbits⟩ := indexedType?_bits ht single
    obtain ⟨u', hu', hbits'⟩ := indexedType?_bits ht' single
    cases hv.symm.trans hu
    exact ⟨u', hu', .bits hbits hbits'⟩

theorem Resembles.typeAfter? {cs : List Choice} (h : Resembles t t') (hu : t.typeAfter? cs = some u) :
    ∃ u', t'.typeAfter? cs = some u' ∧ Resembles u u' := by
  induction cs generalizing t t' with
  | nil =>
    cases hu
    exact ⟨t', rfl, h⟩
  | cons c cs ih =>
    obtain ⟨w, hw, hrest⟩ := Option.bind_eq_some_iff.1 hu
    obtain ⟨w', hw', hwalike⟩ := h.indexedType? hw
    obtain ⟨u', hu', hualike⟩ := ih hwalike hrest
    exact ⟨u', Option.bind_eq_some_iff.2 ⟨w', hw', hu'⟩, hualike⟩

end ClassicalType

namespace Selection

open ClassicalType

variable {x y : Selection} {t u : ClassicalType} {single : Bool} {ps : List Nat} {cs : List Choice}

/-- What is known is a value of the type. -/
def Holds (x : Selection) : Prop := ∀ v, x.value = some v → x.type.Inhabits v

/-- There is an element at each of some positions in a list. -/
theorem elements_in_range {items : List Value} {n : Nat} (hlength : items.length = n) (h : ∀ p ∈ ps, p < n) :
    ∃ vs, ps.mapM (items[·]?) = some vs ∧ ps.filterMap (items[·]?) = vs ∧ vs.length = ps.length ∧
      ∀ v ∈ vs, v ∈ items := by
  subst hlength
  induction ps with
  | nil => exact ⟨[], rfl, rfl, rfl, nofun⟩
  | cons p ps ih =>
    obtain ⟨hp, hps⟩ := List.forall_mem_cons.1 h
    obtain ⟨vs, hmap, hfilter, hcount, hmem⟩ := ih hps
    have hat : items[p]? = some items[p] := List.getElem?_eq_getElem hp
    refine ⟨items[p] :: vs, ?_, ?_, congrArg (· + 1) hcount,
      List.forall_mem_cons.2 ⟨List.getElem_mem hp, hmem⟩⟩
    · rw [List.mapM_cons, hat, hmap]
      rfl
    · rw [List.filterMap_cons_some hat, hfilter]

/-- A part of a value is one of its type. -/
theorem Holds.take (hx : x.Holds) (htype : x.type.indexedType? single = some u)
    (hps : ∀ p ∈ ps, p < x.type.count) (hone : single = true → ∃ p, ps = [p]) : (x.take single ps).Holds := by
  obtain ⟨type, value⟩ := x
  intro part hpart
  rcases indexedType?_cases htype with ⟨element, d, ds, rfl, -⟩ | ⟨hbits, -⟩
  · cases single
    · obtain ⟨v, hv, hpart⟩ := Option.bind_eq_some_iff.1 hpart
      have hinhabits := hx v hv
      cases v with
      | array items =>
        obtain ⟨vs, hmap, -, hcount, hmem⟩ := elements_in_range hinhabits.1 hps
        rw [Value.elementsAt?, hmap] at hpart
        cases hpart
        exact ⟨hcount, fun v hv => hinhabits.2 v (hmem v hv)⟩
      | _ => nomatch hpart
    · obtain ⟨v, hv, hpart⟩ := Option.bind_eq_some_iff.1 hpart
      have hinhabits := hx v hv
      cases v with
      | array items =>
        obtain ⟨p, rfl⟩ := hone rfl
        have hat : items[p]? = some part := hpart
        exact inhabits_arrayOf.2 (hinhabits.2 part (List.mem_of_getElem? hat))
      | _ => nomatch hpart
  · obtain ⟨kind, n, rfl, -⟩ := hasBits_cases hbits
    obtain ⟨v, hv, hpart⟩ := Option.bind_eq_some_iff.1 hpart
    cases v with
    | int w =>
      rw [Value.bitsAt?] at hpart
      split at hpart
      · cases hpart
        exact fun hlength => Word.gathered_range hlength
      · nomatch hpart
    | _ => nomatch hpart

end Selection
end OpenQasm
