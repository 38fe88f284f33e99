import OpenQasm.Register

/-!
A view stands for the list of its elements, each one a register and a place in it. Looking up positions,
putting views after each other and picking positions mean the same for views and for lists.
-/
namespace OpenQasm

namespace Slice

/-- The elements of a slice in order. -/
def elements (s : Slice) : List (Nat × Nat) := (List.range s.length).map fun k => (s.register, s.index k)

theorem length_elements (s : Slice) : s.elements.length = s.length := by
  rw [elements, List.length_map, List.length_range]

theorem getElem?_elements {s : Slice} {k : Nat} (h : k < s.length) :
    s.elements[k]? = some (s.register, s.index k) := by
  rw [elements, List.getElem?_map, List.getElem?_range h, Option.map_some]

theorem elements_single (register offset : Nat) :
    (single register offset).elements = [(register, offset)] := by
  simp [elements, single, index, List.range_one]

/-- A slice that is built from elements: it is not empty, and its last place is one of a register. -/
structure Sound (s : Slice) : Prop where
  pos : 0 < s.length
  last : 0 ≤ (s.offset : Int) + ((s.length - 1 : Nat) : Int) * s.stride

theorem sound_single (register offset : Nat) : (single register offset).Sound :=
  ⟨Nat.one_pos, by simp [single]⟩

/-- A slice that takes one more element has it at its end. -/
theorem elements_extend? {s t : Slice} {register offset : Nat} (hs : s.Sound)
    (h : s.extend? register offset = some t) :
    t.Sound ∧ t.elements = s.elements ++ [(register, offset)] := by
  unfold extend? at h
  split at h
  · next hregister =>
    subst hregister
    dsimp only at h
    split at h
    -- A slice of one element has no direction yet and takes on that of the second.
    · next hfirst =>
      obtain ⟨hlength, -⟩ := hfirst
      cases h
      have hzero : s.index 0 = s.offset := by simp [index]
      have hlast : (s.offset : Int) + ((offset : Int) - (s.index (s.length - 1) : Nat)) = offset := by
        rw [hlength, hzero]
        omega
      refine ⟨⟨Nat.two_pos, ?_⟩, ?_⟩
      · dsimp only
        omega
      · have hold : s.elements = [(s.register, s.offset)] := by
          rw [elements, hlength, List.range_one, List.map_singleton, hzero]
        have hsecond : ((s.offset : Int) + ((1 : Nat) : Int) *
            ((offset : Int) - (s.index (s.length - 1) : Nat))).toNat = offset := by
          rw [Int.natCast_one, Int.one_mul, hlast, Int.toNat_natCast]
        rw [hold]
        change [(s.register, index _ 0), (s.register, index _ 1)] = _
        generalize s.index (s.length - 1) = place at hsecond ⊢
        simp only [index, hsecond, Int.natCast_zero, Int.zero_mul, Int.add_zero, Int.toNat_natCast,
          List.cons_append, List.nil_append]
    · split at h
      -- A longer one keeps its stride, and the new element is the next place along it.
      · next hnext =>
        obtain ⟨hnext, -⟩ := hnext
        cases h
        have hindex : (s.index (s.length - 1) : Int) =
            s.offset + ((s.length - 1 : Nat) : Int) * s.stride := Int.toNat_of_nonneg hs.last
        have hlength : ((s.length - 1 : Nat) : Int) = s.length - 1 := by
          have := hs.pos
          omega
        have hend : (s.offset : Int) + (s.length : Nat) * s.stride = offset := by
          rw [hindex, hlength] at hnext
          have : ((s.length : Int) - 1) * s.stride = s.length * s.stride - s.stride := by
            rw [Int.sub_mul, Int.one_mul]
          omega
        refine ⟨⟨Nat.succ_pos _, ?_⟩, ?_⟩
        · dsimp only
          rw [Nat.add_sub_cancel]
          omega
        · have hlast : (((s.offset : Int) + (s.length : Nat) * s.stride)).toNat = offset := by
            rw [hend, Int.toNat_natCast]
          simp only [elements, List.range_succ, List.map_append, List.map_cons, List.map_nil, index,
            hlast]
      · nomatch h
  · nomatch h

end Slice

namespace View

/-- The elements of slices in order. -/
def elementsOf (slices : List Slice) : List (Nat × Nat) := slices.flatMap Slice.elements

/-- The elements of a view in order. -/
def elements (v : View) : List (Nat × Nat) := elementsOf v.slices

theorem elementsOf_append (ss ts : List Slice) :
    elementsOf (ss ++ ts) = elementsOf ss ++ elementsOf ts := List.flatMap_append

theorem length_elementsOf (slices : List Slice) : (elementsOf slices).length = lengthOf slices := by
  induction slices with
  | nil => rfl
  | cons s ss ih =>
    rw [elementsOf, List.flatMap_cons, List.length_append, Slice.length_elements]
    exact congrArg (s.length + ·) ih

theorem length_elements (v : View) : v.elements.length = v.length := length_elementsOf v.slices

theorem locateIn_eq (slices : List Slice) (k : Nat) : locateIn slices k = (elementsOf slices)[k]? := by
  induction slices generalizing k with
  | nil => rfl
  | cons s ss ih =>
    have hcons : elementsOf (s :: ss) = s.elements ++ elementsOf ss := List.flatMap_cons
    rw [locateIn, hcons]
    split
    · next hk =>
      rw [List.getElem?_append_left (by rwa [Slice.length_elements]), Slice.getElem?_elements hk]
    · next hk =>
      have hpast : s.elements.length ≤ k := by
        rw [Slice.length_elements]
        omega
      rw [ih, List.getElem?_append_right hpast, Slice.length_elements]

/-- A position names the element that stands there. -/
theorem locate?_eq (v : View) (k : Nat) : v.locate? k = v.elements[k]? := locateIn_eq v.slices k

theorem elements_concat (v w : View) : (v.concat w).elements = v.elements ++ w.elements :=
  elementsOf_append v.slices w.slices

theorem elements_whole (register size : Nat) :
    (whole register size).elements = (List.range size).map fun k => (register, k) := by
  simp [elements, elementsOf, whole, Slice.elements, Slice.index, Int.toNat_natCast]

/-- An element is added at the end, whether its slice is new or not. -/
theorem elementsOf_push {slices : List Slice} (hs : ∀ s ∈ slices, s.Sound) (e : Nat × Nat) :
    (∀ s ∈ push slices e, s.Sound) ∧
      elementsOf (push slices e).reverse = elementsOf slices.reverse ++ [e] := by
  have hfresh : elementsOf [Slice.single e.1 e.2] = [e] := by
    rw [elementsOf, List.flatMap_singleton, Slice.elements_single]
  unfold push
  dsimp only
  split
  · exact ⟨fun s h => List.mem_singleton.1 h ▸ Slice.sound_single _ _, hfresh⟩
  · next s ss =>
    obtain ⟨hfirst, hrest⟩ := List.forall_mem_cons.1 hs
    -- The last slice is the first of the list, as they are gathered in reverse.
    split
    · next t ht =>
      obtain ⟨hsound, helements⟩ := Slice.elements_extend? hfirst ht
      refine ⟨List.forall_mem_cons.2 ⟨hsound, hrest⟩, ?_⟩
      rw [List.reverse_cons, List.reverse_cons, elementsOf_append, elementsOf_append, elementsOf,
        elementsOf, elementsOf, List.flatMap_singleton, List.flatMap_singleton, helements,
        List.append_assoc]
    · refine ⟨List.forall_mem_cons.2 ⟨Slice.sound_single _ _, hs⟩, ?_⟩
      rw [List.reverse_cons, elementsOf_append, hfresh]

theorem elementsOf_foldl_push (es : List (Nat × Nat)) (slices : List Slice)
    (hs : ∀ s ∈ slices, s.Sound) :
    elementsOf (es.foldl push slices).reverse = elementsOf slices.reverse ++ es := by
  induction es generalizing slices with
  | nil => rw [List.foldl_nil, List.append_nil]
  | cons e es ih =>
    obtain ⟨hsound, helements⟩ := elementsOf_push hs e
    rw [List.foldl_cons, ih _ hsound, helements, List.append_assoc, List.singleton_append]

/-- Positions are picked in order; those past the end are left out. -/
theorem elements_pick (v : View) (positions : List Nat) :
    (v.pick positions).elements = positions.filterMap v.locate? := by
  have hfold := elementsOf_foldl_push (positions.filterMap v.locate?) []
    fun _ h => nomatch h
  exact hfold

theorem mem_elements_of_mem_pick {v : View} {positions : List Nat} {e : Nat × Nat}
    (h : e ∈ (v.pick positions).elements) : e ∈ v.elements := by
  rw [elements_pick, List.mem_filterMap] at h
  obtain ⟨k, -, hk⟩ := h
  rw [locate?_eq] at hk
  exact List.mem_of_getElem? hk

end View

end OpenQasm
