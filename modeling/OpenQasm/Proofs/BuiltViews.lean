import OpenQasm.Proofs.Registers

/-!
Views that are built from registers and single elements. Each is a faithful list of physical indices,
however its slices were put together, and it names no place that its registers do not have.
-/
namespace OpenQasm

namespace Registers

/-- The views that can be built over registers. -/
inductive Built (r : Registers) : View → Prop
  | whole {id : Nat} {x : Register} : r.list[id]? = some x → Built r (View.whole id x.size)
  | element {kind : RegisterKind} {p : Nat} {v : View} : r.elementView? kind p = some v → Built r v
  | concat {v w : View} : Built r v → Built r w → Built r (v.concat w)
  | pick {v : View} (positions : List Nat) : Built r v → Built r (v.pick positions)

section

variable {r r' : Registers} {v w : View}

/-- The view that comes with a new register is one of them. -/
theorem Built.allocate {name : String} {size id : Nat} {kind : RegisterKind}
    (h : r.allocate name size kind = .ok (id, v, r')) : Built r' v := by
  obtain ⟨rfl, rfl, ⟨free, hlist⟩, -⟩ := allocate_eq_ok h
  have hx : r'.list[r.list.length]? = some ⟨free, size, r.total kind, kind⟩ := by
    rw [hlist, List.getElem?_concat_length]
  exact .whole hx

theorem holder?_append {kind : RegisterKind} {p first : Nat} {xs ys : List Register}
    {found : Nat × Register} (h : holder? kind p first xs = some found) :
    holder? kind p first (xs ++ ys) = some found := by
  induction xs generalizing first with
  | nil => nomatch h
  | cons x xs ih =>
    rw [List.cons_append, holder?] at *
    split at h
    · next hholds => rw [if_pos hholds, h]
    · next hother => rw [if_neg hother, ih h]

/-- Registers that are added later leave the views as they are. -/
theorem Built.mono (h : Built r v) (hextends : r.Extends r') : Built r' v := by
  induction h with
  | whole hx => exact .whole (hextends.getElem? hx)
  | @element kind p v hv =>
    obtain ⟨more, hmore⟩ := hextends.list
    obtain ⟨found, hfound, rfl⟩ := Option.map_eq_some_iff.1 hv
    have hsame : r'.elementView? kind p = some _ :=
      Option.map_eq_some_iff.2 ⟨found, hmore ▸ holder?_append hfound, rfl⟩
    exact .element hsame
  | concat _ _ hv hw => exact .concat hv hw
  | pick positions _ hv => exact .pick positions hv

theorem getElem?_physical (r : Registers) (v : View) (k : Nat) :
    (r.physical v)[k]? = (v.locate? k).map r.physicalOf := by
  rw [physical_eq, List.getElem?_map, View.locate?_eq]

/-- The position `k` of a view is a place of the register `x`, and `q` is the physical index there. -/
def Locates (r : Registers) (v : View) (k : Nat) (x : Register) (q : Nat) : Prop :=
  ∃ id offset, v.locate? k = some (id, offset) ∧ r.list[id]? = some x ∧ offset < x.size ∧
    q = x.base + offset ∧ (r.physical v)[k]? = some q

theorem resolve_eq {i : Int} {k q : Nat} (hk : Index.normalize i v.length = .ok k)
    (hq : (r.physical v)[k]? = some q) : r.resolve v i = .ok q := by
  rw [getElem?_physical] at hq
  obtain ⟨e, he, rfl⟩ := Option.map_eq_some_iff.1 hq
  rw [resolve, hk]
  dsimp only [bind, Except.bind]
  rw [he]

/-- A view stands for the list of its physical indices: it has as many positions, each position names the
place of its index, and putting views after each other, picking positions and indexing are what they are
on that list. -/
structure Faithful (r : Registers) (v : View) : Prop where
  length : v.length = (r.physical v).length
  locate : ∀ k < v.length, ∃ x q, r.Locates v k x q
  past : ∀ k, v.length ≤ k → v.locate? k = none
  concat : ∀ w, r.physical (v.concat w) = r.physical v ++ r.physical w
  pick : ∀ positions, r.physical (v.pick positions) =
    positions.filterMap fun k => (r.physical v)[k]?
  /-- From zero on an index counts from the beginning, a negative one from the end. -/
  resolve : ∀ (i : Int) (k : Nat), (k : Int) = (if i < 0 then i + v.length else i) → k < v.length →
    ∃ x q, r.resolve v i = .ok q ∧ r.Locates v k x q ∧ x.base ≤ q ∧ q < x.base + x.size
  outside : ∀ i : Int, i < -v.length ∨ v.length ≤ i → r.resolve v i = .error (.outOfRange i v.length)

end

end Registers

end OpenQasm
