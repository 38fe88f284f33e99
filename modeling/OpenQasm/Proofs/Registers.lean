import OpenQasm.Proofs.Frame
import OpenQasm.Proofs.Views

/-!
Registers of a kind stand one after another in the physical numbering. The elements of a view are valid
when they lie in registers of its kind; adding registers changes neither that nor their physical indices.
-/
namespace OpenQasm

/-- Registers of one kind that take consecutive blocks from a physical index on. -/
def Tiles (kind : RegisterKind) : Nat → List Register → Prop
  | _, [] => True
  | base, x :: xs => x.kind = kind ∧ x.base = base ∧ Tiles kind (base + x.size) xs

theorem totalSize_cons (x : Register) (xs : List Register) : totalSize (x :: xs) = x.size + totalSize xs := rfl

theorem totalSize_append (xs ys : List Register) :
    totalSize (xs ++ ys) = totalSize xs + totalSize ys := by
  induction xs with
  | nil => exact (Nat.zero_add _).symm
  | cons x xs ih => rw [List.cons_append, totalSize_cons, totalSize_cons, ih, Nat.add_assoc]

namespace Tiles

variable {kind : RegisterKind} {base : Nat} {xs ys : List Register}

theorem append (hx : Tiles kind base xs) (hy : Tiles kind (base + totalSize xs) ys) :
    Tiles kind base (xs ++ ys) := by
  induction xs generalizing base with
  | nil => exact hy
  | cons x xs ih =>
    obtain ⟨hkind, hbase, hrest⟩ := hx
    rw [totalSize_cons, ← Nat.add_assoc] at hy
    exact ⟨hkind, hbase, ih hrest hy⟩

/-- Each register lies within the block of all. -/
theorem mem (h : Tiles kind base xs) {x : Register} (hx : x ∈ xs) :
    x.kind = kind ∧ base ≤ x.base ∧ x.base + x.size ≤ base + totalSize xs := by
  induction xs generalizing base with
  | nil => nomatch hx
  | cons y ys ih =>
    obtain ⟨hkind, hbase, hrest⟩ := h
    rw [totalSize_cons]
    rcases List.mem_cons.1 hx with rfl | hx
    · exact ⟨hkind, by omega, by omega⟩
    · obtain ⟨hkind', hlow, hhigh⟩ := ih hrest hx
      exact ⟨hkind', by omega, by omega⟩

/-- Every index in the block of all belongs to one of the registers. -/
theorem exists_holds (h : Tiles kind base xs) {p : Nat} (hlow : base ≤ p)
    (hhigh : p < base + totalSize xs) : ∃ x ∈ xs, x.holds kind p = true := by
  induction xs generalizing base with
  | nil => exact absurd hhigh (Nat.not_lt.2 hlow)
  | cons x xs ih =>
    obtain ⟨hkind, hbase, hrest⟩ := h
    rw [totalSize_cons, ← Nat.add_assoc] at hhigh
    rcases Nat.lt_or_ge p (base + x.size) with hp | hp
    · exact ⟨x, List.mem_cons_self, by simp [Register.holds, hkind, hbase, hlow, hp]⟩
    · obtain ⟨y, hy, hholds⟩ := ih hrest hp hhigh
      exact ⟨y, List.mem_cons_of_mem _ hy, hholds⟩

/-- The blocks, one after another, are the physical indices in order. -/
theorem blocks (h : Tiles kind base xs) :
    xs.flatMap (fun x => List.range' x.base x.size) = List.range' base (totalSize xs) := by
  induction xs generalizing base with
  | nil => rfl
  | cons x xs ih =>
    obtain ⟨-, hbase, hrest⟩ := h
    rw [List.flatMap_cons, ih hrest, hbase, totalSize_cons, List.range'_append_1]

end Tiles

namespace Registers

/-- The registers of each kind take up the physical indices of the kind. -/
structure Tiled (r : Registers) : Prop where
  tiles : ∀ kind, Tiles kind 0 (r.ofKind kind)
  total : ∀ kind, r.total kind = totalSize (r.ofKind kind)

theorem tiled_empty : Tiled empty := ⟨fun _ => trivial, fun kind => by cases kind <;> rfl⟩

theorem tiled_congr {r r' : Registers} (h : r.Tiled) (hlist : r'.list = r.list)
    (hqubits : r'.qubits = r.qubits) (hclbits : r'.clbits = r.clbits) : r'.Tiled := by
  have hkinds : ∀ kind, r'.ofKind kind = r.ofKind kind := fun kind => by rw [ofKind, ofKind, hlist]
  refine ⟨fun kind => (hkinds kind).symm ▸ h.tiles kind, fun kind => ?_⟩
  rw [hkinds, ← h.total kind]
  cases kind
  · exact hqubits
  · exact hclbits

theorem tiled_reserve {r : Registers} (h : r.Tiled) (name : String) : (r.reserve name).2.Tiled :=
  tiled_congr h rfl rfl rfl

theorem tiled_mark {r : Registers} (h : r.Tiled) (q : Nat) (usage : Usage) :
    (r.mark q usage).2.Tiled := by
  unfold mark
  split
  · exact h
  · split <;> exact tiled_congr h rfl rfl rfl

/-- A register is put after the others of its kind. -/
theorem allocate_eq_ok {r r' : Registers} {name : String} {size id : Nat} {kind : RegisterKind}
    {v : View} (h : r.allocate name size kind = .ok (id, v, r')) :
    id = r.list.length ∧ v = View.whole id size ∧
      (∃ free, r'.list = r.list ++ [⟨free, size, r.total kind, kind⟩]) ∧
      ∀ k, r'.total k = r.total k + if k = kind then size else 0 := by
  unfold allocate at h
  dsimp only at h
  split at h
  · cases kind with
    | quantum =>
      cases h
      exact ⟨rfl, rfl, ⟨_, rfl⟩, fun k => by cases k <;> rfl⟩
    | classical =>
      cases h
      exact ⟨rfl, rfl, ⟨_, rfl⟩, fun k => by cases k <;> rfl⟩
  · nomatch h

theorem tiled_allocate {r r' : Registers} {name : String} {size id : Nat} {kind : RegisterKind}
    {v : View} (hr : r.Tiled) (h : r.allocate name size kind = .ok (id, v, r')) : r'.Tiled := by
  obtain ⟨-, -, ⟨free, hlist⟩, htotal⟩ := allocate_eq_ok h
  -- Only the registers of the same kind become one more.
  have hkinds (k : RegisterKind) : r'.ofKind k =
      r.ofKind k ++ if k = kind then [⟨free, size, r.total kind, kind⟩] else [] := by
    rw [ofKind, ofKind, hlist, List.filter_append]
    by_cases hk : k = kind
    · subst hk
      simp
    · simp [hk, Ne.symm hk]
  refine ⟨fun k => ?_, fun k => ?_⟩
  · rw [hkinds]
    apply (hr.tiles k).append
    split
    · next hk =>
      subst hk
      exact ⟨rfl, by rw [hr.total, Nat.zero_add], trivial⟩
    · trivial
  · rw [hkinds, totalSize_append, htotal, hr.total]
    split <;> rfl

theorem mem_ofKind {r : Registers} {kind : RegisterKind} {x : Register} :
    x ∈ r.ofKind kind ↔ x ∈ r.list ∧ x.kind = kind := by
  rw [ofKind, List.mem_filter, decide_eq_true_eq]

/-- A register element of a kind, below the physical indices that are taken. -/
def HasElement (r : Registers) (kind : RegisterKind) (e : Nat × Nat) : Prop :=
  ∃ x, r.list[e.1]? = some x ∧ x.kind = kind ∧ e.2 < x.size ∧ x.base + x.size ≤ r.total kind

/-- A view of elements of a kind. -/
def HasView (r : Registers) (kind : RegisterKind) (v : View) : Prop :=
  ∀ e ∈ v.elements, r.HasElement kind e

section Elements

variable {r r' : Registers} {kind : RegisterKind} {e : Nat × Nat} {v w : View}

theorem Extends.total (h : r.Extends r') (kind : RegisterKind) : r.total kind ≤ r'.total kind := by
  cases kind
  · exact h.qubits
  · exact h.clbits

theorem Extends.getElem? (h : r.Extends r') {id : Nat} {x : Register} (hx : r.list[id]? = some x) :
    r'.list[id]? = some x := by
  obtain ⟨more, hmore⟩ := h.list
  obtain ⟨hid, -⟩ := List.getElem?_eq_some_iff.1 hx
  rw [← hmore, List.getElem?_append_left hid, hx]

theorem HasElement.mono (h : r.HasElement kind e) (hextends : r.Extends r') :
    r'.HasElement kind e := by
  obtain ⟨x, hx, hkind, hplace, htotal⟩ := h
  exact ⟨x, hextends.getElem? hx, hkind, hplace, Nat.le_trans htotal (hextends.total kind)⟩

theorem HasView.mono (h : r.HasView kind v) (hextends : r.Extends r') : r'.HasView kind v :=
  fun e he => (h e he).mono hextends

/-- The physical index of an element stays the same. -/
theorem HasElement.physicalOf_eq (h : r.HasElement kind e) (hextends : r.Extends r') :
    r'.physicalOf e = r.physicalOf e := by
  obtain ⟨x, hx, -⟩ := h
  rw [physicalOf, physicalOf, baseOf, baseOf, hx, hextends.getElem? hx]

theorem HasElement.physicalOf_lt (h : r.HasElement kind e) : r.physicalOf e < r.total kind := by
  obtain ⟨x, hx, -, hplace, htotal⟩ := h
  rw [physicalOf, baseOf, hx, Option.map_some, Option.getD_some]
  omega

theorem physical_eq (r : Registers) (v : View) : r.physical v = v.elements.map r.physicalOf := by
  have hslice : r.physicalOfSlice = fun s => s.elements.map r.physicalOf := by
    funext s
    rw [physicalOfSlice, Slice.elements, List.map_map]
    rfl
  rw [physical, View.elements, View.elementsOf, List.map_flatMap, hslice]

theorem HasView.physical_lt (h : r.HasView kind v) : ∀ q ∈ r.physical v, q < r.total kind := by
  intro q hq
  rw [physical_eq] at hq
  obtain ⟨e, he, rfl⟩ := List.mem_map.1 hq
  exact (h e he).physicalOf_lt

theorem HasView.physical_eq (h : r.HasView kind v) (hextends : r.Extends r') :
    r'.physical v = r.physical v := by
  rw [Registers.physical_eq, Registers.physical_eq]
  exact List.map_congr_left fun e he => (h e he).physicalOf_eq hextends

theorem HasView.concat (hv : r.HasView kind v) (hw : r.HasView kind w) :
    r.HasView kind (v.concat w) := by
  intro e he
  rw [View.elements_concat] at he
  exact (List.mem_append.1 he).elim (hv e) (hw e)

theorem HasView.pick (hv : r.HasView kind v) (positions : List Nat) :
    r.HasView kind (v.pick positions) :=
  fun e he => hv e (View.mem_elements_of_mem_pick he)

theorem physical_concat (r : Registers) (v w : View) :
    r.physical (v.concat w) = r.physical v ++ r.physical w := by
  rw [Registers.physical_eq, View.elements_concat, List.map_append, ← Registers.physical_eq,
    ← Registers.physical_eq]

theorem mem_physical_of_mem_pick {positions : List Nat} {q : Nat}
    (h : q ∈ r.physical (v.pick positions)) : q ∈ r.physical v := by
  rw [Registers.physical_eq] at h ⊢
  obtain ⟨e, he, rfl⟩ := List.mem_map.1 h
  exact List.mem_map_of_mem (View.mem_elements_of_mem_pick he)

/-- A new register is there as a whole. -/
theorem hasView_allocate {name : String} {size id : Nat}
    (h : r.allocate name size kind = .ok (id, v, r')) : r'.HasView kind v := by
  obtain ⟨hid, rfl, ⟨free, hlist⟩, htotal⟩ := allocate_eq_ok h
  intro e he
  rw [View.elements_whole] at he
  obtain ⟨k, hk, rfl⟩ := List.mem_map.1 he
  refine ⟨⟨free, size, r.total kind, kind⟩, ?_, rfl, List.mem_range.1 hk, ?_⟩
  · rw [hlist, hid, List.getElem?_append_right (Nat.le_refl _), Nat.sub_self]
    rfl
  · exact Nat.le_of_eq (by rw [htotal, if_pos rfl])

/-- An index names one of the physical indices of a view. -/
theorem mem_physical_of_resolve {index : Int} {q : Nat} (h : r.resolve v index = .ok q) :
    q ∈ r.physical v := by
  unfold resolve at h
  rcases hk : Index.normalize index v.length with e | k
  · rw [hk] at h
    nomatch h
  · rw [hk] at h
    dsimp only [bind, Except.bind] at h
    split at h
    · next e he =>
      cases h
      rw [View.locate?_eq] at he
      rw [Registers.physical_eq]
      exact List.mem_map_of_mem (List.mem_of_getElem? he)
    · nomatch h

theorem holder?_eq_some {q first id : Nat} {xs : List Register} {x : Register}
    (h : holder? kind q first xs = some (id, x)) :
    ∃ k, id = first + k ∧ xs[k]? = some x ∧ x.holds kind q = true := by
  induction xs generalizing first with
  | nil => nomatch h
  | cons y ys ih =>
    unfold holder? at h
    split at h
    · next hholds =>
      cases h
      exact ⟨0, rfl, rfl, hholds⟩
    · obtain ⟨k, rfl, hx, hholds⟩ := ih h
      exact ⟨k + 1, by omega, hx, hholds⟩

theorem holder?_isSome {p first : Nat} {xs : List Register} {x : Register} (hx : x ∈ xs)
    (hholds : x.holds kind p = true) : (holder? kind p first xs).isSome = true := by
  induction xs generalizing first with
  | nil => nomatch hx
  | cons y ys ih =>
    unfold holder?
    split
    · rfl
    · next hother =>
      rcases List.mem_cons.1 hx with rfl | hx
      · exact absurd hholds hother
      · exact ih hx

/-- Every physical index that is taken is held by a register. -/
theorem Tiled.holder?_isSome (h : r.Tiled) {p : Nat} (hp : p < r.total kind) :
    (holder? kind p 0 r.list).isSome = true := by
  rw [h.total kind] at hp
  obtain ⟨x, hx, hholds⟩ := (h.tiles kind).exists_holds (Nat.zero_le p) (by rwa [Nat.zero_add])
  exact Registers.holder?_isSome (mem_ofKind.1 hx).1 hholds

/-- The view of a single physical index is an element of the register that holds the index. -/
theorem elements_elementView? {q : Nat} (h : r.elementView? kind q = some w) :
    ∃ id x, r.list[id]? = some x ∧ x.kind = kind ∧ x.base ≤ q ∧ q < x.base + x.size ∧
      w.elements = [(id, q - x.base)] := by
  obtain ⟨⟨id, x⟩, hholder, rfl⟩ := Option.map_eq_some_iff.1 h
  obtain ⟨k, hid, hx, hholds⟩ := holder?_eq_some hholder
  rw [Nat.zero_add] at hid
  subst hid
  simp only [Register.holds, Bool.and_eq_true, decide_eq_true_eq] at hholds
  obtain ⟨⟨hkind, hlow⟩, hhigh⟩ := hholds
  refine ⟨id, x, hx, hkind, hlow, hhigh, ?_⟩
  rw [View.elements, View.elementsOf, List.flatMap_singleton, Slice.elements_single]

/-- The view of a single physical index has just that. -/
theorem physical_elementView? {q : Nat} (h : r.elementView? kind q = some w) : r.physical w = [q] := by
  obtain ⟨id, x, hx, -, hlow, -, helements⟩ := elements_elementView? h
  rw [Registers.physical_eq, helements, List.map_singleton, physicalOf, baseOf, hx, Option.map_some,
    Option.getD_some]
  dsimp only
  rw [Nat.add_sub_cancel' hlow]

theorem elementView?_eq_some (hr : r.Tiled) {q : Nat} (h : r.elementView? kind q = some w) :
    r.HasView kind w ∧ r.physical w = [q] := by
  refine ⟨fun e he => ?_, physical_elementView? h⟩
  obtain ⟨id, x, hx, hkind, hlow, hhigh, helements⟩ := elements_elementView? h
  have hmem : x ∈ r.ofKind kind := mem_ofKind.2 ⟨List.mem_of_getElem? hx, hkind⟩
  obtain ⟨-, -, htotal⟩ := (hr.tiles kind).mem hmem
  rw [helements] at he
  cases List.mem_singleton.1 he
  exact ⟨x, hx, hkind, by dsimp only; omega, by rw [hr.total]; omega⟩

end Elements

end Registers

end OpenQasm
