import Mathlib.Data.List.Chain
import Mathlib.Order.Bounds.Basic
import OpenQasm.Proofs.Instructions

/-!
The depth of a circuit is the greatest number of layers that a chain of operations has, when the chain may
take any operations in order as long as each shares a wire with the next. The circuit only knows the last
node of each wire. That is enough, since no chain that ends in an earlier operation on a wire is longer
than the longest one that ends in its last operation.
-/
namespace OpenQasm

/-- An operation under a condition on bits. -/
structure Conditioned where
  operation : Instruction
  condition : List Nat

namespace Conditioned

def wires (a : Conditioned) : List Wire := Circuit.wiresOf a.operation a.condition

/-- Two operations share a qubit or a bit. The bits of a condition are bits of its operation. -/
def Shares (a b : Conditioned) : Prop :=
  (∃ q ∈ a.operation.qubits, q ∈ b.operation.qubits) ∨
    ∃ c ∈ a.operation.clbits ++ a.condition, c ∈ b.operation.clbits ++ b.condition

/-- The number of operations that are no barriers. -/
def layers (l : List Conditioned) : Nat := l.countP (!·.operation.isBarrier)

/-- The layers of the chains of some operations that are empty or end in one with a property. -/
def Lengths (ops : List Conditioned) (p : Conditioned → Prop) : Set Nat :=
  {n | ∃ l, l.Sublist ops ∧ l.IsChain Shares ∧ (∀ a ∈ l.getLast?, p a) ∧ layers l = n}

end Conditioned

namespace Circuit

/-- The operations applied one after another, and those of them that were accepted. -/
def applyAll (c : Circuit) : List Conditioned → Circuit × List Conditioned
  | [] => (c, [])
  | a :: rest =>
    match (applyConditioned a.operation a.condition).run c with
    | (.ok _, d) =>
      let (d, accepted) := applyAll d rest
      (d, a :: accepted)
    | (.error _, d) => applyAll d rest

end Circuit

namespace Conditioned

section Wires

variable {a b : Conditioned}

theorem mem_eraseReps {w : Wire} {l : List Wire} : w ∈ l.eraseReps ↔ w ∈ l := by
  have hloop (v : Wire) (l kept : List Wire) :
      w ∈ List.eraseRepsBy.loop (· == ·) v l kept ↔ w = v ∨ w ∈ l ∨ w ∈ kept := by
    induction l generalizing v kept with
    | nil => simp [List.eraseRepsBy.loop, or_comm]
    | cons u l ih =>
      rw [List.eraseRepsBy.loop]
      split
      · next heq =>
        rw [ih, List.mem_cons, eq_of_beq heq]
        tauto
      · rw [ih, List.mem_cons, List.mem_cons]
        tauto
  cases l with
  | nil => rfl
  | cons v l =>
    rw [List.eraseReps, List.eraseRepsBy, hloop, List.mem_cons]
    simp

theorem qubit_mem_wires {q : Nat} : .qubit q ∈ a.wires ↔ q ∈ a.operation.qubits := by
  simp [wires, Circuit.wiresOf, mem_eraseReps]

theorem clbit_mem_wires {c : Nat} : .clbit c ∈ a.wires ↔ c ∈ a.operation.clbits ++ a.condition := by
  simp [wires, Circuit.wiresOf, mem_eraseReps]

theorem shares_iff : Shares a b ↔ ∃ w ∈ b.wires, w ∈ a.wires := by
  constructor
  · rintro (⟨q, ha, hb⟩ | ⟨c, ha, hb⟩)
    · exact ⟨.qubit q, qubit_mem_wires.2 hb, qubit_mem_wires.2 ha⟩
    · exact ⟨.clbit c, clbit_mem_wires.2 hb, clbit_mem_wires.2 ha⟩
  · rintro ⟨w | w, hb, ha⟩
    · exact .inl ⟨w, qubit_mem_wires.1 ha, qubit_mem_wires.1 hb⟩
    · exact .inr ⟨w, clbit_mem_wires.1 ha, clbit_mem_wires.1 hb⟩

end Wires

section Lengths

variable {ops : List Conditioned} {p : Conditioned → Prop} {a : Conditioned} {n : Nat}

theorem layers_concat (l : List Conditioned) (a : Conditioned) :
    layers (l ++ [a]) = layers l + Circuit.weight a.operation := by
  unfold layers Circuit.weight
  rw [List.countP_append, List.countP_singleton]
  cases a.operation.isBarrier <;> rfl

theorem zero_mem_lengths : 0 ∈ Lengths ops p :=
  ⟨[], List.nil_sublist _, List.isChain_nil, by simp, rfl⟩

theorem lengths_mono {q : Conditioned → Prop} (h : ∀ a, p a → q a) : Lengths ops p ⊆ Lengths ops q :=
  fun _ ⟨l, hsub, hchain, hlast, hl⟩ => ⟨l, hsub, hchain, fun a ha => h a (hlast a ha), hl⟩

/-- A chain leaves the last operation out, or it ends there and its rest ends in an operation that shares
a wire with that one. -/
theorem mem_lengths_concat :
    n ∈ Lengths (ops ++ [a]) p ↔
      n ∈ Lengths ops p ∨ p a ∧ ∃ m ∈ Lengths ops (Shares · a), n = m + Circuit.weight a.operation := by
  constructor
  · rintro ⟨l, hsub, hchain, hlast, rfl⟩
    obtain ⟨front, tail, rfl, hfront, htail⟩ := List.sublist_append_iff.1 hsub
    obtain rfl | rfl := List.sublist_singleton.1 htail
    · rw [List.append_nil] at hchain hlast ⊢
      exact .inl ⟨front, hfront, hchain, hlast, rfl⟩
    · obtain ⟨hchain, -, hshares⟩ := List.isChain_append.1 hchain
      refine .inr ⟨hlast a (by simp), layers front, ?_, layers_concat front a⟩
      exact ⟨front, hfront, hchain, fun b hb => hshares b hb a rfl, rfl⟩
  · rintro (⟨l, hsub, hchain, hlast, rfl⟩ | ⟨ha, m, ⟨l, hsub, hchain, hlast, rfl⟩, rfl⟩)
    · exact ⟨l, hsub.trans (List.sublist_append_left _ _), hchain, hlast, rfl⟩
    · refine ⟨l ++ [a], hsub.append (List.Sublist.refl _), ?_, ?_, layers_concat l a⟩
      · refine List.isChain_append.2 ⟨hchain, List.isChain_singleton a, fun b hb c hc => ?_⟩
        cases hc
        exact hlast b hb
      · intro b hb
        rw [List.getLast?_concat] at hb
        cases hb
        exact ha

/-- With one more operation the longest chain is the old one or ends there. -/
theorem isGreatest_concat {m before : Nat} (hp : p a) (hold : IsGreatest (Lengths ops p) m)
    (hbefore : IsGreatest (Lengths ops (Shares · a)) before) :
    IsGreatest (Lengths (ops ++ [a]) p) (max m (before + Circuit.weight a.operation)) := by
  constructor
  · have hmax : max m (before + Circuit.weight a.operation) = m ∨
        max m (before + Circuit.weight a.operation) = before + Circuit.weight a.operation := by omega
    rw [mem_lengths_concat]
    rcases hmax with h | h
    · exact .inl (h.symm ▸ hold.1)
    · exact .inr ⟨hp, before, hbefore.1, h⟩
  · intro n hn
    rcases mem_lengths_concat.1 hn with hn | ⟨-, k, hk, rfl⟩
    · have hle : n ≤ m := hold.2 hn
      omega
    · have hle : k ≤ before := hbefore.2 hk
      omega

theorem lengths_concat_of_not (hp : ¬p a) : Lengths (ops ++ [a]) p = Lengths ops p := by
  ext n
  rw [mem_lengths_concat]
  exact or_iff_left fun h => hp h.1

end Lengths

end Conditioned

namespace Circuit

open Conditioned

section Appending

variable {c : Circuit} {i : Instruction} {condition : List Nat} {w : Wire}

theorem check_eq_ok :
    c.check i condition = .ok () ↔
      i.qubits.Nodup ∧ ∀ w ∈ wiresOf i condition, c.front.contains w = true := by
  have hfind : (wiresOf i condition).find? (!c.front.contains ·) = none ↔
      ∀ w ∈ wiresOf i condition, c.front.contains w = true := by
    simp [List.find?_eq_none]
  rw [← Instruction.checkDistinct_eq_ok, ← hfind]
  unfold check
  cases i.checkDistinct with
  | error e => simp [bind, Except.bind]
  | ok =>
    cases (wiresOf i condition).find? (!c.front.contains ·) with
    | none => simp [bind, Except.bind]
    | some w => simp [bind, Except.bind]

/-- A rejected operation leaves the circuit as it is. -/
theorem run_applyConditioned (c : Circuit) (i : Instruction) (condition : List Nat) :
    (applyConditioned i condition).run c =
      match c.check i condition with
      | .error e => (.error e, c)
      | .ok () => (.ok c.nodes, c.append i condition) := by
  have hget : (applyConditioned i condition).run c =
      (match c.check i condition with
        | .error e => throw e
        | .ok () => do
          set (c.append i condition)
          return c.nodes : ExceptT OperationError (StateM Circuit) Nat).run c := rfl
  rw [hget]
  cases c.check i condition with
  | error e => rfl
  | ok => rfl

/-- The last node of each wire after a node was put behind some wires. -/
theorem advance_front (node : Nat) (front : Std.HashMap Wire Nat) (incoming : List Nat)
    (ws : List Wire) :
    (advance node front incoming ws).1[w]? = if w ∈ ws then some node else front[w]? := by
  induction ws generalizing front incoming with
  | nil => simp [advance]
  | cons v ws ih =>
    rw [advance, ih, Std.HashMap.getElem?_insert]
    by_cases hw : w ∈ ws
    · simp [hw]
    · by_cases hv : v = w
      · simp [hv]
      · simp [hv, hw, Ne.symm hv]

/-- A new node has an edge from each node that was the last one of a wire. -/
theorem mem_advance_incoming {node k : Nat} {front : Std.HashMap Wire Nat} {incoming : List Nat}
    {ws : List Wire} :
    k ∈ (advance node front incoming ws).2 ↔
      k ∈ incoming ∨ ∃ w ∈ ws, front[w]? = some k ∧ k ≠ node := by
  induction ws generalizing front incoming with
  | nil => simp [advance]
  | cons v ws ih =>
    have hreplaced : k ∈ (front[v]?.filter (· != node)).toList ↔ front[v]? = some k ∧ k ≠ node := by
      rw [Option.mem_toList, Option.filter_eq_some_iff]
      simp
    have hlater (w : Wire) (hw : w ≠ v) : (front.insert v node)[w]? = front[w]? := by
      rw [Std.HashMap.getElem?_insert]
      simp [Ne.symm hw]
    rw [advance, ih, List.mem_append, hreplaced]
    constructor
    · rintro ((hv | hk) | ⟨w, hw, heq, hne⟩)
      · exact .inr ⟨v, List.mem_cons_self, hv⟩
      · exact .inl hk
      · -- The wire is another one, since the last node of this one is new.
        have hwv : w ≠ v := by
          rintro rfl
          rw [Std.HashMap.getElem?_insert_self] at heq
          exact hne (Option.some.inj heq).symm
        exact .inr ⟨w, List.mem_cons_of_mem _ hw, (hlater w hwv) ▸ heq, hne⟩
    · rintro (hk | ⟨w, hw, heq, hne⟩)
      · exact .inl (.inr hk)
      · by_cases hwv : w = v
        · exact .inl (.inl ⟨hwv ▸ heq, hne⟩)
        · have hw : w ∈ ws := (List.mem_cons.1 hw).resolve_left hwv
          exact .inr ⟨w, hw, (hlater w hwv).trans heq, hne⟩

theorem contains_append (c : Circuit) (i : Instruction) (condition : List Nat) (w : Wire) :
    (c.append i condition).front.contains w =
      (decide (w ∈ wiresOf i condition) || c.front.contains w) := by
  rw [Std.HashMap.contains_eq_isSome_getElem?, Std.HashMap.contains_eq_isSome_getElem?]
  unfold append
  rw [advance_front]
  by_cases hw : w ∈ wiresOf i condition
  · simp [hw]
  · simp [hw]

theorem contains_addWire (c : Circuit) (v w : Wire) :
    (c.addWire v).front.contains w = (decide (w = v) || c.front.contains w) := by
  unfold addWire
  split
  · next hv =>
    by_cases hw : w = v
    · rw [hw, hv, Bool.or_true]
    · rw [decide_eq_false hw, Bool.false_or]
  · rw [Std.HashMap.contains_insert]
    congr 1
    exact decide_eq_decide.2 ⟨Eq.symm, Eq.symm⟩

theorem contains_foldl_addWire (ws : List Wire) (c : Circuit) (w : Wire) :
    (ws.foldl addWire c).front.contains w = (decide (w ∈ ws) || c.front.contains w) := by
  induction ws generalizing c with
  | nil => simp
  | cons v ws ih =>
    rw [List.foldl_cons, ih, contains_addWire]
    by_cases hv : w = v
    · simp [hv]
    · simp [hv]

end Appending

section Pass

variable {c : Circuit} {n : Node} {front : Std.HashMap Wire Nat}

theorem ops_push : ops ⟨c.graph.push n, front⟩ = c.ops ++ n.op?.toList := by
  unfold ops
  rw [Array.toList_push, List.filterMap_append]
  cases hn : n.op? <;> simp [hn]

theorem depths_push : depths ⟨c.graph.push n, front⟩ = c.depths.push (n.depth c.depths) :=
  Array.foldl_push

theorem depth_push : depth ⟨c.graph.push n, front⟩ = max c.depth (n.depth c.depths) := by
  unfold depth
  rw [depths_push, Array.foldl_push]

theorem size_depths (c : Circuit) : c.depths.size = c.nodes := by
  refine Array.foldl_induction (fun i (depths : Array Nat) => depths.size = i) rfl fun i depths h => ?_
  rw [Array.size_push, h]

theorem getD_depths_push_of_lt {k : Nat} (hk : k < c.nodes) :
    (depths ⟨c.graph.push n, front⟩).getD k 0 = c.depths.getD k 0 := by
  have hsize := size_depths c
  rw [depths_push, Array.getD_eq_getD_getElem?, Array.getD_eq_getD_getElem?,
    Array.getElem?_push_lt (by omega), Array.getElem?_eq_getElem (by omega)]

theorem getD_depths_push_self :
    (depths ⟨c.graph.push n, front⟩).getD c.nodes 0 = n.depth c.depths := by
  rw [depths_push, Array.getD_eq_getD_getElem?, ← size_depths, Array.getElem?_push_size]
  rfl

end Pass

/-- The operations that a circuit was made of. For each wire the pass finds the longest chain that ends on
it, at the last node of the wire. -/
structure Measures (c : Circuit) (ops : List Conditioned) : Prop where
  ops_eq : c.ops = ops.map Conditioned.operation
  added : ∀ a ∈ ops, ∀ w ∈ a.wires, c.front.contains w = true
  front_lt : ∀ (w : Wire) (k : Nat), c.front[w]? = some k → k < c.nodes
  longest_on : ∀ (w : Wire) (k : Nat), c.front[w]? = some k →
    IsGreatest (Lengths ops (w ∈ ·.wires)) (c.depths.getD k 0)
  longest : IsGreatest (Lengths ops fun _ => True) c.depth

section Measures

variable {c : Circuit} {ops : List Conditioned} {a : Conditioned}

theorem measures_empty : Measures empty [] where
  ops_eq := rfl
  added a h := nomatch h
  front_lt w k h := by simp [empty] at h
  longest_on w k h := by simp [empty] at h
  longest := by
    refine ⟨zero_mem_lengths, ?_⟩
    rintro n ⟨l, hsub, -, -, rfl⟩
    rw [List.sublist_nil.1 hsub]
    exact Nat.zero_le _

/-- No operation uses a wire that was not added. -/
theorem Measures.lengths_of_new {w : Wire} (h : Measures c ops) (hw : ¬c.front.contains w = true) :
    IsGreatest (Lengths ops (w ∈ ·.wires)) 0 := by
  refine ⟨zero_mem_lengths, ?_⟩
  rintro n ⟨l, hsub, -, hlast, rfl⟩
  rcases hl : l.getLast? with - | b
  · rw [List.getLast?_eq_none_iff.1 hl]
    exact Nat.le_refl 0
  · have hb : b ∈ ops := hsub.subset (List.mem_of_getLast? hl)
    exact absurd (h.added b hb w (hlast b hl)) hw

/-- A new node is the last one of some wires; it finds the longest chain on each of them, and the other
wires have no new chains. -/
theorem Measures.push {ops' : List Conditioned} {n : Node} {front : Std.HashMap Wire Nat}
    (h : Measures c ops)
    (hops : ops'.map Conditioned.operation = ops.map Conditioned.operation ++ n.op?.toList)
    (hadded : ∀ a ∈ ops', ∀ w ∈ a.wires, front.contains w = true)
    (hfront : ∀ (w : Wire) (k : Nat), front[w]? = some k →
      k = c.nodes ∧ IsGreatest (Lengths ops' (w ∈ ·.wires)) (n.depth c.depths) ∨
        c.front[w]? = some k ∧ Lengths ops' (w ∈ ·.wires) = Lengths ops (w ∈ ·.wires))
    (hlongest : IsGreatest (Lengths ops' fun _ => True) (max c.depth (n.depth c.depths))) :
    Measures ⟨c.graph.push n, front⟩ ops' := by
  have hsize : nodes ⟨c.graph.push n, front⟩ = c.nodes + 1 := Array.size_push _
  refine ⟨?_, hadded, fun w k hk => ?_, fun w k hk => ?_, depth_push.symm ▸ hlongest⟩
  · rw [ops_push, h.ops_eq, hops]
  · rcases hfront w k hk with ⟨rfl, -⟩ | ⟨hold, -⟩
    · omega
    · have hlt := h.front_lt w k hold
      omega
  · rcases hfront w k hk with ⟨rfl, hnew⟩ | ⟨hold, hsame⟩
    · rw [getD_depths_push_self]
      exact hnew
    · rw [getD_depths_push_of_lt (h.front_lt w k hold), hsame]
      exact h.longest_on w k hold

theorem Measures.addWire (h : Measures c ops) (w : Wire) : Measures (c.addWire w) ops := by
  have hadded : ∀ a ∈ ops, ∀ v ∈ a.wires, (c.addWire w).front.contains v = true := by
    intro a ha v hv
    rw [contains_addWire, h.added a ha v hv, Bool.or_true]
  revert hadded
  unfold Circuit.addWire
  split
  · exact fun _ => h
  · next hw =>
    refine fun hadded => h.push (List.append_nil _).symm hadded (fun v k hk => ?_) ?_
    · rw [Std.HashMap.getElem?_insert] at hk
      split at hk
      · next hv =>
        cases hk
        exact .inl ⟨rfl, eq_of_beq hv ▸ h.lengths_of_new hw⟩
      · exact .inr ⟨hk, rfl⟩
    · exact (Nat.max_zero c.depth).symm ▸ h.longest

/-- The node of an operation finds the longest chain before it: such a chain ends on one of its wires. -/
theorem Measures.longest_before (h : Measures c ops)
    (hadded : ∀ w ∈ a.wires, c.front.contains w = true) :
    IsGreatest (Lengths ops (Shares · a))
      (((advance c.nodes c.front [] a.wires).2.map (c.depths.getD · 0)).max?.getD 0) := by
  have hincoming (k : Nat) : k ∈ (advance c.nodes c.front [] a.wires).2 ↔
      ∃ w ∈ a.wires, c.front[w]? = some k := by
    rw [mem_advance_incoming, or_iff_right List.not_mem_nil]
    refine exists_congr fun w => and_congr_right fun _ => and_iff_left_of_imp fun hk => ?_
    exact Nat.ne_of_lt (h.front_lt w k hk)
  constructor
  · rcases hmax : ((advance c.nodes c.front [] a.wires).2.map (c.depths.getD · 0)).max? with - | m
    · exact zero_mem_lengths
    · obtain ⟨k, hk, rfl⟩ := List.mem_map.1 (List.max?_eq_some_iff.1 hmax).1
      obtain ⟨w, hw, hfront⟩ := (hincoming k).1 hk
      exact lengths_mono (fun b hb => shares_iff.2 ⟨w, hw, hb⟩) (h.longest_on w k hfront).1
  · rintro n ⟨l, hsub, hchain, hlast, rfl⟩
    rcases hl : l.getLast? with - | b
    · rw [List.getLast?_eq_none_iff.1 hl]
      exact Nat.zero_le _
    · obtain ⟨w, hw, hb⟩ := shares_iff.1 (hlast b hl)
      obtain ⟨k, hk⟩ := Option.isSome_iff_exists.1
        (Std.HashMap.contains_eq_isSome_getElem?.symm.trans (hadded w hw))
      have hle : layers l ≤ c.depths.getD k 0 := by
        refine (h.longest_on w k hk).2 ⟨l, hsub, hchain, fun b' hb' => ?_, rfl⟩
        rw [hl] at hb'
        exact Option.some.inj hb' ▸ hb
      refine Nat.le_trans hle (List.le_max?_getD_of_mem ?_)
      exact List.mem_map.2 ⟨k, (hincoming k).2 ⟨w, hw, hk⟩, rfl⟩

/-- The chain that ends at the new node is no shorter than the one it replaces on each of its wires. -/
theorem Measures.append (h : Measures c ops)
    (hadded : ∀ w ∈ a.wires, c.front.contains w = true) :
    Measures (c.append a.operation a.condition) (ops ++ [a]) := by
  have hbefore := h.longest_before hadded
  refine h.push List.map_append (fun b hb w hw => ?_) (fun w k hk => ?_) ?_
  · have hcontains := contains_append c a.operation a.condition w
    rcases List.mem_append.1 hb with hb | hb
    · exact hcontains.trans (Bool.or_eq_true_iff.2 (.inr (h.added b hb w hw)))
    · rw [List.mem_singleton.1 hb] at hw
      exact hcontains.trans (Bool.or_eq_true_iff.2 (.inl (decide_eq_true hw)))
  · rw [advance_front] at hk
    by_cases hw : w ∈ a.wires
    · obtain ⟨j, hj⟩ := Option.isSome_iff_exists.1
        (Std.HashMap.contains_eq_isSome_getElem?.symm.trans (hadded w hw))
      have hold := h.longest_on w j hj
      have hle : c.depths.getD j 0 ≤ _ :=
        hbefore.2 (lengths_mono (fun b hb => shares_iff.2 ⟨w, hw, hb⟩) hold.1)
      have hnew := isGreatest_concat (p := (w ∈ ·.wires)) hw hold hbefore
      rw [Nat.max_eq_right (Nat.le_add_right_of_le hle)] at hnew
      exact .inl ⟨(Option.some.inj ((if_pos hw).symm.trans hk)).symm, hnew⟩
    · exact .inr ⟨(if_neg hw).symm.trans hk, lengths_concat_of_not hw⟩
  · exact isGreatest_concat trivial h.longest hbefore

theorem Measures.foldl_addWire (h : Measures c ops) (ws : List Wire) :
    Measures (ws.foldl Circuit.addWire c) ops := by
  induction ws generalizing c with
  | nil => exact h
  | cons w ws ih => exact ih (h.addWire w)

/-- A run adds the accepted operations to those the circuit was made of. -/
theorem Measures.applyAll (h : Measures c ops) (l : List Conditioned) :
    Measures (c.applyAll l).1 (ops ++ (c.applyAll l).2) := by
  induction l generalizing c ops with
  | nil =>
    rw [Circuit.applyAll, List.append_nil]
    exact h
  | cons a l ih =>
    rw [Circuit.applyAll, run_applyConditioned]
    rcases hcheck : c.check a.operation a.condition with e | u
    · exact ih h
    · have hrest := ih (h.append (a := a) (check_eq_ok.1 hcheck).2)
      rw [List.append_assoc] at hrest
      exact hrest

/-- When all wires of a program were added before, an operation is accepted when its qubits are different
and all its wires are among them. -/
theorem accepted_applyAll {ws : List Wire} (hws : ∀ w, c.front.contains w = decide (w ∈ ws))
    (l : List Conditioned) :
    (c.applyAll l).2 = l.filter fun a => a.operation.qubits.Nodup ∧ a.wires ⊆ ws := by
  induction l generalizing c with
  | nil => rfl
  | cons a l ih =>
    have hcontains (w : Wire) : c.front.contains w = true ↔ w ∈ ws := by rw [hws, decide_eq_true_iff]
    have hcheck : c.check a.operation a.condition = .ok () ↔ a.operation.qubits.Nodup ∧
        ∀ w ∈ wiresOf a.operation a.condition, c.front.contains w = true := check_eq_ok
    simp only [hcontains] at hcheck
    rw [Circuit.applyAll, run_applyConditioned]
    by_cases ha : a.operation.qubits.Nodup ∧ a.wires ⊆ ws
    · rw [List.filter_cons_of_pos (by simpa using ha), hcheck.2 ha]
      refine congrArg (a :: ·) (ih fun w => ?_)
      -- The operation makes no wire known, since it needs all of its own.
      rw [contains_append, hws]
      by_cases hw : w ∈ wiresOf a.operation a.condition
      · rw [decide_eq_true hw, decide_eq_true (ha.2 hw), Bool.true_or]
      · rw [decide_eq_false hw, Bool.false_or]
    · rw [List.filter_cons_of_neg (by simpa using ha)]
      rcases hc : c.check a.operation a.condition with e | u
      · exact ih hws
      · exact absurd (hcheck.1 hc) ha

end Measures

/-- For every run of operations on a circuit that has some wires, the depth is the greatest number of layers of
a chain: accepted operations in order, each of which shares a qubit or a bit with the next. The accepted
operations are those with different qubits and with all wires among those of the circuit. On every circuit
whatever, an operation that is not accepted changes nothing. -/
theorem depth_isGreatest_layers (ws : List Wire) (l : List Conditioned) :
    let run := (ws.foldl addWire empty).applyAll l
    IsGreatest {n | ∃ chain, chain.Sublist run.2 ∧ chain.IsChain Shares ∧ layers chain = n} run.1.depth ∧
      run.2 = l.filter (fun a => a.operation.qubits.Nodup ∧ a.wires ⊆ ws) ∧
      ∀ (c : Circuit) (a : Conditioned) (e : OperationError),
        ((applyConditioned a.operation a.condition).run c).1 = .error e →
          ((applyConditioned a.operation a.condition).run c).2 = c := by
  have hmeasures := (measures_empty.foldl_addWire ws).applyAll l
  refine ⟨?_, accepted_applyAll (fun w => ?_) l, fun c a e hrejected => ?_⟩
  · have hlengths := hmeasures.longest
    unfold Lengths at hlengths
    simpa using hlengths
  · rw [contains_foldl_addWire]
    simp [empty]
  · rw [run_applyConditioned] at hrejected ⊢
    rcases hcheck : c.check a.operation a.condition with e' | u
    · rfl
    · rw [hcheck] at hrejected
      nomatch hrejected

/-- An operation on a wire that was not added. -/
theorem reset_rejected :
    ((applyConditioned (.reset 0) []).run empty).1 = .error (.qubitNotFound 0 none) ∧
      ((applyConditioned (.reset 0) []).run empty).2 = empty := by
  have hrejected : ((applyConditioned (.reset 0) []).run empty).1 = .error (.qubitNotFound 0 none) := by
    have hcheck : empty.check (.reset 0) [] = .error (.qubitNotFound 0 none) := by
      have hadded : empty.front.contains (.qubit 0) = false := Std.HashMap.contains_empty
      have hwires : wiresOf (.reset 0) [] = [.qubit 0] := rfl
      rw [check, hwires, List.find?_cons, hadded]
      rfl
    rw [run_applyConditioned, hcheck]
  exact ⟨hrejected, (depth_isGreatest_layers [] []).2.2 empty ⟨.reset 0, []⟩ _ hrejected⟩

end Circuit

end OpenQasm
