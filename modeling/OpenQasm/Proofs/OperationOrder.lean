import OpenQasm.Flat.Program
import OpenQasm.Proofs.FlatStatements

/-!
The order in which the operations of a flat program come when they are asked for one after another. The lists of
statements that are still to come stand on a stack; where a branch is met, its bodies go on top of what follows it.
So the operations come by their places in the program: those in the first body of a branch before those in the second
one, both where the branch stands, at every depth and each of them once.
-/
namespace OpenQasm

namespace FlatStatement

/-- The operations that come until there is none any more. -/
inductive Yields : List (List FlatStatement) → List Instruction → Prop
  | done {stack} : next? stack = none → Yields stack []
  | more {stack rest i is} : next? stack = some (i, rest) → Yields rest is → Yields stack (i :: is)

/-- The place of an operation in a statement. In a branch it is the number of the body, the place of a statement there,
and the place of the operation in that statement. -/
inductive Holds : FlatStatement → List Nat → Instruction → Prop
  | op {i} : Holds (.op i) [] i
  | thenBody {condition clbits thenBody elseBody k s path i} : thenBody[k]? = some s → Holds s path i →
      Holds (.branch condition clbits thenBody elseBody) (0 :: k :: path) i
  | elseBody {condition clbits thenBody elseBody k s path i} : elseBody[k]? = some s → Holds s path i →
      Holds (.branch condition clbits thenBody elseBody) (1 :: k :: path) i

/-- The place of an operation in a list of statements. -/
inductive StandsAt (body : List FlatStatement) : List Nat → Instruction → Prop
  | within {k s path i} : body[k]? = some s → Holds s path i → StandsAt body (k :: path) i

/-- A place within a part with a number. -/
def inPart (k : Nat) (x : List Nat × Instruction) : List Nat × Instruction := (k :: x.1, x.2)

mutual

/-- The operations of a statement with their places. -/
def places : FlatStatement → List (List Nat × Instruction)
  | op i => [([], i)]
  | branch _ _ thenBody elseBody => (placesFrom 0 thenBody).map (inPart 0) ++ (placesFrom 0 elseBody).map (inPart 1)
  | assign _ _ | pragma _ => []

/-- The operations of statements with their places, the statements being numbered from `k` on. -/
def placesFrom (k : Nat) : List FlatStatement → List (List Nat × Instruction)
  | [] => []
  | s :: ss => s.places.map (inPart k) ++ placesFrom (k + 1) ss

end

section Iteration

variable {stack : List (List FlatStatement)} {is : List Instruction}

theorem yields_listFrom (stack : List (List FlatStatement)) : Yields stack (listFrom stack) := by
  fun_induction listFrom stack with
  | case1 stack hnext => exact .done hnext
  | case2 stack i rest hnext ih => exact .more hnext ih

/-- What comes is what stands on the stack, whatever is popped and pushed in between. -/
theorem Yields.eq_pending (h : Yields stack is) : is = pending stack := by
  induction h with
  | done hnext => exact (next?_eq_none hnext).symm
  | more hnext _ ih => rw [next?_eq_some hnext, ih]

end Iteration

section Places

variable {i : Instruction} {path : List Nat}

mutual

theorem map_snd_places : ∀ s : FlatStatement, s.places.map Prod.snd = s.ops
  | op i => rfl
  | branch _ _ thenBody elseBody => by
    have hthen : ((placesFrom 0 thenBody).map (inPart 0)).map Prod.snd = opsOf thenBody := by
      rw [List.map_map]
      exact map_snd_placesFrom 0 thenBody
    have helse : ((placesFrom 0 elseBody).map (inPart 1)).map Prod.snd = opsOf elseBody := by
      rw [List.map_map]
      exact map_snd_placesFrom 0 elseBody
    rw [places, ops, List.map_append, hthen, helse]
  | assign _ _ => rfl
  | pragma _ => rfl

theorem map_snd_placesFrom : ∀ (k : Nat) (body : List FlatStatement), (placesFrom k body).map Prod.snd = opsOf body
  | _, [] => rfl
  | k, s :: ss => by
    have hfirst : (s.places.map (inPart k)).map Prod.snd = s.ops := by
      rw [List.map_map]
      exact map_snd_places s
    rw [placesFrom, opsOf, List.map_append, hfirst, map_snd_placesFrom (k + 1) ss]

end

theorem mem_map_inPart {k : Nat} {xs : List (List Nat × Instruction)} :
    (path, i) ∈ xs.map (inPart k) ↔ ∃ inner, path = k :: inner ∧ (inner, i) ∈ xs := by
  constructor
  · intro h
    obtain ⟨⟨inner, j⟩, hmem, heq⟩ := List.mem_map.1 h
    cases heq
    exact ⟨inner, rfl, hmem⟩
  · rintro ⟨inner, rfl, hmem⟩
    exact List.mem_map_of_mem hmem

mutual

theorem mem_places : ∀ (s : FlatStatement) {path : List Nat}, (path, i) ∈ s.places ↔ Holds s path i
  | op j, path => by
    rw [places, List.mem_singleton]
    constructor
    · rintro ⟨⟩
      exact .op
    · rintro ⟨⟩
      rfl
  | branch condition clbits thenBody elseBody, path => by
    rw [places, List.mem_append, mem_map_inPart, mem_map_inPart]
    constructor
    · rintro (⟨inner, rfl, hmem⟩ | ⟨inner, rfl, hmem⟩)
      · obtain ⟨k, s, path, rfl, hs, hholds⟩ := (mem_placesFrom 0 thenBody).1 hmem
        rw [Nat.zero_add]
        exact .thenBody hs hholds
      · obtain ⟨k, s, path, rfl, hs, hholds⟩ := (mem_placesFrom 0 elseBody).1 hmem
        rw [Nat.zero_add]
        exact .elseBody hs hholds
    · rintro (_ | ⟨hs, hholds⟩ | ⟨hs, hholds⟩)
      · exact Or.inl ⟨_, rfl, (mem_placesFrom 0 thenBody).2 ⟨_, _, _, by rw [Nat.zero_add], hs, hholds⟩⟩
      · exact Or.inr ⟨_, rfl, (mem_placesFrom 0 elseBody).2 ⟨_, _, _, by rw [Nat.zero_add], hs, hholds⟩⟩
  | assign _ _, path => iff_of_false (List.not_mem_nil) nofun
  | pragma _, path => iff_of_false (List.not_mem_nil) nofun

theorem mem_placesFrom : ∀ (k : Nat) (body : List FlatStatement) {path : List Nat}, (path, i) ∈ placesFrom k body ↔
    ∃ j s inner, path = (k + j) :: inner ∧ body[j]? = some s ∧ Holds s inner i
  | _, [], path => iff_of_false (List.not_mem_nil) nofun
  | k, s :: ss, path => by
    rw [placesFrom, List.mem_append, mem_map_inPart, mem_placesFrom (k + 1) ss]
    constructor
    · rintro (⟨inner, rfl, hmem⟩ | ⟨j, t, inner, rfl, ht, hholds⟩)
      · exact ⟨0, s, inner, rfl, rfl, (mem_places s).1 hmem⟩
      · exact ⟨j + 1, t, inner, by rw [Nat.add_right_comm, Nat.add_assoc], ht, hholds⟩
    · rintro ⟨j, t, inner, rfl, ht, hholds⟩
      cases j with
      | zero =>
        cases ht
        exact Or.inl ⟨inner, rfl, (mem_places s).2 hholds⟩
      | succ j => exact Or.inr ⟨j, t, inner, by rw [Nat.add_right_comm, Nat.add_assoc], ht, hholds⟩

end

/-- Places in order stay in order within a part. -/
theorem pairwise_map_inPart {k : Nat} {xs : List (List Nat × Instruction)}
    (h : xs.Pairwise fun x y => x.1 < y.1) : (xs.map (inPart k)).Pairwise fun x y => x.1 < y.1 :=
  List.pairwise_map.2 (h.imp fun hlt => List.Lex.cons hlt)

theorem pairwise_append_inPart {k : Nat} {xs ys : List (List Nat × Instruction)}
    (hxs : xs.Pairwise fun x y => x.1 < y.1) (hys : ys.Pairwise fun x y => x.1 < y.1)
    (hlater : ∀ y ∈ ys, ∃ j inner, y.1 = j :: inner ∧ k < j) :
    (xs.map (inPart k) ++ ys).Pairwise fun x y => x.1 < y.1 := by
  refine List.pairwise_append.2 ⟨pairwise_map_inPart hxs, hys, fun x hx y hy => ?_⟩
  obtain ⟨x', -, rfl⟩ := List.mem_map.1 hx
  obtain ⟨j, inner, hinner, hlt⟩ := hlater y hy
  rw [hinner]
  exact List.Lex.rel hlt

mutual

theorem pairwise_places : ∀ s : FlatStatement, s.places.Pairwise fun x y => x.1 < y.1
  | op i => List.pairwise_singleton _ _
  | branch _ _ thenBody elseBody => by
    refine pairwise_append_inPart (pairwise_placesFrom 0 thenBody)
      (pairwise_map_inPart (pairwise_placesFrom 0 elseBody)) fun y hy => ?_
    obtain ⟨y', -, rfl⟩ := List.mem_map.1 hy
    exact ⟨1, y'.1, rfl, Nat.one_pos⟩
  | assign _ _ => List.Pairwise.nil
  | pragma _ => List.Pairwise.nil

theorem pairwise_placesFrom : ∀ (k : Nat) (body : List FlatStatement),
    (placesFrom k body).Pairwise fun x y => x.1 < y.1
  | _, [] => List.Pairwise.nil
  | k, s :: ss => by
    refine pairwise_append_inPart (pairwise_places s) (pairwise_placesFrom (k + 1) ss) fun y hy => ?_
    obtain ⟨j, _, inner, hpath, -⟩ := (mem_placesFrom (i := y.2) (k + 1) ss).1 hy
    exact ⟨k + 1 + j, inner, hpath, by omega⟩

end

theorem mem_placesFrom_zero {body : List FlatStatement} :
    (path, i) ∈ placesFrom 0 body ↔ StandsAt body path i := by
  rw [mem_placesFrom]
  constructor
  · rintro ⟨k, s, inner, rfl, hs, hholds⟩
    rw [Nat.zero_add]
    exact .within hs hholds
  · rintro ⟨hs, hholds⟩
    exact ⟨_, _, _, by rw [Nat.zero_add], hs, hholds⟩

end Places

end FlatStatement

open FlatStatement in
/-- The operations of a program come one after another until there is none any more. They are those that a recursion
over its statements finds, one for each place of an operation and in the order of the places. -/
theorem FlatProgram.operations_traverse (p : FlatProgram) :
    (∀ is, Yields [p.statements] is ↔ is = p.operations) ∧ p.operations = opsOf p.statements ∧
      ∃ places : List (List Nat × Instruction), places.map Prod.snd = p.operations ∧
        (places.map Prod.fst).Pairwise (· < ·) ∧
          ∀ path i, (path, i) ∈ places ↔ StandsAt p.statements path i := by
  have hoperations : p.operations = opsOf p.statements := listFrom_singleton p.statements
  refine ⟨fun is => ⟨fun h => ?_, ?_⟩, hoperations, placesFrom 0 p.statements, ?_, ?_,
    fun path i => mem_placesFrom_zero⟩
  · rw [h.eq_pending]
    exact (listFrom_eq _).symm
  · rintro rfl
    exact yields_listFrom _
  · rw [map_snd_placesFrom, hoperations]
  · exact List.pairwise_map.2 (pairwise_placesFrom 0 p.statements)

end OpenQasm
