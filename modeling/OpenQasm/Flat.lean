import OpenQasm.Circuit
import OpenQasm.Syntax

/-!
Flat statements: what is left of a program when loops are unrolled, calls are inlined and everything
known is evaluated. The operations are listed in two ways, by recursion and one at a time with a stack
of what is still to come.
-/
namespace OpenQasm

inductive FlatStatement
  | op (i : Instruction)
  /-- An assignment to a variable or to bits of the flat program. -/
  | assign (target value : Expr)
  /-- A branch that is decided when the program runs; `clbits` are the bits its condition reads. -/
  | branch (condition : Expr) (clbits : List Nat) (thenBody elseBody : List FlatStatement)
  | pragma (text : String)

namespace FlatStatement

mutual

/-- The operations of a statement in order. -/
def ops : FlatStatement → List Instruction
  | op i => [i]
  | branch _ _ thenBody elseBody => opsOf thenBody ++ opsOf elseBody
  | assign _ _ | pragma _ => []

def opsOf : List FlatStatement → List Instruction
  | [] => []
  | s :: ss => s.ops ++ opsOf ss

end

/-- Both bodies of a branch together are smaller than it. -/
theorem sizeOf_bodies (condition : Expr) (clbits : List Nat) (thenBody elseBody : List FlatStatement) :
    1 + sizeOf thenBody + sizeOf elseBody < sizeOf (branch condition clbits thenBody elseBody) := by
  have hclbits : 0 < sizeOf clbits := by
    cases clbits with
    | nil => exact Nat.one_pos
    | cons c cs => rw [List.cons.sizeOf_spec]; omega
  rw [branch.sizeOf_spec]
  omega

/-- The next operation, given the lists of statements still to come, the innermost first; and the lists
that remain after it. -/
def next? : List (List FlatStatement) → Option (Instruction × List (List FlatStatement))
  | [] => none
  | [] :: stack => next? stack
  | (op i :: rest) :: stack => some (i, rest :: stack)
  | (branch condition clbits thenBody elseBody :: rest) :: stack =>
    have := sizeOf_bodies condition clbits thenBody elseBody
    next? (thenBody :: elseBody :: rest :: stack)
  | (assign _ _ :: rest) :: stack => next? (rest :: stack)
  | (pragma _ :: rest) :: stack => next? (rest :: stack)
termination_by stack => sizeOf stack
decreasing_by all_goals simp only [List.nil.sizeOf_spec, List.cons.sizeOf_spec] at *; omega

/-- What is left after an operation is smaller. -/
theorem next?_decreases {stack rest : List (List FlatStatement)} {i : Instruction}
    (h : next? stack = some (i, rest)) : sizeOf rest < sizeOf stack := by
  fun_induction next? stack with
  | case1 => nomatch h
  | case2 stack ih =>
    have hrest := ih h
    rw [List.cons.sizeOf_spec]
    omega
  | case3 j tail stack =>
    obtain ⟨rfl, rfl⟩ := h
    simp only [List.cons.sizeOf_spec]
    omega
  | case4 stack condition clbits thenBody elseBody tail bodies ih =>
    have hrest := ih h
    simp only [List.cons.sizeOf_spec] at hrest ⊢
    omega
  | case5 stack target value tail ih =>
    have hrest := ih h
    simp only [List.cons.sizeOf_spec] at hrest ⊢
    omega
  | case6 stack text tail ih =>
    have hrest := ih h
    simp only [List.cons.sizeOf_spec] at hrest ⊢
    omega

/-- Whether an operation with a property comes; operations after the first such one are not looked
at. -/
def anyFrom (p : Instruction → Bool) (stack : List (List FlatStatement)) : Bool :=
  match _h : next? stack with
  | none => false
  | some (i, rest) => p i || anyFrom p rest
termination_by sizeOf stack
decreasing_by exact next?_decreases _h

/-- The operations that come one after another. -/
def listFrom (stack : List (List FlatStatement)) : List Instruction :=
  match _h : next? stack with
  | none => []
  | some (i, rest) => i :: listFrom rest
termination_by sizeOf stack
decreasing_by exact next?_decreases _h

mutual

/-- Replaces each operation, or removes it. -/
def filterMapOps (f : Instruction → Option Instruction) : FlatStatement → Option FlatStatement
  | op i => (f i).map op
  | branch condition clbits thenBody elseBody =>
    some (branch condition clbits (filterMapBody f thenBody) (filterMapBody f elseBody))
  | assign target value => some (assign target value)
  | pragma text => some (pragma text)

def filterMapBody (f : Instruction → Option Instruction) :
    List FlatStatement → List FlatStatement
  | [] => []
  | s :: ss =>
    match s.filterMapOps f with
    | some s => s :: filterMapBody f ss
    | none => filterMapBody f ss

end

/-- The statements without the operations that lack a property. -/
def keepOps (p : Instruction → Bool) (body : List FlatStatement) : List FlatStatement :=
  filterMapBody (fun i => if p i then some i else none) body

/-- Whether a wire belongs to a program with so many qubits and bits. -/
def declares (qubits clbits : Nat) : Wire → Bool
  | .qubit q => q < qubits
  | .clbit c => c < clbits

/-- Appends an operation to the dependencies. A wire of the program is added when it is first used; an
operation on any other wire is passed over. -/
def addOp (qubits clbits : Nat) (condition : List Nat) (c : Circuit) (i : Instruction) : Circuit :=
  let wires := (Circuit.wiresOf i condition).filter (declares qubits clbits)
  ((Circuit.applyConditioned i condition).run (wires.foldl Circuit.addWire c)).2

mutual

/-- Appends the operations of a statement, which depend on the bits of all conditions around them. -/
def addTo (qubits clbits : Nat) (condition : List Nat) (c : Circuit) : FlatStatement → Circuit
  | op i => addOp qubits clbits condition c i
  | branch _ bits thenBody elseBody =>
    let nested := condition ++ bits.filter (!condition.contains ·)
    let c := addAllTo qubits clbits nested c thenBody
    addAllTo qubits clbits nested c elseBody
  | assign _ _ | pragma _ => c

def addAllTo (qubits clbits : Nat) (condition : List Nat) (c : Circuit) :
    List FlatStatement → Circuit
  | [] => c
  | s :: ss => addAllTo qubits clbits condition (addTo qubits clbits condition c s) ss

end

end FlatStatement
end OpenQasm
