import OpenQasm.Instruction
import Std.Data.HashMap

/-!
The dependencies between operations, as a graph: two operations depend on each other when they share a
wire. Nodes are numbered as they come, so every edge leads from a smaller number to a bigger one, and one
pass in the order of the numbers finds the length of the longest chain. Barriers order operations without
adding to a chain.
-/
namespace OpenQasm

inductive Wire
  | qubit (q : Nat)
  | clbit (c : Nat)
deriving DecidableEq, Repr, Hashable

namespace Circuit

/-- What a node stands for: the start of a wire, or an operation. -/
inductive NodeKind
  | start (w : Wire)
  | op (i : Instruction)

/-- A node, with the nodes that edges lead from to it. -/
structure Node where
  kind : NodeKind
  incoming : List Nat

/-- What an operation adds to a chain. -/
def weight (i : Instruction) : Nat := if i.isBarrier then 0 else 1

def NodeKind.weight : NodeKind → Nat
  | start _ => 0
  | op i => Circuit.weight i

def Node.op? (n : Node) : Option Instruction :=
  match n.kind with
  | .start _ => none
  | .op i => some i

end Circuit

/-- The nodes in the order of their numbers, and the last node of each wire that was added. -/
structure Circuit where
  graph : Array Circuit.Node
  front : Std.HashMap Wire Nat

namespace Circuit

def empty : Circuit := ⟨#[], ∅⟩

/-- The number of nodes, and the number of the next one. -/
def nodes (c : Circuit) : Nat := c.graph.size

/-- Adds a wire; one that exists stays as it is. -/
def addWire (c : Circuit) (w : Wire) : Circuit :=
  if c.front.contains w then c
  else { graph := c.graph.push ⟨.start w, []⟩, front := c.front.insert w c.nodes }

/-- The operations in order. -/
def ops (c : Circuit) : List Instruction := c.graph.toList.filterMap Node.op?

/-- The wires of an operation under a condition on bits. A wire may be named twice, though not twice in a
row. -/
def wiresOf (i : Instruction) (condition : List Nat) : List Wire :=
  (i.qubits.map Wire.qubit ++ i.clbits.map Wire.clbit ++ condition.map Wire.clbit).eraseReps

/-- The error about a wire that was not added. -/
def missing (i : Instruction) : Wire → OperationError
  | .qubit q => .qubitNotFound q (i.gate?.map Gate.name)
  | .clbit c => .clbitNotFound c (i.gate?.map Gate.name)

/-- Fails unless the qubits of an operation are all different and all its wires were added. -/
def check (c : Circuit) (i : Instruction) (condition : List Nat) : Except OperationError Unit := do
  i.checkDistinct
  match (wiresOf i condition).find? (!c.front.contains ·) with
  | some w => .error (missing i w)
  | none => .ok ()

/-- Makes a node the last one of each wire. The nodes it replaces are those that edges lead from to it;
a wire that comes again is left alone, since its last node is this one already. -/
def advance (node : Nat) (front : Std.HashMap Wire Nat) (incoming : List Nat) :
    List Wire → Std.HashMap Wire Nat × List Nat
  | [] => (front, incoming)
  | w :: ws =>
    let replaced := front[w]?.filter (· != node)
    advance node (front.insert w node) (replaced.toList ++ incoming) ws

/-- Appends an operation, which also depends on the bits of a condition. -/
def append (c : Circuit) (i : Instruction) (condition : List Nat) : Circuit :=
  let (front, incoming) := advance c.nodes c.front [] (wiresOf i condition)
  { graph := c.graph.push ⟨.op i, incoming⟩, front }

/-- Appends an operation if it is valid, and gives the number of its node. -/
def applyConditioned (i : Instruction) (condition : List Nat) :
    ExceptT OperationError (StateM Circuit) Nat := do
  let c ← get
  match c.check i condition with
  | .error e => throw e
  | .ok () =>
    set (c.append i condition)
    return c.nodes

/-- The circuit with one more operation, if it is valid. -/
def apply (c : Circuit) (i : Instruction) (condition : List Nat) :
    Except OperationError Circuit :=
  let (outcome, d) := (applyConditioned i condition).run c
  outcome.map fun _ => d

/-- The length of the longest chain that ends in a node, given those of the nodes before it. -/
def Node.depth (depths : Array Nat) (n : Node) : Nat :=
  (n.incoming.map (depths.getD · 0)).max?.getD 0 + n.kind.weight

/-- The lengths of the longest chains that end in the nodes, each found from those before it. -/
def depths (c : Circuit) : Array Nat :=
  c.graph.foldl (fun depths n => depths.push (n.depth depths)) #[]

/-- The length of the longest chain of operations that depend on each other. -/
def depth (c : Circuit) : Nat := c.depths.foldl max 0

end Circuit
end OpenQasm
