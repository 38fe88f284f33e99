import OpenQasm.Gate

/-!
Elementary operations: gates, measurements, resets and barriers on physical qubits and bits.
-/
namespace OpenQasm

inductive InstructionKind
  | gate (g : Gate)
  | measure
  | reset
  | barrier

structure Instruction where
  kind : InstructionKind
  qubits : List Nat
  clbits : List Nat

namespace Instruction

def gate? (i : Instruction) : Option Gate :=
  match i.kind with
  | .gate g => some g
  | _ => none

def isGate (i : Instruction) : Bool := i.gate?.isSome

def isMeasure (i : Instruction) : Bool :=
  match i.kind with
  | .measure => true
  | _ => false

def isReset (i : Instruction) : Bool :=
  match i.kind with
  | .reset => true
  | _ => false

def isBarrier (i : Instruction) : Bool :=
  match i.kind with
  | .barrier => true
  | _ => false

def name (i : Instruction) : String :=
  match i.kind with
  | .gate g => g.name
  | .measure => "measure"
  | .reset => "reset"
  | .barrier => "barrier"

/-- The operation without its operands. -/
def headText (i : Instruction) : String :=
  match i.kind with
  | .gate g => g.text
  | _ => i.name

/-- The name under which the operation is counted. -/
def countKey (i : Instruction) : String :=
  match i.kind with
  | .gate g => g.countKey
  | _ => i.name

/-- The first element of a list that occurs before in it. -/
def firstRepeated (seen : List Nat) : List Nat → Option Nat
  | [] => none
  | q :: qs => if seen.contains q then some q else firstRepeated (q :: seen) qs

/-- Fails if a qubit occurs twice. -/
def checkDistinct (i : Instruction) : Except OperationError Unit :=
  match firstRepeated [] i.qubits with
  | some q => .error (.duplicateQubit q (i.gate?.map Gate.name))
  | none => .ok ()

/-- A gate on operands: as many as it takes and all different. -/
def ofGate (g : Gate) (qubits : List Nat) : Except OperationError Instruction :=
  if qubits.length ≠ g.qubits then .error (.qubitCount g.name g.qubits qubits.length)
  else
    let i : Instruction := ⟨.gate g, qubits, []⟩
    i.checkDistinct.map fun _ => i

def measure (q c : Nat) : Instruction := ⟨.measure, [q], [c]⟩

/-- A measurement whose outcome is dropped. -/
def measureOnly (q : Nat) : Instruction := ⟨.measure, [q], []⟩

def reset (q : Nat) : Instruction := ⟨.reset, [q], []⟩

def barrier (qubits : List Nat) : Instruction := ⟨.barrier, qubits, []⟩

def mapQubits (f : Nat → Nat) (i : Instruction) : Instruction := { i with qubits := i.qubits.map f }

end Instruction
end OpenQasm
