import OpenQasm.Index
import Std.Data.TreeSet

/-!
Registers of qubits and of bits. Each register takes the next block of the physical numbering of its
kind. A register, an alias and a bound operand are views: lists of elements, kept as slices at regular
distances, so that an alias of an alias is again a view and nothing is allocated for it.
-/
namespace OpenQasm

inductive RegisterKind
  | quantum | classical
deriving DecidableEq, Repr

def RegisterKind.plural : RegisterKind → String
  | quantum => "qubits"
  | classical => "bits"

/-- A register; its elements have the physical indices from `base` on. -/
structure Register where
  name : String
  size : Nat
  base : Nat
  kind : RegisterKind
deriving DecidableEq, Repr

/-- Whether a physical index of a kind belongs to the register. -/
def Register.holds (r : Register) (kind : RegisterKind) (physical : Nat) : Bool :=
  r.kind = kind && r.base ≤ physical && physical < r.base + r.size

/-- An element of the register, given by its physical index, as it is written. -/
def Register.elementText (r : Register) (physical : Nat) : String :=
  r.name ++ "[" ++ toString (physical - r.base) ++ "]"

/-- So many elements of a register, given by its number, a regular distance apart. -/
structure Slice where
  register : Nat
  offset : Nat
  stride : Int
  length : Nat
deriving DecidableEq, Repr

namespace Slice

/-- The place in the register of the `k`-th element. -/
def index (s : Slice) (k : Nat) : Nat := ((s.offset : Int) + k * s.stride).toNat

def single (register offset : Nat) : Slice := ⟨register, offset, 1, 1⟩

/-- The slice with one more element, if that keeps the distance regular. -/
def extend? (s : Slice) (register offset : Nat) : Option Slice :=
  if s.register = register then
    let next : Int := (offset : Int) - s.index (s.length - 1)
    if s.length = 1 ∧ next ≠ 0 then some { s with stride := next, length := 2 }
    else if next = s.stride ∧ next ≠ 0 then some { s with length := s.length + 1 }
    else none
  else none

end Slice

/-- An ordered selection of register elements. -/
structure View where
  slices : List Slice
deriving DecidableEq, Repr

namespace View

def empty : View := ⟨[]⟩

/-- All elements of a register. -/
def whole (register size : Nat) : View := ⟨[⟨register, 0, 1, size⟩]⟩

/-- The number of elements of slices. -/
def lengthOf : List Slice → Nat
  | [] => 0
  | s :: ss => s.length + lengthOf ss

def length (v : View) : Nat := lengthOf v.slices

def isEmpty (v : View) : Bool := v.length = 0

/-- The register and the place in it of the element at a position. -/
def locateIn : List Slice → Nat → Option (Nat × Nat)
  | [], _ => none
  | s :: ss, k => if k < s.length then some (s.register, s.index k) else locateIn ss (k - s.length)

def locate? (v : View) (k : Nat) : Option (Nat × Nat) := locateIn v.slices k

def concat (v w : View) : View := ⟨v.slices ++ w.slices⟩

/-- Adds an element after the slices, the last slice standing first. -/
def push (slices : List Slice) (element : Nat × Nat) : List Slice :=
  let fresh := Slice.single element.1 element.2
  match slices with
  | [] => [fresh]
  | s :: ss =>
    match s.extend? element.1 element.2 with
    | some t => t :: ss
    | none => fresh :: s :: ss

/-- The elements at the given positions; runs at a regular distance become one slice. -/
def pick (v : View) (positions : List Nat) : View :=
  ⟨((positions.filterMap v.locate?).foldl push []).reverse⟩

end View

/-- What was last done to a qubit. -/
inductive Usage
  | declared | measured | reset
deriving DecidableEq, Repr

/-- The warning about a qubit that is measured twice. -/
structure Remeasured where
  qubit : String
deriving DecidableEq, Repr

def Remeasured.message (w : Remeasured) : String :=
  "qubit " ++ w.qubit ++ " is measured again without an intervening reset"

/-- All registers in the order of their declaration, the names that are taken, and the qubits that
were measured and not reset since. -/
structure Registers where
  list : List Register
  names : Std.TreeSet String
  qubits : Nat
  clbits : Nat
  measured : Std.TreeSet Nat

namespace Registers

def empty : Registers := ⟨[], ∅, 0, 0, ∅⟩

/-- The greatest number of qubits, and of bits. -/
def limit : Nat := 16777216

inductive Fault
  | tooMany (name : String) (size : Nat) (kind : RegisterKind)
deriving DecidableEq, Repr

def Fault.message : Fault → String
  | tooMany n size kind =>
    "register `" ++ n ++ "[" ++ toString size ++ "]` takes the program past " ++ toString limit ++
      " " ++ kind.plural

/-- The number of elements of a kind. -/
def total (r : Registers) : RegisterKind → Nat
  | .quantum => r.qubits
  | .classical => r.clbits

/-- The first of `name_k`, `name_(k+1)`, … that is not taken, among so many. -/
def freeSuffix (taken : Std.TreeSet String) (name : String) (k : Nat) : Nat → String
  | 0 => name ++ "_" ++ toString k
  | n + 1 =>
    let candidate := name ++ "_" ++ toString k
    if taken.contains candidate then freeSuffix taken name (k + 1) n else candidate

/-- The name itself if it is free, or else with the first suffix that makes it free. -/
def freeName (taken : Std.TreeSet String) (name : String) : String :=
  if taken.contains name then freeSuffix taken name 1 taken.size else name

/-- Takes a name for the emitted program. -/
def reserve (r : Registers) (name : String) : String × Registers :=
  let free := freeName r.names name
  (free, { r with names := r.names.insert free })

/-- Declares a register. Its number and the view of all its elements are returned. -/
def allocate (r : Registers) (name : String) (size : Nat) (kind : RegisterKind) :
    Except Fault (Nat × View × Registers) :=
  let base := r.total kind
  if base + size ≤ limit then
    let (free, r) := r.reserve name
    let id := r.list.length
    let list := r.list ++ [⟨free, size, base, kind⟩]
    match kind with
    | .quantum => .ok (id, View.whole id size, { r with list, qubits := base + size })
    | .classical => .ok (id, View.whole id size, { r with list, clbits := base + size })
  else .error (.tooMany name size kind)

/-- The registers of a kind in order. -/
def ofKind (r : Registers) (kind : RegisterKind) : List Register :=
  r.list.filter fun x => x.kind = kind

/-- The first physical index of a register. -/
def baseOf (r : Registers) (register : Nat) : Nat := ((r.list[register]?).map Register.base).getD 0

def nameOf (r : Registers) (register : Nat) : String :=
  ((r.list[register]?).map Register.name).getD ""

/-- The physical index of an element. -/
def physicalOf (r : Registers) (element : Nat × Nat) : Nat := r.baseOf element.1 + element.2

def physicalOfSlice (r : Registers) (s : Slice) : List Nat :=
  (List.range s.length).map fun k => r.baseOf s.register + s.index k

/-- The physical indices of the elements of a view. -/
def physical (r : Registers) (v : View) : List Nat := v.slices.flatMap r.physicalOfSlice

/-- The physical index of the element that an index names. -/
def resolve (r : Registers) (v : View) (index : Int) : Except Index.Fault Nat := do
  let k ← Index.normalize index v.length
  match v.locate? k with
  | some e => .ok (r.physicalOf e)
  | none => .error (.outOfRange index v.length)

/-- The register that holds a physical index, with its number. -/
def holder? (kind : RegisterKind) (physical : Nat) : Nat → List Register → Option (Nat × Register)
  | _, [] => none
  | id, x :: xs => if x.holds kind physical then some (id, x) else holder? kind physical (id + 1) xs

/-- The view of a single physical index. -/
def elementView? (r : Registers) (kind : RegisterKind) (physical : Nat) : Option View :=
  (holder? kind physical 0 r.list).map fun (id, x) => ⟨[Slice.single id (physical - x.base)]⟩

/-- A qubit as an element of its register, for messages. -/
def qubitLabel (r : Registers) (q : Nat) : String :=
  match holder? .quantum q 0 r.list with
  | some (_, x) => x.elementText q
  | none => "#" ++ toString q

/-- Notes what is done to a qubit. There is a warning when it is measured and was not reset since it
was last measured. -/
def mark (r : Registers) (q : Nat) (usage : Usage) : Option Remeasured × Registers :=
  match holder? .quantum q 0 r.list with
  | none => (none, r)
  | some (_, x) =>
    if usage = .measured then
      (if r.measured.contains q then some ⟨x.elementText q⟩ else none,
        { r with measured := r.measured.insert q })
    else (none, { r with measured := r.measured.erase q })

end Registers
end OpenQasm
