import OpenQasm.Parameter
import OpenQasm.Gate
import OpenQasm.Register
import OpenQasm.Value

/-!
Scopes and the symbols declared in them. Blocks see what encloses them. The bodies of gates and
subroutines stand beside the code that calls them: from inside, only the constants and the
definitions of the global scope are visible.
-/
namespace OpenQasm

inductive SymbolKind
  | classicalVariable | quantumRegister | classicalRegister | alias
  | gateDefinition | subroutineDefinition | constant
deriving DecidableEq, Repr

/-- What a symbol stands for beside its value. -/
inductive Binding
  | none
  /-- The qubits of a register, an alias or an operand. -/
  | qubits (v : View)
  | clbits (v : View)
  /-- The parameter that a gate was called with. -/
  | param (p : Parameter)
  | builtin (g : Builtin)
  | gate (d : GateDefinition)
  | external (g : ExternalGate)
  | subroutine (d : SubroutineDefinition)

structure Symbol where
  name : String
  kind : SymbolKind
  span : Span
  type : Option ClassicalType := .none
  /-- The number of elements or of bits. -/
  size : Option Nat := .none
  mutable : Bool := false
  /-- How many scopes enclose the one of the symbol. -/
  scope : Nat := 0
  /-- The value, as long as it does not depend on the run of the program. -/
  value : Option Value := .none
  binding : Binding := .none
  /-- The name in the flat program. -/
  emitName : Option String := .none

namespace Symbol

/-- The symbol with a type, which determines its size. -/
def withType (s : Symbol) (t : ClassicalType) : Symbol := { s with type := t, size := t.width? }

/-- Whether the bodies of gates and subroutines see the symbol, if it is global. -/
def crossesBodies (s : Symbol) : Bool :=
  s.kind = .constant || s.kind = .gateDefinition || s.kind = .subroutineDefinition

def subroutine? (s : Symbol) : Option SubroutineDefinition :=
  match s.binding with
  | .subroutine d => some d
  | _ => .none

def isBuiltin (s : Symbol) : Bool :=
  match s.binding with
  | .builtin _ => true
  | _ => false

/-- The gate as it is declared before every program. -/
def ofBuiltin (g : Builtin) : Symbol := ⟨g.name, .gateDefinition, .none, .none, .none, false, 0,
  .none, .builtin g, .none⟩

end Symbol

inductive ScopeKind
  | subroutineBody | gateBody | block
deriving DecidableEq, Repr

/-- Whether the scope belongs to a definition, so that the code around it is not seen. -/
def ScopeKind.isBody (k : ScopeKind) : Bool := k ≠ .block

/-- A scope inside the global one; the symbol declared last comes first. -/
structure Scope where
  kind : ScopeKind
  symbols : List Symbol

/-- The symbol of a name in a list of symbols. -/
def Symbol.find? (name : String) (symbols : List Symbol) : Option Symbol :=
  symbols.find? fun s => s.name == name

/-- Changes the symbol of a name, which has to stay the name of the symbol. -/
def Symbol.modifyIn (name : String) (f : Symbol → Symbol) : List Symbol → List Symbol
  | [] => []
  | s :: ss => if s.name == name then f s :: ss else s :: modifyIn name f ss

/-- The symbols of the global scope and the scopes entered since, the innermost one first. -/
structure Scopes where
  global : List Symbol
  inner : List Scope

namespace Scopes

def empty : Scopes := ⟨[], []⟩

/-- The scope that every program starts in. -/
def withBuiltins : Scopes := ⟨(Builtin.all.map Symbol.ofBuiltin).reverse, []⟩

/-- How many scopes enclose the current one. -/
def depth (s : Scopes) : Nat := s.inner.length

def isGlobal (s : Scopes) : Bool := s.inner.isEmpty

def enter (s : Scopes) (kind : ScopeKind) : Scopes := { s with inner := ⟨kind, []⟩ :: s.inner }

/-- Leaves the current scope; the global one is never left. -/
def exit (s : Scopes) : Scopes := { s with inner := s.inner.tail }

/-- The symbols of the current scope. -/
def current (s : Scopes) : List Symbol :=
  match s.inner with
  | [] => s.global
  | scope :: _ => scope.symbols

/-- The symbol of a name in the current scope. -/
def here? (s : Scopes) (name : String) : Option Symbol := Symbol.find? name s.current

/-- What a name stands for in the global scope, seen from a body or from outside of all bodies. -/
def globalSymbol? (global : List Symbol) (fromBody : Bool) (name : String) : Option Symbol :=
  (Symbol.find? name global).filter fun s => !fromBody || s.crossesBodies

/-- What a name stands for inside the given scopes. -/
def resolveIn (global : List Symbol) (name : String) : List Scope → Option Symbol
  | [] => globalSymbol? global false name
  | scope :: outer =>
    match Symbol.find? name scope.symbols with
    | some s => some s
    | none =>
      if scope.kind.isBody then globalSymbol? global true name else resolveIn global name outer

/-- What a name stands for. -/
def resolve? (s : Scopes) (name : String) : Option Symbol := resolveIn s.global name s.inner

/-- Adds a symbol to the current scope. -/
def push (s : Scopes) (x : Symbol) : Scopes :=
  let x := { x with scope := s.depth }
  match s.inner with
  | [] => { s with global := x :: s.global }
  | scope :: outer => { s with inner := { scope with symbols := x :: scope.symbols } :: outer }

/-- Declares a symbol in the current scope. If its name is taken there, the symbol that has it is the
error. -/
def declare (s : Scopes) (x : Symbol) : Except Symbol Scopes :=
  match s.here? x.name with
  | some first => .error first
  | none => .ok (s.push x)

/-- Changes the symbol that a name stands for among the given scopes; whether it is there. -/
def modifyInner (name : String) (f : Symbol → Symbol) : List Scope → List Scope × Bool
  | [] => ([], false)
  | scope :: outer =>
    if (Symbol.find? name scope.symbols).isSome then
      ({ scope with symbols := Symbol.modifyIn name f scope.symbols } :: outer, true)
    else if scope.kind.isBody then (scope :: outer, false)
    else
      let (outer, found) := modifyInner name f outer
      (scope :: outer, found)

/-- Changes the symbol that a name stands for. -/
def modify (s : Scopes) (name : String) (f : Symbol → Symbol) : Scopes :=
  let (inner, found) := modifyInner name f s.inner
  if found then { s with inner }
  else if (s.resolve? name).isSome then { s with global := Symbol.modifyIn name f s.global }
  else s

/-- The global symbols in the order of their declaration. -/
def globals (s : Scopes) : List Symbol := s.global.reverse

end Scopes
end OpenQasm
