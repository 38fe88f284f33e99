import OpenQasm.Syntax

/-!
The calls in a text. What is called is listed by name, in the order of the text and with repetitions;
functions of the language are among the names, since only a scope tells them from subroutines.
-/
namespace OpenQasm

mutual

/-- The names that an expression calls. -/
def Expr.callees : Expr → List String
  | .unary _ e | .measure e | .paren e => e.callees
  | .binary l _ r => l.callees ++ r.callees
  | .call f args => f :: exprsCallees args
  | .index base items => base.callees ++ itemsCallees items
  | .cast t e => t.callees ++ e.callees
  | .array items => exprsCallees items
  | _ => []

def exprsCallees : List Expr → List String
  | [] => []
  | e :: es => e.callees ++ exprsCallees es

def TypeExpr.callees : TypeExpr → List String
  | .sized _ width => optionCallees width
  | .array element dims => element.callees ++ exprsCallees dims
  | _ => []

def optionCallees : Option Expr → List String
  | none => []
  | some e => e.callees

def RangeExpr.callees : RangeExpr → List String
  | ⟨start, step, stop⟩ => optionCallees start ++ optionCallees step ++ optionCallees stop

def IndexItem.callees : IndexItem → List String
  | .single e => e.callees
  | .range r => r.callees
  | .set items => exprsCallees items

def itemsCallees : List IndexItem → List String
  | [] => []
  | item :: items => item.callees ++ itemsCallees items

end

def LoopValues.callees : LoopValues → List String
  | .range r => r.callees
  | .set items => exprsCallees items
  | .array e => e.callees

def Modifier.callees : Modifier → List String
  | .ctrl n | .negctrl n => optionCallees n
  | .inv => []
  | .pow e => e.callees

/-- The application of a gate is a call itself. -/
def GateCall.callees (c : GateCall) : List String :=
  c.name :: (c.modifiers.flatMap Modifier.callees ++ exprsCallees c.params ++ exprsCallees c.qubits)

/-- The names that a type calls, if there is one. -/
def typeCallees : Option TypeExpr → List String
  | none => []
  | some t => t.callees

def ClassicalDecl.callees (d : ClassicalDecl) : List String := d.type.callees ++ optionCallees d.init

def Formal.callees : Formal → List String
  | .classical t _ => t.callees
  | .qubit _ size => optionCallees size

/-- The names that are called to find the types and sizes of the operands of a subroutine and the type
of its result. -/
def SubroutineDefinition.signatureCallees (d : SubroutineDefinition) : List String :=
  d.formals.flatMap Formal.callees ++ typeCallees d.result

mutual

def Statement.callees : Statement → List String
  | ⟨kind, _⟩ => kind.callees

/-- The names that a statement calls, in the bodies of definitions too. -/
def StatementKind.callees : StatementKind → List String
  | .qubits _ size => optionCallees size
  | .classical d => d.callees
  | .alias _ value => value.callees
  | .gate call => call.callees
  | .measure qubits target => qubits.callees ++ optionCallees target
  | .reset operand => operand.callees
  | .barrier operands => exprsCallees operands
  | .branch condition thenBody none => condition.callees ++ bodyCallees thenBody
  | .branch condition thenBody (some elseBody) =>
    condition.callees ++ (bodyCallees thenBody ++ bodyCallees elseBody)
  | .forLoop type _ values body => typeCallees type ++ values.callees ++ bodyCallees body
  | .whileLoop condition body => condition.callees ++ bodyCallees body
  | .returnValue value => optionCallees value
  | .block body => bodyCallees body
  | .defineSubroutine d => d.callees
  | .defineGate d => d.callees
  | .assign target _ value => target.callees ++ value.callees
  | .evaluate e => e.callees
  | .includeFile _ | .breakLoop | .continueLoop | .pragma _ | .annotated _ _ => []

def bodyCallees : List Statement → List String
  | [] => []
  | s :: ss => s.callees ++ bodyCallees ss

def SubroutineDefinition.callees : SubroutineDefinition → List String
  | ⟨_, formals, result, body⟩ =>
    formals.flatMap Formal.callees ++ typeCallees result ++ bodyCallees body

def GateDefinition.callees : GateDefinition → List String
  | ⟨_, _, _, body⟩ => bodyCallees body

end

/-- The subroutine that a statement defines. -/
def Statement.subroutine? (s : Statement) : Option SubroutineDefinition :=
  match s.kind with
  | .defineSubroutine d => some d
  | _ => none

/-- The name of the gate or subroutine that a statement defines. -/
def Statement.definedName? (s : Statement) : Option String :=
  match s.kind with
  | .defineSubroutine d => some d.name
  | .defineGate d => some d.name
  | _ => none

namespace Program

/-- The subroutines of a program. Definitions that stand in blocks are refused. -/
def subroutines (p : Program) : List SubroutineDefinition :=
  p.statements.filterMap Statement.subroutine?

/-- The gates and subroutines of a program. -/
def definedNames (p : Program) : List String := p.statements.filterMap Statement.definedName?

/-- The names that a program calls. -/
def callees (p : Program) : List String := bodyCallees p.statements

end Program
end OpenQasm
