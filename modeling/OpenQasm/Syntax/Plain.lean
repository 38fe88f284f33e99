import OpenQasm.Syntax.Parentheses

/-!
What programs say, whatever the layout of their text: the trees without positions and without parentheses.
-/
namespace OpenQasm

def LoopValues.plain : LoopValues → LoopValues
  | .range r => .range r.withoutParens
  | .set items => .set (exprsWithoutParens items)
  | .array e => .array e.withoutParens

def Modifier.plain : Modifier → Modifier
  | .ctrl count => .ctrl (optionWithoutParens count)
  | .negctrl count => .negctrl (optionWithoutParens count)
  | .inv => .inv
  | .pow exponent => .pow exponent.withoutParens

def GateCall.plain (c : GateCall) : GateCall :=
  ⟨c.name, exprsWithoutParens c.params, exprsWithoutParens c.qubits, c.modifiers.map Modifier.plain⟩

def ClassicalDecl.plain (d : ClassicalDecl) : ClassicalDecl :=
  { d with type := d.type.withoutParens, init := optionWithoutParens d.init }

def Formal.plain : Formal → Formal
  | .classical type n => .classical type.withoutParens n
  | .qubit n size => .qubit n (optionWithoutParens size)

mutual

/-- The statement without its position and without parentheses. -/
def Statement.plain : Statement → Statement
  | ⟨kind, _⟩ => ⟨kind.plain, .none⟩

def StatementKind.plain : StatementKind → StatementKind
  | .includeFile path => .includeFile path
  | .qubits n size => .qubits n (optionWithoutParens size)
  | .classical d => .classical d.plain
  | .alias n e => .alias n e.withoutParens
  | .gate c => .gate c.plain
  | .measure q target => .measure q.withoutParens (optionWithoutParens target)
  | .reset e => .reset e.withoutParens
  | .barrier es => .barrier (exprsWithoutParens es)
  | .branch c thenBody none => .branch c.withoutParens (bodyPlain thenBody) none
  | .branch c thenBody (some elseBody) =>
    .branch c.withoutParens (bodyPlain thenBody) (some (bodyPlain elseBody))
  | .forLoop type n values body =>
    .forLoop (type.map TypeExpr.withoutParens) n values.plain (bodyPlain body)
  | .whileLoop c body => .whileLoop c.withoutParens (bodyPlain body)
  | .breakLoop => .breakLoop
  | .continueLoop => .continueLoop
  | .returnValue value => .returnValue (optionWithoutParens value)
  | .block body => .block (bodyPlain body)
  | .defineSubroutine d => .defineSubroutine d.plain
  | .defineGate d => .defineGate d.plain
  | .assign target op e => .assign target.withoutParens op e.withoutParens
  | .evaluate e => .evaluate e.withoutParens
  | .pragma t => .pragma t
  | .annotated keyword content => .annotated keyword content

def SubroutineDefinition.plain : SubroutineDefinition → SubroutineDefinition
  | ⟨n, formals, result, body⟩ =>
    ⟨n, formals.map Formal.plain, result.map TypeExpr.withoutParens, bodyPlain body⟩

def GateDefinition.plain : GateDefinition → GateDefinition
  | ⟨n, params, qubits, body⟩ => ⟨n, params, qubits, bodyPlain body⟩

def bodyPlain : List Statement → List Statement
  | [] => []
  | s :: ss => s.plain :: bodyPlain ss

end

/-- The program without positions and without parentheses. -/
def Program.plain (p : Program) : Program := ⟨p.version, bodyPlain p.statements⟩

end OpenQasm
