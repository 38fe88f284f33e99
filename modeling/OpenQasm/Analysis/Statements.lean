import OpenQasm.Analysis.Arguments
import OpenQasm.Analysis.Declare
import OpenQasm.Analysis.Loop

/-!
Statements and blocks, and from them the expansion of definitions. A statement that fails takes its
output back.
-/
namespace OpenQasm

namespace Analysis

/-- Included files that declare nothing but the builtin gates. -/
def standardIncludes : List String := ["stdgates.inc", "qelib1.inc"]

def includeFile (path : String) : Analysis Unit :=
  if standardIncludes.contains path then return else fail (.unknownInclude path)

/-- Appends resets of qubits. -/
def resetEach : List Nat → Analysis Unit
  | [] => return
  | q :: qs => do
    emitOp (.reset q)
    noteUsage q .reset
    resetEach qs

/-- The bits of the registers that an expression reads. -/
def bitsOf (s : State) (name : String) : List Nat :=
  match (s.scopes.resolve? name).map Symbol.binding with
  | some (.clbits v) => s.registers.physical v
  | _ => []

mutual

/-- The bits that a condition reads, with repetitions. Indices are not looked at. -/
def readBits (s : State) : Expr → List Nat
  | .name n => bitsOf s n
  | .index base _ => readBits s base
  | .unary _ e | .cast _ e | .paren e => readBits s e
  | .binary l _ r => readBits s l ++ readBits s r
  | .call _ items | .array items => readBitsAll s items
  | _ => []

def readBitsAll (s : State) : List Expr → List Nat
  | [] => []
  | e :: es => readBits s e ++ readBitsAll s es

end

/-- Whether a variable has no name in the flat program but can be assigned to. -/
def needsName (s : Symbol) : Bool :=
  s.kind = .classicalVariable && s.mutable && s.emitName.isNone

/-- Gives the variable that a target belongs to a name in the flat program. -/
def materializeTarget (target : Expr) : Analysis Unit := do
  match target.rootName? with
  | none => return
  | some root =>
    if (← resolve? root).any needsName then
      let _ ← materialize root

mutual

/-- Gives all variables that a statement assigns to a name in the flat program. -/
def materializeTargets : Statement → Analysis Unit
  | ⟨kind, _⟩ => materializeTargetsOf kind

def materializeTargetsOf : StatementKind → Analysis Unit
  | .assign target _ _ => materializeTarget target
  | .branch _ thenBody none => materializeAll thenBody
  | .branch _ thenBody (some elseBody) => do
    materializeAll thenBody
    materializeAll elseBody
  | .forLoop _ _ _ body | .whileLoop _ body | .block body => materializeAll body
  | _ => return

def materializeAll : List Statement → Analysis Unit
  | [] => return
  | s :: ss => do
    materializeTargets s
    materializeAll ss

end

/-- A `break` or `continue`. -/
def jump (signal : Signal) (keyword : String) : Analysis Signal := do
  match (← get).loopScope with
  | none => fail (.jumpOutsideLoop keyword)
  | some scope => if ← branchedSince scope then fail (.runtimeJump keyword) else return signal

/-- Runs a body under a condition that is decided when the program runs. -/
def underRuntimeCondition {α : Type} (x : Analysis α) : Analysis α := do
  let outer := (← get).runtimeFloor
  let body : Analysis α := do
    modify fun s => { s with runtimeFloor := some s.scopes.depth }
    x
  followedBy (inScope .block body) fun s => { s with runtimeFloor := outer }

/-- Runs a step with an output of its own and returns that beside its result. -/
def collecting {α : Type} (x : Analysis α) : Analysis (α × List FlatStatement) := do
  let outer := (← get).output
  let collected : Analysis (α × List FlatStatement) := do
    modify fun s => { s with output := [] }
    let a ← x
    return (a, (← get).output.reverse)
  followedBy collected fun s => { s with output := outer }

/-- What becomes of a statement: after a failure its output is taken back, and the failure is reported
or handed on. -/
def settle (before : List FlatStatement) (result : Except Failure Signal) : Analysis Signal := do
  match result with
  | .ok signal => return signal
  | .error failure =>
    modify fun s => { s with output := before }
    match failure with
    | .statement d =>
      report d
      return .normal
    | .construct d =>
      report d
      throw .leaving
    | .leaving => throw .leaving
    | .reported => if (← get).halted then throw .leaving else return .normal

/-- Runs a statement at its place in the source. -/
def settled (span : Span) (x : Analysis Signal) : Analysis Signal := do
  let s ← get
  let (outer, before) := (s.span, s.output)
  modify fun s => { s with span }
  let result ← attempt x
  modify fun s => { s with span := outer }
  settle before result

/-- A step after which control goes on to the next statement. -/
def thenNext (x : Analysis Unit) : Analysis Signal := do
  x
  return .normal

variable (calls : Calls)

/-- The qubits of the operands of a barrier, each one once. -/
def barrierQubits (operands : List Expr) : Analysis (List Nat) := do
  if operands.isEmpty then return List.range (← get).registers.qubits
  else return (← operands.mapM (quantumQubits calls)).flatten.eraseDups

def barrier (operands : List Expr) : Analysis Unit := do
  match ← barrierQubits calls operands with
  | [] => return
  | qubits => emitOp (.barrier qubits)

/-- An expression as a statement: a call is inlined and what it measures is dropped. -/
def evaluate (e : Expr) : Analysis Unit := do
  match e.unparen with
  | .call f args =>
    match ← subroutine? f with
    | some d =>
      match ← calls.subroutine d args with
      | some (.measured qubits) => measureOnly qubits
      | _ => return
    | none => let _ ← fold calls (.call f args)
  | .measure operand => measure calls operand none
  | e => let _ ← fold calls e

/-- A `return`. -/
def handBack (value : Option Expr) : Analysis Signal := do
  match (← get).callScope with
  | none => fail .returnOutside
  | some scope =>
    if ← branchedSince scope then fail .runtimeReturn
    else
      match value with
      | none => return .returned none
      | some e => return .returned (some (← rightValue calls e))

/-- A branch that is decided when the program runs. Variables that are assigned in it are declared
before it, so that their values from before are assigned outside. -/
def runtimeBranch (condition : Expr) (assigned : Analysis Unit)
    (thenBody elseBody : Analysis Signal) : Analysis Signal := do
  let shown ← residualize calls condition
  let clbits := (readBits (← get) condition).eraseDups
  assigned
  let (_, thenPart) ← collecting (underRuntimeCondition thenBody)
  let (_, elsePart) ← collecting (underRuntimeCondition elseBody)
  emit (.branch shown clbits thenPart elsePart)
  return .normal

/-- An `if`: the body that is taken, if the condition is known. -/
def branch (condition : Expr) (assigned : Analysis Unit) (thenBody elseBody : Analysis Signal) :
    Analysis Signal := do
  match ← fold calls condition with
  | none => runtimeBranch calls condition assigned thenBody elseBody
  | some v =>
    if ← conditionTruth v then inScope .block thenBody else inScope .block elseBody

mutual

/-- Runs a statement. What it reports is part of the state; it fails only to leave a construct. -/
def statement : Statement → Analysis Signal
  | ⟨kind, span⟩ => settled span (perform kind)

/-- What a statement does. -/
def perform : StatementKind → Analysis Signal
  | .includeFile path => thenNext (includeFile path)
  | .qubits name size => thenNext (declareQubits calls name size)
  | .classical d => thenNext (declareClassical calls d)
  | .alias name value => thenNext (declareAlias calls name value)
  | .gate call => thenNext do (← expandCall calls call).forM emitOp
  | .measure operand target => thenNext (measure calls operand target)
  | .reset operand => thenNext do resetEach (← quantumQubits calls operand)
  | .barrier operands => thenNext (barrier calls operands)
  | .branch condition thenBody none =>
    branch calls condition (materializeAll thenBody) (block thenBody) (pure .normal)
  | .branch condition thenBody (some elseBody) =>
    branch calls condition (materializeAll (thenBody ++ elseBody)) (block thenBody) (block elseBody)
  | .forLoop type name values body => do
    let (t, values) ← typedValues calls type values
    inLoop <| unroll (fun v => inScope .block do
      declare (← loopVariable name t v)
      block body) values
  | .whileLoop condition body => do
    let limit := (← read).maxLoopIterations
    inLoop <| iterate limit (whileCondition calls condition) (inScope .block (block body)) limit
  | .breakLoop => jump .breakLoop "break"
  | .continueLoop => jump .continueLoop "continue"
  | .returnValue value => handBack calls value
  | .block body => inScope .block (block body)
  | .defineSubroutine d => thenNext (defineSubroutine d)
  | .defineGate d => thenNext (defineGate d)
  | .assign target op value => thenNext (assign calls target op value)
  | .evaluate e => thenNext (evaluate calls e)
  | .pragma text => thenNext (emit (.pragma text))
  | .annotated _ _ => return .normal

/-- Runs statements until one of them leaves the block. -/
def block : List Statement → Analysis Signal
  | [] => return .normal
  | s :: ss => do
    if (← get).halted then throw .leaving
    match ← statement s with
    | .normal => block ss
    | signal => return signal

end

end Analysis

/-- The expansion of definitions that are nested at most so deep. What lies deeper is reported as a
recursion. -/
def Calls.nested : Nat → Calls
  | 0 =>
    { subroutine := fun d _ => Analysis.failConstruct (.recursiveCall d.name)
      resultType := fun d _ => Analysis.failConstruct (.recursiveCall d.name)
      gate := fun d _ _ => Analysis.failConstruct (.recursiveGate d.name) }
  | n + 1 =>
    { subroutine := fun d args config s =>
        Analysis.callSubroutine (nested n) (Analysis.block (nested n)) d args config s
      resultType := fun _ t config s => Analysis.resolveType (nested n) t config s
      gate := fun d params qubits config s =>
        Analysis.inlineGate (Analysis.bodyOps (nested n)) d params qubits config s }

end OpenQasm
