import OpenQasm.Analysis.Assign

/-!
The rounds of loops. The body of a loop is a step of the analysis that is run once for each round.
-/
namespace OpenQasm

namespace Analysis

/-- Runs a step in a loop that stands in the current scope. -/
def inLoop {α : Type} (x : Analysis α) : Analysis α := do
  let s ← get
  let outer := s.loopScope
  modify fun s => { s with loopScope := some s.scopes.depth }
  followedBy x fun s => { s with loopScope := outer }

/-- Runs a body for each value until it leaves the loop. -/
def unroll (body : Value → Analysis Signal) : List Value → Analysis Signal
  | [] => return .normal
  | v :: vs => do
    match ← body v with
    | .breakLoop => return .normal
    | .returned r => return .returned r
    | .normal | .continueLoop => unroll body vs

/-- Runs a body as long as a condition holds; `left` more rounds are allowed. -/
def iterate (limit : Nat) (condition : Analysis Bool) (body : Analysis Signal) :
    Nat → Analysis Signal
  | 0 => do if ← condition then failConstruct (.whileLimit limit) else return .normal
  | left + 1 => do
    if ← condition then
      match ← body with
      | .breakLoop => return .normal
      | .returned r => return .returned r
      | .normal | .continueLoop => iterate limit condition body left
    else return .normal

/-- The truth of a condition. -/
def conditionTruth (v : Value) : Analysis Bool :=
  match v.truth? with
  | some b => return b
  | none => fail (.conditionValue v)

/-- The type of a loop variable that is declared without one: that of the first value. -/
def loopVariableType : List Value → ClassicalType
  | .float _ :: _ => .defaultFloat
  | .bool _ :: _ => .bool
  | _ => .defaultInt

/-- The number of values of a range whose step is not zero. -/
def roundCount (start step stop : Int) : Nat := Index.progressionLength start step stop

variable (calls : Calls)

/-- The condition of a `while` loop, which has to be known in every round. -/
def whileCondition (e : Expr) : Analysis Bool := do
  match ← fold calls e with
  | some v => conditionTruth v
  | none => failConstruct (.runtimeWhile e)

def loopBound (e : Expr) : Analysis Int := do
  match ← fold calls e with
  | some (.int n) => return n.toInt
  | some v => fail (.loopBoundValue v)
  | none => failConstruct (.runtimeLoopBound e)

/-- The values of a range: the integers from its start to its stop, in steps. -/
def rangeValues (r : RangeExpr) : Analysis (List Value) := do
  match r.start, r.stop with
  | some start, some stop =>
    let start ← loopBound calls start
    let stop ← loopBound calls stop
    let step ← match r.step with
      | some step => loopBound calls step
      | none => pure 1
    if step = 0 then failConstruct .zeroLoopStep
    else
      let count := roundCount start step stop
      let limit := (← read).maxLoopIterations
      if count > limit then failConstruct (.loopLimit count limit)
      else return (Index.progression start step stop).map fun n => .int (Int64.ofInt n)
  | _, _ => fail .openLoopRange

/-- The values of the items of a set. -/
def setValues : List Expr → Analysis (List Value)
  | [] => return []
  | e :: es => do
    match ← fold calls e with
    | some v =>
      let vs ← setValues es
      return v :: vs
    | none => failConstruct (.runtimeLoopBound e)

/-- The values that a loop variable takes, in order. -/
def loopValues : LoopValues → Analysis (List Value)
  | .range r => rangeValues calls r
  | .set items => setValues calls items
  | .array e => do
    match ← fold calls e with
    | some (.array values) => return values
    | some v => fail (.notIterable v)
    | none => failConstruct (.runtimeLoopBound e)

/-- The values of a loop variable, converted to its type. -/
def typedValues (type : Option TypeExpr) (values : LoopValues) :
    Analysis (ClassicalType × List Value) := do
  let values ← loopValues calls values
  let t ← match type with
    | some type => resolveType calls type
    | none => pure (loopVariableType values)
  return (t, ← values.mapM (coerceTo t))

/-- A loop variable in one of its rounds; it cannot be assigned to. -/
def loopVariable (name : String) (t : ClassicalType) (v : Value) : Analysis Symbol := do
  let s ← newSymbol name .classicalVariable
  return { s.withType t with value := some v }

end Analysis
end OpenQasm
