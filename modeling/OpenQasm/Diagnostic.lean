import OpenQasm.Grammar.Cursor
import OpenQasm.Json
import OpenQasm.Scope
import OpenQasm.Value.Conversion
import OpenQasm.Value.Operator

/-!
What the analysis of a program reports. A problem is a cause with the things it is about; its category
and its wording follow from it.
-/
namespace OpenQasm

inductive DiagnosticKind
  | syntaxError | undefinedSymbol | redeclaration | typeMismatch | arityMismatch | outOfRangeIndex
  | nonConstantBound | unsupportedModifierCombination | resourceMisuse | unsupported
  | iterationLimit
deriving DecidableEq, Repr

def DiagnosticKind.text : DiagnosticKind → String
  | syntaxError => "syntax"
  | undefinedSymbol => "undefined-symbol"
  | redeclaration => "redeclaration"
  | typeMismatch => "type-mismatch"
  | arityMismatch => "arity-mismatch"
  | outOfRangeIndex => "out-of-range-index"
  | nonConstantBound => "non-constant-bound"
  | unsupportedModifierCombination => "unsupported-modifier-combination"
  | resourceMisuse => "resource-misuse"
  | unsupported => "unsupported"
  | iterationLimit => "iteration-limit"

inductive Severity
  | warning | error
deriving DecidableEq, Repr

def Severity.text : Severity → String
  | warning => "warning"
  | error => "error"

/-- Whether a report of this severity reaches a threshold. -/
def Severity.reaches : Severity → Severity → Bool
  | warning, error => false
  | _, _ => true

/-- Everything that can be wrong with a program. -/
inductive Problem
  | syntaxError (e : SyntaxError)
  -- names
  | undefinedName (n : String)
  | undefinedGate (n : String)
  | undefinedSubroutine (n : String)
  | undeclaredQubit (q : Nat)
  | redeclaredBuiltin (n : String)
  | redeclared (n : String) (first : Span)
  | repeatedFormal (gate formal : String)
  -- types of operands and values
  | constantWithoutValue (n : String)
  | notRegister (n : String)
  | registerIndexCount
  | mixedConcat
  | expectedRegister
  | expectedQubits
  | measuredIntoOther
  | noResult (subroutine : String)
  | conversion (f : ConversionFault)
  | type (f : TypeFault)
  | evaluation (e : EvalError)
  | notValue (n : String) (kind : SymbolKind)
  | notAssignable
  | readOnly (n : String)
  | assignedConstant (n : String)
  | tooManyIndices (n : String)
  | measuredIntoArray
  | notIndexed (t : ClassicalType)
  | indexCount (n : String)
  | conditionValue (v : Value)
  | resultWithoutType (subroutine : String)
  | missingResult (subroutine : String) (t : ClassicalType)
  | resultType (subroutine : String) (t : ClassicalType) (f : TypeFault)
  | resultMeasured (subroutine : String) (t : ClassicalType) (qubits : Nat)
  | integerTooLarge (n : Nat)
  | bitsTooLong (digits : String)
  | notCallable (n : String)
  | functionArgument (f : String) (v : Value)
  | functionUndefined (f : String) (x : Float)
  | notElement
  | indexValue (v : Value)
  | parameterValue (v : Value)
  | nestedArray
  | widthTooLarge (n : Int)
  | widthNotPositive (n : Int)
  | widthValue (v : Value)
  | integerWidth (n : Nat)
  | floatWidth (n : Nat)
  | negatedBool
  | arrayLength (found declared : Nat)
  | notGate (n : String)
  | controlCountTooLarge (n : Int)
  | controlCountValue (v : Value)
  | exponentValue (v : Value)
  | notIterable (v : Value)
  | loopBoundValue (v : Value)
  | openLoopRange
  -- numbers of operands
  | outcomeCount (qubits bits : Nat)
  | argumentCount (n : String) (expected found : Nat)
  | functionArity (f : String) (found : Nat)
  | argumentQubits (formal subroutine : String) (expected found : Nat)
  | gateParameters (gate : String) (expected found : Nat)
  | controlOverflow (gate : String)
  | gateOperands (gate : String) (expected found : Nat)
  | broadcast (gate : String) (first second : Nat)
  | operation (e : OperationError)
  -- positions
  | index (f : Index.Fault)
  -- values that have to be known
  | runtimeConstant (n : String)
  | runtimeIndex (e : Expr)
  | runtimeWidth (e : Expr)
  | runtimeControlCount
  | runtimeExponent
  | runtimeLoopBound (e : Expr)
  | zeroLoopStep
  | runtimeWhile (e : Expr)
  -- modifiers
  | inverseOfExternal (gate : String)
  | matrix (e : MatrixError)
  | fractionalPower (exponent : Float)
  -- qubits and registers
  | register (f : Registers.Fault)
  | deviceQubits (total limit : Nat)
  | remeasured (w : Remeasured)
  | passedTwice (qubit subroutine : String)
  | usedTwice (qubit gate : String)
  -- what is not supported
  | unknownInclude (path : String)
  | localQubits
  | initializedInput (n : String)
  | classicalAlias (n : String)
  | localSubroutine
  | localGate
  | gateBody (gate : String) (line : Nat)
  | nestedIndexTarget
  | arraySliceTarget
  | jumpOutsideLoop (keyword : String)
  | runtimeJump (keyword : String)
  | returnOutside
  | runtimeReturn
  | recursiveCall (subroutine : String)
  | measuredArgument (formal : String)
  | nestedMeasurement
  | nestedRuntimeResult (subroutine : String)
  | nestedCall
  | recursiveGate (gate : String)
  -- limits
  | powerLimit (exponent : Float) (limit : Nat)
  | loopLimit (count limit : Nat)
  | whileLimit (limit : Nat)

namespace Problem

def kind : Problem → DiagnosticKind
  | syntaxError _ => .syntaxError
  | undefinedName _ | undefinedGate _ | undefinedSubroutine _ | undeclaredQubit _ =>
    .undefinedSymbol
  | redeclaredBuiltin _ | redeclared _ _ | repeatedFormal _ _ => .redeclaration
  | outcomeCount _ _ | argumentCount _ _ _ | functionArity _ _ | argumentQubits _ _ _ _
  | gateParameters _ _ _ | controlOverflow _ | gateOperands _ _ _ | broadcast _ _ _ =>
    .arityMismatch
  | operation (.duplicateQubit _ _) => .resourceMisuse
  | operation _ => .arityMismatch
  | index (.outOfRange _ _) => .outOfRangeIndex
  | index .zeroStep | runtimeConstant _ | runtimeIndex _ | runtimeWidth _ | runtimeControlCount
  | runtimeExponent | runtimeLoopBound _ | zeroLoopStep | runtimeWhile _ => .nonConstantBound
  | inverseOfExternal _ | matrix _ | fractionalPower _ => .unsupportedModifierCombination
  | register _ | deviceQubits _ _ | remeasured _ | passedTwice _ _ | usedTwice _ _ =>
    .resourceMisuse
  | unknownInclude _ | localQubits | initializedInput _ | classicalAlias _ | localSubroutine
  | localGate | gateBody _ _ | nestedIndexTarget | arraySliceTarget | jumpOutsideLoop _
  | runtimeJump _ | returnOutside | runtimeReturn | recursiveCall _ | measuredArgument _
  | nestedMeasurement | nestedRuntimeResult _ | nestedCall | recursiveGate _ => .unsupported
  | powerLimit _ _ | loopLimit _ _ | whileLimit _ => .iterationLimit
  | _ => .typeMismatch

/-- A name or a piece of source as messages quote it. -/
def quoted (s : String) : String := "`" ++ s ++ "`"

/-- What a symbol is that has no value. -/
def nature : SymbolKind → String
  | .quantumRegister | .alias => "a quantum register"
  | .gateDefinition => "a gate"
  | .subroutineDefinition => "a subroutine"
  | _ => "not a classical value"

/-- A power as messages show it. -/
def powerText (exponent : Float) : String := "`pow(" ++ Decimal.plain exponent ++ ")`"

def message : Problem → String
  | syntaxError e => e.message
  | undefinedName n => "undefined name " ++ quoted n
  | undefinedGate n => "undefined gate " ++ quoted n
  | undefinedSubroutine n => "undefined subroutine " ++ quoted n
  | undeclaredQubit q => "qubit " ++ toString q ++ " is not declared"
  | redeclaredBuiltin n => quoted n ++ " is a builtin gate and cannot be redeclared"
  | redeclared n first => quoted n ++ " is already declared at " ++ first.text
  | repeatedFormal g n => "gate " ++ quoted g ++ " declares " ++ quoted n ++ " twice"
  | constantWithoutValue n => "constant " ++ quoted n ++ " needs an initializer"
  | notRegister n => quoted n ++ " is not a register"
  | registerIndexCount => "registers take exactly one index"
  | mixedConcat => "cannot concatenate qubits with classical bits"
  | expectedRegister => "expected a register, alias or slice"
  | expectedQubits => "expected qubits, found classical bits"
  | measuredIntoOther => "measurement target must be a bit register"
  | noResult n => "subroutine " ++ quoted n ++ " does not return a value"
  | conversion f => f.message
  | type f => f.message
  | evaluation e => e.message
  | notValue n kind =>
    quoted n ++ " is " ++ nature kind ++ " and cannot be used as a classical value"
  | notAssignable => "left-hand side is not assignable"
  | readOnly n => quoted n ++ " is read-only"
  | assignedConstant n => "cannot assign to constant " ++ quoted n
  | tooManyIndices n => "too many indices for " ++ quoted n
  | measuredIntoArray => "measurement results can only be stored in bits"
  | notIndexed t => t.text ++ " cannot be indexed"
  | indexCount n => quoted n ++ " takes exactly one index"
  | conditionValue v => "condition must be boolean, found " ++ v.text
  | resultWithoutType n => "subroutine " ++ quoted n ++ " has no return type but returns a value"
  | missingResult n t => "subroutine " ++ quoted n ++ " must return " ++ t.text
  | resultType n t f => quoted n ++ " returns " ++ t.text ++ ": " ++ f.message
  | resultMeasured n t k =>
    quoted n ++ " returns " ++ t.text ++ " but measures " ++ toString k ++ " qubits"
  | integerTooLarge n => "integer literal " ++ toString n ++ " does not fit in 64 bits"
  | bitsTooLong s => "bit string \"" ++ s ++ "\" is longer than 64 bits"
  | notCallable n => quoted n ++ " is not callable"
  | functionArgument f v => quoted f ++ " expects a real argument, found " ++ v.text
  | functionUndefined f x =>
    quoted (f ++ "(" ++ Decimal.plain x ++ ")") ++ " is not a finite real number"
  | notElement => "value cannot be indexed"
  | indexValue v => "index must be an integer, found " ++ v.text
  | parameterValue v => "gate parameter must be a real number, found " ++ v.text
  | nestedArray => "array elements cannot be arrays; use extra dimensions"
  | widthTooLarge n => "width " ++ toString n ++ " is too large"
  | widthNotPositive n => "width must be positive, found " ++ toString n
  | widthValue v => "width must be an integer, found " ++ v.text
  | integerWidth n => "integer width " ++ toString n ++ " exceeds 64"
  | floatWidth n => "float width must be one of 16, 32, 64, 128; found " ++ toString n
  | negatedBool => "cannot negate a bool"
  | arrayLength found declared =>
    "array literal has " ++ toString found ++ " elements, expected " ++ toString declared
  | notGate n => quoted n ++ " is not a gate"
  | controlCountTooLarge n => "control count " ++ toString n ++ " is too large"
  | controlCountValue v => "control count must be a positive integer, found " ++ v.text
  | exponentValue v => "`pow` exponent must be a real number, found " ++ v.text
  | notIterable v => "cannot iterate over " ++ v.text
  | loopBoundValue v => "loop bounds must be integers, found " ++ v.text
  | openLoopRange => "loop ranges need an explicit start and end"
  | outcomeCount qubits bits =>
    "cannot store " ++ toString qubits ++ " measurement outcomes in " ++ toString bits ++ " bits"
  | argumentCount n expected found =>
    quoted n ++ " takes " ++ toString expected ++ " arguments, found " ++ toString found
  | functionArity f found => quoted f ++ " takes 1 argument, found " ++ toString found
  | argumentQubits formal n expected found =>
    "argument " ++ quoted formal ++ " of " ++ quoted n ++ " expects " ++ toString expected ++
      " qubits, found " ++ toString found
  | gateParameters g expected found =>
    "gate " ++ quoted g ++ " takes " ++ toString expected ++ " parameters, found " ++
      toString found
  | controlOverflow g => quoted g ++ " has more control qubits than can be addressed"
  | gateOperands g expected found =>
    quoted g ++ " expects " ++ toString expected ++ " qubit operands, found " ++ toString found
  | broadcast g first second =>
    "registers of lengths " ++ toString first ++ " and " ++ toString second ++
      " cannot be broadcast in " ++ quoted g
  | operation e => e.message
  | index f => f.message
  | runtimeConstant n =>
    "initializer of constant " ++ quoted n ++ " is not a compile-time constant"
  | runtimeIndex e => "index " ++ quoted e.text ++ " is not a compile-time constant"
  | runtimeWidth e => "width " ++ quoted e.text ++ " is not a compile-time constant"
  | runtimeControlCount => "control count is not a compile-time constant"
  | runtimeExponent => "`pow` exponent is not a compile-time constant"
  | runtimeLoopBound e => "loop bound " ++ quoted e.text ++ " is not a compile-time constant"
  | zeroLoopStep => "loop step must be non-zero"
  | runtimeWhile e => "while condition " ++ quoted e.text ++ " depends on runtime values"
  | inverseOfExternal g => "`inv` cannot be applied to external gate " ++ quoted g
  | matrix e => e.message
  | fractionalPower x =>
    powerText x ++ " needs a single-qubit builtin or a rotation with constant parameters"
  | register f => f.message
  | deviceQubits total limit =>
    "program declares " ++ toString total ++ " qubits but the device has " ++ toString limit
  | remeasured w => w.message
  | passedTwice q n => "qubit " ++ q ++ " is passed to " ++ quoted n ++ " more than once"
  | usedTwice q g => "qubit " ++ q ++ " is used twice in one application of " ++ quoted g
  | unknownInclude path => "cannot resolve include \"" ++ path ++ "\""
  | localQubits => "qubits can only be declared in the global scope"
  | initializedInput n => "input " ++ quoted n ++ " cannot have an initializer"
  | classicalAlias n =>
    "alias " ++ quoted n ++ " refers to classical bits; only qubit aliases are supported"
  | localSubroutine => "subroutines can only be defined in the global scope"
  | localGate => "gates can only be defined in the global scope"
  | gateBody g line =>
    "gate " ++ quoted g ++ " may only contain gate calls (line " ++ toString line ++ ")"
  | nestedIndexTarget => "nested indexed assignment is not supported"
  | arraySliceTarget => "array slices cannot be assigned"
  | jumpOutsideLoop keyword => quoted keyword ++ " outside a loop"
  | runtimeJump keyword => quoted keyword ++ " under a runtime condition cannot be unrolled"
  | returnOutside => "`return` outside a subroutine"
  | runtimeReturn => "`return` under a runtime condition is not supported"
  | recursiveCall n => "recursive call to " ++ quoted n
  | measuredArgument formal => "measurement passed as argument " ++ quoted formal
  | nestedMeasurement => "measurement cannot appear inside a larger expression"
  | nestedRuntimeResult n =>
    "runtime result of " ++ quoted n ++ " cannot be used inside a larger expression"
  | nestedCall => "subroutine call inside a runtime expression"
  | recursiveGate g => "gate " ++ quoted g ++ " is defined in terms of itself"
  | powerLimit x limit => powerText x ++ " repeats more than " ++ toString limit ++ " times"
  | loopLimit count limit =>
    "loop runs " ++ toString count ++ " iterations, more than the limit of " ++ toString limit
  | whileLimit limit => "while loop exceeded " ++ toString limit ++ " iterations"

/-- A second measurement is only worth a warning; everything else is an error. -/
def severity : Problem → Severity
  | remeasured _ => .warning
  | _ => .error

end Problem

/-- A problem at the place of a statement. -/
structure Diagnostic where
  problem : Problem
  span : Span

namespace Diagnostic

def severity (d : Diagnostic) : Severity := d.problem.severity

def kind (d : Diagnostic) : DiagnosticKind := d.problem.kind

def message (d : Diagnostic) : String := d.problem.message

/-- Whether a threshold makes the report fatal. -/
def isFatal (d : Diagnostic) (threshold : Severity) : Bool := d.severity.reaches threshold

def ofSyntaxError (e : SyntaxError) : Diagnostic := ⟨.syntaxError e, e.span⟩

/-- The report on one line: `3:7: error[type-mismatch]: …`. -/
def text (d : Diagnostic) : String :=
  d.span.text ++ ": " ++ d.severity.text ++ "[" ++ d.kind.text ++ "]: " ++ d.message

def toJson (d : Diagnostic) : Json :=
  .object [("kind", .string d.kind.text),
    ("span", .object [("line", .int d.span.line), ("column", .int d.span.column)]),
    ("message", .string d.message), ("severity", .string d.severity.text)]

end Diagnostic
end OpenQasm
