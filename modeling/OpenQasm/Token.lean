import OpenQasm.Decimal
import OpenQasm.Syntax

/-!
The tokens of a program and the text that stands for each of them.
-/
namespace OpenQasm

inductive Keyword
  | openqasm | «include» | qubit | qreg | creg
  | bit | int | uint | float | angle | bool | complex | duration | stretch | array
  | const | «let» | gate | define
  | «if» | «else» | «for» | «while» | «break» | «continue» | «in» | «return»
  | measure | reset | barrier | input | output
  | inv | pow | ctrl | negctrl
  | pi | tau | euler | true | false
deriving DecidableEq, Repr

namespace Keyword

def text : Keyword → String
  | openqasm => "OPENQASM"
  | «include» => "include"
  | qubit => "qubit"
  | qreg => "qreg"
  | creg => "creg"
  | bit => "bit"
  | int => "int"
  | uint => "uint"
  | float => "float"
  | angle => "angle"
  | bool => "bool"
  | complex => "complex"
  | duration => "duration"
  | stretch => "stretch"
  | array => "array"
  | const => "const"
  | «let» => "let"
  | gate => "gate"
  | define => "def"
  | «if» => "if"
  | «else» => "else"
  | «for» => "for"
  | «while» => "while"
  | «break» => "break"
  | «continue» => "continue"
  | «in» => "in"
  | «return» => "return"
  | measure => "measure"
  | reset => "reset"
  | barrier => "barrier"
  | input => "input"
  | output => "output"
  | inv => "inv"
  | pow => "pow"
  | ctrl => "ctrl"
  | negctrl => "negctrl"
  | pi => "pi"
  | tau => "tau"
  | euler => "euler"
  | true => "true"
  | false => "false"

def all : List Keyword :=
  [openqasm, «include», qubit, qreg, creg, bit, int, uint, float, angle, bool, complex, duration,
    stretch, array, const, «let», gate, define, «if», «else», «for», «while», «break», «continue»,
    «in», «return», measure, reset, barrier, input, output, inv, pow, ctrl, negctrl, pi, tau, euler,
    true, false]

/-- The keyword that a word is. -/
def ofText? (word : String) : Option Keyword := all.find? (·.text = word)

/-- The letters that stand for a named number. -/
def ofLetter? : Char → Option Keyword
  | 'π' => some pi
  | 'τ' => some tau
  | 'ℇ' => some euler
  | _ => none

/-- Keywords that a classical type starts with. -/
def startsType : Keyword → Bool
  | bool | int | uint | float | angle | bit | complex | duration | stretch | array => Bool.true
  | _ => Bool.false

end Keyword

inductive Punctuation
  | plus | plusPlus | minus | star | slash | percent | starStar
  | eqEq | bangEq | less | lessEq | greater | greaterEq
  | ampAmp | pipePipe | bang | tilde | amp | pipe | caret | lessLess | greaterGreater
  | eq | plusEq | minusEq | starEq | slashEq | arrow | atSign
  | lParen | rParen | lBracket | rBracket | lBrace | rBrace | semicolon | colon | comma
deriving DecidableEq, Repr

namespace Punctuation

def text : Punctuation → String
  | plus => "+"
  | plusPlus => "++"
  | minus => "-"
  | star => "*"
  | slash => "/"
  | percent => "%"
  | starStar => "**"
  | eqEq => "=="
  | bangEq => "!="
  | less => "<"
  | lessEq => "<="
  | greater => ">"
  | greaterEq => ">="
  | ampAmp => "&&"
  | pipePipe => "||"
  | bang => "!"
  | tilde => "~"
  | amp => "&"
  | pipe => "|"
  | caret => "^"
  | lessLess => "<<"
  | greaterGreater => ">>"
  | eq => "="
  | plusEq => "+="
  | minusEq => "-="
  | starEq => "*="
  | slashEq => "/="
  | arrow => "->"
  | atSign => "@"
  | lParen => "("
  | rParen => ")"
  | lBracket => "["
  | rBracket => "]"
  | lBrace => "\x7b"
  | rBrace => "\x7d"
  | semicolon => ";"
  | colon => ":"
  | comma => ","

def ofPair? : Char → Char → Option Punctuation
  | '+', '+' => some plusPlus
  | '*', '*' => some starStar
  | '=', '=' => some eqEq
  | '!', '=' => some bangEq
  | '<', '=' => some lessEq
  | '>', '=' => some greaterEq
  | '&', '&' => some ampAmp
  | '|', '|' => some pipePipe
  | '<', '<' => some lessLess
  | '>', '>' => some greaterGreater
  | '+', '=' => some plusEq
  | '-', '=' => some minusEq
  | '*', '=' => some starEq
  | '/', '=' => some slashEq
  | '-', '>' => some arrow
  | _, _ => none

def ofChar? : Char → Option Punctuation
  | '+' => some plus
  | '-' => some minus
  | '*' => some star
  | '/' => some slash
  | '%' => some percent
  | '<' => some less
  | '>' => some greater
  | '!' => some bang
  | '~' => some tilde
  | '&' => some amp
  | '|' => some pipe
  | '^' => some caret
  | '=' => some eq
  | '@' => some atSign
  | '(' => some lParen
  | ')' => some rParen
  | '[' => some lBracket
  | ']' => some rBracket
  | '{' => some lBrace
  | '}' => some rBrace
  | ';' => some semicolon
  | ':' => some colon
  | ',' => some comma
  | _ => none

/-- The longest punctuation at the head of a text. -/
def scan? : List Char → Option Punctuation
  | a :: b :: _ => (ofPair? a b).or (ofChar? a)
  | [a] => ofChar? a
  | [] => none

end Punctuation

inductive Token
  | keyword (k : Keyword)
  | punctuation (s : Punctuation)
  | int (n : UInt64)
  | float (x : Float)
  | imaginary (x : Float)
  | duration (x : Float) (unit : TimeUnit)
  | string (text : String)
  | pragma (text : String)
  | name (n : String)

/-- How a message shows the token. -/
def Token.text : Token → String
  | keyword k => k.text
  | punctuation s => s.text
  | int n => toString n.toNat
  | float x => Decimal.plain x
  | imaginary x => Decimal.plain x ++ "im"
  | duration x u => Decimal.plain x ++ u.text
  | string t => "\"" ++ t ++ "\""
  | pragma t => "#pragma " ++ t
  | name n => n

/-- A stretch of the source between blanks and comments; it holds a token unless it is invalid. -/
structure Lexeme where
  token : Option Token
  chars : List Char
  start : Nat
  stop : Nat

/-- A token and the bytes that it covers. -/
structure PlacedToken where
  token : Token
  start : Nat
  stop : Nat

end OpenQasm
