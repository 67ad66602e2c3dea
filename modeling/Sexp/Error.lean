/-!
# Reading errors

Why reading stopped, and the text that says so. `ReadFailure` is a fault of the byte source; `Error`
adds the faults of the text itself.
-/

namespace Sexp

/-- A place in the text. Lines and columns count from 1, columns in characters. -/
structure Position where
  line : Nat
  column : Nat
  deriving DecidableEq

/-- Why a line could not be read. -/
inductive ReadFailure
  /-- The bytes of the line are not UTF-8. -/
  | invalidUtf8
  /-- The source gave up with this text. -/
  | reported (text : String)
  deriving DecidableEq

def ReadFailure.message : ReadFailure → String
  | invalidUtf8 => "stream did not contain valid UTF-8"
  | reported text => text

inductive Error
  /-- The line with this number could not be read. -/
  | unreadable (line : Nat) (failure : ReadFailure)
  /-- The text ended where more was needed. -/
  | unexpectedEnd (context : String)
  /-- A form is malformed at this place. -/
  | malformed (position : Position) (message : String)
  /-- A token stands where it cannot. -/
  | unexpectedToken (position : Position) (expected got : String)
  /-- More forms are open at once than the limit allows. -/
  | tooDeep (limit : Nat)
  deriving DecidableEq

namespace Error

/-- What an error is about, without its place and its words. -/
inductive Variant
  | unreadable
  | unexpectedEnd
  | malformed
  | unexpectedToken
  | tooDeep
  deriving DecidableEq

def variant : Error → Variant
  | unreadable .. => .unreadable
  | unexpectedEnd .. => .unexpectedEnd
  | malformed .. => .malformed
  | unexpectedToken .. => .unexpectedToken
  | tooDeep .. => .tooDeep

def message : Error → String
  | unreadable line failure => s!"Read error at line {line}: {failure.message}"
  | unexpectedEnd context => s!"Unexpected end of input: {context}"
  | malformed position message =>
    s!"Syntax error at line {position.line}, column {position.column}: {message}"
  | unexpectedToken position expected got =>
    s!"Unexpected token at line {position.line}, column {position.column}: expected {expected}, got {got}"
  | tooDeep limit => s!"Nesting depth limit exceeded (max: {limit})"

/-- The source is at fault, not the text. -/
def isUnreadable : Error → Bool
  | unreadable .. => true
  | _ => false

/-- The text was read but is not well formed. -/
def isSyntactic : Error → Bool
  | unreadable .. => false
  | _ => true

end Error

end Sexp
