import Sexp.Datum.Basic
import Sexp.Token

/-!
# Forms that are still open

Between two tokens a reader waits either for a datum or for the parenthesis that closes a dotted list, and
keeps the forms that are open around that place. `Awaiting.step` says what one more token makes of this.
The number of open forms is the depth, which never passes the limit.
-/

namespace Sexp

/-- A form that is open. -/
inductive Frame
  /-- A list with the items read so far, newest first. -/
  | items (items : List Datum)
  /-- The same after the dot. -/
  | tail (items : List Datum)
  /-- A quote mark that stands for this name. -/
  | operand (name : String)

/-- What a reader waits for, and the open forms around it, innermost first. -/
inductive Awaiting
  /-- A datum, or what else may stand in the innermost form. -/
  | datum (frames : List Frame)
  /-- The end of a list with these items, newest first, and this tail. -/
  | close (items : List Datum) (tail : Datum) (frames : List Frame)

/-- What a token makes of an open form. -/
inductive Step
  | more (state : Awaiting)
  | done (datum : Datum)
  | failed (error : Error)

namespace Awaiting

/-- Nothing is open yet. -/
def start : Awaiting := datum []

/-- The number of open forms. -/
def depth : Awaiting → Nat
  | datum frames => frames.length
  | close _ _ frames => frames.length + 1

/-- What is missing where the text ends in this state. -/
def context : Awaiting → String
  | datum [] => "expected an expression"
  | datum (.items _ :: _) => "expected `)` to close list"
  | datum (.tail _ :: _) => "expected an expression after `.`"
  | datum (.operand _ :: _) => "expected an expression after quote marker"
  | close .. => "expected `)` after dotted tail"

/-! ## Steps -/

/-- A complete datum goes to the innermost form. One behind a quote mark completes that form too. -/
def deliver (complete : Datum) : List Frame → Step
  | [] => .done complete
  | .items items :: frames => .more (datum (.items (complete :: items) :: frames))
  | .tail items :: frames => .more (close items complete frames)
  | .operand name :: frames => deliver (Datum.quoted name complete) frames

/-- Opens a form if the limit allows one more. -/
def enter (limit : Nat) (frame : Frame) (frames : List Frame) : Step :=
  if frames.length < limit then .more (datum (frame :: frames)) else .failed (.tooDeep limit)

/-- The complaint about a token in a place where something else belongs. -/
def misplaced (token : Token) (expected : String) : Error :=
  .unexpectedToken token.position expected token.shown

/-- A token at the start of a datum. -/
def begin (limit : Nat) (token : Token) (frames : List Frame) : Step :=
  match token.kind.quoteName?, token.kind with
  | some name, _ => enter limit (.operand name) frames
  | none, .openParen => enter limit (.items []) frames
  | none, .string => deliver (.string token.text) frames
  | none, .word => deliver (Datum.ofWord token.text) frames
  | none, .closeParen => .failed (misplaced token "an expression")
  | none, _ => .failed (.unexpectedEnd (context start))

/-- The dot is a mark only where a list expects its next item, and so is the closing parenthesis. -/
def step (limit : Nat) (token : Token) : Awaiting → Step
  | close items tail frames =>
    if token.kind = .closeParen then deliver (Datum.chain items.reverse tail) frames
    else .failed (.malformed token.position s!"expected `)` after dotted tail, got `{token.shown}`")
  | datum (.items items :: frames) =>
    if token.kind = .closeParen then deliver (Datum.list items.reverse) frames
    else if token.isDot then .more (datum (.tail items :: frames))
    else begin limit token (.items items :: frames)
  | datum frames => begin limit token frames

end Awaiting

end Sexp
