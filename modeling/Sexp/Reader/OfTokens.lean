import Sexp.Reader.Awaiting

/-!
# Reading from a list of tokens

What the reader does where all tokens are there and the text ends cleanly after them.
-/

namespace Sexp.Awaiting

/-- Completes one form. The answer comes with the tokens that are left. -/
def complete (limit : Nat) (state : Awaiting) : List Token → Except Error Datum × List Token
  | [] => (.error (.unexpectedEnd state.context), [])
  | token :: tokens =>
    match state.step limit token with
    | .more state => complete limit state tokens
    | .done whole => (.ok whole, tokens)
    | .failed error => (.error error, tokens)

/-- Completes the form that is open and reads all further data, after those read so far (newest first). -/
def completeAll (limit : Nat) (data : List Datum) (state : Awaiting) :
    List Token → Except Error (List Datum)
  | [] => if state.depth = 0 then .ok data.reverse else .error (.unexpectedEnd state.context)
  | token :: tokens =>
    match state.step limit token with
    | .more state => completeAll limit data state tokens
    | .done whole => completeAll limit (whole :: data) start tokens
    | .failed error => .error error

/-- Reads all data of a list of tokens. -/
def readTokens (limit : Nat) (tokens : List Token) : Except Error (List Datum) :=
  completeAll limit [] start tokens

end Sexp.Awaiting
