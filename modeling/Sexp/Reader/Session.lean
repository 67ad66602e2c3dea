import Sexp.Lexer.Session
import Sexp.Reader

/-!
# Runs of a reader

The calls of a reader and of the lexer under it, and their answers, as data. `run` performs a list of
calls one after the other; an error ends none of it.
-/

namespace Sexp.Reader

inductive Command
  | read
  | read?
  | readAll
  | yield
  | yieldAll
  | checkEnd
  | limit
  /-- Hands the lexer to a new reader with this limit. -/
  | renew (limit : Nat)
  /-- A call of the lexer itself. -/
  | lexer (command : Lexer.Command)

inductive Answer
  | datum (answer : Except Error Datum)
  | optional (answer : Except Error (Option Datum))
  | data (answer : Except Error (List Datum))
  | yielded (answer : Option (Except Error Datum))
  | allYielded (answers : List (Except Error Datum))
  | checked (answer : Except Error Unit)
  | limit (limit : Nat)
  | renewed
  | lexer (answer : Lexer.Answer)

def perform (reader : Reader) : Command → Answer × Reader
  | .read => let (answer, reader) := reader.read; (.datum answer, reader)
  | .read? => let (answer, reader) := reader.read?; (.optional answer, reader)
  | .readAll => let (answer, reader) := reader.readAll; (.data answer, reader)
  | .yield => let (answer, reader) := reader.yield; (.yielded answer, reader)
  | .yieldAll => let (answers, reader) := reader.yieldAll; (.allYielded answers, reader)
  | .checkEnd => let (answer, reader) := reader.checkEnd; (.checked answer, reader)
  | .limit => (.limit reader.limit, reader)
  | .renew limit => (.renewed, ofLexer reader.lexer limit)
  | .lexer command =>
    let (answer, lexer) := reader.lexer.perform command
    (.lexer answer, { reader with lexer })

/-- Performs the calls in order. -/
def run (reader : Reader) : List Command → List Answer × Reader
  | [] => ([], reader)
  | command :: commands =>
    let (answer, reader) := reader.perform command
    let (answers, reader) := reader.run commands
    (answer :: answers, reader)

end Sexp.Reader
