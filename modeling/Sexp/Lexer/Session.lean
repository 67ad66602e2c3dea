import Sexp.Lexer

/-!
# Runs of a lexer

The calls of a lexer and their answers as data, so that a whole run is a list.
-/

namespace Sexp.Lexer

inductive Command
  | look
  | look?
  | take
  | take?
  | takeAll
  | hasToken
  | lines
  | failure

inductive Answer
  | attempt (answer : Except Error (Option Token))
  | token (token? : Option Token)
  | tokens (tokens : List Token)
  | flag (value : Bool)
  | count (value : Nat)
  | failure (error? : Option Error)

def perform (lexer : Lexer) : Command → Answer × Lexer
  | .look => let (answer, lexer) := lexer.look; (.attempt answer, lexer)
  | .look? => let (token?, lexer) := lexer.look?; (.token token?, lexer)
  | .take => let (answer, lexer) := lexer.take; (.attempt answer, lexer)
  | .take? => let (token?, lexer) := lexer.take?; (.token token?, lexer)
  | .takeAll => let (tokens, lexer) := lexer.takeAll; (.tokens tokens, lexer)
  | .hasToken => let (answer, lexer) := lexer.hasToken; (.flag answer, lexer)
  | .lines => (.count lexer.lines, lexer)
  | .failure => (.failure lexer.failure, lexer)

end Sexp.Lexer
