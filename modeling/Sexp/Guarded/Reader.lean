import Sexp.Guarded.Lexer
import Sexp.Reader.Descent
import Sexp.Reader.Session

/-!
# The guarded reader

The descent, and the calls of a reader that rest on it, over the guarded lexer. Here the count of open forms is a number
of 64 bits: a guard stands wherever a form is opened or closed, and behind each datum, whether it was read or not, where
no form may count as open any more.
-/

namespace Sexp

namespace Guarded

/-! ## One form -/

/-- The next token. The end of the text is an error. -/
def next (context : String) (lexer : Lexer) : Except Fault (Except Error Token × Lexer) := do
  match ← take lexer with
  | (.ok (some token), rest) => return (.ok token, rest)
  | (.ok none, rest) => return (.error (.unexpectedEnd context), rest)
  | (.error failure, rest) => return (.error failure, rest)

/-- One more form is open. -/
def enter (limit depth : Nat) : Except Fault Nat := do
  let depth ← demand .depthOverflow (depth + 1 < UInt64.size) (depth + 1)
  demand .depthOverLimit (depth ≤ limit) depth

/-- One form less is open, be it complete or not. -/
def leave (depth : Nat) : Except Fault Nat := demand .depthUnderflow (0 < depth) (depth - 1)

/-- The end of a list with these items, newest first, and this tail. -/
def closing (found : List Datum) (last : Datum) (before : Descent) : Except Fault (Except Error Datum × Descent) := do
  let (token?, lexer) ← next "expected `)` after dotted tail" before.lexer
  match token? with
  | .ok token =>
    if token.kind = .closeParen then return (.ok (Datum.chain found.reverse last), { before with lexer })
    else
      return (.error (.malformed token.position s!"expected `)` after dotted tail, got `{token.shown}`"),
        { before with lexer })
  | .error error => return (.error error, { before with lexer })

mutual

/-- The datum that starts with this token. -/
def datum (limit : Nat) (token : Token) (before : Descent) : Except Fault (Except Error Datum × Descent) :=
  match token.kind.quoteName?, token.kind with
  | some name, _ =>
    if before.depth < limit then do
      let (answer, after) ← operand limit name { before with depth := ← enter limit before.depth }
      return (answer, { after with depth := ← leave after.depth })
    else .ok (.error (.tooDeep limit), before)
  | none, .openParen =>
    if before.depth < limit then do
      let (answer, after) ← items limit [] { before with depth := ← enter limit before.depth }
      return (answer, { after with depth := ← leave after.depth })
    else .ok (.error (.tooDeep limit), before)
  | none, .string => .ok (.ok (.string token.text), before)
  | none, .word => .ok (.ok (Datum.ofWord token.text), before)
  | none, .closeParen => .ok (.error (Awaiting.misplaced token "an expression"), before)
  | none, _ => .ok (.error (.unexpectedEnd "expected an expression"), before)
termination_by (before.lexer.size, 1)

/-- What a quote mark that stands for this name is put before. -/
def operand (limit : Nat) (name : String) (before : Descent) : Except Fault (Except Error Datum × Descent) := do
  let (token?, lexer) ← next "expected an expression after quote marker" before.lexer
  match token? with
  | .ok token =>
    if _ : lexer.size < before.lexer.size then
      let (answer, after) ← datum limit token { before with lexer }
      return (answer.map (Datum.quoted name), after)
    else throw .noProgress
  | .error error => return (.error error, { before with lexer })
termination_by (before.lexer.size, 0)

/-- The rest of a list, after the items found so far (newest first). -/
def items (limit : Nat) (found : List Datum) (before : Descent) : Except Fault (Except Error Datum × Descent) := do
  let (token?, lexer) ← next "expected `)` to close list" before.lexer
  match token? with
  | .ok token =>
    if _ : lexer.size < before.lexer.size then
      if token.kind = .closeParen then return (.ok (Datum.list found.reverse), { before with lexer })
      else if token.isDot then tail limit found { before with lexer }
      else
        let (answer, after) ← datum limit token { before with lexer }
        match answer with
        | .ok item =>
          if _ : after.lexer.size < before.lexer.size then items limit (item :: found) after else throw .noProgress
        | .error error => return (.error error, after)
    else throw .noProgress
  | .error error => return (.error error, { before with lexer })
termination_by (before.lexer.size, 0)

/-- What follows the dot of a list with these items. -/
def tail (limit : Nat) (found : List Datum) (before : Descent) : Except Fault (Except Error Datum × Descent) := do
  let (token?, lexer) ← next "expected an expression after `.`" before.lexer
  match token? with
  | .ok token =>
    if _ : lexer.size < before.lexer.size then
      let (answer, after) ← datum limit token { before with lexer }
      match answer with
      | .ok last => closing found last after
      | .error error => return (.error error, after)
    else throw .noProgress
  | .error error => return (.error error, { before with lexer })
termination_by (before.lexer.size, 0)

end

/-- The datum that starts with the next token. -/
def form (limit : Nat) (before : Descent) : Except Fault (Except Error Datum × Descent) := do
  let (token?, lexer) ← next "expected an expression" before.lexer
  match token? with
  | .ok token => datum limit token { before with lexer }
  | .error error => return (.error error, { before with lexer })

/-! ## Readers -/

/-- Reads one datum. The end of the text is an error. No form is open before, since none was left open. -/
def read (reader : Reader) : Except Fault (Except Error Datum × Reader) := do
  let (answer, after) ← form reader.limit ⟨reader.lexer, 0⟩
  demand .leftOpen (after.depth = 0) (answer, { reader with lexer := after.lexer })

/-- Reads one datum, or finds that the text is at its end. -/
def read? (reader : Reader) : Except Fault (Except Error (Option Datum) × Reader) := do
  match ← look reader.lexer with
  | (.ok (some _), lexer) =>
    let (answer, reader) ← read { reader with lexer }
    return (answer.map some, reader)
  | (.ok none, lexer) => return (.ok none, { reader with lexer })
  | (.error failure, lexer) => return (.error failure, { reader with lexer })

/-- Reads one datum after the other: `none` at the end of the text and ever after an error. -/
def yield (reader : Reader) : Except Fault (Option (Except Error Datum) × Reader) :=
  if reader.stopped then .ok (none, reader)
  else do
    match ← read? reader with
    | (.ok (some datum), rest) => return (some (.ok datum), rest)
    | (.ok none, rest) => return (none, rest)
    | (.error error, rest) => return (some (.error error), { rest with stopped := true })

/-- Only the end of the text may follow. -/
def checkEnd (reader : Reader) : Except Fault (Except Error Unit × Reader) := do
  match ← look reader.lexer with
  | (.ok none, lexer) => return (.ok (), { reader with lexer })
  | (.ok (some token), lexer) => return (.error (Awaiting.misplaced token "end of input"), { reader with lexer })
  | (.error failure, lexer) => return (.error failure, { reader with lexer })

/-- Reads all further data after those read so far (newest first). -/
def readRest (data : List Datum) (reader : Reader) : Except Fault (Except Error (List Datum) × Reader) := do
  let (answer, rest) ← read? reader
  match answer with
  | .ok (some datum) => if _ : rest.size < reader.size then readRest (datum :: data) rest else throw .noProgress
  | .ok none => return (.ok data.reverse, rest)
  | .error error => return (.error error, rest)
termination_by reader.size

/-- All that `yield` still yields, after what it has yielded so far (newest first). -/
def drain (answers : List (Except Error Datum)) (reader : Reader) :
    Except Fault (List (Except Error Datum) × Reader) := do
  let (answer?, rest) ← yield reader
  match answer? with
  | some (.ok datum) =>
    if _ : rest.size < reader.size then drain (.ok datum :: answers) rest else throw .noProgress
  | some (.error error) => return ((.error error :: answers).reverse, rest)
  | none => return (answers.reverse, rest)
termination_by reader.size

/-! ## Runs -/

open Reader (Command Answer)

def perform (reader : Reader) : Command → Except Fault (Answer × Reader)
  | .read => do let (answer, reader) ← read reader; return (.datum answer, reader)
  | .read? => do let (answer, reader) ← read? reader; return (.optional answer, reader)
  | .readAll => do let (answer, reader) ← readRest [] reader; return (.data answer, reader)
  | .yield => do let (answer, reader) ← yield reader; return (.yielded answer, reader)
  | .yieldAll => do let (answers, reader) ← drain [] reader; return (.allYielded answers, reader)
  | .checkEnd => do let (answer, reader) ← checkEnd reader; return (.checked answer, reader)
  | .limit => .ok (.limit reader.limit, reader)
  | .renew limit => .ok (.renewed, Reader.ofLexer reader.lexer limit)
  | .lexer command => do
    let (answer, lexer) ← performLexer reader.lexer command
    return (.lexer answer, { reader with lexer })

/-- Performs the calls in order, up to a fault. -/
def run (reader : Reader) : List Command → Except Fault (List Answer × Reader)
  | [] => .ok ([], reader)
  | command :: commands => do
    let (answer, reader) ← perform reader command
    let (answers, reader) ← run reader commands
    return (answer :: answers, reader)

end Guarded

end Sexp
