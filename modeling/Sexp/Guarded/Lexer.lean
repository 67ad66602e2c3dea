import Sexp.Lexer.Session

/-!
# The guarded lexer

The lexer once more, now with a guard wherever it relies on something that it does not check: that the place in a line
is never behind its end, that a further line has a first character, that only octal digits are valued as such, that
their code fits into 8 bits, and that no loop comes round without progress. Where one of these does not hold, the call
ends in a `Fault`.
-/

namespace Sexp

/-- What no source and no text may bring about. -/
inductive Fault
  /-- The place in the line is behind its end. -/
  | behindLine
  /-- There is no character at a place where one is taken. -/
  | noCharacter
  /-- A character is valued as an octal digit and is none. -/
  | noDigit
  /-- An octal code does not fit into 8 bits. -/
  | codeOverflow
  /-- The number of open forms does not fit into 64 bits. -/
  | depthOverflow
  /-- A form is closed where none is open. -/
  | depthUnderflow
  /-- More forms are open than the limit allows. -/
  | depthOverLimit
  /-- A form still counts as open behind the datum that was read. -/
  | leftOpen
  /-- A loop comes round and nothing has been taken. -/
  | noProgress
  deriving DecidableEq

namespace Guarded

/-- The value, if it may be used. -/
def demand {α : Type} (fault : Fault) (safe : Prop) [Decidable safe] (value : α) : Except Fault α :=
  if safe then .ok value else .error fault

/-! ## Feeds -/

/-- The feed after any step, which must not have led behind the end of the line. -/
def within (feed : Feed) : Except Fault Feed := demand .behindLine (feed.cursor ≤ feed.text.size) feed

def pass (feed : Feed) : Except Fault Feed := within feed.pass

def passLine (feed : Feed) : Except Fault Feed := within feed.passLine

/-- The character at hand, which must be there. -/
def here (feed : Feed) : Except Fault (Option Char × Feed) :=
  match feed.text[feed.cursor]? with
  | some c => .ok (some c, feed)
  | none => .error .noCharacter

/-- The character at hand, from a further line if the old one is used up. A line that has been counted is not empty. -/
def peek (feed : Feed) : Except Fault (Option Char × Feed) :=
  if feed.cursor < feed.text.size then here feed
  else if feed.failure.isSome then .ok (none, feed)
  else do
    let next ← within feed.nextLine
    if feed.line < next.line then here next else return (none, next)

/-! ## Scanning -/

def isOctalDigit (c : Char) : Bool := '0' ≤ c && c ≤ '7'

/-- The value of an octal digit. -/
def octalValue (c : Char) : Except Fault Nat := demand .noDigit (isOctalDigit c) (c.toNat - '0'.toNat)

/-- A code, which must be a number of 8 bits. -/
def inByte (code : Nat) : Except Fault Nat := demand .codeOverflow (code < UInt8.size) code

/-- At most so many further digits of an octal code. -/
def takeOctal : Nat → Nat → Feed → Except Fault (Nat × Feed)
  | 0, code, feed => .ok (code, feed)
  | digits + 1, code, feed => do
    let (c?, feed) ← peek feed
    match c?.filter isOctalDigit with
    | some c =>
      let code ← inByte (code * 8 + (← octalValue c))
      takeOctal digits code (← pass feed)
    | none => return (code, feed)

/-- The character that is written after a backslash. -/
def takeEscape (feed : Feed) : Except Fault (Option Char × Feed) := do
  let (c?, feed) ← peek feed
  match c? with
  | some c =>
    let next ← pass feed
    if isOctalDigit c then
      let first ← octalValue c
      let (code, rest) ← takeOctal (Token.octalDigitsAfter first) first next
      return (some (Char.ofNat code), rest)
    else return (some (Token.meaning c), next)
  | none => return (none, feed)

/-- The rest of a word, after the letters read so far (newest first). -/
def takeWord (letters : List Char) (feed : Feed) : Except Fault (List Char × Feed) := do
  let (c?, filled) ← peek feed
  match c? with
  | some c =>
    if Token.isConstituent c then
      let next ← pass filled
      if _ : next.size < feed.size then takeWord (c :: letters) next else throw .noProgress
    else return (letters.reverse, filled)
  | none => return (letters.reverse, filled)
termination_by feed.size

/-- The rest of a string literal, after the content read so far (newest first). -/
def takeString (content : List Char) (feed : Feed) : Except Fault (List Char × Feed) := do
  let (c?, filled) ← peek feed
  match c? with
  | some c =>
    if c = '"' then return (content.reverse, ← pass filled)
    else if Token.isLineEnd c then return (content.reverse, filled)
    else if c = '\\' then
      let (escaped?, rest) ← takeEscape (← pass filled)
      match escaped? with
      | some escaped =>
        if _ : rest.size < feed.size then takeString (escaped :: content) rest else throw .noProgress
      | none => return (content.reverse, rest)
    else
      let next ← pass filled
      if _ : next.size < feed.size then takeString (c :: content) next else throw .noProgress
  | none => return (content.reverse, filled)
termination_by feed.size

/-- A token that starts at this character, which is neither blank nor a comment. -/
def scanFrom (c : Char) (feed : Feed) : Except Fault (Token × Feed) :=
  match Token.markKind? c with
  | some kind => do return (Token.mark kind feed.position, ← pass feed)
  | none =>
    if c = '"' then do
      let (content, rest) ← takeString [] (← pass feed)
      return (⟨.string, String.ofList content, feed.position⟩, rest)
    else do
      let (letters, rest) ← takeWord [] feed
      return (⟨.word, String.ofList letters, feed.position⟩, rest)

/-- The next token, past blanks and comments. -/
def scan (feed : Feed) : Except Fault (Option Token × Feed) := do
  let (c?, filled) ← peek feed
  match c? with
  | some c =>
    if Token.isBlank c then
      let next ← pass filled
      if _ : next.size < feed.size then scan next else throw .noProgress
    else if c = ';' then
      let next ← passLine filled
      if _ : next.size < feed.size then scan next else throw .noProgress
    else
      let (token, rest) ← scanFrom c filled
      return (some token, rest)
  | none => return (none, filled)
termination_by feed.size

/-! ## Lexers -/

/-- The next token, which stays where it is. -/
def look (lexer : Lexer) : Except Fault (Except Error (Option Token) × Lexer) :=
  match lexer.lookahead, lexer.feed.failure with
  | .token token, _ => .ok (.ok (some token), lexer)
  | .finish, _ => .ok (.ok none, lexer)
  | .nothing, some failure => .ok (.error failure, lexer)
  | .nothing, none => do
    let (token?, feed) ← scan lexer.feed
    match feed.failure, token? with
    | some failure, _ => return (.error failure, ⟨feed, .nothing⟩)
    | none, some token => return (.ok (some token), ⟨feed, .token token⟩)
    | none, none => return (.ok none, ⟨feed, .finish⟩)

/-- Hands out the next token. -/
def take (lexer : Lexer) : Except Fault (Except Error (Option Token) × Lexer) := do
  match ← look lexer with
  | (.ok (some token), lexer) => return (.ok (some token), { lexer with lookahead := .nothing })
  | other => return other

def look? (lexer : Lexer) : Except Fault (Option Token × Lexer) := do
  let (answer, lexer) ← look lexer
  return (answer.toOption.join, lexer)

def take? (lexer : Lexer) : Except Fault (Option Token × Lexer) := do
  let (answer, lexer) ← take lexer
  return (answer.toOption.join, lexer)

/-- Hands out all further tokens, after those handed out so far (newest first). -/
def takeRest (tokens : List Token) (lexer : Lexer) : Except Fault (List Token × Lexer) := do
  let (token?, rest) ← take? lexer
  match token? with
  | some token => if _ : rest.size < lexer.size then takeRest (token :: tokens) rest else throw .noProgress
  | none => return (tokens.reverse, rest)
termination_by lexer.size

open Lexer (Command Answer)

def performLexer (lexer : Lexer) : Command → Except Fault (Answer × Lexer)
  | .look => do let (answer, lexer) ← look lexer; return (.attempt answer, lexer)
  | .look? => do let (token?, lexer) ← look? lexer; return (.token token?, lexer)
  | .take => do let (answer, lexer) ← take lexer; return (.attempt answer, lexer)
  | .take? => do let (token?, lexer) ← take? lexer; return (.token token?, lexer)
  | .takeAll => do let (tokens, lexer) ← takeRest [] lexer; return (.tokens tokens, lexer)
  | .hasToken => do let (token?, lexer) ← look? lexer; return (.flag token?.isSome, lexer)
  | .lines => .ok (.count lexer.lines, lexer)
  | .failure => .ok (.failure lexer.failure, lexer)

end Guarded

end Sexp
