import Sexp.Token
import Sexp.Token.Alphabet

/-!
# Tokens in one pass

The lexical rules said once more, for a text that is all there: an automaton takes one character after the
other, keeps what that character has begun or continued, and knows nothing of lines except that they
count for positions.
-/

namespace Sexp.Token.OnePass

/-- What the characters so far have begun and not ended. Letters and contents are newest first. -/
inductive Begun
  | nothing
  | comment
  | word (start : Position) (letters : List Char)
  | string (start : Position) (content : List Char)
  /-- A string literal after a backslash. -/
  | escape (start : Position) (content : List Char)
  /-- A string literal in an octal escape that may have so many further digits. -/
  | octal (start : Position) (content : List Char) (digits code : Nat)

structure State where
  begun : Begun
  /-- The place of the next character. -/
  place : Position
  /-- The tokens that have ended, newest first. -/
  tokens : List Token

def start : State := ⟨.nothing, ⟨1, 1⟩, []⟩

def wordOf (start : Position) (letters : List Char) : Token :=
  ⟨.word, String.ofList letters.reverse, start⟩

def stringOf (start : Position) (content : List Char) : Token :=
  ⟨.string, String.ofList content.reverse, start⟩

/-- The place after a character. -/
def next (place : Position) (c : Char) : Position :=
  if c = '\n' then ⟨place.line + 1, 1⟩ else ⟨place.line, place.column + 1⟩

/-- A character between tokens. -/
def between (place : Position) (tokens : List Token) : Char → Begun × List Token
  | '(' => (.nothing, mark .openParen place :: tokens)
  | ')' => (.nothing, mark .closeParen place :: tokens)
  | '\'' => (.nothing, mark .quote place :: tokens)
  | '`' => (.nothing, mark .quasiquote place :: tokens)
  | ',' => (.nothing, mark .unquote place :: tokens)
  | ';' => (.comment, tokens)
  | '"' => (.string place [], tokens)
  | c => if isBlank c then (.nothing, tokens) else (.word place [c], tokens)

/-- A character in a string literal, outside of escapes. -/
def within (start : Position) (content : List Char) (tokens : List Token) (c : Char) :
    Begun × List Token :=
  if c = '"' ∨ isLineEnd c then (.nothing, stringOf start content :: tokens)
  else if c = '\\' then (.escape start content, tokens)
  else (.string start (c :: content), tokens)

/-- What a character makes of what has begun. -/
def take (place : Position) (tokens : List Token) (c : Char) : Begun → Begun × List Token
  | .nothing => between place tokens c
  | .comment => (if c = '\n' then .nothing else .comment, tokens)
  | .word start letters =>
    if isConstituent c then (.word start (c :: letters), tokens)
    else between place (wordOf start letters :: tokens) c
  | .string start content => within start content tokens c
  | .escape start content =>
    match octalDigit? c with
    | some digit => (.octal start content (octalDigitsAfter digit) digit, tokens)
    | none => (.string start (meaning c :: content), tokens)
  | .octal start content 0 code => within start (Char.ofNat code :: content) tokens c
  | .octal start content (digits + 1) code =>
    match octalDigit? c with
    | some digit => (.octal start content digits (code * 8 + digit), tokens)
    | none => within start (Char.ofNat code :: content) tokens c

def step (state : State) (c : Char) : State :=
  let (begun, tokens) := take state.place state.tokens c state.begun
  ⟨begun, next state.place c, tokens⟩

def run (state : State) (text : List Char) : State := text.foldl step state

/-- The end of the text ends whatever has begun. A backslash at the very end stands for nothing. -/
def State.finish (state : State) : List Token :=
  match state.begun with
  | .nothing => state.tokens.reverse
  | .comment => state.tokens.reverse
  | .word start letters => (wordOf start letters :: state.tokens).reverse
  | .string start content => (stringOf start content :: state.tokens).reverse
  | .escape start content => (stringOf start content :: state.tokens).reverse
  | .octal start content _ code => (stringOf start (Char.ofNat code :: content) :: state.tokens).reverse

/-- The tokens of a text. -/
def tokens (text : List Char) : List Token := (run start text).finish

/-- The text ends within a string literal. -/
def endsInString (text : List Char) : Bool :=
  match (run start text).begun with
  | .string .. | .escape .. | .octal .. => true
  | _ => false

end Sexp.Token.OnePass
