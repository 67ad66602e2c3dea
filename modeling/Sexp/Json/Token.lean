import Sexp.Json.Value
import Sexp.Token

/-!
# Tokens as JSON

A token is an object with its four fields, or, to the decoder, the array of them in order.
-/

namespace Sexp.Token

namespace Kind

def name : Kind → String
  | openParen => "OpenParen"
  | closeParen => "CloseParen"
  | quote => "Quote"
  | quasiquote => "Quasiquote"
  | unquote => "Unquote"
  | string => "StringLiteral"
  | word => "Word"
  | endOfInput => "EndOfInput"

def all : List Kind :=
  [openParen, closeParen, quote, quasiquote, unquote, string, word, endOfInput]

def ofName? (name : String) : Option Kind := all.find? (·.name = name)

def ofJson? (value : Json) : Option Kind := value.label?.bind ofName?

end Kind

def toJson (token : Token) : Json :=
  .object [
    ("column", .natural token.position.column),
    ("kind", .string token.kind.name),
    ("line", .natural token.position.line),
    ("text", .string token.text)]

def ofParts? (kind text line column : Json) : Option Token := do
  return ⟨← Kind.ofJson? kind, ← text.string?, ← line.count?, ← column.count?⟩

def ofJson? : Json → Option Token
  | .array [kind, text, line, column] => ofParts? kind text line column
  | .object fields => do
    ofParts? (← fields.lookup "kind") (← fields.lookup "text") (← fields.lookup "line")
      (← fields.lookup "column")
  | _ => none

end Sexp.Token
