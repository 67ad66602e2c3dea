import Sexp.Error
import Sexp.Text.Quoted
import Sexp.Text.Unprintable

/-!
# Tokens

A token is a mark, a string literal or a word, with its place in the text.
-/

namespace Sexp

namespace Token

inductive Kind
  | openParen
  | closeParen
  | quote
  | quasiquote
  | unquote
  | string
  | word
  | endOfInput
  deriving DecidableEq

/-- A mark shows as itself, the other kinds by name. -/
def Kind.describe : Kind → String
  | openParen => "("
  | closeParen => ")"
  | quote => "'"
  | quasiquote => "`"
  | unquote => ","
  | string => "string literal"
  | word => "word"
  | endOfInput => "end of input"

/-- The name that a quote mark stands for. -/
def Kind.quoteName? : Kind → Option String
  | quote => some "QUOTE"
  | quasiquote => some "QUASIQUOTE"
  | unquote => some "UNQUOTE"
  | _ => none

theorem Kind.quoteName?_eq_some_iff {kind : Kind} {name : String} :
    kind.quoteName? = some name ↔
      kind = .quote ∧ name = "QUOTE" ∨ kind = .quasiquote ∧ name = "QUASIQUOTE" ∨
        kind = .unquote ∧ name = "UNQUOTE" := by
  cases kind <;> simp [quoteName?, eq_comm]

end Token

structure Token where
  kind : Token.Kind
  /-- The letters of a word or the decoded content of a string literal, empty for a mark. -/
  text : String
  /-- Where the token starts. -/
  position : Position
  deriving DecidableEq

namespace Token

/-- A mark, which has no text. -/
def mark (kind : Kind) (position : Position) : Token := ⟨kind, "", position⟩

/-- The token is the word `.`, which separates the tail of a list. -/
def isDot (token : Token) : Bool := token.kind = .word && token.text = "."

theorem isDot_iff {token : Token} : token.isDot ↔ token.kind = .word ∧ token.text = "." := by
  rw [isDot, Bool.and_eq_true, decide_eq_true_eq, decide_eq_true_eq]

/-- How an error message shows the token. -/
def shown (token : Token) : String :=
  match token.kind with
  | .word => token.text
  | .string => String.ofList (Quoted.visible Unprintable.isUnprintable token.text)
  | kind => kind.describe

end Token

end Sexp
