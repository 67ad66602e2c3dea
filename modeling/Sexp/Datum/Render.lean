import Sexp.Datum.Basic
import Sexp.Text.Quoted

/-!
# Writing data

The text of a datum, in the form that the reader takes. Atoms are written as they are, whether or not the
reader would take them back.
-/

namespace Sexp.Datum

mutual

/-- The text of a datum. -/
def render : Datum → List Char
  | nil => ['(', ')']
  | atom name => name.toList
  | string value => Quoted.literal value
  | cons car cdr => '(' :: (render car ++ renderRest cdr)

/-- The text of what follows an item in a list, the closing parenthesis included. -/
def renderRest : Datum → List Char
  | nil => [')']
  | atom name => [' ', '.', ' '] ++ name.toList ++ [')']
  | string value => [' ', '.', ' '] ++ Quoted.literal value ++ [')']
  | cons car cdr => ' ' :: (render car ++ renderRest cdr)

end

def text (datum : Datum) : String := String.ofList datum.render

/-! ## Summaries -/

/-- A short account of a datum whose text may be long. -/
structure Summary where
  length? : Option Nat
  /-- The number of characters of the text. -/
  characters : Nat
  /-- The start of the text. -/
  first : String
  /-- The end of the text. -/
  last : String

/-- How many characters a summary shows of each end of the text. -/
def Summary.shown : Nat := 32

def summary (datum : Datum) : Summary :=
  let characters := datum.render
  { length? := datum.length?
    characters := characters.length
    first := String.ofList (characters.take Summary.shown)
    last := String.ofList (characters.drop (characters.length - Summary.shown)) }

end Sexp.Datum
