import Sexp.Datum.Basic
import Sexp.Token.Alphabet

/-!
# Shapes of data

How deep a datum nests in its text, and which data the reader can take back from their text.
-/

namespace Sexp.Datum

/-! ## Depth -/

mutual

/-- How many parentheses are open at once in the text of the datum. -/
def nest : Datum → Nat
  | nil => 1
  | cons car cdr => max (nest car) (nestRest cdr) + 1
  | _ => 0

/-- The same for what follows an item in a list, inside of that list. -/
def nestRest : Datum → Nat
  | cons car cdr => max (nest car) (nestRest cdr)
  | _ => 0

end

/-! ## Readable data -/

/-- The property holds of the datum and of all of its parts. -/
def Everywhere (property : Datum → Prop) : Datum → Prop
  | cons car cdr => property (cons car cdr) ∧ car.Everywhere property ∧ cdr.Everywhere property
  | datum => property datum

/-- The name reads as one word that stands for an atom. -/
def IsName (name : String) : Prop :=
  name ≠ "" ∧ (∀ c ∈ name.toList, Token.isConstituent c) ∧ isNilWord name = false

/-- The datum is no atom that would read as something else. -/
def Named : Datum → Prop
  | atom name => IsName name
  | _ => True

/-- The datum is no pair that starts with a dot. -/
def Undotted : Datum → Prop
  | cons (atom name) _ => name ≠ "."
  | _ => True

/-- The text of the datum reads as that datum, if its depth is allowed. -/
def Readable (datum : Datum) : Prop := datum.Everywhere Named ∧ datum.Everywhere Undotted

/-! ## Dots behind quote marks -/

/-- The names that quote marks stand for. -/
def isQuoteName (name : String) : Bool := name = "QUOTE" || name = "QUASIQUOTE" || name = "UNQUOTE"

/-- A dot is the first of a pair only where the pair is the operand of a quote mark: `operand` tells that the
datum follows the name of one. -/
def DotsQuoted (operand : Bool) : Datum → Prop
  | cons car cdr =>
    (car = atom "." → operand ∧ cdr = nil) ∧ car.DotsQuoted false ∧
      cdr.DotsQuoted (match car with | atom name => isQuoteName name | _ => false)
  | _ => True

/-- The names read as words, and a dot is the first of a pair only behind a quote mark. A reader that took no tail
without items before it would read just these data. -/
def Denotable (datum : Datum) : Prop := datum.Everywhere Named ∧ datum.DotsQuoted false

end Sexp.Datum
