import Sexp.Datum.Basic
import Sexp.Text.Quoted
import Sexp.Text.Unprintable

/-!
# Inspecting data

Two texts that show how a datum is built, one on a single line and one over several lines. They name the
sort of each datum and quote every name, so they tell any two data apart. Which characters are
escaped inside the quotes is a parameter.
-/

namespace Sexp.Datum

/-- The labels of the three sorts of datum that are no pair. -/
def nilLabel : List Char := "Nil".toList

def atomLabel : List Char := "Atom".toList

def stringLabel : List Char := "StringAtom".toList

/-! ## On one line -/

def inspectLeaf (unprintable : Char → Bool) (label : List Char) (content : String) : List Char :=
  label ++ ['('] ++ Quoted.visible unprintable content ++ [')']

mutual

/-- The datum on one line. -/
def inspectWith (unprintable : Char → Bool) : Datum → List Char
  | nil => nilLabel
  | atom name => inspectLeaf unprintable atomLabel name
  | string value => inspectLeaf unprintable stringLabel value
  | cons car cdr => '[' :: (inspectWith unprintable car ++ inspectRest unprintable cdr)

/-- What follows an item of a chain, on one line. -/
def inspectRest (unprintable : Char → Bool) : Datum → List Char
  | nil => [']']
  | atom name => [',', ' ', '.', ' '] ++ inspectLeaf unprintable atomLabel name ++ [']']
  | string value => [',', ' ', '.', ' '] ++ inspectLeaf unprintable stringLabel value ++ [']']
  | cons car cdr => [',', ' '] ++ (inspectWith unprintable car ++ inspectRest unprintable cdr)

end

/-! ## Over several lines -/

/-- The start of a line at this level. -/
def indent (level : Nat) : List Char := List.replicate (4 * level) ' '

/-- A line of its own at this level, which ends with a comma. -/
def entry (level : Nat) (content : List Char) : List Char := indent level ++ content ++ [',', '\n']

def layoutLeaf (unprintable : Char → Bool) (level : Nat) (label : List Char) (content : String) :
    List Char :=
  label ++ ['(', '\n'] ++ entry (level + 1) (Quoted.visible unprintable content) ++ indent level ++ [')']

mutual

/-- The datum over several lines, the first of which has been indented to this level. -/
def layoutWith (unprintable : Char → Bool) (level : Nat) : Datum → List Char
  | nil => nilLabel
  | atom name => layoutLeaf unprintable level atomLabel name
  | string value => layoutLeaf unprintable level stringLabel value
  | cons car cdr =>
    ['[', '\n'] ++ (entry (level + 1) (layoutWith unprintable (level + 1) car) ++
      layoutRest unprintable level cdr)

/-- What follows an item of a chain, over several lines. -/
def layoutRest (unprintable : Char → Bool) (level : Nat) : Datum → List Char
  | nil => indent level ++ [']']
  | atom name =>
    entry (level + 1) (['.', ' '] ++ layoutLeaf unprintable (level + 1) atomLabel name) ++
      indent level ++ [']']
  | string value =>
    entry (level + 1) (['.', ' '] ++ layoutLeaf unprintable (level + 1) stringLabel value) ++
      indent level ++ [']']
  | cons car cdr =>
    entry (level + 1) (layoutWith unprintable (level + 1) car) ++ layoutRest unprintable level cdr

end

/-! ## With the usual escapes -/

def inspect (datum : Datum) : String :=
  String.ofList (datum.inspectWith Unprintable.isUnprintable)

def layout (datum : Datum) : String :=
  String.ofList (datum.layoutWith Unprintable.isUnprintable 0)

end Sexp.Datum
