/-!
# JSON values

A number is kept as natural where it is written with digits only, and as its literal otherwise: a sign, a
point or an exponent makes it unfit for a count. The fields of an object are unordered in JSON; here they
stand in the order of their names, each name once.
-/

namespace Sexp

inductive Json
  | null
  | boolean (value : Bool)
  | natural (value : Nat)
  | decimal (literal : String)
  | string (value : String)
  | array (items : List Json)
  | object (fields : List (String × Json))

namespace Json

/-- Puts a field in its place. An earlier field of that name is replaced. -/
def insertField (name : String) (value : Json) : List (String × Json) → List (String × Json)
  | [] => [(name, value)]
  | (other, known) :: fields =>
    if name < other then (name, value) :: (other, known) :: fields
    else if name = other then (name, value) :: fields
    else (other, known) :: insertField name value fields

/-- The object with these fields, whatever their order. Of two fields with one name the last counts. -/
def ofFields (fields : List (String × Json)) : Json :=
  .object (fields.foldl (fun known (name, value) => insertField name value known) [])

def string? : Json → Option String
  | string value => some value
  | _ => none

/-- A count has 64 bits. -/
def count? : Json → Option Nat
  | natural value => if value < UInt64.size then some value else none
  | _ => none

/-- The value as one of a few names without content: the name itself, or an object whose only field has
that name and holds nothing. -/
def label? : Json → Option String
  | string name => some name
  | object [(name, null)] => some name
  | _ => none

end Json

end Sexp
