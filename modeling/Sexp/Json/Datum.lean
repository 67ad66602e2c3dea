import Sexp.Datum.Basic
import Sexp.Json.Value

/-!
# Data as JSON

A chain is written once, as its items and its tail; the tail is left out where it is the empty list.
Decoding takes more than encoding writes: no items at all, any datum as the tail, `null` for no tail, and
fields that mean nothing.
-/

namespace Sexp.Datum

/-! ## Encoding -/

/-- The field that holds the tail of a chain, where there is one to write. -/
def tailField : Datum → List (String × Json)
  | nil => []
  | atom name => [("tail", .object [("Atom", .string name)])]
  | string value => [("tail", .object [("StringAtom", .string value)])]
  | cons _ cdr => cdr.tailField

mutual

def toJson : Datum → Json
  | nil => .string "Nil"
  | atom name => .object [("Atom", .string name)]
  | string value => .object [("StringAtom", .string value)]
  | cons car cdr =>
    .object [("List", .object (("items", .array (toJson car :: itemsToJson cdr)) :: tailField cdr))]

/-- The items of a chain. -/
def itemsToJson : Datum → List Json
  | cons car cdr => toJson car :: itemsToJson cdr
  | _ => []

end

/-! ## Decoding -/

mutual

def ofJson? : Json → Option Datum
  | .string "Nil" => some nil
  | .object [("Nil", .null)] => some nil
  | .object [("Atom", .string name)] => some (atom name)
  | .object [("StringAtom", .string value)] => some (string value)
  | .object [("List", .object fields)] =>
    match itemsOfFields? fields, tailOfFields? fields with
    | some items, some tail => some (chain items tail)
    | _, _ => none
  | _ => none

def allOfJson? : List Json → Option (List Datum)
  | [] => some []
  | value :: values =>
    match ofJson? value, allOfJson? values with
    | some datum, some data => some (datum :: data)
    | _, _ => none

/-- The items of a list, which must be there. -/
def itemsOfFields? : List (String × Json) → Option (List Datum)
  | [] => none
  | ("items", .array values) :: _ => allOfJson? values
  | (name, _) :: fields => if name = "items" then none else itemsOfFields? fields

/-- The tail of a list, the empty list where it is missing. -/
def tailOfFields? : List (String × Json) → Option Datum
  | [] => some nil
  | ("tail", .null) :: _ => some nil
  | (name, value) :: fields => if name = "tail" then ofJson? value else tailOfFields? fields

end

/-! ## Decoding takes what encoding writes -/

theorem tailOfFields?_tailField (datum : Datum) :
    tailOfFields? datum.tailField = some datum.tail := by
  induction datum with
  | nil => rfl
  | atom name => simp [tailField, tailOfFields?, ofJson?, tail]
  | string value => simp [tailField, tailOfFields?, ofJson?, tail]
  | cons car cdr _ ih => exact ih

theorem ofJson?_toJson_and (datum : Datum) :
    ofJson? datum.toJson = some datum ∧ allOfJson? datum.itemsToJson = some datum.items := by
  induction datum with
  | nil => simp [toJson, ofJson?, itemsToJson, allOfJson?, items]
  | atom name => simp [toJson, ofJson?, itemsToJson, allOfJson?, items]
  | string value => simp [toJson, ofJson?, itemsToJson, allOfJson?, items]
  | cons car cdr ihcar ihcdr =>
    have all : allOfJson? (car.toJson :: cdr.itemsToJson) = some (car :: cdr.items) := by
      rw [allOfJson?, ihcar.1, ihcdr.2]
    refine ⟨?_, by rw [itemsToJson, items, all]⟩
    simp [toJson, ofJson?, itemsOfFields?, all, tailOfFields?, tailOfFields?_tailField]

/-- Decoding takes back what encoding writes. -/
theorem ofJson?_toJson (datum : Datum) : ofJson? datum.toJson = some datum :=
  (ofJson?_toJson_and datum).1

end Sexp.Datum
