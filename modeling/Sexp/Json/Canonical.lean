import Sexp.Json.Value

/-!
# The canonical form of data in JSON

The form in which encoding writes data, as a grammar of JSON values: a list has at least one item, and its
tail is written only where it is an atom or a string.
-/

namespace Sexp.Json

/-- A datum that is no list. -/
inductive Leaf : Json → Prop
  | atom (name : String) : Leaf (.object [("Atom", .string name)])
  | string (value : String) : Leaf (.object [("StringAtom", .string value)])

inductive Canonical : Json → Prop
  | nil : Canonical (.string "Nil")
  | leaf {value : Json} : Leaf value → Canonical value
  | list {item : Json} {items : List Json} : (∀ value ∈ item :: items, Canonical value) →
    Canonical (.object [("List", .object [("items", .array (item :: items))])])
  | dotted {item tail : Json} {items : List Json} :
    (∀ value ∈ item :: items, Canonical value) → Leaf tail →
    Canonical (.object [("List", .object [("items", .array (item :: items)), ("tail", tail)])])

end Sexp.Json
