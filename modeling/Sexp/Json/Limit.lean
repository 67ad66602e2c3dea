import Sexp.Json.Value
import Sexp.Reader

/-!
# The reader's settings as JSON

The only setting is the limit on open forms. It is the field `max_depth` of an object, or the only item of
an array, and has its default where it is missing.
-/

namespace Sexp.Reader

def limitToJson (limit : Nat) : Json := .object [("max_depth", .natural limit)]

def limitOfJson? : Json → Option Nat
  | .array [] => some defaultLimit
  | .array [limit] => limit.count?
  | .object fields =>
    match fields.lookup "max_depth" with
    | some limit => limit.count?
    | none => some defaultLimit
  | _ => none

end Sexp.Reader
