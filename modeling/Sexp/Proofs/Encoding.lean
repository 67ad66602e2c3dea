import Mathlib.Logic.ExistsUnique
import Sexp.Json.Canonical
import Sexp.Json.Datum

/-!
# The canonical encoding

What encoding writes is canonical, and a canonical value is what encoding makes of the datum that it stands for. So a
value that stands for a datum is canonical exactly if encoding gives it back, and every datum has one canonical value
(`Datum.toJson_eq_iff_canonical`). Both halves look at a chain as a whole: its items are encoded one by one
(`Datum.itemsToJson_eq`), and its tail, which is never a pair, is left out or is a leaf.
-/

namespace Sexp

open Json (Canonical Leaf)

namespace Datum

variable {datum : Datum} {value : Json} {values : List Json} {data : List Datum}

/-! ## Chains -/

theorem itemsToJson_eq (datum : Datum) : datum.itemsToJson = datum.items.map toJson := by
  induction datum with
  | cons car cdr _ ih => rw [itemsToJson, items, List.map_cons, ih]
  | _ => rfl

theorem tailField_tail (datum : Datum) : datum.tail.tailField = datum.tailField := by
  induction datum with
  | cons car cdr _ ih => exact ih
  | _ => rfl

theorem toJson_chain (first : Datum) (others : List Datum) {tail : Datum} (htail : tail.isCons = false) :
    (chain (first :: others) tail).toJson =
      .object [("List", .object (("items", .array ((first :: others).map toJson)) :: tail.tailField))] := by
  have hitems : (chain others tail).itemsToJson = others.map toJson := by
    rw [itemsToJson_eq, items_chain, items_eq_nil htail, List.append_nil]
  have hfield : (chain others tail).tailField = tail.tailField := by
    rw [← tailField_tail, tail_chain, tailField_tail]
  rw [chain_cons, toJson, hitems, hfield, List.map_cons]

/-! ## Encoding is canonical -/

theorem tailField_cases (datum : Datum) :
    datum.tailField = [] ∨ ∃ tail, Leaf tail ∧ datum.tailField = [("tail", tail)] := by
  induction datum with
  | nil => exact .inl rfl
  | atom name => exact .inr ⟨_, .atom name, rfl⟩
  | string value => exact .inr ⟨_, .string value, rfl⟩
  | cons car cdr _ ih => exact ih

theorem canonical_toJson_and (datum : Datum) :
    Canonical datum.toJson ∧ ∀ value ∈ datum.itemsToJson, Canonical value := by
  induction datum with
  | nil => exact ⟨.nil, List.forall_mem_nil _⟩
  | atom name => exact ⟨.leaf (.atom name), List.forall_mem_nil _⟩
  | string value => exact ⟨.leaf (.string value), List.forall_mem_nil _⟩
  | cons car cdr ihcar ihcdr =>
    have hitems : ∀ value ∈ car.toJson :: cdr.itemsToJson, Canonical value :=
      List.forall_mem_cons.2 ⟨ihcar.1, ihcdr.2⟩
    refine ⟨?_, hitems⟩
    rw [toJson]
    rcases tailField_cases cdr with hnone | ⟨tail, htail, hfield⟩
    · rw [hnone]
      exact .list hitems
    · rw [hfield]
      exact .dotted hitems htail

theorem canonical_toJson (datum : Datum) : Canonical datum.toJson := (canonical_toJson_and datum).1

/-! ## Canonical values are encodings -/

theorem ofJson?_of_leaf (h : Leaf value) :
    ∃ datum, ofJson? value = some datum ∧ datum.toJson = value ∧ datum.isCons = false ∧
      datum.tailField = [("tail", value)] := by
  cases h with
  | atom name => exact ⟨atom name, by rw [ofJson?], rfl, rfl, rfl⟩
  | string text => exact ⟨string text, by rw [ofJson?], rfl, rfl, rfl⟩

theorem map_toJson_of_allOfJson?
    (hvalues : ∀ value ∈ values, ∀ datum, ofJson? value = some datum → datum.toJson = value)
    (h : allOfJson? values = some data) : data.map toJson = values := by
  induction values generalizing data with
  | nil =>
    rw [allOfJson?] at h
    cases h
    rfl
  | cons value values ih =>
    rw [List.forall_mem_cons] at hvalues
    rw [allOfJson?] at h
    split at h
    · rename_i datum others hdatum hothers
      cases h
      rw [List.map_cons, hvalues.1 datum hdatum, ih hvalues.2 hothers]
    · cases h

theorem toJson_of_list {item : Json} {items : List Json} {tail : Datum} (htail : tail.isCons = false)
    (hitems : ∀ value ∈ item :: items, ∀ datum, ofJson? value = some datum → datum.toJson = value)
    (h : ofJson? (.object [("List", .object (("items", .array (item :: items)) :: tail.tailField))]) = some datum) :
    datum.toJson = .object [("List", .object (("items", .array (item :: items)) :: tail.tailField))] := by
  have hfield : tailOfFields? (("items", .array (item :: items)) :: tail.tailField) = some tail := by
    rw [← tail_eq_self htail, tailField_tail, ← tailOfFields?_tailField]
    simp [tailOfFields?]
  rw [ofJson?, itemsOfFields?, hfield] at h
  cases hall : allOfJson? (item :: items) with
  | none =>
    rw [hall] at h
    cases h
  | some data =>
    rw [hall] at h
    cases h
    have hdata := map_toJson_of_allOfJson? hitems hall
    cases data with
    | nil => cases hdata
    | cons first others => rw [toJson_chain first others htail, hdata]

theorem toJson_of_canonical (hcanonical : Canonical value) (h : ofJson? value = some datum) :
    datum.toJson = value := by
  induction hcanonical generalizing datum with
  | nil =>
    rw [ofJson?] at h
    cases h
    rfl
  | leaf hleaf =>
    obtain ⟨found, hfound, hsame, _⟩ := ofJson?_of_leaf hleaf
    rw [h] at hfound
    cases hfound
    exact hsame
  | list _ ih =>
    have hnil : nil.isCons = false := rfl
    exact toJson_of_list hnil (fun value hvalue found => ih value hvalue) h
  | dotted _ hleaf ih =>
    obtain ⟨tail, _, _, htail, hfield⟩ := ofJson?_of_leaf hleaf
    rw [← hfield] at h ⊢
    exact toJson_of_list htail (fun value hvalue found => ih value hvalue) h

/-! ## The canonical value -/

/-- The value that encoding makes of what a value stands for. -/
def normalize? (value : Json) : Option Json := (ofJson? value).map toJson

/-- Decoding takes back what encoding writes, and what it writes is canonical. A value that stands for a datum is
canonical exactly if encoding gives it back. So every datum has one canonical value, and normalizing once is enough. -/
theorem toJson_eq_iff_canonical :
    (∀ datum : Datum, ofJson? datum.toJson = some datum ∧ Canonical datum.toJson) ∧
      (∀ value datum, ofJson? value = some datum → (datum.toJson = value ↔ Canonical value)) ∧
      (∀ datum, ∃! value, Canonical value ∧ ofJson? value = some datum) ∧
      ∀ value, (normalize? value).bind normalize? = normalize? value := by
  refine ⟨fun datum => ⟨ofJson?_toJson datum, canonical_toJson datum⟩, ?_, ?_, ?_⟩
  · intro value datum h
    constructor
    · intro hsame
      rw [← hsame]
      exact canonical_toJson datum
    · intro hcanonical
      exact toJson_of_canonical hcanonical h
  · intro datum
    refine ⟨datum.toJson, ⟨canonical_toJson datum, ofJson?_toJson datum⟩, ?_⟩
    rintro value ⟨hcanonical, h⟩
    exact (toJson_of_canonical hcanonical h).symm
  · intro value
    cases h : ofJson? value with
    | none => simp [normalize?, h]
    | some datum => simp [normalize?, h, ofJson?_toJson]

/-- A list without items whose tail is a list stands for a datum with another encoding. -/
theorem toJson_eq_iff_canonical_of_spliced_list :
    let inner : Json := .object [("List", .object [("items", .array [.object [("Nil", .null)]]),
      ("tail", .object [("Atom", .string "a")])])]
    let value : Json := .object [("List", .object [("extra", .null), ("items", .array []), ("tail", inner)])]
    ofJson? value = some (cons nil (atom "a")) ∧ ((cons nil (atom "a")).toJson = value ↔ Canonical value) ∧
      ¬Canonical value := by
  intro inner value
  have h : ofJson? value = some (cons nil (atom "a")) := by
    simp [value, inner, ofJson?, itemsOfFields?, tailOfFields?, allOfJson?]
  have hiff := toJson_eq_iff_canonical.2.1 value _ h
  refine ⟨h, hiff, fun hcanonical => ?_⟩
  have hsame := hiff.2 hcanonical
  simp [value, toJson, itemsToJson, tailField] at hsame

end Datum

end Sexp
