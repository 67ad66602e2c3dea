import Sexp.Error
import Sexp.Text.Utf8

/-!
# Byte sources

A source hands out its bytes in deliveries, one for each time that it is polled, and is read a line at a
time. A line ends after its line break; where the source reports its end first, the line ends there, and
a later poll may still bring more.
-/

namespace Sexp

/-- What one poll of a source brings. -/
inductive Delivery
  /-- Some bytes. None at all is the report that the source is at its end. -/
  | bytes (content : List UInt8)
  /-- Nothing yet: the poll is made again. -/
  | interrupted
  | failure (text : String)
  deriving DecidableEq

def Delivery.size : Delivery → Nat
  | bytes content => content.length
  | _ => 0

structure Source where
  /-- Delivered bytes that no line has taken yet. -/
  unread : List UInt8
  /-- What the next polls bring. After the last of these every poll reports the end. -/
  pending : List Delivery
  /-- How often the source has been polled. -/
  polls : Nat
  deriving DecidableEq

namespace Source

/-- A source that holds all of a text from the start. -/
def ofText (text : String) : Source := ⟨Utf8.encode text.toList, [], 0⟩

def ofDeliveries (deliveries : List Delivery) : Source := ⟨[], deliveries, 0⟩

/-- The number of bytes that are still to be taken. -/
def size (source : Source) : Nat :=
  source.unread.length + (source.pending.map Delivery.size).foldr (· + ·) 0

/-! ## Lines -/

/-- The byte that ends a line, which is part of no longer character. -/
def lineBreak : UInt8 := 10

/-- Splits after the first line break, if there is one. -/
def cutLine? (bytes : List UInt8) : Option (List UInt8 × List UInt8) :=
  match bytes.dropWhile (· != lineBreak) with
  | [] => none
  | stop :: rest => some (bytes.takeWhile (· != lineBreak) ++ [stop], rest)

/-- Polls until the bytes collected so far have become a line. A failure loses them. -/
def collectLine (collected : List UInt8) (polls : Nat) :
    List Delivery → Except ReadFailure (List UInt8) × Source
  | [] => (.ok collected, ⟨[], [], polls + 1⟩)
  | .interrupted :: pending => collectLine collected (polls + 1) pending
  | .failure text :: pending => (.error (.reported text), ⟨[], pending, polls + 1⟩)
  | .bytes [] :: pending => (.ok collected, ⟨[], pending, polls + 1⟩)
  | .bytes content :: pending =>
    match cutLine? content with
    | some (line, rest) => (.ok (collected ++ line), ⟨rest, pending, polls + 1⟩)
    | none => collectLine (collected ++ content) (polls + 1) pending

/-- The bytes of the next line, polling only when the unread bytes do not hold all of it. No bytes mean
that there is no further line for now. -/
def takeLine (source : Source) : Except ReadFailure (List UInt8) × Source :=
  match cutLine? source.unread with
  | some (line, rest) => (.ok line, { source with unread := rest })
  | none => collectLine source.unread source.polls source.pending

/-- The characters of the next line. -/
def takeText (source : Source) : Except ReadFailure (List Char) × Source :=
  match source.takeLine with
  | (.ok bytes, rest) =>
    match Utf8.decode bytes with
    | some text => (.ok text, rest)
    | none => (.error .invalidUtf8, rest)
  | (.error failure, rest) => (.error failure, rest)

/-! ## Nothing is read twice -/

theorem cutLine?_eq_some {bytes line rest : List UInt8} (h : cutLine? bytes = some (line, rest)) :
    bytes = line ++ rest := by
  unfold cutLine? at h
  split at h
  · cases h
  · rename_i stop rest hdrop
    cases h
    rw [List.append_assoc, List.singleton_append, ← hdrop, List.takeWhile_append_dropWhile]

/-- How much a read brought. -/
def amount {α : Type} : Except ReadFailure (List α) → Nat
  | .ok content => content.length
  | .error _ => 0

theorem size_collectLine (collected : List UInt8) (polls : Nat) (pending : List Delivery) :
    amount (collectLine collected polls pending).1 + (collectLine collected polls pending).2.size ≤
      collected.length + (pending.map Delivery.size).foldr (· + ·) 0 := by
  fun_induction collectLine collected polls pending with
  | case1 => simp [amount, size]
  | case2 collected polls pending ih => simpa [Delivery.size] using ih
  | case3 => simp only [amount, size, List.length_nil, List.map_cons, List.foldr_cons]; omega
  | case4 => simp [amount, size, Delivery.size]
  | case5 collected polls content pending _ line rest hcut =>
    have := congrArg List.length (cutLine?_eq_some hcut)
    simp only [List.length_append] at this
    simp only [amount, size, Delivery.size, List.length_append, List.map_cons, List.foldr_cons]
    omega
  | case6 collected polls content pending _ hcut ih =>
    simp only [List.length_append] at ih
    simp only [List.map_cons, List.foldr_cons, Delivery.size]
    omega

theorem size_takeLine (source : Source) :
    amount source.takeLine.1 + source.takeLine.2.size ≤ source.size := by
  unfold takeLine
  cases hcut : cutLine? source.unread with
  | some cut =>
    have := congrArg List.length (cutLine?_eq_some hcut)
    simp only [List.length_append] at this
    simp only [amount, size]
    omega
  | none => exact size_collectLine ..

theorem size_takeText (source : Source) :
    amount source.takeText.1 + source.takeText.2.size ≤ source.size := by
  have := size_takeLine source
  unfold takeText
  generalize source.takeLine = taken at this ⊢
  obtain ⟨failure | bytes, rest⟩ := taken
  · exact this
  · simp only [amount] at this ⊢
    cases hdecode : Utf8.decode bytes with
    | none => simp only; omega
    | some text =>
      have := Utf8.length_le_of_decode hdecode
      simp only
      omega

end Source

end Sexp
