import Sexp.Lexer
import Sexp.Reader.Awaiting

/-!
# The reader

Reads data off a lexer, one form at a time. It takes no token beyond the last one of a form, and an error
leaves the lexer behind the token at fault, so that reading can go on from there.
-/

namespace Sexp

structure Reader where
  lexer : Lexer
  /-- How many forms may be open at once. -/
  limit : Nat
  /-- `yield` has met an error and yields nothing any more. -/
  stopped : Bool

namespace Reader

def defaultLimit : Nat := 256

/-- The limit for texts that are trusted: the largest number of 64 bits. -/
def noLimit : Nat := UInt64.size - 1

def ofLexer (lexer : Lexer) (limit : Nat) : Reader := ⟨lexer, limit, false⟩

def ofText (text : String) : Reader := ofLexer (Lexer.ofText text) defaultLimit

/-! ## One form -/

/-- Takes tokens until the form is complete. -/
def complete (limit : Nat) (state : Awaiting) (lexer : Lexer) : Except Error Datum × Lexer :=
  match _ : lexer.take with
  | (.ok (some token), rest) =>
    match state.step limit token with
    | .more state => complete limit state rest
    | .done datum => (.ok datum, rest)
    | .failed error => (.error error, rest)
  | (.ok none, rest) => (.error (.unexpectedEnd state.context), rest)
  | (.error failure, rest) => (.error failure, rest)
termination_by lexer.size
decreasing_by exact Lexer.size_take_lt (by assumption)

/-- Reads one datum. The end of the text is an error. -/
def read (reader : Reader) : Except Error Datum × Reader :=
  let (answer, lexer) := complete reader.limit .start reader.lexer
  (answer, { reader with lexer })

/-- Reads one datum, or finds that the text is at its end. -/
def read? (reader : Reader) : Except Error (Option Datum) × Reader :=
  match reader.lexer.look with
  | (.ok (some _), lexer) =>
    let (answer, reader) := read { reader with lexer }
    (answer.map some, reader)
  | (.ok none, lexer) => (.ok none, { reader with lexer })
  | (.error failure, lexer) => (.error failure, { reader with lexer })

/-- Reads one datum after the other: `none` at the end of the text and ever after an error. -/
def yield (reader : Reader) : Option (Except Error Datum) × Reader :=
  if reader.stopped then (none, reader)
  else
    match reader.read? with
    | (.ok (some datum), rest) => (some (.ok datum), rest)
    | (.ok none, rest) => (none, rest)
    | (.error error, rest) => (some (.error error), { rest with stopped := true })

/-- Only the end of the text may follow. -/
def checkEnd (reader : Reader) : Except Error Unit × Reader :=
  match reader.lexer.look with
  | (.ok none, lexer) => (.ok (), { reader with lexer })
  | (.ok (some token), lexer) => (.error (Awaiting.misplaced token "end of input"), { reader with lexer })
  | (.error failure, lexer) => (.error failure, { reader with lexer })

/-- Reads one datum that nothing may follow. -/
def readSole (reader : Reader) : Except Error Datum × Reader :=
  match reader.read with
  | (.ok datum, rest) =>
    let (checked, rest) := rest.checkEnd
    (checked.map fun _ => datum, rest)
  | (.error error, rest) => (.error error, rest)

/-! ## What is left -/

def size (reader : Reader) : Nat := reader.lexer.size

theorem size_complete {limit : Nat} {state : Awaiting} {lexer rest : Lexer} {datum : Datum}
    (h : complete limit state lexer = (.ok datum, rest)) : rest.size < lexer.size := by
  fun_induction complete limit state lexer with
  | case1 _ _ _ _ htake _ _ ih => exact Nat.lt_trans (ih h) (Lexer.size_take_lt htake)
  | case2 _ _ _ _ htake => cases h; exact Lexer.size_take_lt htake
  | case3 => cases h
  | case4 => cases h
  | case5 => cases h

theorem size_read {reader rest : Reader} {datum : Datum}
    (h : reader.read = (.ok datum, rest)) : rest.size < reader.size := by
  simp only [read, Prod.mk.injEq] at h
  obtain ⟨hanswer, rfl⟩ := h
  exact @size_complete _ _ _ _ datum (Prod.ext hanswer rfl)

theorem size_read? {reader rest : Reader} {datum : Datum}
    (h : reader.read? = (.ok (some datum), rest)) : rest.size < reader.size := by
  have hlook := Lexer.size_look reader.lexer
  unfold read? at h
  split at h
  · rename_i lexer heq
    rw [heq] at hlook
    simp only [Prod.mk.injEq] at h
    obtain ⟨hanswer, rfl⟩ := h
    refine Nat.lt_of_lt_of_le (@size_read _ _ datum (Prod.ext ?_ rfl)) hlook
    revert hanswer
    cases (read { reader with lexer }).1 <;> simp [Except.map]
  · cases h
  · cases h

theorem size_yield {reader rest : Reader} {datum : Datum}
    (h : reader.yield = (some (.ok datum), rest)) : rest.size < reader.size := by
  unfold yield at h
  split at h
  · cases h
  · split at h
    · cases h
      exact size_read? (by assumption)
    · cases h
    · cases h

/-! ## All of it -/

/-- Reads all further data after those read so far (newest first). The first error takes their place. -/
def readRest (data : List Datum) (reader : Reader) : Except Error (List Datum) × Reader :=
  match _ : reader.read? with
  | (.ok (some datum), rest) => readRest (datum :: data) rest
  | (.ok none, rest) => (.ok data.reverse, rest)
  | (.error error, rest) => (.error error, rest)
termination_by reader.size
decreasing_by exact size_read? (by assumption)

def readAll (reader : Reader) : Except Error (List Datum) × Reader := readRest [] reader

/-- All that `yield` still yields, after what it has yielded so far (newest first). An error is the last. -/
def drain (answers : List (Except Error Datum)) (reader : Reader) :
    List (Except Error Datum) × Reader :=
  match _ : reader.yield with
  | (some (.ok datum), rest) => drain (.ok datum :: answers) rest
  | (some (.error error), rest) => ((.error error :: answers).reverse, rest)
  | (none, rest) => (answers.reverse, rest)
termination_by reader.size
decreasing_by exact size_yield (by assumption)

def yieldAll (reader : Reader) : List (Except Error Datum) × Reader := drain [] reader

end Reader

/-- Reads the only datum of a text. -/
def Datum.ofText (text : String) : Except Error Datum := (Reader.ofText text).readSole.1

/-- Reads all data of a text. -/
def Datum.allOfText (text : String) : Except Error (List Datum) := (Reader.ofText text).readAll.1

end Sexp
