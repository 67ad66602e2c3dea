import Sexp.Source

/-!
# The feed of characters

A feed holds the line being read and the place in it, and reads a further line when it is asked for a
character and has none left. The first line that cannot be read stops it for good.

`Feed.size` bounds what is left to read: looking never raises it, and passing a character lowers it.
-/

namespace Sexp

structure Feed where
  source : Source
  /-- The line being read, with its line break. -/
  text : Array Char
  /-- How many characters of the line are behind. -/
  cursor : Nat
  /-- How many lines have been read. -/
  line : Nat
  /-- Why no further line can be read. -/
  failure : Option Error

namespace Feed

def ofSource (source : Source) : Feed := ⟨source, #[], 0, 0, none⟩

/-- The characters of the line that are still ahead. -/
def ahead (feed : Feed) : List Char := feed.text.toList.drop feed.cursor

/-- The character at hand, if the line is not used up. -/
def current? (feed : Feed) : Option Char := feed.text[feed.cursor]?

/-- The place of the character at hand. -/
def position (feed : Feed) : Position := ⟨feed.line, feed.cursor + 1⟩

/-- Passes the character at hand. -/
def pass (feed : Feed) : Feed := { feed with cursor := feed.cursor + 1 }

/-- Passes all that is left of the line. -/
def passLine (feed : Feed) : Feed := { feed with cursor := feed.text.size }

/-- Replaces the line by the next one of the source. When there is none the old line stays; when it
cannot be read, the feed holds no line any more. -/
def nextLine (feed : Feed) : Feed :=
  match feed.source.takeText with
  | (.ok [], source) => { feed with source }
  | (.ok text, source) => { feed with source, text := text.toArray, cursor := 0, line := feed.line + 1 }
  | (.error failure, source) =>
    { feed with source, text := #[], cursor := 0, failure := some (.unreadable (feed.line + 1) failure) }

/-- Reads a further line when the old one is used up, so that a character is at hand if there is one. -/
def fill (feed : Feed) : Feed :=
  if feed.cursor < feed.text.size ∨ feed.failure.isSome then feed else feed.nextLine

/-! ## The rest of the line -/

theorem current?_eq_head? (feed : Feed) : feed.current? = feed.ahead.head? := by
  simp [current?, ahead]

@[simp] theorem ahead_pass (feed : Feed) : feed.pass.ahead = feed.ahead.tail := by
  simp [ahead, pass]

@[simp] theorem ahead_passLine (feed : Feed) : feed.passLine.ahead = [] := by
  simp [ahead, passLine]

/-! ## What is left -/

def size (feed : Feed) : Nat := (feed.text.size - feed.cursor) + feed.source.size

theorem size_nextLine (feed : Feed) : feed.nextLine.size ≤ feed.size := by
  have := Source.size_takeText feed.source
  unfold nextLine
  generalize feed.source.takeText = read at this ⊢
  obtain ⟨failure | text, source⟩ := read
  · simp only [Source.amount, size, List.size_toArray, List.length_nil] at this ⊢
    omega
  · cases text <;> simp only [Source.amount, size, List.size_toArray, List.length_nil] at this ⊢ <;> omega

theorem size_fill (feed : Feed) : feed.fill.size ≤ feed.size := by
  unfold fill
  split
  · exact Nat.le_refl _
  · exact size_nextLine feed

theorem cursor_lt_of_current? {feed : Feed} {c : Char} (h : feed.current? = some c) :
    feed.cursor < feed.text.size :=
  (Array.getElem?_eq_some_iff.1 h).1

theorem size_pass {feed : Feed} {c : Char} (h : feed.current? = some c) :
    feed.pass.size < feed.size := by
  have := cursor_lt_of_current? h
  simp only [size, pass]
  omega

theorem size_passLine {feed : Feed} {c : Char} (h : feed.current? = some c) :
    feed.passLine.size < feed.size := by
  have := cursor_lt_of_current? h
  simp only [size, passLine]
  omega

theorem size_pass_fill {feed : Feed} {c : Char} (h : feed.fill.current? = some c) :
    feed.fill.pass.size < feed.size :=
  Nat.lt_of_lt_of_le (size_pass h) (size_fill feed)

theorem size_passLine_fill {feed : Feed} {c : Char} (h : feed.fill.current? = some c) :
    feed.fill.passLine.size < feed.size :=
  Nat.lt_of_lt_of_le (size_passLine h) (size_fill feed)

end Feed

end Sexp
