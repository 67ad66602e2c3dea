import Sexp.Reader

/-!
# One step of each recursion

The scanners and the loops of lexer and reader take one thing at a time and match on what they got together
with the reason why what is left is smaller. These equations say the same without the reasons.
-/

namespace Sexp

namespace Token

variable {feed : Feed} {c : Char}

theorem takeWord_some (letters : List Char) (h : feed.fill.current? = some c) :
    takeWord letters feed =
      if isConstituent c then takeWord (c :: letters) feed.fill.pass
      else (letters.reverse, feed.fill) := by
  rw [takeWord]
  split
  · rename_i d hd
    rw [h] at hd
    cases hd
    rfl
  · rename_i hd
    rw [h] at hd
    cases hd

theorem takeWord_none (letters : List Char) (h : feed.fill.current? = none) :
    takeWord letters feed = (letters.reverse, feed.fill) := by
  rw [takeWord]
  split
  · rename_i d hd
    rw [h] at hd
    cases hd
  · rfl

/-- The content of a string literal goes on behind an escape, unless the text ends in it. -/
def continueString (content : List Char) : Option Char × Feed → List Char × Feed
  | (some escaped, rest) => takeString (escaped :: content) rest
  | (none, rest) => (content.reverse, rest)

theorem takeString_some (content : List Char) (h : feed.fill.current? = some c) :
    takeString content feed =
      if c = '"' then (content.reverse, feed.fill.pass)
      else if isLineEnd c then (content.reverse, feed.fill)
      else if c = '\\' then continueString content (takeEscape feed.fill.pass)
      else takeString (c :: content) feed.fill.pass := by
  rw [takeString]
  split
  · rename_i d hd
    rw [h] at hd
    cases hd
    split
    · rfl
    · split
      · rfl
      · split
        · split <;> simp only [continueString, *]
        · rfl
  · rename_i hd
    rw [h] at hd
    cases hd

theorem takeString_none (content : List Char) (h : feed.fill.current? = none) :
    takeString content feed = (content.reverse, feed.fill) := by
  rw [takeString]
  split
  · rename_i d hd
    rw [h] at hd
    cases hd
  · rfl

/-- A token that starts at this character, which is neither blank nor a comment. -/
def scanFrom (c : Char) (feed : Feed) : Token × Feed :=
  match markKind? c with
  | some kind => (mark kind feed.position, feed.pass)
  | none =>
    if c = '"' then
      (⟨.string, String.ofList (takeString [] feed.pass).1, feed.position⟩, (takeString [] feed.pass).2)
    else (⟨.word, String.ofList (takeWord [] feed).1, feed.position⟩, (takeWord [] feed).2)

theorem scan_some (h : feed.fill.current? = some c) :
    scan feed =
      if isBlank c then scan feed.fill.pass
      else if c = ';' then scan feed.fill.passLine
      else (some (scanFrom c feed.fill).1, (scanFrom c feed.fill).2) := by
  rw [scan]
  split
  · rename_i d hd
    rw [h] at hd
    cases hd
    split
    · rfl
    · split
      · rfl
      · unfold scanFrom
        cases markKind? c with
        | some kind => rfl
        | none =>
          simp only
          split <;> rfl
  · rename_i hd
    rw [h] at hd
    cases hd

theorem scan_none (h : feed.fill.current? = none) : scan feed = (none, feed.fill) := by
  rw [scan]
  split
  · rename_i d hd
    rw [h] at hd
    cases hd
  · rfl

end Token

namespace Reader

/-- What one token makes of a form that is open. -/
def afterToken (limit : Nat) (state : Awaiting) :
    Except Error (Option Token) × Lexer → Except Error Datum × Lexer
  | (.ok (some token), rest) =>
    match state.step limit token with
    | .more state => complete limit state rest
    | .done datum => (.ok datum, rest)
    | .failed error => (.error error, rest)
  | (.ok none, rest) => (.error (.unexpectedEnd state.context), rest)
  | (.error failure, rest) => (.error failure, rest)

theorem complete_eq (limit : Nat) (state : Awaiting) (lexer : Lexer) :
    complete limit state lexer = afterToken limit state lexer.take := by
  rw [complete]
  split <;> (rename_i h; rw [h]; rfl)

theorem readRest_eq (data : List Datum) (reader : Reader) :
    readRest data reader =
      match reader.read? with
      | (.ok (some datum), rest) => readRest (datum :: data) rest
      | (.ok none, rest) => (.ok data.reverse, rest)
      | (.error error, rest) => (.error error, rest) := by
  rw [readRest]
  split <;> simp only [*]

theorem drain_eq (answers : List (Except Error Datum)) (reader : Reader) :
    drain answers reader =
      match reader.yield with
      | (some (.ok datum), rest) => drain (.ok datum :: answers) rest
      | (some (.error error), rest) => ((.error error :: answers).reverse, rest)
      | (none, rest) => (answers.reverse, rest) := by
  rw [drain]
  split <;> simp only [*]

end Reader

end Sexp
