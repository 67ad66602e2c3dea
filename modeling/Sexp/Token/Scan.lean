import Sexp.Feed
import Sexp.Token
import Sexp.Token.Alphabet

/-!
# Scanning tokens

Takes one token off a feed. Every scanner stops where the feed has no character, be it that the text ends
there or that the next line cannot be read; which of the two it was is left to `Feed.failure`.
-/

namespace Sexp.Token

/-- The rest of a word, after the letters read so far (newest first). -/
def takeWord (letters : List Char) (feed : Feed) : List Char × Feed :=
  match _ : feed.fill.current? with
  | some c =>
    if isConstituent c then takeWord (c :: letters) feed.fill.pass else (letters.reverse, feed.fill)
  | none => (letters.reverse, feed.fill)
termination_by feed.size
decreasing_by exact Feed.size_pass_fill (by assumption)

/-- At most so many further digits of an octal code. -/
def takeOctal : Nat → Nat → Feed → Nat × Feed
  | 0, code, feed => (code, feed)
  | digits + 1, code, feed =>
    match feed.fill.current?.bind octalDigit? with
    | some digit => takeOctal digits (code * 8 + digit) feed.fill.pass
    | none => (code, feed.fill)

/-- The character that is written after a backslash. -/
def takeEscape (feed : Feed) : Option Char × Feed :=
  match feed.fill.current? with
  | some c =>
    match octalDigit? c with
    | some first =>
      let (code, rest) := takeOctal (octalDigitsAfter first) first feed.fill.pass
      (some (Char.ofNat code), rest)
    | none => (some (meaning c), feed.fill.pass)
  | none => (none, feed.fill)

theorem size_takeOctal (digits code : Nat) (feed : Feed) :
    (takeOctal digits code feed).2.size ≤ feed.size := by
  fun_induction takeOctal digits code feed with
  | case1 => exact Nat.le_refl _
  | case2 _ _ _ _ h ih =>
    obtain ⟨_, hc, _⟩ := Option.bind_eq_some_iff.1 h
    exact Nat.le_trans ih (Nat.le_of_lt (Feed.size_pass_fill hc))
  | case3 => exact Feed.size_fill _

theorem size_takeEscape (feed : Feed) : (takeEscape feed).2.size ≤ feed.size := by
  unfold takeEscape
  split
  · rename_i h
    have := Nat.le_of_lt (Feed.size_pass_fill h)
    split
    · exact Nat.le_trans (size_takeOctal ..) this
    · exact this
  · exact Feed.size_fill feed

theorem size_takeEscape_eq {feed rest : Feed} {escaped : Option Char}
    (h : takeEscape feed = (escaped, rest)) : rest.size ≤ feed.size := by
  simpa [h] using size_takeEscape feed

/-- The rest of a string literal, after the content read so far (newest first). The closing quote is
passed; a line end closes the literal too and is left where it is, and so does the end of the text. -/
def takeString (content : List Char) (feed : Feed) : List Char × Feed :=
  match _ : feed.fill.current? with
  | some c =>
    if c = '"' then (content.reverse, feed.fill.pass)
    else if isLineEnd c then (content.reverse, feed.fill)
    else if c = '\\' then
      match _ : takeEscape feed.fill.pass with
      | (some escaped, rest) => takeString (escaped :: content) rest
      | (none, rest) => (content.reverse, rest)
    else takeString (c :: content) feed.fill.pass
  | none => (content.reverse, feed.fill)
termination_by feed.size
decreasing_by
  · exact Nat.lt_of_le_of_lt (size_takeEscape_eq (by assumption)) (Feed.size_pass_fill (by assumption))
  · exact Feed.size_pass_fill (by assumption)

/-- The kind of the mark that a character is by itself. -/
def markKind? : Char → Option Kind
  | '(' => some .openParen
  | ')' => some .closeParen
  | '\'' => some .quote
  | '`' => some .quasiquote
  | ',' => some .unquote
  | _ => none

/-- The next token, past blanks and comments. A comment runs to the end of its line. -/
def scan (feed : Feed) : Option Token × Feed :=
  match _ : feed.fill.current? with
  | some c =>
    if isBlank c then scan feed.fill.pass
    else if c = ';' then scan feed.fill.passLine
    else
      match markKind? c with
      | some kind => (some (mark kind feed.fill.position), feed.fill.pass)
      | none =>
        if c = '"' then
          let (content, rest) := takeString [] feed.fill.pass
          (some ⟨.string, String.ofList content, feed.fill.position⟩, rest)
        else
          let (letters, rest) := takeWord [] feed.fill
          (some ⟨.word, String.ofList letters, feed.fill.position⟩, rest)
  | none => (none, feed.fill)
termination_by feed.size
decreasing_by
  · exact Feed.size_pass_fill (by assumption)
  · exact Feed.size_passLine_fill (by assumption)

/-! ## Every token takes something off the feed -/

theorem size_takeWord (letters : List Char) (feed : Feed) : (takeWord letters feed).2.size ≤ feed.size := by
  fun_induction takeWord letters feed with
  | case1 _ _ _ h _ ih => exact Nat.le_trans ih (Nat.le_of_lt (Feed.size_pass_fill h))
  | case2 => exact Feed.size_fill _
  | case3 => exact Feed.size_fill _

theorem size_takeString (content : List Char) (feed : Feed) :
    (takeString content feed).2.size ≤ feed.size := by
  fun_induction takeString content feed with
  | case1 _ _ h => exact Nat.le_of_lt (Feed.size_pass_fill h)
  | case2 => exact Feed.size_fill _
  | case3 _ _ _ _ he h _ _ ih =>
    exact Nat.le_trans ih (Nat.le_trans (size_takeEscape_eq he) (Nat.le_of_lt (Feed.size_pass_fill h)))
  | case4 _ _ _ he h =>
    exact Nat.le_trans (size_takeEscape_eq he) (Nat.le_of_lt (Feed.size_pass_fill h))
  | case5 _ _ _ h _ _ _ ih => exact Nat.le_trans ih (Nat.le_of_lt (Feed.size_pass_fill h))
  | case6 => exact Feed.size_fill _

/-- A word starts with the character at hand. -/
theorem size_takeWord_lt {feed : Feed} {c : Char} (h : feed.current? = some c) (hc : isConstituent c) :
    (takeWord [] feed).2.size < feed.size := by
  have hfill : feed.fill = feed := by
    unfold Feed.fill
    rw [if_pos (.inl (Feed.cursor_lt_of_current? h))]
  rw [takeWord]
  split
  · rename_i d hd
    rw [hfill, h] at hd
    cases hd
    rw [if_pos hc, hfill]
    exact Nat.lt_of_le_of_lt (size_takeWord ..) (Feed.size_pass h)
  · rename_i hd
    rw [hfill, h] at hd
    cases hd

theorem isConstituent_of_scan {c : Char} (blank : ¬isBlank c) (comment : c ≠ ';') (mark : markKind? c = none)
    (quote : c ≠ '"') : isConstituent c := by
  have hmark : ∀ d k, markKind? d = some k → c ≠ d := fun d k hd hcd => by simp [hcd, hd] at mark
  rw [isBlank_iff, Nat.not_le] at blank
  refine isConstituent_iff.2 ⟨blank, ?_⟩
  simp only [List.mem_cons, List.not_mem_nil, or_false, not_or]
  exact ⟨hmark '(' _ rfl, hmark ')' _ rfl, hmark '\'' _ rfl, hmark '`' _ rfl, hmark ',' _ rfl, comment, quote⟩

/-- Scanning never puts anything back, and a token costs at least one character. -/
theorem size_scan (feed : Feed) :
    (scan feed).2.size + (scan feed).1.toList.length ≤ feed.size := by
  fun_induction scan feed with
  | case1 _ _ h _ ih => exact Nat.le_trans ih (Nat.le_of_lt (Feed.size_pass_fill h))
  | case2 _ h _ ih => exact Nat.le_trans ih (Nat.le_of_lt (Feed.size_passLine_fill h))
  | case3 _ _ h => exact Feed.size_pass_fill h
  | case4 feed _ _ hs h =>
    have := size_takeString [] feed.fill.pass
    rw [hs] at this
    exact Nat.lt_of_le_of_lt this (Feed.size_pass_fill h)
  | case5 feed _ h blank comment mark quote _ _ hw =>
    have := size_takeWord_lt h (isConstituent_of_scan blank comment mark quote)
    rw [hw] at this
    exact Nat.lt_of_lt_of_le this (Feed.size_fill feed)
  | case6 => exact Feed.size_fill _

end Sexp.Token
