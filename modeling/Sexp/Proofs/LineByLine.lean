import Sexp.Proofs.Lines
import Sexp.Proofs.Simulation

/-!
# Sources that deliver a line at a time

Where each poll brings one whole line, every line that is read costs one poll, and the source has nothing unread
between its lines (`Feed.Fed`). Once more has been polled than these lines, the feed has overread them, and no reading
makes this undone. Up to there it does not matter what else the source would deliver
(`Reader.run_eq_of_same_lines`).
-/

namespace Sexp

/-- A poll that brings one line, with its line break. -/
def Delivery.line (text : List Char) : Delivery := .bytes (Utf8.encode (text ++ ['\n']))

namespace Source

variable {source : Source}

theorem polls_lt_collectLine (collected : List UInt8) (polls : Nat) (pending : List Delivery) :
    polls < (collectLine collected polls pending).2.polls := by
  fun_induction collectLine collected polls pending with
  | case1 => exact Nat.lt_succ_self _
  | case2 collected polls pending ih => exact Nat.lt_of_succ_lt ih
  | case3 => exact Nat.lt_succ_self _
  | case4 => exact Nat.lt_succ_self _
  | case5 => exact Nat.lt_succ_self _
  | case6 collected polls content pending _ _ ih => exact Nat.lt_of_succ_lt ih

theorem polls_le_takeText (source : Source) : source.polls ≤ source.takeText.2.polls := by
  rw [takeText_eq, takeLine]
  cases cutLine? source.unread with
  | some cut => exact Nat.le_refl _
  | none => exact Nat.le_of_lt (polls_lt_collectLine ..)

theorem polls_lt_takeText (h : source.unread = []) : source.polls < source.takeText.2.polls := by
  have hcut : cutLine? source.unread = none := by rw [h]; rfl
  rw [takeText_eq, takeLine, hcut]
  exact polls_lt_collectLine ..

theorem takeText_line {text : List Char} (h : '\n' ∉ text) (pending : List Delivery) (polls : Nat) :
    takeText ⟨[], .line text :: pending, polls⟩ = (.ok (text ++ ['\n']), ⟨[], pending, polls + 1⟩) := by
  have hbytes : lineBreak ∉ Utf8.encode text := fun hmem => h (lineBreak_mem_encode.1 hmem)
  have hencode : Utf8.encode (text ++ ['\n']) = Utf8.encode text ++ lineBreak :: [] := by
    rw [Utf8.encode_append]
    rfl
  have hline : takeLine ⟨[], .line text :: pending, polls⟩ =
      (.ok (Utf8.encode (text ++ ['\n'])), ⟨[], pending, polls + 1⟩) := by
    rw [Delivery.line, hencode]
    exact collectLine_break [] polls pending hbytes
  rw [takeText_eq, hline, Except.bind, textOfLine_encode]

end Source

/-! ## Feeds -/

namespace Feed

variable {feed next : Feed} {lines : List (List Char)} {more : List Delivery}

/-- More has been polled than these lines. -/
def Overread (lines : List (List Char)) (feed : Feed) : Prop := lines.length < feed.source.polls

theorem source_nextLine (feed : Feed) : feed.nextLine.source = feed.source.takeText.2 := by
  unfold nextLine
  rcases feed.source.takeText with ⟨failure | (_ | ⟨c, text⟩), source⟩ <;> rfl

theorem overread_move (hmove : feed.Move next) (h : feed.Overread lines) : next.Overread lines := by
  cases hmove with
  | fill =>
    unfold fill
    split
    · exact h
    · rw [Overread, source_nextLine]
      exact Nat.lt_of_lt_of_le h (Source.polls_le_takeText feed.source)
  | pass => exact h
  | passLine => exact h

/-- The lines read so far are the first of these, and nothing else has been polled. -/
structure Fed (lines : List (List Char)) (more : List Delivery) (feed : Feed) : Prop where
  source : feed.source = ⟨[], (lines.drop feed.line).map .line ++ more, feed.line⟩
  within : feed.line ≤ lines.length
  failure : feed.failure = none

theorem fed_ofDeliveries (lines : List (List Char)) (more : List Delivery) :
    (ofSource (.ofDeliveries (lines.map .line ++ more))).Fed lines more :=
  ⟨rfl, Nat.zero_le _, rfl⟩

theorem Fed.nextLine_eq (h : feed.Fed lines more) {text : List Char} (htext : lines[feed.line]? = some text)
    (hbreak : '\n' ∉ text) :
    feed.nextLine = ⟨⟨[], (lines.drop (feed.line + 1)).map .line ++ more, feed.line + 1⟩,
      (text ++ ['\n']).toArray, 0, feed.line + 1, none⟩ := by
  obtain ⟨hlt, hget⟩ := List.getElem?_eq_some_iff.1 htext
  have htaken : feed.source.takeText =
      (.ok (text ++ ['\n']), ⟨[], (lines.drop (feed.line + 1)).map .line ++ more, feed.line + 1⟩) := by
    rw [h.source, List.drop_eq_getElem_cons hlt, hget]
    exact Source.takeText_line hbreak _ _
  rw [nextLine, htaken, ← h.failure]
  cases text <;> rfl

theorem Fed.overread_nextLine (h : feed.Fed lines more) (hnone : lines[feed.line]? = none) :
    feed.nextLine.Overread lines := by
  have hpolls := @Source.polls_lt_takeText feed.source (by rw [h.source])
  rw [Overread, source_nextLine]
  rw [h.source] at hpolls ⊢
  exact Nat.lt_of_le_of_lt (List.getElem?_eq_none_iff.1 hnone) hpolls

theorem Fed.fed_nextLine (h : feed.Fed lines more) {text : List Char} (htext : lines[feed.line]? = some text)
    (hbreak : '\n' ∉ text) : feed.nextLine.Fed lines more := by
  rw [h.nextLine_eq htext hbreak]
  exact ⟨rfl, (List.getElem?_eq_some_iff.1 htext).1, rfl⟩

/-! ## Sources that begin with the same lines -/

/-- The feeds are at the same place of the same line, and both have been fed by these lines alone. -/
structure SameLines (lines : List (List Char)) (first second : List Delivery) (a b : Feed) : Prop where
  left : a.Fed lines first
  right : b.Fed lines second
  text : a.text = b.text
  cursor : a.cursor = b.cursor
  line : a.line = b.line

variable {first second : List Delivery} {a b : Feed}

theorem SameLines.fill (hlines : ∀ text ∈ lines, '\n' ∉ text) (h : SameLines lines first second a b) :
    a.fill.Overread lines ∨ SameLines lines first second a.fill b.fill := by
  unfold Feed.fill
  rw [← h.text, ← h.cursor, h.left.failure, h.right.failure]
  by_cases hstays : a.cursor < a.text.size ∨ (none : Option Error).isSome
  · rw [if_pos hstays, if_pos hstays]
    exact .inr h
  · rw [if_neg hstays, if_neg hstays]
    cases htext : lines[a.line]? with
    | none => exact .inl (h.left.overread_nextLine htext)
    | some text =>
      have hbreak := hlines text (List.mem_of_getElem? htext)
      have htext' : lines[b.line]? = some text := h.line ▸ htext
      right
      refine ⟨h.left.fed_nextLine htext hbreak, h.right.fed_nextLine htext' hbreak, ?_, ?_, ?_⟩
      all_goals rw [h.left.nextLine_eq htext hbreak, h.right.nextLine_eq htext' hbreak]
      exact congrArg (· + 1) h.line

/-- What the sources deliver after the same lines is not seen before these are overread. -/
def sameLines (hlines : ∀ text ∈ lines, '\n' ∉ text) (first second : List Delivery) : Simulation where
  Alike := SameLines lines first second
  Lost := Overread lines
  current? h := by rw [current?, current?, h.text, h.cursor]
  position h := by rw [position, position, h.line, h.cursor]
  failure h := h.left.failure.trans h.right.failure.symm
  fill h := h.fill hlines
  pass h _ := ⟨⟨h.left.source, h.left.within, h.left.failure⟩, ⟨h.right.source, h.right.within, h.right.failure⟩,
    h.text, congrArg (· + 1) h.cursor, h.line⟩
  passLine h _ := ⟨⟨h.left.source, h.left.within, h.left.failure⟩,
    ⟨h.right.source, h.right.within, h.right.failure⟩, h.text, congrArg Array.size h.text, h.line⟩
  lost_move := overread_move

end Feed

namespace Reader

/-- Where a run does not overread the lines that two sources begin with, it gives the same answers over both. -/
theorem run_eq_of_same_lines {lines : List (List Char)} (hlines : ∀ text ∈ lines, '\n' ∉ text)
    (first second : List Delivery) (limit : Nat) (commands : List Command)
    (hread : ¬((ofLexer (Lexer.ofSource (.ofDeliveries (lines.map .line ++ first))) limit).run
      commands).2.lexer.feed.Overread lines) :
    ((ofLexer (Lexer.ofSource (.ofDeliveries (lines.map .line ++ first))) limit).run commands).1 =
      ((ofLexer (Lexer.ofSource (.ofDeliveries (lines.map .line ++ second))) limit).run commands).1 := by
  have hreaders : Related (Feed.sameLines hlines first second).lexer
      (ofLexer (Lexer.ofSource (.ofDeliveries (lines.map .line ++ first))) limit)
      (ofLexer (Lexer.ofSource (.ofDeliveries (lines.map .line ++ second))) limit) :=
    ⟨⟨⟨Feed.fed_ofDeliveries lines first, Feed.fed_ofDeliveries lines second, rfl, rfl, rfl⟩, rfl⟩, rfl, rfl⟩
  rcases agree_run commands hreaders (fun h => ⟨h.lines, h.failure⟩) with hlost | ⟨hanswers, _⟩
  · exact absurd hlost hread
  · exact hanswers

end Reader

end Sexp
