import Sexp.Feed
import Sexp.Proofs.Delivery
import Sexp.Token.OnePass

/-!
# A text behind a feed

`Feed.Shows feed rest place` says that what is left of a text is `rest`, that its first character is at
`place`, and that the text ends cleanly. The feed holds a part of it as a line and its source the bytes of
the lines after that. Filling a feed brings the first character of the rest to hand, and passing it moves
on to the next place.
-/

namespace Sexp

/-! ## Lines of a text -/

/-- The first line of a text, with its line break, and the text after it. -/
def splitLine : List Char → List Char × List Char
  | [] => ([], [])
  | c :: rest => if c = '\n' then ([c], rest) else (c :: (splitLine rest).1, (splitLine rest).2)

theorem splitLine_break (rest : List Char) : splitLine ('\n' :: rest) = (['\n'], rest) := by
  rw [splitLine, if_pos rfl]

theorem splitLine_cons {c : Char} (rest : List Char) (h : c ≠ '\n') :
    splitLine (c :: rest) = (c :: (splitLine rest).1, (splitLine rest).2) := by
  rw [splitLine, if_neg h]

theorem splitLine_append (text : List Char) : (splitLine text).1 ++ (splitLine text).2 = text := by
  induction text with
  | nil => rfl
  | cons c rest ih =>
    by_cases hc : c = '\n'
    · rw [hc, splitLine_break]
      rfl
    · rw [splitLine_cons rest hc, List.cons_append, ih]

theorem splitLine_fst_eq_nil {text : List Char} : (splitLine text).1 = [] ↔ text = [] := by
  cases text with
  | nil => exact ⟨fun _ => rfl, fun _ => rfl⟩
  | cons c rest =>
    by_cases hc : c = '\n'
    · rw [hc, splitLine_break]
      simp
    · rw [splitLine_cons rest hc]
      simp

theorem splitLine_of_not_mem {text : List Char} (h : '\n' ∉ text) : splitLine text = (text, []) := by
  induction text with
  | nil => rfl
  | cons c rest ih =>
    rw [List.mem_cons, not_or] at h
    rw [splitLine_cons rest (Ne.symm h.1), ih h.2]

theorem splitLine_line {before rest : List Char} (h : '\n' ∉ before) :
    splitLine (before ++ '\n' :: rest) = (before ++ ['\n'], rest) := by
  induction before with
  | nil => exact splitLine_break rest
  | cons c before ih =>
    rw [List.mem_cons, not_or] at h
    rw [List.cons_append, splitLine_cons _ (Ne.symm h.1), ih h.2, List.cons_append]

/-! ## Lines of its bytes -/

namespace Source

theorem lineBreak_mem_utf8EncodeChar {c : Char} : lineBreak ∈ String.utf8EncodeChar c ↔ c = '\n' := by
  have hval : c = '\n' ↔ c.val.toNat = 10 := by
    rw [Char.ext_iff, ← UInt32.toNat_inj]
    rfl
  rw [hval]
  unfold String.utf8EncodeChar lineBreak
  simp only
  split
  · simp only [List.mem_singleton, ← UInt8.toNat_inj, UInt8.toNat_ofNat']
    show 10 = _ ↔ _
    omega
  · split
    · simp only [List.mem_cons, List.not_mem_nil, or_false, ← UInt8.toNat_inj, UInt8.toNat_ofNat']
      show (10 = _ ∨ 10 = _) ↔ _
      omega
    · split
      · simp only [List.mem_cons, List.not_mem_nil, or_false, ← UInt8.toNat_inj, UInt8.toNat_ofNat']
        show (10 = _ ∨ 10 = _ ∨ 10 = _) ↔ _
        omega
      · simp only [List.mem_cons, List.not_mem_nil, or_false, ← UInt8.toNat_inj, UInt8.toNat_ofNat']
        show (10 = _ ∨ 10 = _ ∨ 10 = _ ∨ 10 = _) ↔ _
        omega

theorem lineBreak_mem_encode {text : List Char} : lineBreak ∈ Utf8.encode text ↔ '\n' ∈ text := by
  rw [Utf8.encode, List.mem_flatMap]
  constructor
  · rintro ⟨c, hc, hbreak⟩
    rw [lineBreak_mem_utf8EncodeChar] at hbreak
    exact hbreak ▸ hc
  · intro h
    exact ⟨'\n', h, lineBreak_mem_utf8EncodeChar.2 rfl⟩

theorem line_encode (text : List Char) :
    Ending.line .clean (Utf8.encode text) =
      (.ok (Utf8.encode (splitLine text).1), Utf8.encode (splitLine text).2) := by
  by_cases hmem : '\n' ∈ text
  · obtain ⟨before, rest, rfl, hbefore⟩ := List.eq_append_cons_of_mem hmem
    have hbytes : lineBreak ∉ Utf8.encode before := fun h => hbefore (lineBreak_mem_encode.1 h)
    have hbreak : String.utf8EncodeChar '\n' = [lineBreak] := by decide
    rw [splitLine_line hbefore, Utf8.encode_append, Utf8.encode_cons, hbreak, List.singleton_append,
      line_of_break .clean hbytes, Utf8.encode_append, Utf8.encode_cons, hbreak, Utf8.encode_nil,
      List.append_nil]
  · have hbytes : lineBreak ∉ Utf8.encode text := fun h => hmem (lineBreak_mem_encode.1 h)
    rw [splitLine_of_not_mem hmem, line_clean hbytes, Utf8.encode_nil]

/-- A source that holds a text hands out its first line and then holds the text after it. -/
theorem takeText_of_text {source : Source} {text : List Char}
    (h : source.Holds (Utf8.encode text) .clean) :
    source.takeText.1 = .ok (splitLine text).1 ∧
      source.takeText.2.Holds (Utf8.encode (splitLine text).2) .clean := by
  obtain ⟨htext, hrest⟩ := takeText_of_holds h
  rw [line_encode] at htext hrest
  have hline : source.takeText.1 = .ok (splitLine text).1 := by
    rw [htext]
    exact textOfLine_encode _
  exact ⟨hline, hrest _ hline⟩

end Source

/-! ## Feeds that show a text -/

namespace Feed

open Token.OnePass (next)

/-- What is left of the text is `rest`, it starts at `place`, and the text ends cleanly after it. -/
structure Shows (feed : Feed) (rest : List Char) (place : Position) : Prop where
  failure : feed.failure = none
  /-- The source holds the text after the line, and the line has not been cut short. -/
  lines : ∃ later, feed.source.Holds (Utf8.encode later) .clean ∧ rest = feed.ahead ++ later ∧
    (feed.ahead ≠ [] → splitLine rest = (feed.ahead, later))
  place : rest ≠ [] → place = if feed.ahead = [] then ⟨feed.line + 1, 1⟩ else feed.position

variable {feed : Feed} {rest : List Char} {place : Position} {c : Char}

theorem shows_ofSource {source : Source} {text : List Char}
    (h : source.Holds (Utf8.encode text) .clean) : (ofSource source).Shows text ⟨1, 1⟩ :=
  ⟨rfl, ⟨text, h, rfl, fun hne => absurd rfl hne⟩, fun _ => rfl⟩

theorem ahead_eq_nil_iff (feed : Feed) : feed.ahead = [] ↔ feed.text.size ≤ feed.cursor := by
  rw [ahead, List.drop_eq_nil_iff, Array.length_toList]

theorem fill_of_ahead (h : feed.ahead ≠ []) : feed.fill = feed := by
  rw [Ne, ahead_eq_nil_iff, Nat.not_le] at h
  rw [fill, if_pos (.inl h)]

theorem fill_of_used (hahead : feed.ahead = []) (hfailure : feed.failure = none) :
    feed.fill = feed.nextLine := by
  rw [ahead_eq_nil_iff] at hahead
  rw [fill, if_neg]
  rw [hfailure]
  simp only [Option.isSome_none, Bool.false_eq_true, or_false, Nat.not_lt]
  exact hahead

theorem Shows.fill (h : feed.Shows rest place) :
    feed.fill.Shows rest place ∧ (feed.fill.ahead = [] → rest = []) := by
  by_cases hahead : feed.ahead = []
  · obtain ⟨later, hsource, hrest, _⟩ := h.lines
    rw [hahead, List.nil_append] at hrest
    subst hrest
    obtain ⟨htext, hholds⟩ := Source.takeText_of_text hsource
    rw [fill_of_used hahead h.failure, nextLine]
    generalize feed.source.takeText = taken at htext hholds
    obtain ⟨answer, source⟩ := taken
    subst htext
    cases hline : (splitLine rest).1 with
    | nil =>
      -- there is no further line
      have hnil : rest = [] := splitLine_fst_eq_nil.1 hline
      subst hnil
      exact ⟨⟨h.failure, ⟨[], hholds, by rw [List.append_nil]; exact hahead.symm,
        fun hne => absurd hahead hne⟩, fun hne => absurd rfl hne⟩, fun _ => rfl⟩
    | cons c line =>
      have hwhole : rest = (c :: line) ++ (splitLine rest).2 := by
        rw [← hline, splitLine_append]
      have hplace : place = ⟨feed.line + 1, 1⟩ := by
        rw [h.place (by rw [hwhole]; simp), if_pos hahead]
      refine ⟨⟨h.failure, ⟨(splitLine rest).2, hholds, hwhole, fun _ => ?_⟩, fun _ => ?_⟩,
        fun hnil => ?_⟩
      · change splitLine rest = (c :: line, (splitLine rest).2)
        rw [← hline]
      · exact hplace
      · cases hnil
  · rw [fill_of_ahead hahead]
    exact ⟨h, fun hnil => absurd hnil hahead⟩

theorem Shows.current? (h : feed.Shows rest place) : feed.fill.current? = rest.head? := by
  obtain ⟨hshows, hend⟩ := h.fill
  obtain ⟨later, _, hrest, _⟩ := hshows.lines
  rw [current?_eq_head?, hrest]
  cases hahead : feed.fill.ahead with
  | nil =>
    rw [hend hahead, hahead, List.nil_append] at hrest
    rw [← hrest]
    rfl
  | cons c line => rfl

theorem Shows.position (h : feed.Shows (c :: rest) place) : feed.fill.position = place := by
  obtain ⟨hshows, hend⟩ := h.fill
  have hahead : feed.fill.ahead ≠ [] := fun hnil => by cases hend hnil
  rw [hshows.place (List.cons_ne_nil _ _), if_neg hahead]

theorem Shows.pass (h : feed.Shows (c :: rest) place) : feed.fill.pass.Shows rest (next place c) := by
  obtain ⟨hshows, hend⟩ := h.fill
  have hahead : feed.fill.ahead ≠ [] := fun hnil => by cases hend hnil
  obtain ⟨later, hsource, hrest, hline⟩ := hshows.lines
  obtain ⟨d, line, hcons⟩ := List.exists_cons_of_ne_nil hahead
  rw [hcons, List.cons_append, List.cons.injEq] at hrest
  obtain ⟨rfl, hrest⟩ := hrest
  have hpass : feed.fill.pass.ahead = line := by rw [ahead_pass, hcons, List.tail_cons]
  have hsplit := hline hahead
  rw [hcons] at hsplit
  refine ⟨hshows.failure, ⟨later, hsource, by rw [hpass, hrest], fun hne => ?_⟩, fun hne => ?_⟩
  · rw [hpass] at hne ⊢
    by_cases hc : c = '\n'
    · -- a line break is the last character of its line
      rw [hc, splitLine_break, Prod.mk.injEq, List.cons.injEq] at hsplit
      exact absurd hsplit.1.2.symm hne
    · rw [splitLine_cons rest hc, Prod.mk.injEq, List.cons.injEq] at hsplit
      rw [← hsplit.1.2, ← hsplit.2]
  · rw [hpass, ← h.position, next]
    by_cases hc : c = '\n'
    · rw [hc, splitLine_break, Prod.mk.injEq, List.cons.injEq] at hsplit
      rw [if_pos hc, if_pos hsplit.1.2.symm]
      rfl
    · rw [splitLine_cons rest hc, Prod.mk.injEq, List.cons.injEq] at hsplit
      have hlineNe : line ≠ [] := fun hnil => hne (splitLine_fst_eq_nil.1 (hsplit.1.2.trans hnil))
      rw [if_neg hc, if_neg hlineNe]
      rfl

theorem Shows.passLine (h : feed.Shows (c :: rest) place) :
    feed.fill.passLine.Shows (splitLine (c :: rest)).2 ⟨place.line + 1, 1⟩ := by
  obtain ⟨hshows, hend⟩ := h.fill
  have hahead : feed.fill.ahead ≠ [] := fun hnil => by cases hend hnil
  obtain ⟨later, hsource, _, hline⟩ := hshows.lines
  rw [hline hahead]
  refine ⟨hshows.failure, ⟨later, hsource, by rw [ahead_passLine, List.nil_append], fun hne => ?_⟩,
    fun _ => ?_⟩
  · exact absurd (ahead_passLine _) hne
  · rw [if_pos (ahead_passLine _), ← h.position]
    rfl

end Feed

end Sexp
