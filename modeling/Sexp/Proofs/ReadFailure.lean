import Sexp.Proofs.OnePass

/-!
# Texts that end in a read failure

The bytes of a source, cut into lines, have a first line that cannot be read, or none (`Ending.texts`). Where
there is one, the lexer hands out the tokens of the lines before it and then stops for good: the text of these
lines breaks off (`Feed.View.brokenOff`). A failure takes one token away at most, namely a string literal that
goes on behind an escaped line break. `Lexer.takeAll_of_delivers` says all of this about the deliveries of a
source.
-/

namespace Sexp

/-! ## Texts of lines -/

namespace Ending

/-- What reading the last line brings, which no line break ends. -/
def last : Ending → List UInt8 → Except ReadFailure (List UInt8)
  | clean, bytes => .ok bytes
  | failure text, _ => .error (.reported text)

/-- What reading each of these lines brings. All but the last one end in a line break. -/
def linesOf (ending : Ending) : List (List UInt8) → List (Except ReadFailure (List UInt8))
  | [] => []
  | [bytes] => [ending.last bytes]
  | bytes :: next :: rest => .ok (bytes ++ [Source.lineBreak]) :: ending.linesOf (next :: rest)

/-- What reading the bytes line by line brings, the last line being whatever follows the last line break. -/
def texts (ending : Ending) (bytes : List UInt8) : List (Except ReadFailure (List Char)) :=
  (ending.linesOf (bytes.splitOn Source.lineBreak)).map (·.bind Source.textOfLine)

variable {ending : Ending} {bytes before rest : List UInt8}

theorem line_of_not_mem (h : Source.lineBreak ∉ bytes) : ending.line bytes = (ending.last bytes, []) := by
  cases ending with
  | clean => exact Source.line_clean h
  | failure text => exact Source.line_failure text h

theorem texts_of_not_mem (h : Source.lineBreak ∉ bytes) :
    ending.texts bytes = [(ending.last bytes).bind Source.textOfLine] := by
  rw [texts, List.splitOn_eq_singleton h]
  rfl

theorem texts_of_break (h : Source.lineBreak ∉ before) :
    ending.texts (before ++ Source.lineBreak :: rest) =
      Source.textOfLine (before ++ [Source.lineBreak]) :: ending.texts rest := by
  obtain ⟨next, later, hlater⟩ := List.exists_cons_of_ne_nil (List.splitOn_ne_nil Source.lineBreak rest)
  rw [texts, List.splitOn_append_cons_self_of_not_mem h, texts, hlater]
  rfl

end Ending

namespace Source

theorem textOfLine_eq_ok_iff {line : List UInt8} {text : List Char} :
    textOfLine line = .ok text ↔ line = Utf8.encode text := by
  rw [← Utf8.decode_eq_some_iff, textOfLine]
  cases Utf8.decode line with
  | none =>
    constructor <;> (intro h; cases h)
  | some found =>
    constructor <;> (intro h; cases h; rfl)

theorem exists_of_textOfLine_break {before : List UInt8} {text : List Char} (hbefore : lineBreak ∉ before)
    (h : textOfLine (before ++ [lineBreak]) = .ok text) :
    ∃ line, '\n' ∉ line ∧ text = line ++ ['\n'] := by
  rw [textOfLine_eq_ok_iff] at h
  have hmem : '\n' ∈ text := by
    rw [← lineBreak_mem_encode, ← h]
    simp
  obtain ⟨line, rest, rfl, hline⟩ := List.eq_append_cons_of_mem hmem
  have hfirst := (line_encode (line ++ '\n' :: rest)).symm
  rw [← h, line_of_break .clean hbefore, splitLine_line hline, Prod.mk.injEq] at hfirst
  have hrest : rest = [] := by
    have hsize := Utf8.length_le_length_encode rest
    rw [hfirst.2] at hsize
    exact List.eq_nil_of_length_eq_zero (Nat.le_zero.1 hsize)
  exact ⟨line, hline, by rw [hrest]⟩

end Source

theorem answers_cases {ε α : Type} (answers : List (Except ε α)) :
    (∃ good : List α, answers = good.map .ok) ∨
      ∃ (good : List α) (failure : ε) (more : List (Except ε α)),
        answers = good.map .ok ++ .error failure :: more := by
  induction answers with
  | nil => exact .inl ⟨[], rfl⟩
  | cons answer answers ih =>
    cases answer with
    | error failure => exact .inr ⟨[], failure, answers, rfl⟩
    | ok value =>
      rcases ih with ⟨good, rfl⟩ | ⟨good, failure, more, rfl⟩
      · exact .inl ⟨value :: good, rfl⟩
      · exact .inr ⟨value :: good, failure, more, rfl⟩

theorem Ending.texts_eq_ok {ending : Ending} {bytes : List UInt8} {texts : List (List Char)}
    (h : ending.texts bytes = texts.map .ok) : ending = .clean ∧ bytes = Utf8.encode texts.flatten := by
  induction texts generalizing bytes with
  | nil =>
    rcases Source.line_cases bytes with hnone | ⟨before, rest, hbefore, rfl⟩
    · rw [texts_of_not_mem hnone] at h
      cases h
    · rw [texts_of_break hbefore] at h
      cases h
  | cons text texts ih =>
    rw [List.flatten_cons, Utf8.encode_append]
    rcases Source.line_cases bytes with hnone | ⟨before, rest, hbefore, rfl⟩
    · rw [texts_of_not_mem hnone, List.map_cons, List.cons.injEq] at h
      have htexts : texts = [] := List.map_eq_nil_iff.1 h.2.symm
      subst htexts
      cases ending with
      | failure text => cases h.1
      | clean =>
        refine ⟨rfl, ?_⟩
        rw [List.flatten_nil, Utf8.encode_nil, List.append_nil]
        exact Source.textOfLine_eq_ok_iff.1 h.1
    · rw [texts_of_break hbefore, List.map_cons, List.cons.injEq] at h
      obtain ⟨hending, hrest⟩ := ih h.2
      refine ⟨hending, ?_⟩
      rw [← Source.textOfLine_eq_ok_iff.1 h.1, ← hrest, List.append_assoc, List.singleton_append]

/-! ## Sources that break off -/

namespace Source

/-- The source hands out the lines of this text, and the read after them fails. -/
inductive Stops (failure : ReadFailure) : Source → List Char → Prop
  | here {source : Source} : source.takeText.1 = .error failure → Stops failure source []
  | line {source : Source} {line rest : List Char} : '\n' ∉ line → source.takeText.1 = .ok (line ++ ['\n']) →
    Stops failure source.takeText.2 rest → Stops failure source (line ++ '\n' :: rest)

theorem stops_of_holds {source : Source} {bytes : List UInt8} {ending : Ending} {texts : List (List Char)}
    {failure : ReadFailure} {more : List (Except ReadFailure (List Char))} (h : source.Holds bytes ending)
    (htexts : ending.texts bytes = texts.map .ok ++ .error failure :: more) :
    source.Stops failure texts.flatten ∧ texts.flatten.count '\n' = texts.length := by
  obtain ⟨htaken, hleft⟩ := takeText_of_holds h
  induction texts generalizing source bytes with
  | nil =>
    refine ⟨.here ?_, rfl⟩
    rw [htaken]
    rcases line_cases bytes with hnone | ⟨before, rest, hbefore, rfl⟩
    · rw [Ending.texts_of_not_mem hnone] at htexts
      rw [Ending.line_of_not_mem hnone]
      exact (List.cons.inj htexts).1
    · rw [Ending.texts_of_break hbefore] at htexts
      rw [line_of_break ending hbefore]
      exact (List.cons.inj htexts).1
  | cons text texts ih =>
    rcases line_cases bytes with hnone | ⟨before, rest, hbefore, rfl⟩
    · -- the line that cannot be read is not the last one
      rw [Ending.texts_of_not_mem hnone] at htexts
      exact absurd (List.cons.inj htexts).2.symm (by simp)
    · rw [Ending.texts_of_break hbefore, List.map_cons, List.cons_append, List.cons.injEq] at htexts
      rw [line_of_break ending hbefore] at htaken hleft
      have htext : source.takeText.1 = .ok text := htaken.trans htexts.1
      have hrest := hleft text htext
      obtain ⟨htaken', hleft'⟩ := takeText_of_holds hrest
      obtain ⟨hstops, hcount⟩ := ih hrest htexts.2 htaken' hleft'
      obtain ⟨line, hline, rfl⟩ := exists_of_textOfLine_break hbefore htexts.1
      rw [List.flatten_cons, List.append_assoc, List.singleton_append]
      refine ⟨.line hline htext hstops, ?_⟩
      rw [List.count_append, List.count_eq_zero.2 hline, List.count_cons_self, hcount, Nat.zero_add,
        List.length_cons]

end Source

/-! ## Feeds that break off -/

namespace Feed

open Token.OnePass (next)

/-- The same feed on another source. -/
def on (feed : Feed) (source : Source) : Feed := { feed with source }

@[simp] theorem ahead_on (feed : Feed) (source : Source) : (feed.on source).ahead = feed.ahead := rfl

/-- What is left of the text before the line with this number, which cannot be read. -/
inductive BreaksOff (number : Nat) (failure : ReadFailure) (feed : Feed) (rest : List Char) (place : Position) :
    Prop
  /-- On a source that ends cleanly where this one fails, the feed would show the same text. -/
  | ahead {clean : Source} (later : List Char) : (feed.on clean).Shows rest place →
    rest = feed.ahead ++ later → feed.source.Stops failure later →
    number = feed.line + later.count '\n' + 1 → BreaksOff number failure feed rest place
  | stopped : rest = [] → feed.ahead = [] → feed.failure = some (.unreadable number failure) →
    BreaksOff number failure feed rest place

variable {number : Nat} {failure : ReadFailure} {source clean : Source} {feed : Feed} {text rest : List Char}
  {place : Position} {c : Char}

theorem breaksOff_ofSource (h : source.Stops failure text) :
    (ofSource source).BreaksOff (text.count '\n' + 1) failure text ⟨1, 1⟩ := by
  have hholds := Source.holds_ofText (String.ofList text)
  rw [String.toList_ofList] at hholds
  refine .ahead text (shows_ofSource hholds) rfl h ?_
  show text.count '\n' + 1 = 0 + text.count '\n' + 1
  rw [Nat.zero_add]

theorem nextLine_of_text (h : feed.source.takeText.1 = .ok text) (hne : text ≠ []) :
    feed.nextLine = { feed with
      source := feed.source.takeText.2, text := text.toArray, cursor := 0, line := feed.line + 1 } := by
  unfold nextLine
  generalize feed.source.takeText = taken at h
  obtain ⟨answer, source⟩ := taken
  subst h
  obtain ⟨c, rest, rfl⟩ := List.exists_cons_of_ne_nil hne
  rfl

theorem nextLine_of_failure (h : feed.source.takeText.1 = .error failure) :
    feed.nextLine.ahead = [] ∧ feed.nextLine.failure = some (.unreadable (feed.line + 1) failure) := by
  unfold nextLine
  generalize feed.source.takeText = taken at h
  obtain ⟨answer, source⟩ := taken
  subst h
  exact ⟨rfl, rfl⟩

theorem nextLine_on (h : clean.takeText.1 = feed.source.takeText.1) :
    (feed.on clean).nextLine = feed.nextLine.on clean.takeText.2 := by
  have hsource : (feed.on clean).source = clean := rfl
  unfold nextLine
  rw [hsource]
  generalize clean.takeText = taken at h ⊢
  generalize feed.source.takeText = taken' at h ⊢
  obtain ⟨answer, source⟩ := taken
  obtain ⟨answer', source'⟩ := taken'
  subst h
  rcases answer with failure | (_ | ⟨c, line⟩) <;> rfl

theorem breaksOff_nextLine (hshows : (feed.on clean).Shows rest place) (hahead : feed.ahead = [])
    (hstops : feed.source.Stops failure rest) (hnumber : number = feed.line + rest.count '\n' + 1) :
    feed.nextLine.BreaksOff number failure rest place ∧
      (feed.nextLine.ahead = [] → rest = [] ∧ feed.nextLine.failure = some (.unreadable number failure)) := by
  cases hstops with
  | here htext =>
    obtain ⟨hnone, hfailure⟩ := nextLine_of_failure htext
    rw [List.count_nil, Nat.add_zero] at hnumber
    rw [← hnumber] at hfailure
    exact ⟨.stopped rfl hnone hfailure, fun _ => ⟨rfl, hfailure⟩⟩
  | @line _ line later hline htext hstops =>
    obtain ⟨later', hholds, hrest, _⟩ := hshows.lines
    rw [ahead_on, hahead, List.nil_append] at hrest
    subst hrest
    -- only the lines behind this one differ from those of the source that ends cleanly
    have hclean : clean.takeText.1 = feed.source.takeText.1 := by
      have hfirst := (Source.takeText_of_text hholds).1
      rw [splitLine_line hline] at hfirst
      exact hfirst.trans htext.symm
    have hfilled := hshows.fill.1
    rw [@fill_of_used (feed.on clean) hahead hshows.failure, nextLine_on hclean] at hfilled
    have hnext := nextLine_of_text htext (by simp)
    have hline' : feed.nextLine.ahead = line ++ ['\n'] := by rw [hnext]; rfl
    refine ⟨.ahead later hfilled ?_ ?_ ?_, fun hnil => ?_⟩
    · rw [hline', List.append_assoc, List.singleton_append]
    · rw [hnext]
      exact hstops
    · rw [hnext, hnumber, List.count_append, List.count_eq_zero.2 hline, List.count_cons_self]
      show _ = feed.line + 1 + later.count '\n' + 1
      omega
    · rw [hline'] at hnil
      exact absurd hnil (by simp)

theorem BreaksOff.fill (h : feed.BreaksOff number failure rest place) :
    feed.fill.BreaksOff number failure rest place ∧
      (feed.fill.ahead = [] → rest = [] ∧ feed.fill.failure = some (.unreadable number failure)) := by
  cases h with
  | ahead later hshows hrest hstops hnumber =>
    by_cases hahead : feed.ahead = []
    · rw [hahead, List.nil_append] at hrest
      subst hrest
      rw [@fill_of_used feed hahead hshows.failure]
      exact breaksOff_nextLine hshows hahead hstops hnumber
    · rw [fill_of_ahead hahead]
      exact ⟨.ahead later hshows hrest hstops hnumber, fun hnil => absurd hnil hahead⟩
  | stopped hrest hahead hfailure =>
    have hfill : feed.fill = feed := by
      rw [Feed.fill, if_pos (.inr (by rw [hfailure]; rfl))]
    rw [hfill]
    exact ⟨.stopped hrest hahead hfailure, fun _ => ⟨hrest, hfailure⟩⟩

theorem BreaksOff.current? (h : feed.BreaksOff number failure rest place) :
    feed.fill.current? = rest.head? := by
  obtain ⟨hfilled, hend⟩ := h.fill
  rw [current?_eq_head?]
  cases hahead : feed.fill.ahead with
  | nil =>
    rw [(hend hahead).1]
  | cons c line =>
    cases hfilled with
    | ahead _ _ hrest _ _ =>
      rw [hrest, hahead]
      rfl
    | stopped _ hnil _ =>
      rw [hahead] at hnil
      cases hnil

theorem BreaksOff.filled (h : feed.BreaksOff number failure (c :: rest) place) :
    ∃ clean line later, (feed.fill.on clean).Shows (c :: rest) place ∧
      (feed.fill.on clean).fill = feed.fill.on clean ∧ feed.fill.ahead = c :: line ∧ rest = line ++ later ∧
      feed.fill.source.Stops failure later ∧ number = feed.fill.line + later.count '\n' + 1 := by
  obtain ⟨hfilled, hend⟩ := h.fill
  have hahead : feed.fill.ahead ≠ [] := fun hnil => by cases (hend hnil).1
  cases hfilled with
  | @ahead clean later hshows hrest hstops hnumber =>
    have hfill := @fill_of_ahead (feed.fill.on clean) hahead
    obtain ⟨d, line, hcons⟩ := List.exists_cons_of_ne_nil hahead
    rw [hcons, List.cons_append, List.cons.injEq] at hrest
    obtain ⟨rfl, hrest⟩ := hrest
    exact ⟨clean, line, later, hshows, hfill, hcons, hrest, hstops, hnumber⟩
  | stopped hnil => cases hnil

theorem BreaksOff.position (h : feed.BreaksOff number failure (c :: rest) place) :
    feed.fill.position = place := by
  obtain ⟨clean, _, _, hshows, hfill, _⟩ := h.filled
  have hposition := hshows.position
  rw [hfill] at hposition
  exact hposition

theorem BreaksOff.unfailed (h : feed.BreaksOff number failure (c :: rest) place) :
    feed.fill.failure = none := by
  obtain ⟨_, _, _, hshows, _⟩ := h.filled
  exact hshows.failure

theorem BreaksOff.pass (h : feed.BreaksOff number failure (c :: rest) place) :
    feed.fill.pass.BreaksOff number failure rest (next place c) := by
  obtain ⟨clean, line, later, hshows, hfill, hahead, hrest, hstops, hnumber⟩ := h.filled
  have hpass := hshows.pass
  rw [hfill] at hpass
  refine .ahead later hpass ?_ hstops hnumber
  rw [ahead_pass, hahead, List.tail_cons, hrest]

theorem BreaksOff.passLine (h : feed.BreaksOff number failure (c :: rest) place) :
    feed.fill.passLine.BreaksOff number failure (splitLine (c :: rest)).2 ⟨place.line + 1, 1⟩ := by
  obtain ⟨clean, line, later, hshows, hfill, hahead, hrest, hstops, hnumber⟩ := h.filled
  obtain ⟨later', _, hlater, hline⟩ := hshows.lines
  have hsplit := hline (by rw [ahead_on, hahead]; exact List.cons_ne_nil _ _)
  rw [ahead_on, hahead, hrest, List.cons_append, List.cons.injEq, List.append_cancel_left_eq] at hlater
  obtain ⟨-, rfl⟩ := hlater
  have hpass := hshows.passLine
  rw [hfill] at hpass
  refine .ahead later hpass ?_ hstops hnumber
  rw [hsplit, ahead_passLine, List.nil_append]

theorem BreaksOff.failure_fill (h : feed.BreaksOff number failure [] place) :
    feed.fill.failure = some (.unreadable number failure) := by
  obtain ⟨hfilled, hend⟩ := h.fill
  cases hfilled with
  | ahead _ _ hrest _ _ => exact (hend (List.append_eq_nil_iff.1 hrest.symm).1).2
  | stopped _ _ hfailure => exact hfailure

/-- A text that ends in a line that cannot be read. -/
def View.brokenOff (number : Nat) (failure : ReadFailure) : View where
  Left := BreaksOff number failure
  stop := some (.unreadable number failure)
  fill h := h.fill.1
  current? h := h.current?
  position h := h.position
  pass h := h.pass
  passLine h := h.passLine
  unfailed h := h.unfailed
  stopped h := h.failure_fill

end Feed

/-! ## Tokens that go on behind a line -/

namespace Token.OnePass

variable {begun : Begun} {place start : Position} {tokens : List Token} {content : List Char} {c : Char}

theorem between_ne_escape : (between place tokens c).1 ≠ .escape start content := by
  intro h
  unfold between at h
  split at h
  case h_8 => split at h <;> cases h
  all_goals cases h

theorem eq_of_within_escape {outer : Position} {inner : List Char}
    (h : (within outer inner tokens c).1 = .escape start content) : c = '\\' := by
  unfold within at h
  by_cases hend : c = '"' ∨ isLineEnd c
  · rw [if_pos hend] at h
    cases h
  · rw [if_neg hend] at h
    by_cases hescape : c = '\\'
    · exact hescape
    · rw [if_neg hescape] at h
      cases h

theorem eq_of_take_escape (h : (take place tokens c begun).1 = .escape start content) : c = '\\' := by
  cases begun with
  | nothing => exact absurd h between_ne_escape
  | comment =>
    by_cases hc : c = '\n'
    · rw [take, if_pos hc] at h
      cases h
    · rw [take, if_neg hc] at h
      cases h
  | word outer letters =>
    by_cases hcon : isConstituent c
    · rw [take, if_pos hcon] at h
      cases h
    · rw [take, if_neg hcon] at h
      exact absurd h between_ne_escape
  | string outer inner => exact eq_of_within_escape h
  | escape outer inner =>
    cases hoctal : octalDigit? c <;> simp only [take, hoctal] at h <;> cases h
  | octal outer inner digits code =>
    cases hoctal : octalDigit? c with
    | none =>
      rw [take_octal_end _ _ _ _ _ _ hoctal] at h
      exact eq_of_within_escape h
    | some digit =>
      cases digits with
      | zero => exact eq_of_within_escape h
      | succ digits =>
        simp only [take, hoctal] at h
        cases h

theorem take_lineBreak (place : Position) (tokens : List Token) (begun : Begun) :
    (take place tokens '\n' begun).1 = .nothing ∨
      ∃ start content, begun = .escape start content ∧
        take place tokens '\n' begun = (.string start ('\n' :: content), tokens) := by
  cases begun with
  | nothing => exact .inl rfl
  | comment => exact .inl rfl
  | word start letters => exact .inl rfl
  | string start content => exact .inl rfl
  | escape start content => exact .inr ⟨start, content, rfl, rfl⟩
  | octal start content digits code => cases digits <;> exact .inl rfl

/-- What has begun at the end of lines that all have their line break. -/
theorem begun_run_lines {text : List Char} (h : text = [] ∨ ∃ init, text = init ++ ['\n']) :
    (run OnePass.start text).begun = .nothing ∨
      ∃ before start content, text = before ++ ['\\', '\n'] ∧
        (run OnePass.start text).begun = .string start ('\n' :: content) := by
  rcases h with rfl | ⟨init, rfl⟩
  · exact .inl rfl
  · rw [run_snoc]
    rcases take_lineBreak (run OnePass.start init).place (run OnePass.start init).tokens
      (run OnePass.start init).begun with hnothing | ⟨start, content, hescape, htake⟩
    · exact .inl hnothing
    · refine .inr ?_
      rcases List.eq_nil_or_concat init with rfl | ⟨before, c, hinit⟩
      · cases hescape
      · rw [List.concat_eq_append] at hinit
        subst hinit
        have hstate := hescape
        rw [run_snoc] at hstate
        obtain rfl := eq_of_take_escape hstate
        exact ⟨before, start, content, List.append_assoc .., congrArg Prod.fst htake⟩

theorem tokens_lines {text : List Char} (h : text = [] ∨ ∃ init, text = init ++ ['\n']) :
    if endsInString text then
      ∃ before start content, text = before ++ ['\\', '\n'] ∧
        OnePass.tokens text = (run OnePass.start text).tokens.reverse ++ [stringOf start ('\n' :: content)]
    else OnePass.tokens text = (run OnePass.start text).tokens.reverse := by
  have hbegun := begun_run_lines h
  rw [OnePass.tokens, State.finish_eq, State.ended, endsInString]
  generalize run OnePass.start text = state at hbegun ⊢
  obtain ⟨begun, place, tokens⟩ := state
  rcases hbegun with hnothing | ⟨before, start, content, htext, hstring⟩
  · cases hnothing
    rfl
  · cases hstring
    exact ⟨before, start, content, htext, List.reverse_cons⟩

end Token.OnePass

/-! ## What the lexer hands out -/

theorem Source.Stops.lines {failure : ReadFailure} {source : Source} {text : List Char}
    (h : source.Stops failure text) : text = [] ∨ ∃ init, text = init ++ ['\n'] := by
  induction h with
  | here => exact .inl rfl
  | @line _ line rest _ _ _ ih =>
    rcases ih with rfl | ⟨init, rfl⟩
    · exact .inr ⟨line, rfl⟩
    · exact .inr ⟨line ++ '\n' :: init, (List.append_assoc line ('\n' :: init) ['\n']).symm⟩

namespace Lexer

open Token

theorem takeAll_of_stops {source : Source} {failure : ReadFailure} {text : List Char}
    (h : source.Stops failure text) :
    (ofSource source).takeAll.1 = (OnePass.run OnePass.start text).tokens.reverse ∧
      (ofSource source).takeAll.2.failure = some (.unreadable (text.count '\n' + 1) failure) := by
  have hleads : (Feed.View.brokenOff (text.count '\n' + 1) failure).Leads (Feed.ofSource source) .nothing []
      (OnePass.run OnePass.start text).result :=
    ⟨text, ⟨1, 1⟩, Feed.breaksOff_ofSource h, rfl⟩
  obtain ⟨htokens, hfailure⟩ := takeAll_of_leads hleads rfl
  refine ⟨?_, hfailure⟩
  rw [List.append_nil] at htokens
  exact (List.reverse_eq_iff.1 htokens.symm)

theorem allOfText_ofList (text : List Char) : allOfText (String.ofList text) = OnePass.tokens text := by
  have hholds := Source.holds_ofText (String.ofList text)
  rw [String.toList_ofList] at hholds
  exact (takeAll_of_holds hholds).1

variable {deliveries : List Delivery} {bytes : List UInt8} {ending : Ending} {texts : List (List Char)}

theorem takeAll_of_texts_ok (h : Delivers deliveries bytes ending) (htexts : ending.texts bytes = texts.map .ok) :
    ending = .clean ∧ Utf8.decode bytes = some texts.flatten ∧
      (ofSource (.ofDeliveries deliveries)).takeAll.1 = allOfText (String.ofList texts.flatten) ∧
      (ofSource (.ofDeliveries deliveries)).takeAll.2.failure = none := by
  obtain ⟨rfl, rfl⟩ := Ending.texts_eq_ok htexts
  rw [allOfText_ofList]
  exact ⟨rfl, Utf8.decode_encode _, takeAll_of_holds (Source.holds_ofDeliveries h)⟩

/-- The deliveries of a source are read by lines. Where all lines can be read, the lexer hands out the tokens of
the text that the bytes are. Otherwise it hands out the tokens of the lines before the first one that cannot be
read, less the last token if that is a string literal still open there, and keeps the failure of that line. So no
failure is kept exactly if the deliveries end cleanly and their bytes are a text. -/
theorem takeAll_of_delivers (h : Delivers deliveries bytes ending) :
    (∀ texts : List (List Char), ending.texts bytes = texts.map .ok →
        Utf8.decode bytes = some texts.flatten ∧
          (ofSource (.ofDeliveries deliveries)).takeAll.1 = allOfText (String.ofList texts.flatten) ∧
          (ofSource (.ofDeliveries deliveries)).takeAll.2.failure = none) ∧
      (∀ (texts : List (List Char)) failure more,
        ending.texts bytes = texts.map .ok ++ .error failure :: more →
        (ofSource (.ofDeliveries deliveries)).takeAll.2.failure =
            some (.unreadable (texts.length + 1) failure) ∧
          if OnePass.endsInString texts.flatten then
            ∃ before start content, texts.flatten = before ++ ['\\', '\n'] ∧
              allOfText (String.ofList texts.flatten) =
                (ofSource (.ofDeliveries deliveries)).takeAll.1 ++
                  [⟨.string, String.ofList (content ++ ['\n']), start⟩]
          else (ofSource (.ofDeliveries deliveries)).takeAll.1 = allOfText (String.ofList texts.flatten)) ∧
      ((ofSource (.ofDeliveries deliveries)).takeAll.2.failure = none ↔
        ending = .clean ∧ ∃ text, Utf8.decode bytes = some text) := by
  -- the lexer stops at the first line that cannot be read, whatever is open there
  have hbroken : ∀ (texts : List (List Char)) failure more,
      ending.texts bytes = texts.map .ok ++ .error failure :: more →
      (ofSource (.ofDeliveries deliveries)).takeAll.1 =
          (OnePass.run OnePass.start texts.flatten).tokens.reverse ∧
        (ofSource (.ofDeliveries deliveries)).takeAll.2.failure =
          some (.unreadable (texts.length + 1) failure) := by
    intro texts failure more htexts
    obtain ⟨hstops, hcount⟩ := Source.stops_of_holds (Source.holds_ofDeliveries h) htexts
    have hall := takeAll_of_stops hstops
    rwa [hcount] at hall
  refine ⟨fun texts htexts => (takeAll_of_texts_ok h htexts).2, fun texts failure more htexts => ?_, ?_, ?_⟩
  · obtain ⟨htokens, hfailure⟩ := hbroken texts failure more htexts
    refine ⟨hfailure, ?_⟩
    have hlines := OnePass.tokens_lines
      (Source.stops_of_holds (Source.holds_ofDeliveries h) htexts).1.lines
    rw [htokens, allOfText_ofList]
    by_cases hopen : OnePass.endsInString texts.flatten
    · rw [if_pos hopen] at hlines ⊢
      obtain ⟨before, start, content, htext, hall⟩ := hlines
      refine ⟨before, start, content.reverse, htext, ?_⟩
      rw [hall, OnePass.stringOf, List.reverse_cons]
    · rw [if_neg hopen] at hlines ⊢
      exact hlines.symm
  · intro hnone
    rcases answers_cases (ending.texts bytes) with ⟨texts, htexts⟩ | ⟨texts, failure, more, htexts⟩
    · obtain ⟨hending, hdecode, _⟩ := takeAll_of_texts_ok h htexts
      exact ⟨hending, texts.flatten, hdecode⟩
    · rw [(hbroken texts failure more htexts).2] at hnone
      cases hnone
  · rintro ⟨rfl, text, htext⟩
    rw [Utf8.eq_encode_of_decode htext] at h
    exact (takeAll_of_holds (Source.holds_ofDeliveries h)).2

/-- A failure takes the string literal away that goes on behind the first line, and comes before the complaint
about the last byte. -/
theorem takeAll_of_delivers_of_open_string :
    Delivers [.bytes [120, 32, 34, 121], .interrupted, .bytes [92, 10, 255], .failure "unplugged"]
        [120, 32, 34, 121, 92, 10, 255] (.failure "unplugged") ∧
      (Ending.failure "unplugged").texts [120, 32, 34, 121, 92, 10, 255] =
        [.ok "x \"y\\\n".toList, .error (.reported "unplugged")] ∧
      (ofSource (.ofDeliveries [.bytes [120, 32, 34, 121], .interrupted, .bytes [92, 10, 255],
        .failure "unplugged"])).takeAll.1 = [⟨.word, "x", ⟨1, 1⟩⟩] ∧
      (ofSource (.ofDeliveries [.bytes [120, 32, 34, 121], .interrupted, .bytes [92, 10, 255],
        .failure "unplugged"])).takeAll.2.failure = some (.unreadable 2 (.reported "unplugged")) := by
  have h : Delivers [.bytes [120, 32, 34, 121], .interrupted, .bytes [92, 10, 255], .failure "unplugged"]
      [120, 32, 34, 121, 92, 10, 255] (.failure "unplugged") :=
    .piece (by decide) (.interrupted (.piece (by decide) .failure))
  have htexts : (Ending.failure "unplugged").texts [120, 32, 34, 121, 92, 10, 255] =
      [.ok "x \"y\\\n".toList, .error (.reported "unplugged")] := by
    rfl
  obtain ⟨hfailure, hopen⟩ := (takeAll_of_delivers h).2.1 ["x \"y\\\n".toList] _ [] htexts
  rw [if_pos (by decide)] at hopen
  obtain ⟨before, start, content, -, htokens⟩ := hopen
  have hall : allOfText "x \"y\\\n" = [⟨.word, "x", ⟨1, 1⟩⟩] ++ [⟨.string, "y\n", ⟨1, 3⟩⟩] := by
    decide +kernel
  exact ⟨h, htexts, (List.append_inj' (htokens.symm.trans hall) rfl).1, hfailure⟩

end Lexer

end Sexp
