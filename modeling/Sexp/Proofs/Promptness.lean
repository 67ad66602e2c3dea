import Sexp.Proofs.Derivation
import Sexp.Proofs.LineByLine
import Sexp.Proofs.OnePass

/-!
# Nothing is read ahead

A form is complete with the last character of its last token, or where that token is a string literal that its line
ends, just before the line end. A reader that has read a form stands right there (`Feed.Handed`): the automaton of the
one pass, run over the characters that are behind the feed, has the same tokens, and the next character belongs to none
of them. So a source that delivers a line at a time has been polled for the lines up to that place and for no other
(`Reader.stops_at_form_end`).
-/

namespace Sexp

/-- The text of these lines, each with its line break. -/
def unlines (lines : List (List Char)) : List Char := lines.flatMap (· ++ ['\n'])

namespace Token

/-- The token ends between these two texts, and the last of it is in this line: a string literal ends with its closing
quote, or right before the line end that closes it. -/
def EndsAt (token : Token) (done ahead : List Char) (line : Nat) : Prop :=
  match token.kind with
  | .word => ∃ before, done = before ++ token.text.toList ∧ token.position = placeAfter before ∧
    token.position.line = line
  | .string =>
    (∃ inside, done = inside ++ ['"'] ∧ OnePass.endsInString inside ∧ ¬OnePass.endsInString done ∧
      (placeAfter inside).line = line) ∨
    ∃ c rest, ahead = c :: rest ∧ isLineEnd c ∧ OnePass.endsInString done ∧ (placeAfter done).line = line
  | kind => ∃ before c, done = before ++ [c] ∧ markKind? c = some kind ∧ token.position = placeAfter before ∧
    token.position.line = line

theorem line_placeAfter_append (before : List Char) {more : List Char} (h : '\n' ∉ more) :
    (placeAfter (before ++ more)).line = (placeAfter before).line := by
  have hcount : more.count '\n' = 0 := List.count_eq_zero.2 h
  simp only [placeAfter, List.count_append, hcount, Nat.add_zero]

namespace OnePass

variable {state : State} {begun : Begun} {c : Char} {rest ahead content : List Char} {start : Position}

/-- What has begun is over before this text: its first character is taken as one between tokens. -/
def State.OverBefore (state : State) (ahead : List Char) : Prop :=
  state.begun = .nothing ∨
    ∃ c rest, ahead = c :: rest ∧ step state c = step ⟨.nothing, state.place, state.ended⟩ c

theorem State.OverBefore.step_eq (h : state.OverBefore (c :: rest)) :
    step state c = step ⟨.nothing, state.place, state.ended⟩ c := by
  rcases h with hbegun | ⟨d, rest', hahead, hstep⟩
  · obtain ⟨begun, place, tokens⟩ := state
    cases hbegun
    rfl
  · cases hahead
    exact hstep

/-- A string literal with this content is open before this text, outside of its escapes. -/
inductive InString (start : Position) : List Char → Begun → List Char → Prop
  | string {content ahead : List Char} : InString start content (.string start content) ahead
  /-- An octal escape is complete, or the next character is no digit of it. -/
  | octal {content rest : List Char} {digits code : Nat} {c : Char} : digits = 0 ∨ octalDigit? c = none →
    InString start (Char.ofNat code :: content) (.octal start content digits code) (c :: rest)

theorem InString.take (h : InString start content begun (c :: rest)) (place : Position) (tokens : List Token) :
    take place tokens c begun = within start content tokens c := by
  cases h with
  | string => rfl
  | octal hend =>
    rcases hend with rfl | hnone
    · rfl
    · exact take_octal_end _ _ _ _ _ _ hnone

theorem InString.ended (h : InString start content begun ahead) (place : Position) (tokens : List Token) :
    State.ended ⟨begun, place, tokens⟩ = stringOf start content :: tokens := by
  cases h <;> rfl

theorem InString.endsInString {done : List Char} (h : InString start content (run OnePass.start done).begun ahead) :
    endsInString done := by
  unfold OnePass.endsInString
  generalize (run OnePass.start done).begun = begun at h
  cases h <;> rfl

end OnePass

end Token

/-! ## Feeds -/

namespace Feed

open Token (placeAfter placeAfter_snoc line_placeAfter_append)
open Token.OnePass (InString State run next)

variable {feed : Feed} {lines : List (List Char)} {more : List Delivery} {done rest : List Char} {c : Char}

/-- The feed has been fed by these lines alone, and what has been passed of their text is this. -/
structure Past (lines : List (List Char)) (more : List Delivery) (done : List Char) (feed : Feed) : Prop where
  fed : feed.Fed lines more
  text : unlines (lines.take feed.line) = done ++ feed.ahead
  ends : feed.ahead = [] ∨ ∃ init, '\n' ∉ init ∧ feed.ahead = init ++ ['\n']
  place : placeAfter done = if feed.ahead = [] then ⟨feed.line + 1, 1⟩ else feed.position

theorem current?_eq_some_iff : feed.current? = some c ↔ ∃ rest, feed.ahead = c :: rest := by
  rw [current?_eq_head?, List.head?_eq_some_iff]

theorem fill_of_cons (hahead : feed.ahead = c :: rest) : feed.fill = feed :=
  fill_of_ahead (hahead ▸ List.cons_ne_nil c rest)

theorem past_ofDeliveries (lines : List (List Char)) (more : List Delivery) :
    (ofSource (.ofDeliveries (lines.map .line ++ more))).Past lines more [] :=
  ⟨fed_ofDeliveries lines more, rfl, .inl rfl, rfl⟩

theorem Past.position (h : feed.Past lines more done) (hahead : feed.ahead ≠ []) :
    feed.position = placeAfter done := by
  rw [h.place, if_neg hahead]

theorem Past.line (h : feed.Past lines more done) (hahead : feed.ahead = c :: rest) :
    (placeAfter done).line = feed.line := by
  rw [← h.position (hahead ▸ List.cons_ne_nil c rest)]
  rfl

theorem Past.fill (hlines : ∀ text ∈ lines, '\n' ∉ text) (h : feed.Past lines more done) :
    feed.fill.Overread lines ∨ feed.fill.Past lines more done ∧ ∃ c rest, feed.fill.ahead = c :: rest := by
  by_cases hahead : feed.ahead = []
  · rw [fill_of_used hahead h.fed.failure]
    cases htext : lines[feed.line]? with
    | none => exact .inl (h.fed.overread_nextLine htext)
    | some text =>
      have hbreak := hlines text (List.mem_of_getElem? htext)
      have hfed := h.fed.fed_nextLine htext hbreak
      have hplace := h.place
      have hbefore := h.text
      rw [if_pos hahead] at hplace
      rw [hahead, List.append_nil] at hbefore
      rw [h.fed.nextLine_eq htext hbreak] at hfed ⊢
      have hnew : (Feed.mk ⟨[], (lines.drop (feed.line + 1)).map .line ++ more, feed.line + 1⟩
        (text ++ ['\n']).toArray 0 (feed.line + 1) none).ahead = text ++ ['\n'] := rfl
      refine .inr ⟨⟨hfed, ?_, .inr ⟨text, hbreak, hnew⟩, ?_⟩, ?_⟩
      · rw [hnew, ← hbefore]
        show unlines (lines.take (feed.line + 1)) = _
        rw [List.take_add_one, htext, unlines, unlines, List.flatMap_append]
        simp
      · rw [hplace, hnew, if_neg (by simp)]
        rfl
      · exact List.exists_cons_of_ne_nil (by rw [hnew]; simp)
  · rw [fill_of_ahead hahead]
    exact .inr ⟨h, List.exists_cons_of_ne_nil hahead⟩

theorem Past.cases_ahead (h : feed.Past lines more done) (hahead : feed.ahead = c :: rest) :
    c = '\n' ∧ rest = [] ∨ c ≠ '\n' ∧ ∃ init, '\n' ∉ init ∧ rest = init ++ ['\n'] := by
  rcases h.ends with hnil | ⟨init, hbreak, hinit⟩
  · rw [hahead] at hnil
    cases hnil
  · rw [hahead] at hinit
    cases init with
    | nil =>
      cases hinit
      exact .inl ⟨rfl, rfl⟩
    | cons d init =>
      cases hinit
      rw [List.mem_cons, not_or] at hbreak
      exact .inr ⟨Ne.symm hbreak.1, init, hbreak.2, rfl⟩

theorem Past.pass (h : feed.Past lines more done) (hahead : feed.ahead = c :: rest) :
    feed.pass.Past lines more (done ++ [c]) ∧ feed.pass.ahead = rest := by
  have hrest : feed.pass.ahead = rest := by rw [ahead_pass, hahead, List.tail_cons]
  have hposition := h.position (by rw [hahead]; exact List.cons_ne_nil c rest)
  have htext : unlines (lines.take feed.pass.line) = done ++ [c] ++ feed.pass.ahead := by
    rw [hrest, List.append_assoc, List.singleton_append, ← hahead]
    exact h.text
  have hfed : feed.pass.Fed lines more := ⟨h.fed.source, h.fed.within, h.fed.failure⟩
  rcases h.cases_ahead hahead with ⟨rfl, rfl⟩ | ⟨hc, init, hinit, rfl⟩
  · refine ⟨⟨hfed, htext, .inl hrest, ?_⟩, hrest⟩
    rw [placeAfter_snoc, ← hposition, next, if_pos rfl, if_pos hrest]
    rfl
  · refine ⟨⟨hfed, htext, .inr ⟨init, hinit, hrest⟩, ?_⟩, hrest⟩
    rw [placeAfter_snoc, ← hposition, next, if_neg hc, hrest, if_neg (by simp)]
    rfl

theorem Past.pass_cons (h : feed.Past lines more done) (hahead : feed.ahead = c :: rest) (hc : c ≠ '\n') :
    ∃ d rest', feed.pass.ahead = d :: rest' := by
  rcases h.cases_ahead hahead with ⟨hbreak, _⟩ | ⟨_, init, _, rfl⟩
  · exact absurd hbreak hc
  · rw [(h.pass hahead).2]
    exact List.exists_cons_of_ne_nil (by simp)

theorem Past.passLine (h : feed.Past lines more done) {init : List Char} (hinit : '\n' ∉ init)
    (hahead : feed.ahead = init ++ ['\n']) : feed.passLine.Past lines more (done ++ feed.ahead) := by
  have hposition := h.position (by rw [hahead]; simp)
  refine ⟨⟨h.fed.source, h.fed.within, h.fed.failure⟩, ?_, .inl (ahead_passLine feed), ?_⟩
  · rw [ahead_passLine, List.append_nil]
    exact h.text
  · rw [if_pos (ahead_passLine feed), hahead, ← List.append_assoc, placeAfter_snoc, next, if_pos rfl,
      line_placeAfter_append done hinit, ← hposition]
    rfl

theorem overread_of_reaches {next : Feed} (hreach : feed.Reaches next) (h : feed.Overread lines) :
    next.Overread lines :=
  hreach.keeps overread_move h

end Feed

/-! ## Scanners -/

namespace Feed

variable {lines : List (List Char)} {more : List Delivery} {tokens : List Token} {token : Token} {done : List Char}

/-- The feed is right behind the last character of this token, which follows these tokens, newest first. -/
structure Handed (lines : List (List Char)) (more : List Delivery) (tokens : List Token) (token : Token)
    (done : List Char) (feed : Feed) : Prop where
  past : feed.Past lines more done
  ended : (Token.OnePass.run Token.OnePass.start done).ended = token :: tokens
  overBefore : (Token.OnePass.run Token.OnePass.start done).OverBefore feed.ahead
  ends : token.EndsAt done feed.ahead feed.line

end Feed

namespace Token

open OnePass

variable {feed : Feed} {lines : List (List Char)} {more : List Delivery} {tokens : List Token}
  {before done rest : List Char} {c : Char} {place : Position}

/-- These characters leave this begun and these tokens ended, newest first. -/
def Leaves (done : List Char) (begun : Begun) (tokens : List Token) : Prop :=
  run OnePass.start done = ⟨begun, placeAfter done, tokens⟩

theorem Leaves.snoc {begun : Begun} (h : Leaves done begun tokens) (c : Char) :
    Leaves (done ++ [c]) (take (placeAfter done) tokens c begun).1 (take (placeAfter done) tokens c begun).2 := by
  rw [Leaves, run_snoc, h, placeAfter_snoc]
  rfl

theorem Leaves.overBefore (h : Leaves done .nothing tokens) (ahead : List Char) :
    (run OnePass.start done).OverBefore ahead := by
  rw [h]
  exact .inl rfl

theorem Leaves.ended (h : Leaves done .nothing tokens) : (run OnePass.start done).ended = tokens := by
  rw [h]
  rfl

theorem ne_break_of_isConstituent (h : isConstituent c) : c ≠ '\n' := by
  rintro rfl
  exact absurd h (by decide)

theorem ne_break_of_octalDigit {digit : Nat} (h : octalDigit? c = some digit) : c ≠ '\n' := by
  rintro rfl
  cases h

/-! ### Words -/

theorem handed_of_word_end {letters : List Char} (h : feed.Past lines more done) (hcons : feed.ahead = c :: rest)
    (hc : ¬isConstituent c) (hleaves : Leaves done (.word (placeAfter before) letters) tokens)
    (hdone : done = before ++ letters.reverse) (hletters : ∀ c ∈ letters, isConstituent c) :
    feed.Handed lines more tokens (wordOf (placeAfter before) letters) done := by
  have hbreak : '\n' ∉ letters.reverse := fun hmem =>
    ne_break_of_isConstituent (hletters _ (List.mem_reverse.1 hmem)) rfl
  have hline : (placeAfter before).line = feed.line := by
    rw [← line_placeAfter_append before hbreak, ← hdone, h.line hcons]
  refine ⟨h, ?_, ?_, before, ?_, rfl, hline⟩
  · rw [hleaves]
    rfl
  · rw [hleaves]
    refine .inr ⟨c, rest, hcons, ?_⟩
    rw [step, take_word_end _ _ _ _ hc]
    rfl
  · rw [wordOf, String.toList_ofList]
    exact hdone

theorem handed_takeWord {letters : List Char} (h : feed.Past lines more done)
    (hahead : ∃ c rest, feed.ahead = c :: rest)
    (hleaves : Leaves done (.word (placeAfter before) letters) tokens) (hdone : done = before ++ letters.reverse)
    (hletters : ∀ c ∈ letters, isConstituent c) :
    ∃ done', (takeWord letters feed).2.Handed lines more tokens
      ⟨.word, String.ofList (takeWord letters feed).1, placeAfter before⟩ done' := by
  obtain ⟨d, rest, hcons⟩ := hahead
  have hfill := Feed.fill_of_cons hcons
  fun_induction takeWord letters feed generalizing done d rest with
  | case1 letters feed c hc hcon ih =>
    rw [hfill] at hc ih ⊢
    obtain ⟨rest, hcons⟩ := Feed.current?_eq_some_iff.1 hc
    obtain ⟨d, rest', hrest⟩ := h.pass_cons hcons (ne_break_of_isConstituent hcon)
    have hnext := hleaves.snoc c
    rw [take, if_pos hcon] at hnext
    refine ih (h.pass hcons).1 hnext ?_ ?_ d rest' hrest (Feed.fill_of_cons hrest)
    · rw [hdone, List.reverse_cons, List.append_assoc]
    · intro other hother
      rcases List.mem_cons.1 hother with rfl | hother
      · exact hcon
      · exact hletters other hother
  | case2 letters feed c hc hcon =>
    rw [hfill] at hc ⊢
    obtain ⟨rest, hcons⟩ := Feed.current?_eq_some_iff.1 hc
    exact ⟨done, handed_of_word_end h hcons hcon hleaves hdone hletters⟩
  | case3 letters feed hc =>
    rw [hfill, Feed.current?_eq_some_iff.2 ⟨rest, hcons⟩] at hc
    cases hc

/-! ### String literals -/

theorem inString_takeOctal {content : List Char} (digits code : Nat) (h : feed.Past lines more done)
    (hcons : feed.ahead = c :: rest) (hleaves : Leaves done (.octal place content digits code) tokens) :
    ∃ done' begun, (takeOctal digits code feed).2.Past lines more done' ∧ Leaves done' begun tokens ∧
      InString place (Char.ofNat (takeOctal digits code feed).1 :: content) begun
        (takeOctal digits code feed).2.ahead := by
  have hfill := Feed.fill_of_cons hcons
  fun_induction takeOctal digits code feed generalizing done c rest with
  | case1 code feed =>
    refine ⟨done, _, h, hleaves, ?_⟩
    rw [hcons]
    exact .octal (.inl rfl)
  | case2 digits code feed digit hdigit ih =>
    rw [hfill, Feed.current?_eq_some_iff.2 ⟨rest, hcons⟩] at hdigit
    rw [hfill] at ih ⊢
    have hoctal : octalDigit? c = some digit := hdigit
    obtain ⟨d, rest', hrest⟩ := h.pass_cons hcons (ne_break_of_octalDigit hoctal)
    have hnext := hleaves.snoc c
    simp only [take, hoctal] at hnext
    exact ih (h.pass hcons).1 hrest hnext (Feed.fill_of_cons hrest)
  | case3 digits code feed hdigit =>
    rw [hfill, Feed.current?_eq_some_iff.2 ⟨rest, hcons⟩] at hdigit
    rw [hfill]
    refine ⟨done, _, h, hleaves, ?_⟩
    rw [hcons]
    exact .octal (.inr hdigit)

theorem inString_takeEscape {content : List Char} (h : feed.Past lines more done) (hcons : feed.ahead = c :: rest)
    (hleaves : Leaves done (.escape place content) tokens) :
    ∃ escaped done' begun, (takeEscape feed).1 = some escaped ∧ (takeEscape feed).2.Past lines more done' ∧
      Leaves done' begun tokens ∧ InString place (escaped :: content) begun (takeEscape feed).2.ahead := by
  have hpass := (h.pass hcons).1
  have hnext := hleaves.snoc c
  unfold takeEscape
  rw [Feed.fill_of_cons hcons, Feed.current?_eq_some_iff.2 ⟨rest, hcons⟩]
  simp only
  cases hoctal : octalDigit? c with
  | none =>
    simp only [take, hoctal] at hnext
    exact ⟨_, _, _, rfl, hpass, hnext, .string⟩
  | some first =>
    simp only [take, hoctal] at hnext
    obtain ⟨d, rest', hrest⟩ := h.pass_cons hcons (ne_break_of_octalDigit hoctal)
    obtain ⟨done', begun, hpast, hleaves', hin⟩ := inString_takeOctal (octalDigitsAfter first) first hpass hrest hnext
    exact ⟨_, done', begun, rfl, hpast, hleaves', hin⟩

theorem OnePass.InString.fill {content : List Char} {begun : Begun} (h : InString place content begun feed.ahead) :
    InString place content begun feed.fill.ahead := by
  generalize hahead : feed.ahead = ahead at h
  cases h with
  | string => exact .string
  | octal hend =>
    rw [Feed.fill_of_cons hahead, hahead]
    exact .octal hend

theorem endsInString_of_leaves {content ahead : List Char} {begun : Begun} (hleaves : Leaves done begun tokens)
    (hin : InString place content begun ahead) : endsInString done := by
  have hbegun : (run OnePass.start done).begun = begun := by rw [hleaves]
  rw [← hbegun] at hin
  exact hin.endsInString

theorem handed_of_quote {content : List Char} {begun : Begun} (h : feed.Past lines more done)
    (hcons : feed.ahead = '"' :: rest) (hleaves : Leaves done begun tokens)
    (hin : InString place content begun ('"' :: rest)) :
    feed.pass.Handed lines more tokens (stringOf place content) (done ++ ['"']) := by
  have hnext := hleaves.snoc '"'
  rw [hin.take, within, if_pos (.inl rfl)] at hnext
  have houtside : ¬endsInString (done ++ ['"']) := by
    rw [endsInString, hnext]
    exact Bool.false_ne_true
  exact ⟨(h.pass hcons).1, hnext.ended, hnext.overBefore _,
    .inl ⟨done, rfl, endsInString_of_leaves hleaves hin, houtside, h.line hcons⟩⟩

theorem handed_of_lineEnd {content : List Char} {begun : Begun} (h : feed.Past lines more done)
    (hcons : feed.ahead = c :: rest) (hend : isLineEnd c) (hleaves : Leaves done begun tokens)
    (hin : InString place content begun (c :: rest)) :
    feed.Handed lines more tokens (stringOf place content) done := by
  refine ⟨h, ?_, ?_, .inr ⟨c, rest, hcons, hend, endsInString_of_leaves hleaves hin, h.line hcons⟩⟩
  · rw [hleaves]
    exact hin.ended (placeAfter done) tokens
  · rw [hleaves]
    refine .inr ⟨c, rest, hcons, ?_⟩
    rw [hin.ended, step, hin.take, within, if_pos (.inr hend), step, take, between_lineEnd _ _ hend]

theorem handed_takeString (hlines : ∀ text ∈ lines, '\n' ∉ text) {content : List Char} {begun : Begun}
    (h : feed.Past lines more done) (hleaves : Leaves done begun tokens)
    (hin : InString place content begun feed.ahead) :
    (takeString content feed).2.Overread lines ∨ ∃ done', (takeString content feed).2.Handed lines more tokens
      ⟨.string, String.ofList (takeString content feed).1, place⟩ done' := by
  induction hsize : feed.size using Nat.strongRecOn generalizing feed content done begun with
  | _ size ih =>
    subst hsize
    rcases h.fill hlines with hlost | ⟨hfill, c, rest, hcons⟩
    · exact .inl (Feed.overread_of_reaches (fill_reaches_takeString content feed) hlost)
    · have hc := Feed.current?_eq_some_iff.2 ⟨rest, hcons⟩
      have hfilled := hin.fill
      rw [hcons] at hfilled
      have hpass := (hfill.pass hcons).1
      have hnext := hleaves.snoc c
      rw [hfilled.take] at hnext
      rw [takeString_some content hc]
      by_cases hquote : c = '"'
      · subst hquote
        exact .inr ⟨_, handed_of_quote hfill hcons hleaves hfilled⟩
      · rw [if_neg hquote]
        by_cases hend : isLineEnd c
        · rw [if_pos hend]
          exact .inr ⟨_, handed_of_lineEnd hfill hcons hend hleaves hfilled⟩
        · rw [within, if_neg (fun hor => hor.elim hquote hend)] at hnext
          rw [if_neg hend]
          by_cases hescape : c = '\\'
          · subst hescape
            rw [if_pos rfl] at hnext ⊢
            -- behind a backslash the line goes on, so the escape takes at least its line break
            obtain ⟨d, rest', hrest⟩ := hfill.pass_cons hcons (by decide)
            obtain ⟨escaped, done', begun', hescaped, hpast, hleaves', hin'⟩ := inString_takeEscape hpass hrest hnext
            have hsmaller : (takeEscape feed.fill.pass).2.size < feed.size :=
              Nat.lt_of_le_of_lt (size_takeEscape _) (Feed.size_pass_fill hc)
            generalize takeEscape feed.fill.pass = escape at hescaped hpast hin' hsmaller ⊢
            obtain ⟨escaped?, after⟩ := escape
            cases hescaped
            exact ih _ hsmaller hpast hleaves' hin' rfl
          · rw [if_neg hescape] at hnext ⊢
            exact ih _ (Feed.size_pass_fill hc) hpass hnext .string rfl

/-! ### Tokens -/

theorem endsAt_mark {kind : Kind} (before ahead : List Char) (h : markKind? c = some kind) :
    (mark kind (placeAfter before)).EndsAt (before ++ [c]) ahead (placeAfter before).line := by
  unfold markKind? at h
  split at h <;> cases h <;> exact ⟨before, _, rfl, rfl, rfl, rfl⟩

theorem handed_scanFrom (hlines : ∀ text ∈ lines, '\n' ∉ text) (h : feed.Past lines more done)
    (hcons : feed.ahead = c :: rest) (hover : (run OnePass.start done).OverBefore (c :: rest))
    (hended : (run OnePass.start done).ended = tokens) (hblank : ¬isBlank c) (hcomment : c ≠ ';') :
    (scanFrom c feed).2.Overread lines ∨
      ∃ done', (scanFrom c feed).2.Handed lines more tokens (scanFrom c feed).1 done' := by
  have hpass := (h.pass hcons).1
  have hnext : Leaves (done ++ [c]) (between (placeAfter done) tokens c).1 (between (placeAfter done) tokens c).2 := by
    rw [Leaves, run_snoc, hover.step_eq, hended, place_run, placeAfter_snoc]
    rfl
  unfold scanFrom
  rw [h.position (hcons ▸ List.cons_ne_nil c rest)]
  cases hkind : markKind? c with
  | some kind =>
    rw [between_mark _ _ hkind] at hnext
    have hends := endsAt_mark done feed.pass.ahead hkind
    rw [h.line hcons] at hends
    exact .inr ⟨done ++ [c], hpass, hnext.ended, hnext.overBefore _, hends⟩
  | none =>
    simp only
    by_cases hquote : c = '"'
    · subst hquote
      rw [if_pos rfl]
      exact handed_takeString hlines hpass hnext .string
    · rw [if_neg hquote]
      have hcon := isConstituent_of_scan hblank hcomment hkind hquote
      have hfill := Feed.fill_of_cons hcons
      have hc : feed.fill.current? = some c := by
        rw [hfill]
        exact Feed.current?_eq_some_iff.2 ⟨rest, hcons⟩
      rw [takeWord_some [] hc, if_pos hcon, hfill]
      rw [between_constituent _ _ hcon] at hnext
      refine .inr (handed_takeWord hpass (h.pass_cons hcons (ne_break_of_isConstituent hcon)) hnext rfl ?_)
      intro d hd
      rwa [List.mem_singleton.1 hd]

theorem OnePass.State.OverBefore.fill {state : State} (h : state.OverBefore feed.ahead) :
    state.OverBefore feed.fill.ahead := by
  rcases h with hbegun | ⟨c, rest, hcons, hstep⟩
  · exact .inl hbegun
  · rw [Feed.fill_of_cons hcons]
    exact .inr ⟨c, rest, hcons, hstep⟩

theorem leaves_comment {init : List Char} (hover : (run OnePass.start done).OverBefore (';' :: rest))
    (hended : (run OnePass.start done).ended = tokens) (hinit : '\n' ∉ init) :
    Leaves (done ++ ';' :: (init ++ ['\n'])) .nothing tokens := by
  obtain ⟨place, hrun⟩ := run_comment_content (next (placeAfter done) ';') tokens hinit
  have hopen : step (run OnePass.start done) ';' = ⟨.comment, next (placeAfter done) ';', tokens⟩ := by
    rw [hover.step_eq, hended, place_run]
    rfl
  have hstate : run OnePass.start (done ++ ';' :: (init ++ ['\n'])) = ⟨.nothing, next place '\n', tokens⟩ := by
    rw [run_append]
    show run (step (run OnePass.start done) ';') (init ++ ['\n']) = _
    rw [hopen, run_append, hrun]
    rfl
  have hplace := place_run (done ++ ';' :: (init ++ ['\n']))
  rw [hstate] at hplace
  rw [Leaves, hstate, ← hplace]

/-- Blanks and comments leave the tokens as they are, and the next token is handed out as soon as it is complete. -/
theorem handed_scan (hlines : ∀ text ∈ lines, '\n' ∉ text) (h : feed.Past lines more done)
    (hover : (run OnePass.start done).OverBefore feed.ahead) (hended : (run OnePass.start done).ended = tokens) :
    (scan feed).2.Overread lines ∨
      ∃ token done', (scan feed).1 = some token ∧ (scan feed).2.Handed lines more tokens token done' := by
  induction hsize : feed.size using Nat.strongRecOn generalizing feed done with
  | _ size ih =>
    subst hsize
    rcases h.fill hlines with hlost | ⟨hfill, c, rest, hcons⟩
    · exact .inl (Feed.overread_of_reaches (fill_reaches_scan feed) hlost)
    · have hc := Feed.current?_eq_some_iff.2 ⟨rest, hcons⟩
      have hfilled := hover.fill
      rw [hcons] at hfilled
      rw [scan_some hc]
      by_cases hblank : isBlank c
      · rw [if_pos hblank]
        have hnext : Leaves (done ++ [c]) .nothing tokens := by
          rw [Leaves, run_snoc, hfilled.step_eq, hended, place_run, placeAfter_snoc, step, take,
            between_blank _ _ hblank]
        exact ih _ (Feed.size_pass_fill hc) (hfill.pass hcons).1 (hnext.overBefore _) hnext.ended rfl
      · rw [if_neg hblank]
        by_cases hcomment : c = ';'
        · subst hcomment
          rw [if_pos rfl]
          obtain ⟨hbreak, _⟩ | ⟨_, init, hinit, rfl⟩ := hfill.cases_ahead hcons
          · exact absurd hbreak (by decide)
          · -- a comment is passed up to the end of its line, line break included
            have hnext := leaves_comment hfilled hended hinit
            rw [← hcons] at hnext
            have hinside : '\n' ∉ ';' :: init := by
              rw [List.mem_cons, not_or]
              exact ⟨by decide, hinit⟩
            exact ih _ (Feed.size_passLine_fill hc) (hfill.passLine hinside hcons) (hnext.overBefore _) hnext.ended rfl
        · rw [if_neg hcomment]
          rcases handed_scanFrom hlines hfill hcons hfilled hended hblank hcomment with
            hlost | ⟨done', hhanded⟩
          · exact .inl hlost
          · exact .inr ⟨_, done', rfl, hhanded⟩

end Token

/-! ## Lexers -/

namespace Lexer

open Token.OnePass (run)

variable {lexer : Lexer} {lines : List (List Char)} {more : List Delivery} {taken : List Token} {token : Token}

/-- The lexer has handed out these tokens, and beyond them only its token of lookahead has been scanned. -/
inductive Behind (lines : List (List Char)) (more : List Delivery) (taken : List Token) : Lexer → Prop
  | nothing {feed : Feed} {done : List Char} : feed.Past lines more done →
    (run Token.OnePass.start done).OverBefore feed.ahead → (run Token.OnePass.start done).ended = taken.reverse →
      Behind lines more taken ⟨feed, .nothing⟩
  | token {feed : Feed} {token : Token} {done : List Char} : feed.Handed lines more taken.reverse token done →
    Behind lines more taken ⟨feed, .token token⟩

theorem behind_ofDeliveries (lines : List (List Char)) (more : List Delivery) :
    (ofSource (.ofDeliveries (lines.map .line ++ more))).Behind lines more [] :=
  .nothing (Feed.past_ofDeliveries lines more) (.inl rfl) rfl

theorem behind_of_handed {feed : Feed} {done : List Char} (h : feed.Handed lines more taken.reverse token done) :
    (Lexer.mk feed .nothing).Behind lines more (taken ++ [token]) := by
  refine .nothing h.past h.overBefore ?_
  rw [h.ended, List.reverse_append]
  rfl

theorem look_of_behind (hlines : ∀ text ∈ lines, '\n' ∉ text) (h : lexer.Behind lines more taken) :
    lexer.look.2.feed.Overread lines ∨ ∃ token feed done, lexer.look = (.ok (some token), ⟨feed, .token token⟩) ∧
      feed.Handed lines more taken.reverse token done := by
  cases h with
  | token hhanded => exact .inr ⟨_, _, _, rfl, hhanded⟩
  | @nothing feed done hpast hover hended =>
    have hlook : (Lexer.mk feed .nothing).look = scanAhead feed := by
      simp only [look, hpast.fed.failure]
    rw [hlook, feed_scanAhead]
    rcases Token.handed_scan hlines hpast hover hended with hlost | ⟨token, done', htoken, hhanded⟩
    · exact .inl hlost
    · right
      rcases scanAhead_cases feed with ⟨error, hfailure, _⟩ | ⟨other, hother, _, hscan⟩ | ⟨hnone, _, _⟩
      · cases hfailure.symm.trans hhanded.past.fed.failure
      · cases hother.symm.trans htoken
        exact ⟨token, _, done', hscan, hhanded⟩
      · cases hnone.symm.trans htoken

theorem take_of_behind (hlines : ∀ text ∈ lines, '\n' ∉ text) (h : lexer.Behind lines more taken) :
    lexer.take.2.feed.Overread lines ∨ ∃ token feed done, lexer.take = (.ok (some token), ⟨feed, .nothing⟩) ∧
      feed.Handed lines more taken.reverse token done := by
  rw [feed_take]
  rcases look_of_behind hlines h with hlost | ⟨token, feed, done, hlook, hhanded⟩
  · exact .inl hlost
  · exact .inr ⟨token, feed, done, by rw [take, hlook], hhanded⟩

theorem behind_of_reaches (hlines : ∀ text ∈ lines, '\n' ∉ text)
    (h : (ofSource (.ofDeliveries (lines.map .line ++ more))).Reaches lexer) :
    lexer.feed.Overread lines ∨ ∃ taken, lexer.Behind lines more taken := by
  refine h.keeps (P := fun lexer => lexer.feed.Overread lines ∨ ∃ taken, lexer.Behind lines more taken) ?_
    (.inr ⟨[], behind_ofDeliveries lines more⟩)
  intro lexer next hmove hbefore
  rcases hbefore with hlost | ⟨taken, hbehind⟩
  · exact .inl (Feed.overread_of_reaches hmove.feed hlost)
  · cases hmove with
    | look =>
      rcases look_of_behind hlines hbehind with hlost | ⟨token, feed, done, hlook, hhanded⟩
      · exact .inl hlost
      · rw [hlook]
        exact .inr ⟨taken, .token hhanded⟩
    | take =>
      rcases take_of_behind hlines hbehind with hlost | ⟨token, feed, done, htake, hhanded⟩
      · exact .inl hlost
      · rw [htake]
        exact .inr ⟨taken ++ [token], behind_of_handed hhanded⟩

/-- The lexer stands right behind a form of this datum: it has no lookahead, all that is unread follows the last token
of the form, and the lines that were polled are those up to the one where this token ends. -/
structure AtFormEnd (lines : List (List Char)) (more : List Delivery) (datum : Datum) (lexer : Lexer) : Prop where
  lookahead : lexer.lookahead = .nothing
  polls : lexer.polls = lexer.lines
  unread : lexer.feed.source.unread = []
  pending : lexer.feed.source.pending = (lines.drop lexer.polls).map .line ++ more
  form : ∃ done before form last, unlines (lines.take lexer.polls) = done ++ lexer.feed.ahead ∧
    Token.OnePass.tokens done = before ++ (form ++ [last]) ∧ Grammar.Form (form ++ [last]) datum ∧
      last.EndsAt done lexer.feed.ahead lexer.polls

theorem atFormEnd_of_handed {feed : Feed} {done : List Char} {form : List Token} {datum : Datum}
    (h : feed.Handed lines more (taken ++ form).reverse token done) (hform : Grammar.Form (form ++ [token]) datum) :
    (Lexer.mk feed .nothing).AtFormEnd lines more datum := by
  have hsource := h.past.fed.source
  have hpolls : (Lexer.mk feed .nothing).polls = feed.line := congrArg Source.polls hsource
  refine ⟨rfl, hpolls, congrArg Source.unread hsource, ?_, done, taken, form, token, ?_, ?_, hform, ?_⟩
  · rw [hpolls]
    exact congrArg Source.pending hsource
  · rw [hpolls]
    exact h.past.text
  · rw [Token.OnePass.tokens, Token.OnePass.State.finish_eq, h.ended, List.reverse_cons, List.reverse_reverse,
      List.append_assoc]
  · rw [hpolls]
    exact h.ends

end Lexer

/-! ## Readers -/

namespace Reader

variable {reader : Reader} {lines : List (List Char)} {more : List Delivery} {taken : List Token} {datum : Datum}

theorem complete_of_behind (hlines : ∀ text ∈ lines, '\n' ∉ text) {limit : Nat} {state : Awaiting}
    {lexer rest : Lexer} (h : lexer.Behind lines more taken) (hread : complete limit state lexer = (.ok datum, rest)) :
    rest.feed.Overread lines ∨ ∃ init token feed done,
      Awaiting.complete limit state (init ++ [token]) = (.ok datum, []) ∧ rest = ⟨feed, .nothing⟩ ∧
        feed.Handed lines more (taken ++ init).reverse token done := by
  induction hsize : lexer.size using Nat.strongRecOn generalizing state lexer taken with
  | _ size ih =>
    subst hsize
    rcases Lexer.take_of_behind hlines h with hlost | ⟨token, feed, done, htake, hhanded⟩
    · have hreach := take_reaches_complete limit state lexer
      rw [hread] at hreach
      exact .inl (Feed.overread_of_reaches hreach.feed hlost)
    · rw [complete_eq, htake, afterToken] at hread
      cases hstep : state.step limit token with
      | more next =>
        -- the last token of the form is one of those behind this one
        rw [hstep] at hread
        rcases ih _ (Lexer.size_take_lt htake) (Lexer.behind_of_handed hhanded) hread rfl with
          hlost | ⟨init, last, feed', done', hcomplete, hrest, hlast⟩
        · exact .inl hlost
        · rw [List.append_assoc, List.singleton_append] at hlast
          refine .inr ⟨token :: init, last, feed', done', ?_, hrest, hlast⟩
          rw [List.cons_append, Awaiting.complete_cons, hstep]
          exact hcomplete
      | done whole =>
        rw [hstep] at hread
        cases hread
        refine .inr ⟨[], token, feed, done, ?_, rfl, ?_⟩
        · rw [List.nil_append, Awaiting.complete_cons, hstep]
          rfl
        · rw [List.append_nil]
          exact hhanded
      | failed error =>
        rw [hstep] at hread
        cases hread

theorem atFormEnd_complete (hlines : ∀ text ∈ lines, '\n' ∉ text) {limit : Nat} {lexer rest : Lexer}
    (h : lexer.Behind lines more taken) (hread : complete limit .start lexer = (.ok datum, rest)) :
    rest.feed.Overread lines ∨ rest.AtFormEnd lines more datum := by
  rcases complete_of_behind hlines h hread with hlost | ⟨init, token, feed, done, hcomplete, rfl, hhanded⟩
  · exact .inl hlost
  · exact .inr (Lexer.atFormEnd_of_handed hhanded (Awaiting.form_of_complete_all hcomplete))

/-- The datum that a call has read. -/
def Answer.datum? : Answer → Option Datum
  | .datum (.ok datum) => some datum
  | .optional (.ok (some datum)) => some datum
  | _ => none

theorem atFormEnd_perform (hlines : ∀ text ∈ lines, '\n' ∉ text) (h : reader.lexer.Behind lines more taken)
    (command : Command) (hdatum : (reader.perform command).1.datum? = some datum) :
    (reader.perform command).2.lexer.feed.Overread lines ∨
      (reader.perform command).2.lexer.AtFormEnd lines more datum := by
  cases command with
  | read =>
    rcases hread : complete reader.limit .start reader.lexer with ⟨error | found, rest⟩
    · rw [perform, read, hread] at hdatum
      cases hdatum
    · rw [perform, read, hread] at hdatum ⊢
      cases hdatum
      exact atFormEnd_complete hlines h hread
  | read? =>
    rcases Lexer.look_of_behind hlines h with hlost | ⟨token, feed, done, hlook, hhanded⟩
    · exact .inl (Feed.overread_of_reaches (look_reaches_read? reader).feed hlost)
    · have hlooked : (Lexer.mk feed (.token token)).Behind lines more taken := .token hhanded
      rcases hread : complete reader.limit .start ⟨feed, .token token⟩ with ⟨error | found, rest⟩
      · simp only [perform, read?, hlook, read, hread] at hdatum
        cases hdatum
      · simp only [perform, read?, hlook, read, hread] at hdatum ⊢
        cases hdatum
        exact atFormEnd_complete hlines hlooked hread
  | lexer command => cases hdatum
  | _ => cases hdatum

/-- Where a source begins with whole lines, one for each poll, and a call has read a datum without polling for more
than these, the reader stands right behind the form. Every source that begins with the lines polled up to there gives
the same answers, whatever else it would deliver. -/
theorem stops_at_form_end (hlines : ∀ text ∈ lines, '\n' ∉ text) (more : List Delivery) (limit : Nat)
    (commands : List Command) {answers : List Answer} {answer : Answer}
    (hrun : (ofLexer (Lexer.ofSource (.ofDeliveries (lines.map .line ++ more))) limit).run commands = (answers, reader))
    (hanswer : answers.getLast? = some answer) (hdatum : answer.datum? = some datum)
    (hpolls : reader.lexer.polls ≤ lines.length) :
    reader.lexer.AtFormEnd lines more datum ∧
      ∀ other : List Delivery,
        ((ofLexer (Lexer.ofSource (.ofDeliveries ((lines.take reader.lexer.polls).map .line ++ other))) limit).run
          commands).1 = answers := by
  constructor
  · rcases List.eq_nil_or_concat commands with rfl | ⟨earlier, command, rfl⟩
    · cases hrun
      cases hanswer
    · have hreaches := reaches_run (ofLexer (Lexer.ofSource (.ofDeliveries (lines.map .line ++ more))) limit) earlier
      rw [List.concat_eq_append, run_snoc, Prod.mk.injEq] at hrun
      obtain ⟨rfl, rfl⟩ := hrun
      rw [List.getLast?_concat, Option.some.injEq] at hanswer
      subst hanswer
      have hread := Nat.not_lt.2 hpolls
      rcases Lexer.behind_of_reaches hlines hreaches with hlost | ⟨taken, hbehind⟩
      · exact absurd (Feed.overread_of_reaches (reaches_perform _ command).feed hlost) hread
      · rcases atFormEnd_perform hlines hbehind command hdatum with hlost | hend
        · exact absurd hlost hread
        · exact hend
  · intro other
    -- the lines that have been polled are all that the run has seen of either source
    have hsplit : lines.map Delivery.line ++ more =
        (lines.take reader.lexer.polls).map .line ++ ((lines.drop reader.lexer.polls).map .line ++ more) := by
      rw [← List.append_assoc, ← List.map_append, List.take_append_drop]
    have hkept : ∀ text ∈ lines.take reader.lexer.polls, '\n' ∉ text := fun text htext =>
      hlines text (List.mem_of_mem_take htext)
    have hlength : (lines.take reader.lexer.polls).length = reader.lexer.polls := by
      rw [List.length_take, Nat.min_eq_left hpolls]
    rw [hsplit] at hrun
    have hsame := run_eq_of_same_lines hkept ((lines.drop reader.lexer.polls).map .line ++ more) other limit commands
      (by rw [hrun, Feed.Overread, hlength]; exact Nat.lt_irrefl _)
    rw [← hsame, hrun]

/-- The string literal is closed in the third line, and the word behind the form is not looked at. -/
theorem stops_at_form_end_of_three_lines :
    let lines := [['(', 'a', ';', ')'], ['"', '\\'], ['b', '"', ')', 'c']]
    let run := fun more : List Delivery =>
      (ofLexer (Lexer.ofSource (.ofDeliveries (lines.map .line ++ more))) 8).run [.read?]
    let datum := Datum.cons (.atom "a") (.cons (.string "\nb") .nil)
    (run [.failure "gone"]).1 = [.optional (.ok (some datum))] ∧ (run [.failure "gone"]).2.lexer.polls = 3 ∧
      (run [.failure "gone"]).2.lexer.AtFormEnd lines [.failure "gone"] datum ∧
      ∀ other, (run other).1 = [.optional (.ok (some datum))] := by
  intro lines run datum
  have hlines : ∀ text ∈ lines, '\n' ∉ text := by decide
  have hread : (ofLexer (Lexer.ofSource (.ofDeliveries (lines.map .line ++ [.failure "gone"]))) 8).read?.1 =
      .ok (some datum) := by decide +kernel
  have hanswers : (run [.failure "gone"]).1 = [.optional (.ok (some datum))] := by
    rw [← hread]
    rfl
  have hpolls : (run [.failure "gone"]).2.lexer.polls = 3 := by decide +kernel
  have hwithin : (run [.failure "gone"]).2.lexer.polls ≤ lines.length := Nat.le_of_eq hpolls
  obtain ⟨hend, hother⟩ :=
    stops_at_form_end hlines [.failure "gone"] 8 [.read?] (Prod.ext hanswers rfl) rfl rfl hwithin
  refine ⟨hanswers, hpolls, hend, fun other => ?_⟩
  rw [hpolls] at hother
  exact hother other

end Reader

end Sexp
