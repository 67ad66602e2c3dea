import Sexp.Proofs.Lines
import Sexp.Proofs.Unfold

/-!
# Scanning a text

The scanners take characters off a feed, the automaton of `OnePass` takes them off the text itself. A
`Feed.View` says what is left of the text behind a feed and how the text ends: cleanly, or in a line that
cannot be read. Whichever it is, every scanner moves the feed on and ends what has begun, and what the
automaton makes of the text stays the same (`Feed.View.Leads`). So the lexer hands out what the automaton
makes of the text, except that where the text ends in a failure the token that this end cuts off is lost
(`Lexer.takeAll_of_leads`).
-/

namespace Sexp

namespace Token

/-! ## The automaton -/

namespace OnePass

theorem run_cons (begun : Begun) (place : Position) (tokens : List Token) (c : Char) (rest : List Char) :
    run ⟨begun, place, tokens⟩ (c :: rest) =
      run ⟨(take place tokens c begun).1, next place c, (take place tokens c begun).2⟩ rest := rfl

theorem run_append (state : State) (first second : List Char) :
    run state (first ++ second) = run (run state first) second := List.foldl_append

theorem between_mark {c : Char} {kind : Kind} (place : Position) (tokens : List Token)
    (h : markKind? c = some kind) : between place tokens c = (.nothing, mark kind place :: tokens) := by
  unfold markKind? at h
  split at h <;> cases h <;> rfl

theorem between_blank {c : Char} (place : Position) (tokens : List Token) (h : isBlank c) :
    between place tokens c = (.nothing, tokens) := by
  unfold between
  split
  case h_8 => rw [if_pos h]
  all_goals exact absurd h (by decide)

theorem between_lineEnd {c : Char} (place : Position) (tokens : List Token) (h : isLineEnd c) :
    between place tokens c = (.nothing, tokens) := by
  refine between_blank place tokens ?_
  rcases isLineEnd_iff.1 h with rfl | rfl <;> decide

theorem between_constituent {c : Char} (place : Position) (tokens : List Token) (h : isConstituent c) :
    between place tokens c = (.word place [c], tokens) := by
  have hblank : isBlank c = false := by
    rw [isConstituent, Bool.and_eq_true, Bool.not_eq_true'] at h
    exact h.1
  unfold between
  split
  case h_8 => rw [hblank, if_neg Bool.false_ne_true]
  all_goals exact absurd h (by decide)

theorem take_word_end {c : Char} (place start : Position) (letters : List Char) (tokens : List Token)
    (h : ¬isConstituent c) :
    take place tokens c (.word start letters) = take place (wordOf start letters :: tokens) c .nothing := by
  show (if isConstituent c then _ else _) = _
  rw [if_neg h]
  rfl

theorem take_string_lineEnd {c : Char} (place start : Position) (content : List Char) (tokens : List Token)
    (h : isLineEnd c) :
    take place tokens c (.string start content) =
      take place (stringOf start content :: tokens) c .nothing := by
  show within start content tokens c = between place (stringOf start content :: tokens) c
  rw [within, if_pos (.inr h), between_lineEnd _ _ h]

theorem take_octal_end {c : Char} (place start : Position) (content : List Char) (tokens : List Token)
    (digits code : Nat) (h : octalDigit? c = none) :
    take place tokens c (.octal start content digits code) =
      take place tokens c (.string start (Char.ofNat code :: content)) := by
  cases digits with
  | zero => rfl
  | succ digits => simp only [take, h]

/-- The tokens that the state stands for, newest first, if the text ends here. -/
def State.ended (state : State) : List Token :=
  match state.begun with
  | .nothing => state.tokens
  | .comment => state.tokens
  | .word start letters => wordOf start letters :: state.tokens
  | .string start content => stringOf start content :: state.tokens
  | .escape start content => stringOf start content :: state.tokens
  | .octal start content _ code => stringOf start (Char.ofNat code :: content) :: state.tokens

theorem State.finish_eq (state : State) : state.finish = state.ended.reverse := by
  unfold finish ended
  cases state.begun <;> rfl

/-- The tokens that have ended, and those together with the one that the end of the text ends. -/
def State.result (state : State) : List Token × List Token := (state.tokens, state.ended)

theorem run_comment (place : Position) (tokens : List Token) (text : List Char) :
    (run ⟨.comment, place, tokens⟩ text).result =
      (run ⟨.nothing, ⟨place.line + 1, 1⟩, tokens⟩ (splitLine text).2).result := by
  induction text generalizing place with
  | nil => rfl
  | cons c rest ih =>
    rw [run_cons, take, next]
    by_cases hc : c = '\n'
    · rw [if_pos hc, if_pos hc, hc, splitLine_break]
    · rw [if_neg hc, if_neg hc, splitLine_cons rest hc]
      exact ih ⟨place.line, place.column + 1⟩

theorem run_comment_content (place : Position) (tokens : List Token) {content : List Char} (h : '\n' ∉ content) :
    ∃ place', run ⟨.comment, place, tokens⟩ content = ⟨.comment, place', tokens⟩ := by
  induction content generalizing place with
  | nil => exact ⟨place, rfl⟩
  | cons c content ih =>
    rw [List.mem_cons, not_or] at h
    rw [run_cons, take, if_neg (Ne.symm h.1)]
    exact ih (next place c) h.2

end OnePass

end Token

/-! ## Views of a feed -/

namespace Feed

open Token Token.OnePass

/-- What is left of a text behind a feed, and how the text ends. -/
structure View where
  /-- The rest of the text, which starts at this place. -/
  Left : Feed → List Char → Position → Prop
  /-- The failure that a feed has met where it finds nothing left. -/
  stop : Option Error
  fill {feed : Feed} {rest : List Char} {place : Position} :
    Left feed rest place → Left feed.fill rest place
  current? {feed : Feed} {rest : List Char} {place : Position} :
    Left feed rest place → feed.fill.current? = rest.head?
  position {feed : Feed} {c : Char} {rest : List Char} {place : Position} :
    Left feed (c :: rest) place → feed.fill.position = place
  pass {feed : Feed} {c : Char} {rest : List Char} {place : Position} :
    Left feed (c :: rest) place → Left feed.fill.pass rest (next place c)
  passLine {feed : Feed} {c : Char} {rest : List Char} {place : Position} :
    Left feed (c :: rest) place → Left feed.fill.passLine (splitLine (c :: rest)).2 ⟨place.line + 1, 1⟩
  unfailed {feed : Feed} {c : Char} {rest : List Char} {place : Position} :
    Left feed (c :: rest) place → feed.fill.failure = none
  stopped {feed : Feed} {place : Position} : Left feed [] place → feed.fill.failure = stop

/-- A text that ends cleanly. -/
def View.clean : View where
  Left := Shows
  stop := none
  fill h := h.fill.1
  current? h := h.current?
  position h := h.position
  pass h := h.pass
  passLine h := h.passLine
  unfailed h := h.fill.1.failure
  stopped h := h.fill.1.failure

namespace View

variable {view : View} {feed : Feed} {begun begun' : Begun} {tokens tokens' : List Token}
  {result : List Token × List Token} {c : Char}

/-- With this token begun and these tokens ended, newest first, the automaton makes `result` of the text that
is left. -/
def Leads (view : View) (feed : Feed) (begun : Begun) (tokens : List Token)
    (result : List Token × List Token) : Prop :=
  ∃ rest place, view.Left feed rest place ∧ (run ⟨begun, place, tokens⟩ rest).result = result

/-- The tokens of the text, newest first. Its end ends one more token, but a failure loses that one. -/
def handed (view : View) (result : List Token × List Token) : List Token :=
  if view.stop.isSome then result.1 else result.2

/-- What a scanner may answer, together with the feed that it leaves. -/
inductive Scanned (view : View) (tokens : List Token) (result : List Token × List Token) :
    Option Token × Feed → Prop
  /-- A token that has ended. -/
  | token {token : Token} {feed : Feed} : feed.failure = none →
    view.Leads feed .nothing (token :: tokens) result → Scanned view tokens result (some token, feed)
  /-- A token that the end of the text has ended. -/
  | cut {token : Token} {feed : Feed} {place : Position} : feed.failure = view.stop → view.Left feed [] place →
    result = (tokens, token :: tokens) → Scanned view tokens result (some token, feed)
  /-- Nothing, since the text is at its end. -/
  | finish {feed : Feed} : feed.failure = view.stop → result = (tokens, tokens) →
    Scanned view tokens result (none, feed)

theorem unfailed_fill {rest : List Char} {place : Position} (hleft : view.Left feed rest place)
    (hc : feed.fill.current? = some c) : feed.fill.failure = none := by
  rw [view.current? hleft] at hc
  cases rest with
  | nil => cases hc
  | cons d rest => exact view.unfailed hleft

theorem Leads.unfailed (h : view.Leads feed begun tokens result) (hc : feed.fill.current? = some c) :
    feed.fill.failure = none := by
  obtain ⟨rest, place, hleft, _⟩ := h
  exact unfailed_fill hleft hc

theorem Leads.pass (h : view.Leads feed begun tokens result) (hc : feed.fill.current? = some c) :
    view.Leads feed.fill.pass (take feed.fill.position tokens c begun).1
      (take feed.fill.position tokens c begun).2 result := by
  obtain ⟨rest, place, hleft, hresult⟩ := h
  rw [view.current? hleft] at hc
  cases rest with
  | nil => cases hc
  | cons d rest =>
    cases hc
    rw [run_cons] at hresult
    rw [view.position hleft]
    exact ⟨rest, next place c, view.pass hleft, hresult⟩

theorem Leads.passLine (h : view.Leads feed .nothing tokens result) (hc : feed.fill.current? = some ';') :
    view.Leads feed.fill.passLine .nothing tokens result := by
  obtain ⟨rest, place, hleft, hresult⟩ := h
  rw [view.current? hleft] at hc
  cases rest with
  | nil => cases hc
  | cons d rest =>
    cases hc
    rw [run_cons] at hresult
    change (run ⟨.comment, _, tokens⟩ rest).result = result at hresult
    rw [run_comment] at hresult
    refine ⟨_, _, view.passLine hleft, ?_⟩
    rw [splitLine_cons rest (by decide)]
    exact hresult

theorem Leads.finish (h : view.Leads feed begun tokens result) (hc : feed.fill.current? = none) :
    feed.fill.failure = view.stop ∧
      ∃ place, view.Left feed.fill [] place ∧ result = State.result ⟨begun, place, tokens⟩ := by
  obtain ⟨rest, place, hleft, hresult⟩ := h
  rw [view.current? hleft, List.head?_eq_none_iff] at hc
  subst hc
  exact ⟨view.stopped hleft, place, view.fill hleft, hresult.symm⟩

/-- What has begun may be replaced by what takes the next character the same. -/
theorem Leads.turn (h : view.Leads feed begun tokens result) (hc : feed.fill.current? = some c)
    (htake : take feed.fill.position tokens c begun = take feed.fill.position tokens' c begun') :
    view.Leads feed.fill begun' tokens' result := by
  obtain ⟨rest, place, hleft, hresult⟩ := h
  refine ⟨rest, place, view.fill hleft, ?_⟩
  rw [view.current? hleft] at hc
  cases rest with
  | nil => cases hc
  | cons d rest =>
    cases hc
    rw [view.position hleft] at htake
    rw [run_cons] at hresult ⊢
    rw [← htake]
    exact hresult

end View

end Feed

/-! ## The scanners -/

namespace Token

open OnePass Feed.View

variable {view : Feed.View} {feed : Feed} {start : Position} {tokens : List Token}
  {result : List Token × List Token}

theorem scanned_takeWord (letters : List Char) (h : view.Leads feed (.word start letters) tokens result) :
    view.Scanned tokens result
      (some ⟨.word, String.ofList (takeWord letters feed).1, start⟩, (takeWord letters feed).2) := by
  fun_induction takeWord letters feed with
  | case1 letters feed c hc hcon ih =>
    have hpass := h.pass hc
    rw [OnePass.take, if_pos hcon] at hpass
    exact ih hpass
  | case2 letters feed c hc hcon => exact .token (h.unfailed hc) (h.turn hc (take_word_end _ _ _ _ hcon))
  | case3 letters feed hc =>
    obtain ⟨hstop, place, hleft, hresult⟩ := h.finish hc
    exact .cut hstop hleft hresult

theorem leads_takeOctal {content : List Char} (digits code : Nat)
    (h : view.Leads feed (.octal start content digits code) tokens result) :
    view.Leads (takeOctal digits code feed).2
      (.string start (Char.ofNat (takeOctal digits code feed).1 :: content)) tokens result := by
  fun_induction takeOctal digits code feed with
  | case1 code feed =>
    obtain ⟨rest, place, hleft, hresult⟩ := h
    refine ⟨rest, place, hleft, ?_⟩
    cases rest <;> exact hresult
  | case2 digits code feed digit hdigit ih =>
    obtain ⟨c, hc, hoctal⟩ := Option.bind_eq_some_iff.1 hdigit
    have hpass := h.pass hc
    rw [OnePass.take, hoctal] at hpass
    exact ih hpass
  | case3 digits code feed hdigit =>
    cases hc : feed.fill.current? with
    | none =>
      obtain ⟨_, place, hleft, hresult⟩ := h.finish hc
      exact ⟨[], place, hleft, hresult.symm⟩
    | some c =>
      rw [hc] at hdigit
      exact h.turn hc (take_octal_end _ _ _ _ _ _ hdigit)

theorem leads_takeEscape {content : List Char} {escaped : Char} {rest : Feed}
    (h : view.Leads feed (.escape start content) tokens result) (he : takeEscape feed = (some escaped, rest)) :
    view.Leads rest (.string start (escaped :: content)) tokens result := by
  unfold takeEscape at he
  cases hc : feed.fill.current? with
  | none =>
    rw [hc] at he
    cases he
  | some c =>
    have hpass := h.pass hc
    rw [OnePass.take] at hpass
    rw [hc] at he
    simp only at he
    cases hoctal : octalDigit? c with
    | none =>
      rw [hoctal] at hpass he
      cases he
      exact hpass
    | some first =>
      rw [hoctal] at hpass he
      cases he
      exact leads_takeOctal (octalDigitsAfter first) first hpass

theorem scanned_takeEscape {content : List Char} {rest : Feed}
    (h : view.Leads feed (.escape start content) tokens result) (he : takeEscape feed = (none, rest)) :
    view.Scanned tokens result (some (stringOf start content), rest) := by
  unfold takeEscape at he
  cases hc : feed.fill.current? with
  | none =>
    rw [hc] at he
    cases he
    obtain ⟨hstop, place, hleft, hresult⟩ := h.finish hc
    exact .cut hstop hleft hresult
  | some c =>
    rw [hc] at he
    simp only at he
    cases hoctal : octalDigit? c <;> rw [hoctal] at he <;> cases he

theorem scanned_takeString (content : List Char) (h : view.Leads feed (.string start content) tokens result) :
    view.Scanned tokens result
      (some ⟨.string, String.ofList (takeString content feed).1, start⟩, (takeString content feed).2) := by
  fun_induction takeString content feed with
  | case1 content feed hc =>
    have hpass := h.pass hc
    rw [OnePass.take, within, if_pos (.inl rfl)] at hpass
    exact .token (h.unfailed hc) hpass
  | case2 content feed c hc hquote hend =>
    exact .token (h.unfailed hc) (h.turn hc (take_string_lineEnd _ _ _ _ hend))
  | case3 content feed escaped rest he hc hquote hend ih =>
    have hpass := h.pass hc
    rw [OnePass.take, within, if_neg (by decide), if_pos rfl] at hpass
    exact ih (leads_takeEscape hpass he)
  | case4 content feed rest he hc hquote hend =>
    have hpass := h.pass hc
    rw [OnePass.take, within, if_neg (by decide), if_pos rfl] at hpass
    exact scanned_takeEscape hpass he
  | case5 content feed c hc hquote hend hescape ih =>
    have hpass := h.pass hc
    have hinside : ¬(c = '"' ∨ isLineEnd c) := fun hor => hor.elim hquote hend
    rw [OnePass.take, within, if_neg hinside, if_neg hescape] at hpass
    exact ih hpass
  | case6 content feed hc =>
    obtain ⟨hstop, place, hleft, hresult⟩ := h.finish hc
    exact .cut hstop hleft hresult

theorem scanned_scanFrom {c : Char} (h : view.Leads feed .nothing tokens result)
    (hc : feed.fill.current? = some c) (hblank : ¬isBlank c) (hcomment : c ≠ ';') :
    view.Scanned tokens result (some (scanFrom c feed.fill).1, (scanFrom c feed.fill).2) := by
  have hpass := h.pass hc
  rw [OnePass.take] at hpass
  unfold scanFrom
  cases hkind : markKind? c with
  | some kind =>
    rw [between_mark _ _ hkind] at hpass
    exact .token (h.unfailed hc) hpass
  | none =>
    simp only
    by_cases hquote : c = '"'
    · rw [if_pos hquote]
      rw [hquote] at hpass
      exact scanned_takeString [] hpass
    · rw [if_neg hquote]
      have hcon := isConstituent_of_scan hblank hcomment hkind hquote
      -- the word is as if it had begun before its first letter
      have hword : view.Leads feed.fill (.word feed.fill.position []) tokens result := by
        refine h.turn hc ?_
        rw [OnePass.take, OnePass.take, if_pos hcon, between_constituent _ _ hcon]
      exact scanned_takeWord [] hword

theorem scanned_scan (h : view.Leads feed .nothing tokens result) : view.Scanned tokens result (scan feed) := by
  induction hsize : feed.size using Nat.strongRecOn generalizing feed with
  | _ size ih =>
    subst hsize
    cases hc : feed.fill.current? with
    | none =>
      rw [scan_none hc]
      obtain ⟨hstop, _, _, hresult⟩ := h.finish hc
      exact .finish hstop hresult
    | some c =>
      rw [scan_some hc]
      by_cases hblank : isBlank c
      · rw [if_pos hblank]
        have hpass := h.pass hc
        rw [OnePass.take, between_blank _ _ hblank] at hpass
        exact ih _ (Feed.size_pass_fill hc) hpass rfl
      · rw [if_neg hblank]
        by_cases hcomment : c = ';'
        · rw [if_pos hcomment]
          exact ih _ (Feed.size_passLine_fill hc) (h.passLine (hcomment ▸ hc)) rfl
        · rw [if_neg hcomment]
          exact scanned_scanFrom h hc hblank hcomment

end Token

/-! ## All tokens -/

namespace Lexer

open Token Feed

variable {view : View} {feed rest : Feed} {tokens : List Token} {result : List Token × List Token}

theorem take_of_scan_token {token : Token} (hbefore : feed.failure = none) (h : scan feed = (some token, rest))
    (hafter : rest.failure = none) : (Lexer.mk feed .nothing).take = (.ok (some token), ⟨rest, .nothing⟩) := by
  simp only [take, look, hbefore, scanAhead, h, hafter]

theorem take?_of_scan_token {token : Token} (hbefore : feed.failure = none) (h : scan feed = (some token, rest))
    (hafter : rest.failure = none) :
    (Lexer.mk feed .nothing).take? = (some token, ⟨rest, .nothing⟩) := by
  rw [take?, take_of_scan_token hbefore h hafter]
  rfl

theorem take?_of_scan_finish (hbefore : feed.failure = none) (h : scan feed = (none, rest))
    (hafter : rest.failure = none) : (Lexer.mk feed .nothing).take? = (none, ⟨rest, .finish⟩) := by
  simp only [take?, take, look, hbefore, scanAhead, h, hafter]
  rfl

/-- Where the reading has failed, a token is lost. -/
theorem take?_of_scan_failed {token? : Option Token} {error : Error} (hbefore : feed.failure = none)
    (h : scan feed = (token?, rest)) (hafter : rest.failure = some error) :
    (Lexer.mk feed .nothing).take? = (none, ⟨rest, .nothing⟩) := by
  simp only [take?, take, look, hbefore, scanAhead, h, hafter]
  rfl

theorem take?_of_leads (h : view.Leads feed .nothing tokens result) (hbefore : feed.failure = none) :
    (∃ token rest after, (Lexer.mk feed .nothing).take? = (some token, ⟨rest, .nothing⟩) ∧
      rest.failure = none ∧ view.Leads rest .nothing (token :: tokens) after ∧
      view.handed after = view.handed result) ∨
    ∃ rest, (Lexer.mk feed .nothing).take? = (none, rest) ∧ rest.failure = view.stop ∧
      view.handed result = tokens := by
  have hscanned := scanned_scan h
  generalize hscan : scan feed = scanned at hscanned
  cases hscanned with
  | @token token rest hafter hleads =>
    exact .inl ⟨token, rest, result, take?_of_scan_token hbefore hscan hafter, hafter, hleads, rfl⟩
  | @cut token rest place hafter hleft hresult =>
    -- the text ends within the token, which is lost if that end is a failure
    subst hresult
    unfold View.handed
    cases hstop : view.stop with
    | none =>
      rw [hstop] at hafter
      refine .inl ⟨token, rest, (token :: tokens, token :: tokens),
        take?_of_scan_token hbefore hscan hafter, hafter, ⟨[], place, hleft, rfl⟩, rfl⟩
    | some error =>
      rw [hstop] at hafter
      exact .inr ⟨_, take?_of_scan_failed hbefore hscan hafter, hafter, rfl⟩
  | @finish rest hafter hresult =>
    subst hresult
    refine .inr ?_
    unfold View.handed
    cases hstop : view.stop with
    | none =>
      rw [hstop] at hafter
      exact ⟨_, take?_of_scan_finish hbefore hscan hafter, hafter, rfl⟩
    | some error =>
      rw [hstop] at hafter
      exact ⟨_, take?_of_scan_failed hbefore hscan hafter, hafter, rfl⟩

theorem takeAll_of_leads (h : view.Leads feed .nothing tokens result) (hbefore : feed.failure = none) :
    view.handed result = (Lexer.mk feed .nothing).takeAll.1.reverse ++ tokens ∧
      (Lexer.mk feed .nothing).takeAll.2.failure = view.stop := by
  induction hsize : (Lexer.mk feed .nothing).size using Nat.strongRecOn
    generalizing feed tokens result with
  | _ size ih =>
    subst hsize
    rcases take?_of_leads h hbefore with
      ⟨token, rest, after, htake, hafter, hleads, hhanded⟩ | ⟨rest, htake, hafter, hhanded⟩
    · obtain ⟨hall, hfailure⟩ := ih _ (size_take?_lt htake) hleads hafter rfl
      rw [takeAll_of_token htake, ← hhanded, hall]
      refine ⟨?_, hfailure⟩
      rw [List.reverse_cons, List.append_assoc, List.singleton_append]
    · rw [takeAll_of_none htake]
      exact ⟨hhanded, hafter⟩

end Lexer

end Sexp
