import Sexp.Proofs.ReadAll
import Sexp.Proofs.Validity

/-!
# The earliest fault

A reader finds a fault at the first token that no continuation of the text can mend (`Reader.readAll_verdict`). Both
halves are about a step: a state that has been reached can always be completed, by one word where a datum is
missing and one parenthesis for every open list (`Awaiting.exists_form_of_reached`), and a step that fails with room
for one more form fails whatever the limit is and whatever follows. So reading ends in one of three ways
(`Grammar.Verdict`). A fault is reported with the place of its token, and no two tokens of a text are in the same
place (`Token.eq_of_position_eq`).
-/

namespace Sexp

/-- The error says that the token at this place cannot stand there. -/
def Error.BlamesToken (error : Error) (position : Position) : Prop :=
  (∃ expected got, error = .unexpectedToken position expected got) ∨
    ∃ message, error = .malformed position message

theorem Error.BlamesToken.position_eq {error : Error} {position other : Position}
    (h : error.BlamesToken position) (hother : error.BlamesToken other) : position = other := by
  rcases h with ⟨expected, got, rfl⟩ | ⟨message, rfl⟩
  all_goals
    rcases hother with ⟨_, _, h⟩ | ⟨_, h⟩ <;> cases h
    rfl

theorem Error.not_blamesToken_unexpectedEnd (context : String) (position : Position) :
    ¬(Error.unexpectedEnd context).BlamesToken position := by
  rintro (⟨_, _, h⟩ | ⟨_, h⟩) <;> cases h

namespace Grammar

/-- No continuation makes the tokens up to this one forms, and this is the first such token. -/
def FirstFault (tokens : List Token) (index : Nat) : Prop :=
  ¬Viable (tokens.take (index + 1)) ∧ ∀ earlier < index, Viable (tokens.take (earlier + 1))

theorem Viable.of_append {first second : List Token} (h : Viable (first ++ second)) : Viable first := by
  obtain ⟨more, data, hforms⟩ := h
  rw [List.append_assoc] at hforms
  exact ⟨second ++ more, data, hforms⟩

theorem Forms.viable {tokens : List Token} {data : List Datum} (h : Forms tokens data) : Viable tokens :=
  ⟨[], data, by rw [List.append_nil]; exact h⟩

end Grammar

namespace Awaiting

open Grammar

variable {limit room : Nat} {state next : Awaiting} {token : Token} {error : Error}
  {before tokens : List Token} {data later : List Datum}

/-! ## What can still be completed -/

/-- The parenthesis that closes a list, at no place in particular. -/
def closing : Token := Token.mark .closeParen ⟨0, 0⟩

/-- How many of the open forms are lists. -/
def openLists : List Frame → Nat
  | [] => 0
  | .operand _ :: frames => openLists frames
  | _ :: frames => openLists frames + 1

theorem complete_closing (limit : Nat) (items : List Datum) (tail : Datum) (frames : List Frame)
    (rest : List Token) : complete limit (close items tail frames) (closing :: rest) =
      resume limit rest (deliver (Datum.chain items.reverse tail) frames) := by
  have hclose : closing.kind = .closeParen := rfl
  rw [complete_cons, step, if_pos hclose]

/-- Behind a complete datum, one parenthesis for every open list completes the form. -/
theorem resume_closing (limit : Nat) (whole : Datum) (frames : List Frame) :
    ∃ datum, resume limit (List.replicate (openLists frames) closing) (deliver whole frames) = (.ok datum, []) := by
  induction frames generalizing whole with
  | nil => exact ⟨whole, rfl⟩
  | cons frame frames ih =>
    cases frame with
    | items items =>
      obtain ⟨datum, hrest⟩ := ih (Datum.chain (whole :: items).reverse .nil)
      refine ⟨datum, ?_⟩
      show resume limit (List.replicate (openLists frames + 1) closing) _ = _
      rw [List.replicate_succ, deliver, resume, complete_close rfl, hrest]
    | tail items =>
      obtain ⟨datum, hrest⟩ := ih (Datum.chain items.reverse whole)
      refine ⟨datum, ?_⟩
      show resume limit (List.replicate (openLists frames + 1) closing) _ = _
      rw [List.replicate_succ, deliver, resume, complete_closing, hrest]
    | operand name => exact ih (Datum.quoted name whole)

theorem exists_form_of_reached (h : state.Reached before) : ∃ more whole, Form (before ++ more) whole := by
  have hcomplete : ∃ more whole, complete 0 state more = (.ok whole, []) := by
    cases state with
    | close items tail frames =>
      obtain ⟨datum, hrest⟩ := resume_closing 0 (Datum.chain items.reverse tail) frames
      refine ⟨closing :: List.replicate (openLists frames) closing, datum, ?_⟩
      rw [complete_closing, hrest]
    | datum frames =>
      obtain ⟨datum, hrest⟩ := resume_closing 0 (Datum.ofWord "a") frames
      refine ⟨⟨.word, "a", ⟨0, 0⟩⟩ :: List.replicate (openLists frames) closing, datum, ?_⟩
      have hstep := step_datum 0 ⟨.word, "a", ⟨0, 0⟩⟩ frames fun _ _ _ => ⟨nofun, by decide⟩
      rw [complete_cons, hstep, begin_word 0 frames rfl, hrest]
  obtain ⟨more, whole, hmore⟩ := hcomplete
  obtain ⟨taken, htaken, hform⟩ := form_of_complete h hmore
  rw [List.append_nil] at htaken
  exact ⟨more, whole, htaken ▸ hform⟩

theorem Progress.viable (h : Progress before data state) : Viable before := by
  obtain ⟨earlier, current, rfl, hearlier, hcurrent⟩ := h
  obtain ⟨more, whole, hform⟩ := exists_form_of_reached hcurrent
  refine ⟨more, data.reverse ++ [whole], ?_⟩
  rw [List.append_assoc]
  exact hearlier.snoc hform

/-! ## What cannot -/

theorem deliver_ne_failed (whole : Datum) (frames : List Frame) : deliver whole frames ≠ .failed error := by
  induction frames generalizing whole with
  | nil => exact nofun
  | cons frame frames ih =>
    cases frame with
    | operand name => exact ih _
    | _ => exact nofun

theorem begin_failed {frames : List Frame} (hroom : frames.length < limit) (hkind : token.kind ≠ .endOfInput)
    (h : begin limit token frames = .failed error) : error.BlamesToken token.position := by
  obtain ⟨kind, text, position⟩ := token
  have henter : ∀ frame, enter limit frame frames ≠ .failed error := by
    intro frame
    rw [enter, if_pos hroom]
    intro hmore
    cases hmore
  cases kind with
  | closeParen =>
    cases h
    exact .inl ⟨_, _, rfl⟩
  | endOfInput => exact absurd rfl hkind
  | string => exact absurd h (deliver_ne_failed _ _)
  | word => exact absurd h (deliver_ne_failed _ _)
  | _ => exact absurd h (henter _)

theorem step_failed (hroom : state.depth < limit) (hkind : token.kind ≠ .endOfInput)
    (h : state.step limit token = .failed error) : error.BlamesToken token.position := by
  cases state with
  | close items tail frames =>
    rw [step] at h
    split at h
    · exact absurd h (deliver_ne_failed _ _)
    · cases h
      exact .inr ⟨_, rfl⟩
  | datum frames =>
    rcases frames with _ | ⟨items | items | name, frames⟩
    · exact begin_failed hroom hkind h
    · rw [step] at h
      split at h
      · exact absurd h (deliver_ne_failed _ _)
      · split at h
        · cases h
        · exact begin_failed hroom hkind h
    · exact begin_failed hroom hkind h
    · exact begin_failed hroom hkind h

theorem step_eq_of_room (token : Token) (hlimit : state.depth < limit) (hroom : state.depth < room) :
    state.step limit token = state.step room token := by
  rcases step_of_room limit token hroom with hsame | ⟨hfull, _⟩
  · exact hsame
  · omega

/-- The data cannot be read however the tokens go on after this one, and the error is the one of this token. -/
def Refuses (data : List Datum) (state : Awaiting) (front : List Token) (token : Token) (error : Error) : Prop :=
  error.BlamesToken token.position ∧
    ∀ room more, state.depth + (front ++ token :: more).length ≤ room →
      completeAll room data state (front ++ token :: more) = .error error

variable {front : List Token} {first : Token}

theorem turn_eq_of_room (data : List Datum) (token : Token) (hlimit : state.depth < limit)
    (hroom : state.depth < room) : turn limit data state token = turn room data state token := by
  rw [turn, turn, step_eq_of_room token hlimit hroom]

theorem Refuses.of_turn (hroom : state.depth < limit) (hturn : turn limit data state first = .ok (later, next))
    (h : Refuses later next front token error) : Refuses data state (first :: front) token error := by
  refine ⟨h.1, fun room more hlength => ?_⟩
  rw [List.cons_append, List.length_cons] at hlength
  have hdepth := depth_turn_le hturn
  rw [turn_eq_of_room data first hroom (show state.depth < room by omega)] at hturn
  rw [List.cons_append, completeAll_cons, hturn]
  exact h.2 room more (by omega)

theorem refuses_of_failed (hroom : state.depth < limit) (hkind : token.kind ≠ .endOfInput)
    (hstep : state.step limit token = .failed error) : Refuses data state [] token error := by
  refine ⟨step_failed hroom hkind hstep, fun room more hlength => ?_⟩
  rw [List.nil_append, List.length_cons] at hlength
  rw [step_eq_of_room token hroom (show state.depth < room by omega)] at hstep
  rw [List.nil_append, completeAll, hstep]

theorem completeAll_error (hprogress : Progress before data state)
    (hkinds : ∀ token ∈ tokens, token.kind ≠ .endOfInput) (hroom : state.depth + tokens.length ≤ limit)
    (h : completeAll limit data state tokens = .error error) :
    ((∃ context, error = .unexpectedEnd context) ∧ Viable (before ++ tokens)) ∨
      ∃ front token back, tokens = front ++ token :: back ∧ Viable (before ++ front) ∧
        Refuses data state front token error := by
  induction tokens generalizing before data state with
  | nil =>
    rw [completeAll] at h
    split at h
    · cases h
    · cases h
      rw [List.append_nil]
      exact .inl ⟨⟨_, rfl⟩, hprogress.viable⟩
  | cons token tokens ih =>
    rw [List.length_cons] at hroom
    have hlater : ∀ other ∈ tokens, other.kind ≠ .endOfInput := fun other hother =>
      hkinds other (List.mem_cons_of_mem token hother)
    have hdepth : state.depth < limit := by omega
    rw [completeAll_cons] at h
    cases hturn : turn limit data state token with
    | ok outcome =>
      rw [hturn] at h
      -- the fault, if there is one, is a later token
      have hnext := depth_turn_le hturn
      rcases ih (progress_turn hprogress hturn) hlater (by omega) h with
        hend | ⟨front, fault, back, rfl, hviable, hrefuses⟩
      · rw [List.append_cons]
        exact .inl hend
      · rw [List.append_assoc, List.singleton_append] at hviable
        exact .inr ⟨token :: front, fault, back, rfl, hviable, hrefuses.of_turn hdepth hturn⟩
    | error failure =>
      rw [hturn] at h
      cases h
      have hstep := turn_eq_error hturn
      refine .inr ⟨[], token, tokens, rfl, ?_, refuses_of_failed hdepth (hkinds token List.mem_cons_self) hstep⟩
      rw [List.append_nil]
      exact hprogress.viable

end Awaiting

/-! ## The places of tokens -/

namespace Token

open OnePass (Starts placed_tokens)

theorem eq_nil_of_placeAfter_append {before more : List Char} (h : placeAfter (before ++ more) = placeAfter before) :
    more = [] := by
  unfold placeAfter at h
  rw [Position.mk.injEq, List.count_append, List.reverse_append] at h
  obtain ⟨hline, hcolumn⟩ := h
  have hcount : more.count '\n' = 0 := by omega
  have hall : ∀ c ∈ more.reverse, (c != '\n') = true := by
    intro c hc
    have hne : c ≠ '\n' := by
      rintro rfl
      exact List.count_eq_zero.1 hcount (List.mem_reverse.1 hc)
    simpa using hne
  rw [List.takeWhile_append_of_pos hall, List.length_append, List.length_reverse] at hcolumn
  exact List.eq_nil_of_length_eq_zero (by omega)

theorem eq_of_placeAfter_eq {first second text : List Char} (hfirst : first <+: text) (hsecond : second <+: text)
    (h : placeAfter first = placeAfter second) : first = second := by
  rcases List.prefix_or_prefix_of_prefix hfirst hsecond with ⟨more, rfl⟩ | ⟨more, rfl⟩
  · rw [eq_nil_of_placeAfter_append h.symm, List.append_nil]
  · rw [eq_nil_of_placeAfter_append h, List.append_nil]

variable {text : String} {i j : Nat} {a b : Token}

theorem exists_prefix_of_getElem? (h : (allOfText text)[i]? = some a) :
    ∃ before, before <+: text.toList ∧ OnePass.tokens before = (allOfText text).take i ∧
      a.position = placeAfter before := by
  have hall : allOfText text = OnePass.tokens text.toList :=
    (Lexer.takeAll_of_holds (Source.holds_ofText text)).1
  have hsplit : allOfText text = (allOfText text).take i ++ a :: (allOfText text).drop (i + 1) := by
    obtain ⟨hlt, ha⟩ := List.getElem?_eq_some_iff.1 h
    rw [← ha, ← List.drop_eq_getElem_cons hlt, List.take_append_drop]
  have hplaced := placed_tokens text.toList
  rw [← hall, hsplit, List.reverse_append, List.reverse_cons, List.append_assoc,
    List.singleton_append] at hplaced
  obtain ⟨first, _, before, after, htext, htokens, hplace⟩ := hplaced.starts
  rw [List.reverse_reverse] at htokens
  exact ⟨before, ⟨first :: after, htext.symm⟩, htokens, hplace⟩

theorem eq_of_position_eq (hi : (allOfText text)[i]? = some a) (hj : (allOfText text)[j]? = some b)
    (h : a.position = b.position) : i = j := by
  obtain ⟨first, hfirst, htokens, hplace⟩ := exists_prefix_of_getElem? hi
  obtain ⟨second, hsecond, htokens', hplace'⟩ := exists_prefix_of_getElem? hj
  have hsame : first = second := eq_of_placeAfter_eq hfirst hsecond (by rw [← hplace, ← hplace', h])
  rw [← hsame, htokens] at htokens'
  have hlength := congrArg List.length htokens'
  have hlt := (List.getElem?_eq_some_iff.1 hi).1
  have hlt' := (List.getElem?_eq_some_iff.1 hj).1
  rw [List.length_take, List.length_take] at hlength
  omega

theorem kind_ne_endOfInput (ha : a ∈ allOfText text) : a.kind ≠ .endOfInput :=
  (Lexer.valid_takeAll (Lexer.valid_ofSource (Source.ofText text)) a ha).kind_ne_endOfInput

end Token

/-! ## Verdicts -/

namespace Grammar

open Awaiting

variable {tokens front : List Token} {token : Token} {error : Error}

theorem not_viable_of_refuses (h : Refuses [] start front token error) : ¬Viable (front ++ [token]) := by
  rintro ⟨more, data, hforms⟩
  rw [List.append_assoc, List.singleton_append] at hforms
  have hread := completeAll_of_forms hforms [] (Nat.le_refl _)
  have hrefused := h.2 (front ++ token :: more).length more (by rw [start, depth, List.length_nil]; omega)
  rw [hread] at hrefused
  cases hrefused

theorem firstFault_iff_of_refuses (back : List Token) (hviable : Viable front)
    (h : Refuses [] start front token error) (index : Nat) :
    FirstFault (front ++ token :: back) index ↔ index = front.length := by
  have hfront : ∀ earlier ≤ front.length, (front ++ token :: back).take earlier = front.take earlier :=
    fun earlier hle => List.take_append_of_le_length hle
  have hfault : ¬Viable ((front ++ token :: back).take (front.length + 1)) := by
    rw [List.take_append, List.take_of_length_le (Nat.le_succ _)]
    simpa using not_viable_of_refuses h
  have hbefore : ∀ earlier < front.length, Viable ((front ++ token :: back).take (earlier + 1)) := by
    intro earlier hlt
    rw [hfront _ hlt]
    have hsplit := List.take_append_drop (earlier + 1) front
    rw [← hsplit] at hviable
    exact hviable.of_append
  constructor
  · rintro ⟨hnot, hall⟩
    rcases Nat.lt_trichotomy index front.length with hlt | heq | hgt
    · exact absurd (hbefore index hlt) hnot
    · exact heq
    · exact absurd (hall _ hgt) hfault
  · rintro rfl
    exact ⟨hfault, hbefore⟩

theorem Viable.not_firstFault (h : Viable tokens) (index : Nat) : ¬FirstFault tokens index := by
  rintro ⟨hnot, _⟩
  have hsplit := List.take_append_drop (index + 1) tokens
  rw [← hsplit] at h
  exact hnot h.of_append

/-- How reading all data of these tokens may end. -/
inductive Verdict (tokens : List Token) : Except Error (List Datum) → Prop
  | read {data : List Datum} : Forms tokens data → Verdict tokens (.ok data)
  | incomplete {context : String} : (¬∃ data, Forms tokens data) → Viable tokens →
    Verdict tokens (.error (.unexpectedEnd context))
  | fault {front back : List Token} {token : Token} {error : Error} : tokens = front ++ token :: back →
    Viable front → Refuses [] start front token error → Verdict tokens (.error error)

theorem verdict_readTokens {limit : Nat} (hkinds : ∀ token ∈ tokens, token.kind ≠ .endOfInput)
    (hroom : tokens.length ≤ limit) : Verdict tokens (readTokens limit tokens) := by
  have hok : ∀ data, readTokens limit tokens = .ok data ↔ Forms tokens data :=
    fun data => readTokens_eq_ok_iff hroom
  cases hanswer : readTokens limit tokens with
  | ok data => exact .read ((hok data).1 hanswer)
  | error error =>
    have hnot : ¬∃ data, Forms tokens data := by
      rintro ⟨data, hforms⟩
      rw [(hok data).2 hforms] at hanswer
      cases hanswer
    have hdepth : start.depth + tokens.length ≤ limit := by
      rw [start, depth, List.length_nil, Nat.zero_add]
      exact hroom
    rcases completeAll_error progress_nil hkinds hdepth hanswer with
      ⟨⟨context, rfl⟩, hviable⟩ | ⟨front, token, back, htokens, hviable, hrefuses⟩
    · exact .incomplete hnot hviable
    · exact .fault htokens hviable hrefuses

variable {answer : Except Error (List Datum)}

theorem Verdict.unexpectedEnd_iff (h : Verdict tokens answer) :
    (∃ context, answer = .error (.unexpectedEnd context)) ↔ (¬∃ data, Forms tokens data) ∧ Viable tokens := by
  cases h with
  | read hforms =>
    constructor
    · rintro ⟨context, h⟩
      cases h
    · rintro ⟨hnot, _⟩
      exact absurd ⟨_, hforms⟩ hnot
  | incomplete hnot hviable => exact ⟨fun _ => ⟨hnot, hviable⟩, fun _ => ⟨_, rfl⟩⟩
  | fault htokens _ hrefuses =>
    constructor
    · rintro ⟨context, h⟩
      cases h
      exact absurd hrefuses.1 (Error.not_blamesToken_unexpectedEnd context _)
    · rintro ⟨_, hall⟩
      rw [htokens, List.append_cons] at hall
      exact absurd hall.of_append (not_viable_of_refuses hrefuses)

theorem Verdict.blames_iff (h : Verdict tokens answer) {index : Nat} (htoken : tokens[index]? = some token)
    (hplaces : ∀ {other : Nat} {second : Token}, tokens[other]? = some second →
      token.position = second.position → index = other) :
    (∃ error, answer = .error error ∧ error.BlamesToken token.position) ↔ FirstFault tokens index := by
  cases h with
  | read hforms =>
    constructor
    · rintro ⟨error, h, _⟩
      cases h
    · intro hfault
      exact absurd hfault (hforms.viable.not_firstFault index)
  | incomplete _ hviable =>
    constructor
    · rintro ⟨error, h, hblames⟩
      cases h
      exact absurd hblames (Error.not_blamesToken_unexpectedEnd _ _)
    · intro hfault
      exact absurd hfault (hviable.not_firstFault index)
  | @fault front back fault error htokens hviable hrefuses =>
    subst htokens
    have hindex : (front ++ fault :: back)[front.length]? = some fault := by simp
    rw [firstFault_iff_of_refuses back hviable hrefuses index]
    constructor
    · rintro ⟨other, h, hblames⟩
      cases h
      exact hplaces hindex (hblames.position_eq hrefuses.1)
    · rintro rfl
      rw [hindex] at htoken
      cases htoken
      exact ⟨error, rfl, hrefuses.1⟩

theorem Verdict.exhaustive (h : Verdict tokens answer) :
    (∃ data, answer = .ok data) ∨ (∃ context, answer = .error (.unexpectedEnd context)) ∨
      ∃ (index : Nat) (token : Token) (error : Error), tokens[index]? = some token ∧
        answer = .error error ∧ error.BlamesToken token.position := by
  cases h with
  | read _ => exact .inl ⟨_, rfl⟩
  | incomplete _ _ => exact .inr (.inl ⟨_, rfl⟩)
  | @fault front back token error htokens _ hrefuses =>
    subst htokens
    exact .inr (.inr ⟨front.length, token, error, by simp, rfl, hrefuses.1⟩)

end Grammar

namespace Reader

open Grammar Awaiting

variable {limit : Nat}

/-- With room for all tokens of a text, all of its data are read exactly if its tokens are forms that denote them.
The text is found incomplete exactly if its tokens are no forms and can be continued to forms, and a token is
blamed exactly if it is the first that rules out every continuation. There is no other answer. -/
theorem readAll_verdict (text : String) (hroom : (Token.allOfText text).length ≤ limit) :
    (∀ data, (ofLexer (Lexer.ofText text) limit).readAll.1 = .ok data ↔ Forms (Token.allOfText text) data) ∧
      ((∃ context, (ofLexer (Lexer.ofText text) limit).readAll.1 = .error (.unexpectedEnd context)) ↔
        (¬∃ data, Forms (Token.allOfText text) data) ∧ Viable (Token.allOfText text)) ∧
      (∀ index token, (Token.allOfText text)[index]? = some token →
        ((∃ error, (ofLexer (Lexer.ofText text) limit).readAll.1 = .error error ∧
            error.BlamesToken token.position) ↔
          FirstFault (Token.allOfText text) index)) ∧
      ((∃ data, (ofLexer (Lexer.ofText text) limit).readAll.1 = .ok data) ∨
        (∃ context, (ofLexer (Lexer.ofText text) limit).readAll.1 = .error (.unexpectedEnd context)) ∨
        ∃ (index : Nat) (token : Token) (error : Error), (Token.allOfText text)[index]? = some token ∧
          (ofLexer (Lexer.ofText text) limit).readAll.1 = .error error ∧ error.BlamesToken token.position) := by
  rw [readAll_ofText]
  have hverdict : Verdict (Token.allOfText text) (readTokens limit (Token.allOfText text)) :=
    verdict_readTokens (fun token => Token.kind_ne_endOfInput) hroom
  refine ⟨fun data => readTokens_eq_ok_iff hroom, hverdict.unexpectedEnd_iff, fun index token htoken => ?_,
    hverdict.exhaustive⟩
  exact hverdict.blames_iff htoken (Token.eq_of_position_eq htoken)

/-- Behind a complete form, the quote mark could still get its operand, but not after this parenthesis. -/
theorem readAll_verdict_of_bare_quote :
    (Token.allOfText "(a . b) (')").length ≤ 8 ∧
      (ofLexer (Lexer.ofText "(a . b) (')") 8).readAll.1 =
        .error (.unexpectedToken ⟨1, 11⟩ "an expression" ")") ∧
      FirstFault (Token.allOfText "(a . b) (')") 7 := by
  have hroom : (Token.allOfText "(a . b) (')").length ≤ 8 := by decide +kernel
  have htoken : (Token.allOfText "(a . b) (')")[7]? = some ⟨.closeParen, "", ⟨1, 11⟩⟩ := by decide +kernel
  have hanswer : (ofLexer (Lexer.ofText "(a . b) (')") 8).readAll.1 =
      .error (.unexpectedToken ⟨1, 11⟩ "an expression" ")") := by decide +kernel
  refine ⟨hroom, hanswer, ((readAll_verdict _ hroom).2.2.1 7 _ htoken).1 ⟨_, hanswer, .inl ⟨_, _, rfl⟩⟩⟩

end Reader

end Sexp
