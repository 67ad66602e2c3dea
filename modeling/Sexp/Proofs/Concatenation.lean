import Sexp.Proofs.ReadAll
import Sexp.Proofs.ReadFailure

/-!
# Texts one after the other

Behind lines that end outside of string literals the automaton is where it started, only further down. So the tokens
of a text behind such lines are those of the text alone, that many lines further down (`Token.OnePass.tokens_append`).
A reader keeps nothing between two forms either, and places play a part in its errors only. Hence the data of a joined
text are those of its two parts, and so is its first error (`Datum.allOfText_append`).
-/

namespace Sexp

/-! ## Places further down -/

/-- The same column so many lines further down. -/
def Position.down (lines : Nat) (position : Position) : Position := ⟨position.line + lines, position.column⟩

def Token.down (lines : Nat) (token : Token) : Token := { token with position := token.position.down lines }

/-- The same error so many lines further down, if it has a line. -/
def Error.down (lines : Nat) : Error → Error
  | unreadable line failure => unreadable (line + lines) failure
  | malformed position message => malformed (position.down lines) message
  | unexpectedToken position expected got => unexpectedToken (position.down lines) expected got
  | error => error

/-! ## Tokens -/

namespace Token.OnePass

def Begun.down (lines : Nat) : Begun → Begun
  | word start letters => word (start.down lines) letters
  | string start content => string (start.down lines) content
  | escape start content => escape (start.down lines) content
  | octal start content digits code => octal (start.down lines) content digits code
  | begun => begun

/-- What has begun and what has ended, so many lines further down and behind earlier tokens (newest first). -/
def downTaken (lines : Nat) (earlier : List Token) (taken : Begun × List Token) : Begun × List Token :=
  (taken.1.down lines, taken.2.map (Token.down lines) ++ earlier)

def State.down (lines : Nat) (earlier : List Token) (state : State) : State :=
  ⟨state.begun.down lines, state.place.down lines, state.tokens.map (Token.down lines) ++ earlier⟩

section Automaton

variable (lines : Nat) (earlier : List Token)

theorem next_down (place : Position) (c : Char) : next (place.down lines) c = (next place c).down lines := by
  unfold next
  by_cases hc : c = '\n'
  · simp [hc, Position.down, Nat.add_right_comm]
  · simp [hc, Position.down]

theorem between_down (place : Position) (tokens : List Token) (c : Char) :
    between (place.down lines) (tokens.map (Token.down lines) ++ earlier) c =
      downTaken lines earlier (between place tokens c) := by
  fun_cases between place tokens c
  case case8 => simp [between, downTaken, Begun.down, *]
  case case9 => simp [between, downTaken, Begun.down, *]
  -- the marks, the comment and the string literal
  all_goals rfl

theorem within_down (start : Position) (content : List Char) (tokens : List Token) (c : Char) :
    within (start.down lines) content (tokens.map (Token.down lines) ++ earlier) c =
      downTaken lines earlier (within start content tokens c) := by
  unfold within
  by_cases hend : c = '"' ∨ isLineEnd c
  · rw [if_pos hend, if_pos hend]
    rfl
  · rw [if_neg hend, if_neg hend]
    by_cases hescape : c = '\\'
    · rw [if_pos hescape, if_pos hescape]
      rfl
    · rw [if_neg hescape, if_neg hescape]
      rfl

theorem take_down (place : Position) (tokens : List Token) (c : Char) (begun : Begun) :
    take (place.down lines) (tokens.map (Token.down lines) ++ earlier) c (begun.down lines) =
      downTaken lines earlier (take place tokens c begun) := by
  cases begun with
  | nothing => exact between_down lines earlier place tokens c
  | comment => by_cases hc : c = '\n' <;> simp [take, downTaken, Begun.down, hc]
  | word start letters =>
    simp only [Begun.down, take]
    by_cases hcon : isConstituent c
    · rw [if_pos hcon, if_pos hcon]
      rfl
    · rw [if_neg hcon, if_neg hcon]
      exact between_down lines earlier place (wordOf start letters :: tokens) c
  | string start content => exact within_down lines earlier start content tokens c
  | escape start content =>
    simp only [Begun.down, take]
    cases octalDigit? c <;> rfl
  | octal start content digits code =>
    cases hoctal : octalDigit? c with
    | none =>
      rw [take_octal_end _ _ _ _ _ _ hoctal, Begun.down, take_octal_end _ _ _ _ _ _ hoctal]
      exact within_down lines earlier start (Char.ofNat code :: content) tokens c
    | some digit =>
      cases digits with
      | zero => exact within_down lines earlier start (Char.ofNat code :: content) tokens c
      | succ digits =>
        simp only [Begun.down, take, hoctal]
        rfl

theorem step_down (state : State) (c : Char) :
    step (state.down lines earlier) c = (step state c).down lines earlier := by
  have htake := take_down lines earlier state.place state.tokens c state.begun
  simp only [step, State.down, htake, next_down]
  rfl

theorem run_down (state : State) (text : List Char) :
    run (state.down lines earlier) text = (run state text).down lines earlier := by
  induction text generalizing state with
  | nil => rfl
  | cons c text ih =>
    show run (step (state.down lines earlier) c) text = (run (step state c) text).down lines earlier
    rw [step_down, ih]

theorem ended_down (state : State) :
    (state.down lines earlier).ended = state.ended.map (Token.down lines) ++ earlier := by
  obtain ⟨begun, place, tokens⟩ := state
  cases begun <;> rfl

end Automaton

/-- The text consists of lines with their line breaks, the last of which is not part of a string literal. -/
def EndsLine (text : List Char) : Prop := (text = [] ∨ ∃ init, text = init ++ ['\n']) ∧ endsInString text = false

theorem run_of_endsLine {text : List Char} (h : EndsLine text) :
    run OnePass.start text = OnePass.start.down (text.count '\n') (OnePass.tokens text).reverse := by
  obtain ⟨hlines, hclosed⟩ := h
  have hbegun : (run OnePass.start text).begun = .nothing := by
    rcases begun_run_lines hlines with hnothing | ⟨_, start, content, _, hstring⟩
    · exact hnothing
    · rw [endsInString, hstring] at hclosed
      cases hclosed
  have hplace : (run OnePass.start text).place = ⟨1 + text.count '\n', 1⟩ := by
    rw [place_run]
    rcases hlines with rfl | ⟨init, rfl⟩
    · rfl
    · simp [placeAfter]
  rw [OnePass.tokens, State.finish_eq, List.reverse_reverse]
  generalize run OnePass.start text = state at hbegun hplace
  obtain ⟨begun, place, tokens⟩ := state
  cases hbegun
  cases hplace
  rfl

theorem tokens_append {first : List Char} (h : EndsLine first) (second : List Char) :
    OnePass.tokens (first ++ second) =
      OnePass.tokens first ++ (OnePass.tokens second).map (Token.down (first.count '\n')) := by
  have hsecond : (OnePass.tokens second).reverse = (run OnePass.start second).ended := by
    rw [OnePass.tokens, State.finish_eq, List.reverse_reverse]
  rw [OnePass.tokens, State.finish_eq, run_append, run_of_endsLine h, run_down, ended_down, ← hsecond]
  simp

end Token.OnePass

/-! ## Reading -/

namespace Awaiting

variable {limit : Nat} {data result : List Datum} {state : Awaiting} {first : List Token} {error : Error}

/-- The same outcome, with an error so many lines further down. -/
def Step.down (lines : Nat) : Step → Step
  | .failed error => .failed (error.down lines)
  | outcome => outcome

theorem deliver_down (lines : Nat) (whole : Datum) (frames : List Frame) :
    Step.down lines (deliver whole frames) = deliver whole frames := by
  induction frames generalizing whole with
  | nil => rfl
  | cons frame frames ih =>
    cases frame with
    | operand name => exact ih (Datum.quoted name whole)
    | _ => rfl

theorem begin_down (limit lines : Nat) (token : Token) (frames : List Frame) :
    begin limit (token.down lines) frames = Step.down lines (begin limit token frames) := by
  have henter : ∀ frame, enter limit frame frames = Step.down lines (enter limit frame frames) := by
    intro frame
    rw [enter]
    split <;> rfl
  obtain ⟨kind, text, position⟩ := token
  cases kind with
  | string => exact (deliver_down lines _ frames).symm
  | word => exact (deliver_down lines _ frames).symm
  | closeParen => rfl
  | endOfInput => rfl
  | _ => exact henter _

theorem step_down (limit lines : Nat) (token : Token) (state : Awaiting) :
    state.step limit (token.down lines) = Step.down lines (state.step limit token) := by
  have hkind : (token.down lines).kind = token.kind := rfl
  have hisDot : (token.down lines).isDot = token.isDot := rfl
  cases state with
  | close items tail frames =>
    simp only [step, hkind]
    split
    · exact (deliver_down lines _ frames).symm
    · rfl
  | datum frames =>
    rcases frames with _ | ⟨items | items | name, frames⟩
    · exact begin_down limit lines token []
    · simp only [step, hkind, hisDot]
      split
      · exact (deliver_down lines _ frames).symm
      · split
        · rfl
        · exact begin_down limit lines token (.items items :: frames)
    · exact begin_down limit lines token (.tail items :: frames)
    · exact begin_down limit lines token (.operand name :: frames)

theorem completeAll_down (limit lines : Nat) (data : List Datum) (state : Awaiting) (tokens : List Token) :
    completeAll limit data state (tokens.map (Token.down lines)) =
      (completeAll limit data state tokens).mapError (Error.down lines) := by
  induction tokens generalizing data state with
  | nil =>
    rw [List.map_nil, completeAll]
    split <;> rfl
  | cons token tokens ih =>
    rw [List.map_cons, completeAll, completeAll, step_down]
    cases state.step limit token with
    | more next => exact ih data next
    | done whole => exact ih (whole :: data) start
    | failed error => rfl

theorem completeAll_earlier (limit : Nat) (earlier data : List Datum) (state : Awaiting) (tokens : List Token) :
    completeAll limit (data ++ earlier) state tokens =
      (completeAll limit data state tokens).map (earlier.reverse ++ ·) := by
  induction tokens generalizing data state with
  | nil =>
    rw [completeAll, completeAll, List.reverse_append]
    split <;> rfl
  | cons token tokens ih =>
    rw [completeAll, completeAll]
    cases state.step limit token with
    | more next => exact ih data next
    | done whole => exact ih (whole :: data) start
    | failed error => rfl

theorem completeAll_append (h : completeAll limit data state first = .ok result) (second : List Token) :
    completeAll limit data state (first ++ second) = completeAll limit result.reverse start second := by
  induction first generalizing data state with
  | nil =>
    rw [completeAll] at h
    split at h
    · rename_i hdepth
      cases h
      cases state with
      | close items tail frames => cases hdepth
      | datum frames =>
        obtain rfl := List.eq_nil_of_length_eq_zero hdepth
        rw [List.reverse_reverse]
        rfl
    · cases h
  | cons token first ih =>
    rw [completeAll_cons] at h
    rw [List.cons_append, completeAll_cons]
    cases hturn : turn limit data state token with
    | ok outcome =>
      rw [hturn] at h
      exact ih h
    | error failure =>
      rw [hturn] at h
      cases h

/-- An error that is not due to the end of the tokens stays, whatever follows. -/
theorem completeAll_append_of_error (h : completeAll limit data state first = .error error)
    (hend : ∀ context, error ≠ .unexpectedEnd context) (second : List Token) :
    completeAll limit data state (first ++ second) = .error error := by
  induction first generalizing data state with
  | nil =>
    rw [completeAll] at h
    split at h
    · cases h
    · cases h
      exact absurd rfl (hend _)
  | cons token first ih =>
    rw [completeAll_cons] at h
    rw [List.cons_append, completeAll_cons]
    cases hturn : turn limit data state token with
    | ok outcome =>
      rw [hturn] at h
      exact ih h
    | error failure =>
      rw [hturn] at h
      exact h

theorem readTokens_append (h : readTokens limit first = .ok data) (second : List Token) (lines : Nat) :
    readTokens limit (first ++ second.map (Token.down lines)) =
      ((readTokens limit second).mapError (Error.down lines)).map (data ++ ·) := by
  have hearlier := completeAll_earlier limit data.reverse [] start (second.map (Token.down lines))
  rw [List.nil_append, List.reverse_reverse, completeAll_down limit lines []] at hearlier
  rw [readTokens, completeAll_append h, hearlier]
  rfl

end Awaiting

/-! ## Texts -/

namespace Datum

open Token.OnePass (EndsLine)

theorem allOfText_eq_readTokens (text : String) :
    allOfText text = Awaiting.readTokens Reader.defaultLimit (Token.OnePass.tokens text.toList) := by
  have htokens := Lexer.allOfText_ofList text.toList
  rw [String.ofList_toList] at htokens
  rw [← htokens, ← Reader.readAll_ofText]
  rfl

/-- Behind lines that end outside of string literals a text is read as it is read alone: its data come after those of
the lines, and an error in it is found further down. An error in the lines that is not due to their end stays. -/
theorem allOfText_append (first second : String) (hfirst : EndsLine first.toList) :
    (∀ data more, allOfText first = .ok data → allOfText second = .ok more →
        allOfText (first ++ second) = .ok (data ++ more)) ∧
      (∀ data error, allOfText first = .ok data → allOfText second = .error error →
        allOfText (first ++ second) = .error (error.down (first.toList.count '\n'))) ∧
      ∀ error, allOfText first = .error error → (∀ context, error ≠ .unexpectedEnd context) →
        allOfText (first ++ second) = .error error := by
  rw [allOfText_eq_readTokens first, allOfText_eq_readTokens second, allOfText_eq_readTokens (first ++ second),
    String.toList_append, Token.OnePass.tokens_append hfirst]
  refine ⟨fun data more hdata hmore => ?_, fun data error hdata herror => ?_, fun error herror hend => ?_⟩
  · rw [Awaiting.readTokens_append hdata, hmore]
    rfl
  · rw [Awaiting.readTokens_append hdata, herror]
    rfl
  · exact Awaiting.completeAll_append_of_error herror hend _

/-- The line break behind the string literal also ends it. -/
theorem allOfText_append_of_open_string :
    EndsLine "(a\n;(\n) \"b\n".toList ∧
      allOfText "(a\n;(\n) \"b\n" = .ok [list [atom "a"], string "b"] ∧
      allOfText "'c" = .ok [quoted "QUOTE" (atom "c")] ∧
      allOfText ("(a\n;(\n) \"b\n" ++ "'c") = .ok ([list [atom "a"], string "b"] ++ [quoted "QUOTE" (atom "c")]) ∧
      allOfText "c\n(d))" = .error (.unexpectedToken ⟨2, 4⟩ "an expression" ")") ∧
      allOfText ("(a\n;(\n) \"b\n" ++ "c\n(d))") = .error (.unexpectedToken ⟨5, 4⟩ "an expression" ")") ∧
      EndsLine "(a . b c)\n".toList ∧
      allOfText "(a . b c)\n" = .error (.malformed ⟨1, 8⟩ "expected `)` after dotted tail, got `c`") ∧
      allOfText ("(a . b c)\n" ++ "d") = .error (.malformed ⟨1, 8⟩ "expected `)` after dotted tail, got `c`") := by
  have hlines : EndsLine "(a\n;(\n) \"b\n".toList := ⟨.inr ⟨"(a\n;(\n) \"b".toList, by decide⟩, by decide⟩
  have hline : EndsLine "(a . b c)\n".toList := ⟨.inr ⟨"(a . b c)".toList, by decide⟩, by decide⟩
  have hfirst : allOfText "(a\n;(\n) \"b\n" = .ok [list [atom "a"], string "b"] := by decide +kernel
  have hsecond : allOfText "'c" = .ok [quoted "QUOTE" (atom "c")] := by decide +kernel
  have hfault : allOfText "c\n(d))" = .error (.unexpectedToken ⟨2, 4⟩ "an expression" ")") := by decide +kernel
  have hmalformed : allOfText "(a . b c)\n" =
      .error (.malformed ⟨1, 8⟩ "expected `)` after dotted tail, got `c`") := by decide +kernel
  exact ⟨hlines, hfirst, hsecond, (allOfText_append _ _ hlines).1 _ _ hfirst hsecond, hfault,
    (allOfText_append _ _ hlines).2.1 _ _ hfirst hfault, hline, hmalformed,
    (allOfText_append _ "d" hline).2.2 _ hmalformed (by simp)⟩

end Datum

end Sexp
