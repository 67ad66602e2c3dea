import Sexp.Proofs.RoundTrip
import Sexp.Proofs.ReadAll

/-!
# Forms that stand in for each other

A form is read above the forms that are open around it as it is read alone, only with fewer levels left for it
(`Awaiting.step_above`). So two forms that are the same alone can stand in for each other between any other tokens, and
whatever is read of the whole is the same (`Awaiting.readTokens_exchange`). A quote mark before a form and the list of
its name and that form are such forms under every limit (`Reader.readAll_quoted`), and so are, where the limit is no
hindrance, a list with a list as its tail and the list of the items of both (`Reader.readAll_spliced`).
-/

namespace Sexp

namespace Token

/-- The word without a place. -/
def word (text : String) : Token := ⟨.word, text, ⟨0, 0⟩⟩

/-- The tokens in parentheses. -/
def listed (tokens : List Token) : List Token := mark .openParen ⟨0, 0⟩ :: (tokens ++ [mark .closeParen ⟨0, 0⟩])

end Token

namespace Grammar

open Token (mark listed)

/-- What may follow the items of a list: nothing, or a dot and a form. -/
inductive Tail : List Token → Datum → Prop
  | nothing : Tail [] .nil
  | dotted {dot : Token} {tokens : List Token} {datum : Datum} :
    dot.isDot → Form tokens datum → Tail (dot :: tokens) datum

theorem Tail.body {tokens : List Token} {datum : Datum} (h : Tail tokens datum) :
    Body (tokens ++ [mark .closeParen ⟨0, 0⟩]) datum := by
  cases h with
  | nothing => exact .close rfl
  | dotted hisDot hform => exact .tail hisDot hform rfl

theorem Items.append {first second : List Token} {items others : List Datum} (hfirst : Items first items)
    (hsecond : Items second others) : Items (first ++ second) (others ++ items) := by
  induction hsecond with
  | nil =>
    rw [List.append_nil]
    exact hfirst
  | snoc _ hdot hform ih =>
    rw [← List.append_assoc]
    exact .snoc ih hdot hform

theorem Items.single {token : Token} (hword : token.kind = .word) (hdot : ¬token.isDot) :
    Items [token] [.ofWord token.text] := by
  refine .snoc .nil ?_ (.word hword)
  rintro ⟨_, ⟨⟩, hisDot⟩
  exact hdot hisDot

theorem Items.list {tokens tail : List Token} {items : List Datum} {datum : Datum} (h : Items tokens items)
    (htail : Tail tail datum) : Form (listed (tokens ++ tail)) (Datum.chain items.reverse datum) := by
  rw [listed, List.append_assoc]
  exact .list rfl (h.body htail.body)

end Grammar

namespace Awaiting

open Grammar
open Token (mark)

variable {limit room : Nat} {data : List Datum} {state : Awaiting} {token : Token}
  {frames outer : List Frame} {before tokens first second rest : List Token} {whole : Datum} {error : Error}

/-! ## Above open forms -/

/-- The same state with these forms open around it. -/
def above (outer : List Frame) : Awaiting → Awaiting
  | datum frames => datum (frames ++ outer)
  | close items tail frames => close items tail (frames ++ outer)

/-- What becomes of an outcome when these forms are open around it: they get the complete datum, and the limit that is
exceeded is that much higher. -/
def Step.above (outer : List Frame) : Step → Step
  | .more state => .more (state.above outer)
  | .done whole => deliver whole outer
  | .failed (.tooDeep limit) => .failed (.tooDeep (limit + outer.length))
  | .failed error => .failed error

/-- Within these forms the token starts a datum. -/
def Begins (frames : List Frame) (token : Token) : Prop :=
  ∀ items others, frames = .items items :: others → token.kind ≠ .closeParen ∧ ¬token.isDot

theorem deliver_above (whole : Datum) (frames outer : List Frame) :
    deliver whole (frames ++ outer) = Step.above outer (deliver whole frames) := by
  induction frames generalizing whole with
  | nil => rfl
  | cons frame frames ih =>
    cases frame with
    | operand name => exact ih (Datum.quoted name whole)
    | _ => rfl

theorem enter_above (limit : Nat) (frame : Frame) (frames outer : List Frame) :
    enter (limit + outer.length) frame (frames ++ outer) = Step.above outer (enter limit frame frames) := by
  unfold enter
  by_cases hroom : frames.length < limit
  · rw [if_pos hroom, if_pos (by rw [List.length_append]; omega)]
    rfl
  · rw [if_neg hroom, if_neg (by rw [List.length_append]; omega)]
    rfl

theorem begin_above (limit : Nat) (token : Token) (frames outer : List Frame) :
    begin (limit + outer.length) token (frames ++ outer) = Step.above outer (begin limit token frames) := by
  obtain ⟨kind, text, position⟩ := token
  cases kind with
  | string => exact deliver_above _ frames outer
  | word => exact deliver_above _ frames outer
  | closeParen => rfl
  | endOfInput => rfl
  | _ => exact enter_above limit _ frames outer

/-- A token does the same in a step whatever is open around the state, if it starts a datum where the state is at the
start of one. -/
theorem step_above (limit : Nat) (hbegins : state.depth = 0 → Begins outer token) :
    (state.above outer).step (limit + outer.length) token = Step.above outer (state.step limit token) := by
  cases state with
  | close items tail frames =>
    simp only [above, step]
    split
    · exact deliver_above _ frames outer
    · rfl
  | datum frames =>
    rcases frames with _ | ⟨items | items | name, frames⟩
    · -- The innermost form is around the state, and a list there could take the token for its end or its dot.
      show (datum outer).step (limit + outer.length) token = Step.above outer (begin limit token [])
      rw [step_datum _ token outer (hbegins rfl), ← begin_above]
      rfl
    · simp only [above, List.cons_append, step]
      split
      · exact deliver_above _ frames outer
      · split
        · rfl
        · exact begin_above limit token (.items items :: frames) outer
    · exact begin_above limit token (.tail items :: frames) outer
    · exact begin_above limit token (.operand name :: frames) outer

/-- If the state is at the start of a datum, the first of the tokens starts one within these forms. -/
def BeginsWithin (outer : List Frame) (state : Awaiting) (tokens : List Token) : Prop :=
  ∀ token, tokens.head? = some token → state.depth = 0 → Begins outer token

/-- The outcome of the step that ends a form with this answer. -/
def Step.ofAnswer : Except Error Datum → Step
  | .ok whole => .done whole
  | .error error => .failed error

theorem complete_above (rest : List Token) (hbegins : BeginsWithin outer state tokens)
    (hend : ∀ context, (complete limit state tokens).1 ≠ .error (.unexpectedEnd context)) :
    complete (limit + outer.length) (state.above outer) (tokens ++ rest) =
      resume (limit + outer.length) ((complete limit state tokens).2 ++ rest)
        (Step.above outer (Step.ofAnswer (complete limit state tokens).1)) := by
  induction tokens generalizing state with
  | nil => exact absurd rfl (hend state.context)
  | cons token tokens ih =>
    rw [complete_cons] at hend
    rw [List.cons_append, complete_cons, step_above limit (hbegins token rfl), complete_cons]
    cases hstep : state.step limit token with
    | more next =>
      rw [hstep] at hend
      -- Behind the first token a form of its own is open, so the forms around it play no part any more.
      refine ih (fun _ _ hdepth => ?_) hend
      have hopen := (inside_step hstep).1
      omega
    | done found => rfl
    | failed error => rfl

theorem complete_above_of_ok (rest : List Token) (hbegins : BeginsWithin outer state tokens)
    (h : complete limit state tokens = (.ok whole, [])) :
    complete (limit + outer.length) (state.above outer) (tokens ++ rest) =
      resume (limit + outer.length) rest (deliver whole outer) := by
  rw [complete_above rest hbegins (by rw [h]; rintro _ ⟨⟩), h]
  rfl

theorem complete_above_of_tooDeep (rest : List Token) (hbegins : BeginsWithin outer state tokens)
    (h : (complete limit state tokens).1 = .error (.tooDeep limit)) :
    (complete (limit + outer.length) (state.above outer) (tokens ++ rest)).1 =
      .error (.tooDeep (limit + outer.length)) := by
  rw [complete_above rest hbegins (by rw [h]; rintro _ ⟨⟩), h]
  rfl

/-! ## Forms alone -/

theorem complete_eq_or_tooDeep (limit : Nat) (hroom : state.depth + tokens.length ≤ room) :
    complete limit state tokens = complete room state tokens ∨
      (complete limit state tokens).1 = .error (.tooDeep limit) := by
  induction tokens generalizing state with
  | nil => exact .inl rfl
  | cons token tokens ih =>
    rw [List.length_cons] at hroom
    rw [complete_cons, complete_cons]
    rcases step_of_room limit token (show state.depth < room by omega) with hsame | ⟨_, hfailed, _⟩
    · rw [hsame]
      cases hstep : state.step room token with
      | more next =>
        have hdepth := (inside_step hstep).2
        exact ih (by omega)
      | done found => exact .inl rfl
      | failed error => exact .inl rfl
    · rw [hfailed]
      exact .inr rfl

theorem complete_form_or_tooDeep (h : Form tokens whole) (limit : Nat) :
    complete limit start tokens = (.ok whole, []) ∨ (complete limit start tokens).1 = .error (.tooDeep limit) := by
  have hread : complete tokens.length start tokens = (.ok whole, []) :=
    (complete_eq_ok_iff (Nat.le_refl _)).2 ⟨tokens, (List.append_nil _).symm, h⟩
  rw [← hread]
  have hroom : start.depth + tokens.length ≤ tokens.length := Nat.le_of_eq (Nat.zero_add _)
  exact complete_eq_or_tooDeep limit hroom

/-- The tokens start a datum wherever one may stand. -/
def Starts (tokens : List Token) : Prop :=
  ∃ token others, tokens = token :: others ∧ token.kind ≠ .closeParen ∧ ¬token.isDot

theorem starts_of_kind (rest : List Token) (hclose : token.kind ≠ .closeParen) (hword : token.kind ≠ .word) :
    Starts (token :: rest) :=
  ⟨token, rest, rfl, hclose, not_isDot_of_kind hword⟩

theorem starts_of_form (h : Form tokens whole) (hdot : ¬LoneDot tokens) : Starts tokens := by
  cases h with
  | string hkind => exact starts_of_kind [] (by rw [hkind]; decide) (by rw [hkind]; decide)
  | @word token hkind => exact ⟨token, [], rfl, by rw [hkind]; decide, fun hisDot => hdot ⟨token, rfl, hisDot⟩⟩
  | quoted hname _ =>
    obtain ⟨hclose, hword⟩ := quoteName?_cases hname
    exact starts_of_kind _ hclose hword
  | list hparen _ => exact starts_of_kind _ (by rw [hparen]; decide) (by rw [hparen]; decide)

theorem Starts.begins (h : Starts tokens) (frames : List Frame) : BeginsWithin frames start tokens := by
  obtain ⟨token, others, rfl, hbegins⟩ := h
  rintro _ ⟨⟩ _ _ _ _
  exact hbegins

/-! ## Exchange -/

/-- Under this limit both are the same datum, or both are too deep. -/
structure Alike (limit : Nat) (first second : List Token) : Prop where
  first_starts : Starts first
  second_starts : Starts second
  alone : (∃ whole, complete limit start first = (.ok whole, []) ∧ complete limit start second = (.ok whole, [])) ∨
    ((complete limit start first).1 = .error (.tooDeep limit) ∧
      (complete limit start second).1 = .error (.tooDeep limit))

/-- What is read of the tokens, an error without its place and its words. -/
def verdictAll (limit : Nat) (data : List Datum) (state : Awaiting) (tokens : List Token) :
    Except Error.Variant (List Datum) :=
  (completeAll limit data state tokens).mapError Error.variant

theorem verdictAll_cons (limit : Nat) (data : List Datum) (state : Awaiting) (token : Token) (tokens : List Token) :
    verdictAll limit data state (token :: tokens) =
      match turn limit data state token with
      | .ok (later, next) => verdictAll limit later next tokens
      | .error error => .error error.variant := by
  rw [verdictAll, completeAll_cons]
  cases turn limit data state token <;> rfl

theorem verdictAll_unplaced (limit : Nat) (data : List Datum) (state : Awaiting) (tokens : List Token) :
    verdictAll limit data state (tokens.map Token.unplaced) = verdictAll limit data state tokens := by
  induction tokens generalizing data state with
  | nil => rfl
  | cons token tokens ih =>
    rw [List.map_cons, verdictAll_cons, verdictAll_cons, turn, turn]
    rcases step_unplaced limit token state with hsame | ⟨error, other, herror, hother, hvariant⟩
    · rw [hsame]
      cases state.step limit token with
      | more next => exact ih data next
      | done whole => exact ih (whole :: data) start
      | failed error => rfl
    · rw [herror, hother]
      exact congrArg Except.error hvariant

theorem verdictAll_close_of_starts (h : Starts tokens) (items : List Datum) (tail : Datum) :
    verdictAll limit data (close items tail frames) (tokens ++ rest) = .error .malformed := by
  obtain ⟨token, others, rfl, hclose, _⟩ := h
  rw [List.cons_append, verdictAll_cons, turn, step, if_neg hclose]
  rfl

theorem verdictAll_datum_of_starts (h : Starts tokens) :
    verdictAll limit data (datum frames) (tokens ++ rest) =
      (continueAll limit data (complete limit (datum frames) (tokens ++ rest))).mapError Error.variant := by
  obtain ⟨token, others, rfl, _⟩ := h
  have hne : token :: others ++ rest ≠ [] := List.cons_ne_nil token (others ++ rest)
  rw [verdictAll, completeAll_eq limit data (.inl hne)]

theorem continueAll_of_error {answer : Except Error Datum × List Token} (h : answer.1 = .error error) :
    continueAll limit data answer = .error error := by
  obtain ⟨_, rest⟩ := answer
  cases h
  rfl

theorem verdictAll_eq_of_alike (h : Alike room first second) (data : List Datum) (state : Awaiting)
    (rest : List Token) :
    verdictAll (room + state.depth) data state (first ++ rest) =
      verdictAll (room + state.depth) data state (second ++ rest) := by
  obtain ⟨hfirst, hsecond, halone⟩ := h
  cases state with
  | close items tail frames => rw [verdictAll_close_of_starts hfirst, verdictAll_close_of_starts hsecond]
  | datum frames =>
    rw [verdictAll_datum_of_starts hfirst, verdictAll_datum_of_starts hsecond]
    congr 1
    rcases halone with ⟨whole, hreadFirst, hreadSecond⟩ | ⟨hdeepFirst, hdeepSecond⟩
    · have hone := complete_above_of_ok rest (hfirst.begins frames) hreadFirst
      have hother := complete_above_of_ok rest (hsecond.begins frames) hreadSecond
      exact congrArg _ (hone.trans hother.symm)
    · have hone := complete_above_of_tooDeep rest (hfirst.begins frames) hdeepFirst
      have hother := complete_above_of_tooDeep rest (hsecond.begins frames) hdeepSecond
      exact (continueAll_of_error hone).trans (continueAll_of_error hother).symm

theorem verdictAll_exchange (hdepth : state.depth ≤ limit)
    (h : ∀ depth, depth ≤ state.depth + before.length → depth ≤ limit → Alike (limit - depth) first second)
    (data : List Datum) (rest : List Token) :
    verdictAll limit data state (before ++ (first ++ rest)) =
      verdictAll limit data state (before ++ (second ++ rest)) := by
  induction before generalizing data state with
  | nil =>
    have hsame := verdictAll_eq_of_alike (h state.depth (Nat.le_refl _) hdepth) data state rest
    rwa [Nat.sub_add_cancel hdepth] at hsame
  | cons token before ih =>
    rw [List.cons_append, List.cons_append, verdictAll_cons, verdictAll_cons]
    cases hturn : turn limit data state token with
    | error error => rfl
    | ok outcome =>
      obtain ⟨later, next⟩ := outcome
      have hopened := depth_turn_le hturn
      rw [List.length_cons] at h
      refine ih (depth_turn_le_of_le hdepth hturn) (fun depth hle hlimit => h depth ?_ hlimit) later
      omega

/-! ## Forms that are alike -/

theorem alike_of_forms (hfirst : Form first whole) (hsecond : Form second whole) (hfirstDot : ¬LoneDot first)
    (hsecondDot : ¬LoneDot second) (hfirstRoom : first.length ≤ room) (hsecondRoom : second.length ≤ room) :
    Alike room first second where
  first_starts := starts_of_form hfirst hfirstDot
  second_starts := starts_of_form hsecond hsecondDot
  alone := .inl ⟨whole,
    (complete_eq_ok_iff hfirstRoom).2 ⟨first, (List.append_nil first).symm, hfirst⟩,
    (complete_eq_ok_iff hsecondRoom).2 ⟨second, (List.append_nil second).symm, hsecond⟩⟩

theorem word_of_quoteName? {kind : Token.Kind} {name : String} (h : kind.quoteName? = some name) :
    ¬(Token.word name).isDot ∧ Datum.ofWord name = .atom name := by
  rcases Token.Kind.quoteName?_eq_some_iff.1 h with ⟨_, rfl⟩ | ⟨_, rfl⟩ | ⟨_, rfl⟩ <;> decide

theorem step_quote (limit : Nat) {name : String} (frames : List Frame) (h : token.kind.quoteName? = some name) :
    (datum frames).step limit token = enter limit (.operand name) frames := by
  obtain ⟨hclose, hword⟩ := quoteName?_cases h
  rw [step_datum limit token frames fun _ _ _ => ⟨hclose, not_isDot_of_kind hword⟩, begin, h]

theorem step_quoteName {kind : Token.Kind} {name : String} {items : List Datum} (limit : Nat) (frames : List Frame)
    (h : kind.quoteName? = some name) :
    (datum (.items items :: frames)).step limit (Token.word name) =
      .more (datum (.items (.atom name :: items) :: frames)) := by
  obtain ⟨hnotDot, hatom⟩ := word_of_quoteName? h
  have hword : (Token.word name).kind ≠ .closeParen := by
    show Token.Kind.word ≠ .closeParen
    decide
  rw [step_datum limit _ _ fun _ _ _ => ⟨hword, hnotDot⟩, begin_word limit _ rfl, Token.word, hatom]
  rfl

theorem alike_quoted {kind : Token.Kind} {name : String} {form : List Token} (hname : kind.quoteName? = some name)
    (hform : Form form whole) (hdot : ¬LoneDot form) (limit : Nat) :
    Alike limit (mark kind ⟨0, 0⟩ :: form) (Token.listed (Token.word name :: form)) := by
  obtain ⟨hclose, hword⟩ := quoteName?_cases hname
  refine ⟨starts_of_kind form hclose hword, starts_of_kind _ (by decide) (by decide), ?_⟩
  rw [Token.listed, complete_cons, complete_cons, start, step_quote limit [] hname, step_paren limit [] rfl]
  cases limit with
  | zero => exact .inr ⟨rfl, rfl⟩
  | succ limit =>
    -- one form is open either way, above which the form itself is read with one level less
    have hquote : resume (limit + 1) form (enter (limit + 1) (.operand name) []) =
        complete (limit + 1) (start.above [.operand name]) (form ++ []) := by
      rw [List.append_nil]
      rfl
    have hlist : resume (limit + 1) (Token.word name :: form ++ [mark .closeParen ⟨0, 0⟩])
          (begin (limit + 1) (mark .openParen ⟨0, 0⟩) []) =
        complete (limit + 1) (start.above [.items [.atom name]]) (form ++ [mark .closeParen ⟨0, 0⟩]) := by
      rw [begin_paren rfl (Nat.succ_pos limit), resume, List.cons_append, complete_cons, step_quoteName _ [] hname]
      rfl
    have hbegins := fun frames => (starts_of_form hform hdot).begins frames
    rw [hquote, hlist]
    rcases complete_form_or_tooDeep hform limit with hread | hdeep
    · left
      refine ⟨Datum.quoted name whole, ?_, ?_⟩
      · exact complete_above_of_ok [] (hbegins [.operand name]) hread
      · exact complete_above_of_ok _ (hbegins [.items [.atom name]]) hread
    · right
      constructor
      · exact complete_above_of_tooDeep [] (hbegins [.operand name]) hdeep
      · exact complete_above_of_tooDeep _ (hbegins [.items [.atom name]]) hdeep

theorem alike_spliced {heads more tail : List Token} {items others : List Datum} {dot : Token}
    (hheads : Items heads items) (hmore : Items more others) (htail : Tail tail whole) (hisDot : dot.isDot)
    (hroom : (Token.listed (heads ++ dot :: Token.listed (more ++ tail))).length ≤ room) :
    Alike room (Token.listed (heads ++ dot :: Token.listed (more ++ tail)))
      (Token.listed (heads ++ (more ++ tail))) := by
  have hinner : Form (Token.listed (more ++ tail)) (Datum.chain others.reverse whole) := hmore.list htail
  have hdotted : Tail (dot :: Token.listed (more ++ tail)) (Datum.chain others.reverse whole) := .dotted hisDot hinner
  have hfirst := hheads.list hdotted
  have hsecond := (hheads.append hmore).list htail
  rw [List.reverse_append, Datum.chain_append, List.append_assoc] at hsecond
  refine alike_of_forms hfirst hsecond (Grammar.not_loneDot_of_kind ?_) (Grammar.not_loneDot_of_kind ?_) hroom ?_
  · decide
  · decide
  · refine Nat.le_trans ?_ hroom
    simp only [Token.listed, List.length_cons, List.length_append, List.length_nil]
    omega

end Awaiting

/-! ## Readers -/

/-- But for their places these are the tokens that are left, and no read fails. -/
structure Lexer.Offers (lexer : Lexer) (tokens : List Token) : Prop where
  tokens : lexer.takeAll.1.map Token.unplaced = tokens
  clean : lexer.takeAll.2.failure = none

namespace Reader

open Awaiting Grammar
open Token (mark word listed)

variable {first second : Lexer} {before after : List Token} {datum : Datum}

theorem readAll_of_offers {lexer : Lexer} {tokens : List Token} (h : lexer.Offers tokens) (limit : Nat) :
    (ofLexer lexer limit).readAll.1.mapError Error.variant = verdictAll limit [] .start tokens := by
  have hread : (ofLexer lexer limit).readAll.1 = readTokens limit lexer.takeAll.1 := readAll_of_clean h.clean
  rw [hread, ← h.tokens, verdictAll_unplaced]
  rfl

theorem readAll_exchange {one other : List Token} {limit : Nat} (hfirst : first.Offers (before ++ (one ++ after)))
    (hsecond : second.Offers (before ++ (other ++ after)))
    (h : ∀ depth, depth ≤ before.length → depth ≤ limit → Alike (limit - depth) one other) :
    (ofLexer first limit).readAll.1.mapError Error.variant =
      (ofLexer second limit).readAll.1.mapError Error.variant := by
  rw [readAll_of_offers hfirst, readAll_of_offers hsecond]
  apply verdictAll_exchange (Nat.zero_le limit)
  intro depth hdepth
  exact h depth (Nat.le_trans hdepth (Nat.le_of_eq (Nat.zero_add _)))

/-- A quote mark abbreviates the list of its name and the form behind it: between any other tokens and under any limit
the same data are read, or the same error is met, but for its place and its words. -/
theorem readAll_quoted {kind : Token.Kind} {name : String} {form : List Token} (hname : kind.quoteName? = some name)
    (hform : Form form datum) (hdot : ¬LoneDot form)
    (hfirst : first.Offers (before ++ (mark kind ⟨0, 0⟩ :: form ++ after)))
    (hsecond : second.Offers (before ++ (listed (word name :: form) ++ after))) (limit : Nat) :
    (ofLexer first limit).readAll.1.mapError Error.variant =
      (ofLexer second limit).readAll.1.mapError Error.variant :=
  readAll_exchange hfirst hsecond fun depth _ _ => alike_quoted hname hform hdot (limit - depth)

/-- The quote mark makes a datum of a lone dot, which the list takes for the mark of its tail. -/
example : (ofLexer (Lexer.ofText "'.") 1).readAll.1 = .ok [.quoted "QUOTE" (.atom ".")] ∧
    (ofLexer (Lexer.ofText "(QUOTE .)") 1).readAll.1 = .error (.unexpectedToken ⟨1, 9⟩ "an expression" ")") := by
  decide +kernel

/-- Behind a dot, and in front of a parenthesis that nothing opened. -/
theorem readAll_quoted_of_tail :
    Form (listed [word "b"]) (.list [.atom "b"]) ∧ ¬LoneDot (listed [word "b"]) ∧
      (Lexer.ofText "(a . '(b)) )").Offers
        ([mark .openParen ⟨0, 0⟩, word "a", word "."] ++ (mark .quote ⟨0, 0⟩ :: listed [word "b"] ++
          [mark .closeParen ⟨0, 0⟩, mark .closeParen ⟨0, 0⟩])) ∧
      (Lexer.ofText "(a . (QUOTE (b))) )").Offers
        ([mark .openParen ⟨0, 0⟩, word "a", word "."] ++ (listed (word "QUOTE" :: listed [word "b"]) ++
          [mark .closeParen ⟨0, 0⟩, mark .closeParen ⟨0, 0⟩])) ∧
      ∀ limit, (ofLexer (Lexer.ofText "(a . '(b)) )") limit).readAll.1.mapError Error.variant =
        (ofLexer (Lexer.ofText "(a . (QUOTE (b))) )") limit).readAll.1.mapError Error.variant := by
  have hitems : Items [word "b"] [.atom "b"] := .single rfl (by decide)
  have hform : Form (listed [word "b"]) (.list [.atom "b"]) := hitems.list .nothing
  have hdot : ¬LoneDot (listed [word "b"]) := Grammar.not_loneDot_of_kind (by decide)
  have hfirst : (Lexer.ofText "(a . '(b)) )").Offers
      ([mark .openParen ⟨0, 0⟩, word "a", word "."] ++ (mark .quote ⟨0, 0⟩ :: listed [word "b"] ++
        [mark .closeParen ⟨0, 0⟩, mark .closeParen ⟨0, 0⟩])) :=
    ⟨by decide +kernel, by decide +kernel⟩
  have hsecond : (Lexer.ofText "(a . (QUOTE (b))) )").Offers
      ([mark .openParen ⟨0, 0⟩, word "a", word "."] ++ (listed (word "QUOTE" :: listed [word "b"]) ++
        [mark .closeParen ⟨0, 0⟩, mark .closeParen ⟨0, 0⟩])) :=
    ⟨by decide +kernel, by decide +kernel⟩
  exact ⟨hform, hdot, hfirst, hsecond, readAll_quoted rfl hform hdot hfirst hsecond⟩

/-- A list as the tail of a list continues it: between any other tokens the same data are read, or the same error is
met, but for its place and its words, if the limit is no hindrance. -/
theorem readAll_spliced {heads more tail : List Token} {items others : List Datum} {dot : Token} {limit : Nat}
    (hheads : Items heads items) (hmore : Items more others) (htail : Tail tail datum) (hisDot : dot.isDot)
    (hfirst : first.Offers (before ++ (listed (heads ++ dot :: listed (more ++ tail)) ++ after)))
    (hsecond : second.Offers (before ++ (listed (heads ++ (more ++ tail)) ++ after)))
    (hroom : (before ++ (listed (heads ++ dot :: listed (more ++ tail)) ++ after)).length ≤ limit) :
    (ofLexer first limit).readAll.1.mapError Error.variant =
      (ofLexer second limit).readAll.1.mapError Error.variant := by
  refine readAll_exchange hfirst hsecond fun depth hdepth _ => alike_spliced hheads hmore htail hisDot ?_
  rw [List.length_append, List.length_append] at hroom
  omega

/-- The inner list has an item and a dot as its tail. -/
theorem readAll_spliced_of_dotted_tail :
    Items [word "a"] [.atom "a"] ∧ Items [word "b"] [.atom "b"] ∧
      Tail [word ".", word "."] (.atom ".") ∧
      (Lexer.ofText "'(a . (b . .)) c").Offers ([mark .quote ⟨0, 0⟩] ++
        (listed ([word "a"] ++ word "." :: listed ([word "b"] ++ [word ".", word "."])) ++ [word "c"])) ∧
      (Lexer.ofText "'(a b . .) c").Offers ([mark .quote ⟨0, 0⟩] ++
        (listed ([word "a"] ++ ([word "b"] ++ [word ".", word "."])) ++ [word "c"])) ∧
      (ofLexer (Lexer.ofText "'(a . (b . .)) c") 12).readAll.1.mapError Error.variant =
        (ofLexer (Lexer.ofText "'(a b . .) c") 12).readAll.1.mapError Error.variant := by
  have hheads : Items [word "a"] [.atom "a"] := .single rfl (by decide)
  have hmore : Items [word "b"] [.atom "b"] := .single rfl (by decide)
  have htail : Tail [word ".", word "."] (.atom ".") := .dotted rfl (.word rfl)
  have hfirst : (Lexer.ofText "'(a . (b . .)) c").Offers ([mark .quote ⟨0, 0⟩] ++
      (listed ([word "a"] ++ word "." :: listed ([word "b"] ++ [word ".", word "."])) ++ [word "c"])) :=
    ⟨by decide +kernel, by decide +kernel⟩
  have hsecond : (Lexer.ofText "'(a b . .) c").Offers ([mark .quote ⟨0, 0⟩] ++
      (listed ([word "a"] ++ ([word "b"] ++ [word ".", word "."])) ++ [word "c"])) :=
    ⟨by decide +kernel, by decide +kernel⟩
  exact ⟨hheads, hmore, htail, hfirst, hsecond,
    readAll_spliced hheads hmore htail rfl hfirst hsecond (by decide)⟩

end Reader

end Sexp
