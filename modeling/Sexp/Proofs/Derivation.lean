import Sexp.Proofs.Remaining
import Sexp.Reader.Grammar

/-!
# The reader reads the forms of the grammar

Both directions go through the forms that are open. Soundness is an invariant: `Awaiting.Reached state before`
says that the tokens read so far derive the state, one step keeps this, and so a form that is done is
derived from its tokens (`Awaiting.form_of_complete`). Completeness is an induction over derivations: a
form is read to its end and handed to the innermost open form (`Awaiting.complete_form`). Together they say that
`Reader.read` accepts exactly the forms and builds what they denote.
-/

namespace Sexp

namespace Grammar

/-! ## Items of a list -/

/-- The tokens are the word `.` alone. -/
def LoneDot (tokens : List Token) : Prop := ∃ token, tokens = [token] ∧ token.isDot

theorem not_loneDot_of_kind {token : Token} {tokens : List Token} (h : token.kind ≠ .word) :
    ¬LoneDot (token :: tokens) := by
  rintro ⟨dot, hdot, hisDot⟩
  cases hdot
  exact h (Token.isDot_iff.1 hisDot).1

/-- The tokens are forms one after the other, none of them a lone dot, which denote the items, newest
first. -/
inductive Items : List Token → List Datum → Prop
  | nil : Items [] []
  | snoc {tokens form : List Token} {items : List Datum} {item : Datum} :
    Items tokens items → ¬LoneDot form → Form form item → Items (tokens ++ form) (item :: items)

theorem Items.body {tokens rest : List Token} {items : List Datum} {datum : Datum}
    (h : Items tokens items) (hrest : Body rest datum) :
    Body (tokens ++ rest) (Datum.chain items.reverse datum) := by
  induction h generalizing rest datum with
  | nil => exact hrest
  | snoc _ hdot hform ih =>
    rw [List.append_assoc, List.reverse_cons, Datum.chain_append]
    refine ih (.item (fun token htoken hisDot => ?_) hform hrest)
    exact hdot ⟨token, htoken, hisDot⟩

end Grammar

namespace Awaiting

open Grammar

/-! ## Soundness -/

/-- The forms were opened by these tokens, which derive their items. -/
inductive Opened : List Frame → List Token → Prop
  | nil : Opened [] []
  | items {frames : List Frame} {before inside : List Token} {paren : Token} {items : List Datum} :
    Opened frames before → paren.kind = .openParen → Items inside items →
      Opened (.items items :: frames) (before ++ paren :: inside)
  | tail {frames : List Frame} {before inside : List Token} {paren dot : Token} {items : List Datum} :
    Opened frames before → paren.kind = .openParen → Items inside items → dot.isDot →
      Opened (.tail items :: frames) (before ++ paren :: (inside ++ [dot]))
  | operand {frames : List Frame} {before : List Token} {mark : Token} {name : String} :
    Opened frames before → mark.kind.quoteName? = some name →
      Opened (.operand name :: frames) (before ++ [mark])

/-- The tokens read so far derive the state. -/
def Reached (before : List Token) : Awaiting → Prop
  | datum frames => Opened frames before
  | close items tail frames =>
    ∃ outer form, Opened (.tail items :: frames) outer ∧ Form form tail ∧ before = outer ++ form

/-- The tokens read so far derive the outcome of a step. -/
def Arrived (before : List Token) : Step → Prop
  | .more state => state.Reached before
  | .done whole => Form before whole
  | .failed _ => True

theorem arrived_deliver {frames : List Frame} {before form : List Token} {complete : Datum}
    (hframes : Opened frames before) (hform : Form form complete)
    (hdot : ∀ items rest, frames = .items items :: rest → ¬LoneDot form) :
    Arrived (before ++ form) (deliver complete frames) := by
  induction frames generalizing before form complete with
  | nil =>
    cases hframes
    exact hform
  | cons frame frames ih =>
    cases hframes with
    | items houter hparen hinside =>
      rw [List.append_assoc, List.cons_append]
      exact .items houter hparen (.snoc hinside (hdot _ _ rfl) hform)
    | tail houter hparen hinside hisDot =>
      exact ⟨_, form, .tail houter hparen hinside hisDot, hform, rfl⟩
    | operand houter hmark =>
      rw [List.append_assoc, List.singleton_append]
      refine ih houter (.quoted hmark hform) (fun _ _ _ => not_loneDot_of_kind ?_)
      intro hword
      rw [hword] at hmark
      cases hmark

theorem arrived_begin (limit : Nat) (token : Token) {frames : List Frame} {before : List Token}
    (hframes : Opened frames before)
    (hdot : ∀ items rest, frames = .items items :: rest → ¬token.isDot) :
    Arrived (before ++ [token]) (begin limit token frames) := by
  have hlone : ∀ items rest, frames = .items items :: rest → ¬LoneDot [token] := by
    rintro items rest hitems ⟨dot, htoken, hisDot⟩
    cases htoken
    exact hdot items rest hitems hisDot
  unfold begin
  cases hname : token.kind.quoteName? with
  | some name =>
    simp only [enter]
    by_cases hlimit : frames.length < limit
    · rw [if_pos hlimit]
      exact .operand hframes hname
    · rw [if_neg hlimit]
      trivial
  | none =>
    cases hkind : token.kind with
    | openParen =>
      simp only [enter]
      by_cases hlimit : frames.length < limit
      · rw [if_pos hlimit]
        exact .items hframes hkind .nil
      · rw [if_neg hlimit]
        trivial
    | string => exact arrived_deliver hframes (.string hkind) hlone
    | word => exact arrived_deliver hframes (.word hkind) hlone
    | closeParen => trivial
    | endOfInput => trivial
    | quote => trivial
    | quasiquote => trivial
    | unquote => trivial

theorem arrived_list {frames : List Frame} {before body : List Token} {paren : Token} {whole : Datum}
    (hframes : Opened frames before) (hparen : paren.kind = .openParen) (hbody : Body body whole) :
    Arrived (before ++ paren :: body) (deliver whole frames) := by
  refine arrived_deliver hframes (.list hparen hbody) (fun _ _ _ => not_loneDot_of_kind ?_)
  rw [hparen]
  decide

theorem arrived_step (limit : Nat) (token : Token) {state : Awaiting} {before : List Token}
    (h : state.Reached before) : Arrived (before ++ [token]) (state.step limit token) := by
  cases state with
  | close items tail frames =>
    obtain ⟨outer, form, hopened, hform, rfl⟩ := h
    cases hopened with
    | @tail _ before inside paren dot _ houter hparen hinside hisDot =>
      rw [step]
      by_cases hclose : token.kind = .closeParen
      · -- the tokens read so far already end in the dot and the form behind it
        have hsplit : before ++ paren :: (inside ++ [dot]) ++ form ++ [token] =
            before ++ paren :: (inside ++ dot :: (form ++ [token])) := by simp
        rw [if_pos hclose, hsplit]
        exact arrived_list houter hparen (hinside.body (.tail hisDot hform hclose))
      · rw [if_neg hclose]
        trivial
  | datum frames =>
    rcases frames with _ | ⟨items | items | name, frames⟩
    · exact arrived_begin limit token h (fun _ _ hne => by cases hne)
    · rw [step]
      by_cases hclose : token.kind = .closeParen
      · rw [if_pos hclose]
        cases h with
        | items houter hparen hinside =>
          rw [List.append_assoc, List.cons_append]
          exact arrived_list houter hparen (hinside.body (.close hclose))
      · rw [if_neg hclose]
        by_cases hisDot : token.isDot
        · rw [if_pos hisDot]
          cases h with
          | items houter hparen hinside =>
            rw [List.append_assoc, List.cons_append]
            exact .tail houter hparen hinside hisDot
        · rw [if_neg hisDot]
          exact arrived_begin limit token h (fun _ _ _ => hisDot)
    · exact arrived_begin limit token h (fun _ _ hne => by cases hne)
    · exact arrived_begin limit token h (fun _ _ hne => by cases hne)

theorem form_of_complete {limit : Nat} {state : Awaiting} {before tokens rest : List Token} {whole : Datum}
    (hstate : state.Reached before) (h : complete limit state tokens = (.ok whole, rest)) :
    ∃ taken, tokens = taken ++ rest ∧ Form (before ++ taken) whole := by
  induction tokens generalizing state before with
  | nil => cases h
  | cons token tokens ih =>
    have hstep := arrived_step limit token hstate
    rw [complete] at h
    generalize state.step limit token = outcome at h hstep
    cases outcome with
    | more state =>
      obtain ⟨taken, htokens, hform⟩ := ih hstep h
      refine ⟨token :: taken, by rw [htokens, List.cons_append], ?_⟩
      rw [List.append_assoc, List.singleton_append] at hform
      exact hform
    | done whole =>
      cases h
      exact ⟨[token], rfl, hstep⟩
    | failed error => cases h

theorem form_of_complete_start {limit : Nat} {tokens rest : List Token} {whole : Datum}
    (h : complete limit start tokens = (.ok whole, rest)) :
    ∃ form, tokens = form ++ rest ∧ Form form whole := by
  have hstart : start.Reached [] := Opened.nil
  exact form_of_complete hstart h

theorem form_of_complete_all {limit : Nat} {tokens : List Token} {whole : Datum}
    (h : complete limit start tokens = (.ok whole, [])) : Form tokens whole := by
  obtain ⟨form, htokens, hform⟩ := form_of_complete_start h
  rw [htokens, List.append_nil]
  exact hform

/-! ## Completeness -/

/-- What is made of the tokens after a step. -/
def resume (limit : Nat) (tokens : List Token) : Step → Except Error Datum × List Token
  | .more state => complete limit state tokens
  | .done whole => (.ok whole, tokens)
  | .failed error => (.error error, tokens)

theorem complete_cons (limit : Nat) (state : Awaiting) (token : Token) (tokens : List Token) :
    complete limit state (token :: tokens) = resume limit tokens (state.step limit token) := by
  rw [complete]
  cases state.step limit token <;> rfl

theorem step_datum (limit : Nat) (token : Token) (frames : List Frame)
    (h : ∀ items rest, frames = .items items :: rest → token.kind ≠ .closeParen ∧ ¬token.isDot) :
    (datum frames).step limit token = begin limit token frames := by
  rcases frames with _ | ⟨items | items | name, frames⟩
  · rfl
  · obtain ⟨hclose, hisDot⟩ := h items frames rfl
    rw [step, if_neg hclose, if_neg hisDot]
  · rfl
  · rfl

theorem begin_quote {limit : Nat} {token : Token} {name : String} {frames : List Frame}
    (h : token.kind.quoteName? = some name) (hroom : frames.length < limit) :
    begin limit token frames = .more (datum (.operand name :: frames)) := by
  rw [begin, h]
  exact if_pos hroom

theorem begin_paren {limit : Nat} {token : Token} {frames : List Frame} (h : token.kind = .openParen)
    (hroom : frames.length < limit) : begin limit token frames = .more (datum (.items [] :: frames)) := by
  rw [begin, h]
  exact if_pos hroom

theorem begin_string (limit : Nat) {token : Token} (frames : List Frame) (h : token.kind = .string) :
    begin limit token frames = deliver (.string token.text) frames := by
  rw [begin, h]
  rfl

theorem begin_word (limit : Nat) {token : Token} (frames : List Frame) (h : token.kind = .word) :
    begin limit token frames = deliver (Datum.ofWord token.text) frames := by
  rw [begin, h]
  rfl

theorem not_isDot_of_kind {token : Token} (h : token.kind ≠ .word) : ¬token.isDot := by
  rw [Token.isDot_iff]
  exact fun hdot => h hdot.1

theorem quoteName?_cases {kind : Token.Kind} {name : String} (h : kind.quoteName? = some name) :
    kind ≠ .closeParen ∧ kind ≠ .word := by
  rcases Token.Kind.quoteName?_eq_some_iff.1 h with ⟨rfl, _⟩ | ⟨rfl, _⟩ | ⟨rfl, _⟩ <;> decide

theorem step_paren (limit : Nat) {token : Token} (frames : List Frame) (h : token.kind = .openParen) :
    (datum frames).step limit token = begin limit token frames := by
  have hword : token.kind ≠ .word := by rw [h]; decide
  exact step_datum limit token frames fun _ _ _ => ⟨by rw [h]; decide, not_isDot_of_kind hword⟩

/-! ### Parts of a list -/

variable {limit : Nat} {frames : List Frame} {tokens first others rest : List Token} {items : List Datum}

theorem complete_open {paren : Token} (hparen : paren.kind = .openParen) (hroom : frames.length < limit) :
    complete limit (datum frames) (paren :: tokens) = complete limit (datum (.items [] :: frames)) tokens := by
  rw [complete_cons, step_paren limit frames hparen, begin_paren hparen hroom]
  rfl

theorem complete_close {paren : Token} (hclose : paren.kind = .closeParen) :
    complete limit (datum (.items items :: frames)) (paren :: rest) =
      resume limit rest (deliver (Datum.chain items.reverse .nil) frames) := by
  rw [complete_cons, step, if_pos hclose]
  rfl

theorem complete_tail {dot paren : Token} {whole : Datum} (hisDot : dot.isDot)
    (hclose : paren.kind = .closeParen)
    (hread : complete limit (datum (.tail items :: frames)) (tokens ++ paren :: rest) =
      resume limit (paren :: rest) (deliver whole (.tail items :: frames))) :
    complete limit (datum (.items items :: frames)) (dot :: (tokens ++ [paren]) ++ rest) =
      resume limit rest (deliver (Datum.chain items.reverse whole) frames) := by
  have hword : dot.kind = .word := (Token.isDot_iff.1 hisDot).1
  rw [List.cons_append, complete_cons, step, if_neg (by rw [hword]; decide), if_pos hisDot,
    List.append_assoc, List.singleton_append, resume, hread, deliver, resume, complete_cons, step,
    if_pos hclose]

theorem complete_item {car cdr : Datum}
    (hfirst : complete limit (datum (.items items :: frames)) (first ++ (others ++ rest)) =
      resume limit (others ++ rest) (deliver car (.items items :: frames)))
    (hothers : complete limit (datum (.items (car :: items) :: frames)) (others ++ rest) =
      resume limit rest (deliver (Datum.chain (car :: items).reverse cdr) frames)) :
    complete limit (datum (.items items :: frames)) (first ++ others ++ rest) =
      resume limit rest (deliver (Datum.chain items.reverse (.cons car cdr)) frames) := by
  rw [List.reverse_cons, Datum.chain_append] at hothers
  rw [List.append_assoc, hfirst]
  exact hothers

/-! ### Forms -/

mutual

/-- A form is read to its end, if as many forms may be open as it has tokens, and is handed to the innermost
open form. -/
theorem complete_form {form : List Token} {whole : Datum} (h : Form form whole) (limit : Nat)
    (frames : List Frame) (rest : List Token) (hroom : frames.length + form.length ≤ limit)
    (hdot : ∀ items others, frames = .items items :: others → ¬LoneDot form) :
    complete limit (datum frames) (form ++ rest) = resume limit rest (deliver whole frames) := by
  match h with
  | @Form.string token hkind =>
    have hword : token.kind ≠ .word := by rw [hkind]; decide
    have hstep := step_datum limit token frames fun _ _ _ =>
      ⟨by rw [hkind]; decide, not_isDot_of_kind hword⟩
    rw [List.singleton_append, complete_cons, hstep, begin_string limit frames hkind]
  | @Form.word token hkind =>
    have hstep := step_datum limit token frames fun items others hitems =>
      ⟨by rw [hkind]; decide, fun hisDot => hdot items others hitems ⟨token, rfl, hisDot⟩⟩
    rw [List.singleton_append, complete_cons, hstep, begin_word limit frames hkind]
  | @Form.quoted token name tokens whole hname htokens =>
    rw [List.length_cons] at hroom
    obtain ⟨hclose, hword⟩ := quoteName?_cases hname
    have hstep := step_datum limit token frames fun _ _ _ => ⟨hclose, not_isDot_of_kind hword⟩
    rw [List.cons_append, complete_cons, hstep, begin_quote hname (by omega)]
    exact complete_form htokens limit (.operand name :: frames) rest
      (by rw [List.length_cons]; omega) (fun _ _ hne => by cases hne)
  | @Form.list token tokens whole hparen htokens =>
    rw [List.length_cons] at hroom
    rw [List.cons_append, complete_open hparen (by omega)]
    exact complete_body htokens limit [] frames rest (by omega)

theorem complete_body {body : List Token} {whole : Datum} (h : Body body whole) (limit : Nat)
    (items : List Datum) (frames : List Frame) (rest : List Token)
    (hroom : frames.length + 1 + body.length ≤ limit) :
    complete limit (datum (.items items :: frames)) (body ++ rest) =
      resume limit rest (deliver (Datum.chain items.reverse whole) frames) := by
  match h with
  | @Body.close token hclose => exact complete_close hclose
  | @Body.tail dot paren tokens whole hisDot htokens hclose =>
    rw [List.length_cons, List.length_append] at hroom
    have hread := complete_form htokens limit (.tail items :: frames) (paren :: rest)
      (by rw [List.length_cons]; omega) (fun _ _ hne => by cases hne)
    exact complete_tail hisDot hclose hread
  | @Body.item first others car cdr hlone hfirst hothers =>
    rw [List.length_append] at hroom
    have hread := complete_form hfirst limit (.items items :: frames) (others ++ rest)
      (by rw [List.length_cons]; omega)
      (fun _ _ _ hdot => by
        obtain ⟨token, htoken, hisDot⟩ := hdot
        exact hlone token htoken hisDot)
    exact complete_item hread (complete_body hothers limit (car :: items) frames rest (by omega))

end

theorem complete_eq_ok_iff {limit : Nat} {tokens rest : List Token} {whole : Datum}
    (hroom : tokens.length ≤ limit) :
    complete limit start tokens = (.ok whole, rest) ↔
      ∃ form, tokens = form ++ rest ∧ Grammar.Form form whole := by
  constructor
  · exact form_of_complete_start
  · rintro ⟨form, rfl, hform⟩
    rw [List.length_append] at hroom
    exact complete_form hform limit [] rest (by rw [List.length_nil]; omega)
      (fun _ _ hne => by cases hne)

end Awaiting

namespace Reader

open Grammar

/-- Where no read fails and the limit is no hindrance, reading answers a datum and leaves the tokens `left`
exactly if the tokens before those are a form that denotes the datum. There is only one such form. -/
theorem read_eq_ok_iff_form {reader : Reader} (hclean : reader.lexer.takeAll.2.failure = none)
    (hroom : reader.lexer.takeAll.1.length ≤ reader.limit) :
    (∀ datum left, reader.read.1 = .ok datum ∧ reader.read.2.lexer.takeAll.1 = left ↔
        ∃ form, reader.lexer.takeAll.1 = form ++ left ∧ Form form datum) ∧
      ∀ form left datum form' left' datum',
        reader.lexer.takeAll.1 = form ++ left → Form form datum →
        reader.lexer.takeAll.1 = form' ++ left' → Form form' datum' →
          form = form' ∧ left = left' ∧ datum = datum' := by
  have hiff : ∀ datum left, reader.read.1 = .ok datum ∧ reader.read.2.lexer.takeAll.1 = left ↔
      ∃ form, reader.lexer.takeAll.1 = form ++ left ∧ Form form datum := by
    intro datum left
    obtain ⟨hanswer, hleft⟩ := complete_of_clean reader.limit .start hclean
    rw [← Awaiting.complete_eq_ok_iff hroom]
    show (complete reader.limit .start reader.lexer).1 = .ok datum ∧
      (complete reader.limit .start reader.lexer).2.takeAll.1 = left ↔ _
    rw [hanswer, hleft, Prod.ext_iff]
  refine ⟨hiff, fun form left datum form' left' datum' htokens hform htokens' hform' => ?_⟩
  obtain ⟨hanswer, hleft⟩ := (hiff datum left).2 ⟨form, htokens, hform⟩
  obtain ⟨hanswer', hleft'⟩ := (hiff datum' left').2 ⟨form', htokens', hform'⟩
  rw [hanswer, Except.ok.injEq] at hanswer'
  rw [hleft] at hleft'
  rw [htokens, hleft'] at htokens'
  exact ⟨List.append_cancel_right htokens', hleft', hanswer'⟩

/-- Of the three dots of this list only the second one is the mark of the tail. The word behind it is left. -/
theorem read_eq_ok_iff_form_of_dots :
    let reader := ofLexer (Lexer.ofText "(a '. . .) b") 8
    let whole := Datum.chain [.atom "a", .quoted "QUOTE" (.atom ".")] (.atom ".")
    let left : List Token := [⟨.word, "b", ⟨1, 12⟩⟩]
    reader.lexer.takeAll.2.failure = none ∧ reader.lexer.takeAll.1.length ≤ reader.limit ∧
      (reader.read.1 = .ok whole ∧ reader.read.2.lexer.takeAll.1 = left) ∧
      (∃ form, reader.lexer.takeAll.1 = form ++ left ∧ Form form whole) ∧
      ((reader.read.1 = .ok whole ∧ reader.read.2.lexer.takeAll.1 = left) ↔
        ∃ form, reader.lexer.takeAll.1 = form ++ left ∧ Form form whole) := by
  intro reader whole left
  let dot (column : Nat) : Token := ⟨.word, ".", ⟨1, column⟩⟩
  let form : List Token :=
    [⟨.openParen, "", ⟨1, 1⟩⟩, ⟨.word, "a", ⟨1, 2⟩⟩, ⟨.quote, "", ⟨1, 4⟩⟩, dot 5, dot 7, dot 9,
      ⟨.closeParen, "", ⟨1, 10⟩⟩]
  have htokens : reader.lexer.takeAll.1 = form ++ left := by decide +kernel
  have hclean : reader.lexer.takeAll.2.failure = none := by decide +kernel
  have hroom : reader.lexer.takeAll.1.length ≤ reader.limit := by
    rw [htokens]
    decide
  have hname : Form [⟨.word, "a", ⟨1, 2⟩⟩] (.atom "a") := Form.word rfl
  have hdot : ∀ column, Form [dot column] (.atom ".") := by
    intro column
    have hword : Datum.ofWord "." = .atom "." := by decide
    rw [← hword]
    exact Form.word rfl
  have hrest : Body [dot 7, dot 9, ⟨.closeParen, "", ⟨1, 10⟩⟩] (.atom ".") := .tail rfl (hdot 9) rfl
  have hform : Form form whole := by
    refine .list rfl (.item ?_ hname (.item ?_ (.quoted rfl (hdot 5)) hrest))
    · rintro token ⟨⟩
      decide
    · rintro token ⟨⟩
  have hiff := (read_eq_ok_iff_form hclean hroom).1 whole left
  exact ⟨hclean, hroom, hiff.2 ⟨form, htokens, hform⟩, ⟨form, htokens, hform⟩, hiff⟩

end Reader

end Sexp
