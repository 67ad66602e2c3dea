import Sexp.Proofs.Derivation
import Sexp.Proofs.Rendering
import Sexp.Proofs.Validity

/-!
# Reading what was written

The text of a datum reads as that datum exactly if the datum is readable and nests no deeper than the limit
(`Reader.readSole_text_iff`). What is read is a form of valid tokens, so its names read as words, and then the
tokens of the text are those of the datum. A pair that starts with a dot makes the reader drop a list, so the
parentheses of the text would not all come back (`Grammar.opens_form`). And a reader that takes the tokens of a
readable datum opens as many lists at once as the datum nests, and stops at the first one too many.
-/

namespace Sexp

/-! ## Positions play no part -/

namespace Awaiting

theorem step_unplaced (limit : Nat) (token : Token) (state : Awaiting) :
    state.step limit token.unplaced = state.step limit token ∨
      ∃ error other, state.step limit token.unplaced = .failed error ∧
        state.step limit token = .failed other ∧ error.variant = other.variant := by
  have hbegin : ∀ frames, begin limit token.unplaced frames = begin limit token frames ∨
      ∃ error other, begin limit token.unplaced frames = .failed error ∧
        begin limit token frames = .failed other ∧ error.variant = other.variant := by
    obtain ⟨kind, text, position⟩ := token
    intro frames
    cases kind with
    | closeParen => exact .inr ⟨_, _, rfl, rfl, rfl⟩
    | _ => exact .inl rfl
  cases state with
  | close items tail frames =>
    by_cases hclose : token.kind = .closeParen
    · left
      simp only [step, Token.kind_unplaced, hclose, ↓reduceIte]
    · right
      simp only [step, Token.kind_unplaced, hclose, ↓reduceIte]
      exact ⟨_, _, rfl, rfl, rfl⟩
  | datum frames =>
    rcases frames with _ | ⟨items | items | name, frames⟩
    · exact hbegin []
    · by_cases hclose : token.kind = .closeParen
      · left
        simp only [step, Token.kind_unplaced, hclose, ↓reduceIte]
      · have hsame : token.unplaced.isDot = token.isDot := rfl
        by_cases hisDot : token.isDot
        · left
          simp only [step, Token.kind_unplaced, hsame, hclose, hisDot, ↓reduceIte]
        · simp only [step, Token.kind_unplaced, hsame, hclose, hisDot, ↓reduceIte, Bool.false_eq_true]
          exact hbegin (.items items :: frames)
    · exact hbegin (.tail items :: frames)
    · exact hbegin (.operand name :: frames)

theorem complete_unplaced (limit : Nat) (state : Awaiting) (tokens : List Token) (whole : Datum) :
    complete limit state (tokens.map Token.unplaced) = (.ok whole, []) ↔
      complete limit state tokens = (.ok whole, []) := by
  induction tokens generalizing state with
  | nil => rfl
  | cons token tokens ih =>
    rw [List.map_cons, complete_cons, complete_cons]
    rcases step_unplaced limit token state with hsame | ⟨error, other, herror, hother, _⟩
    · rw [hsame]
      cases state.step limit token with
      | more state => exact ih state
      | done found => simp only [resume, Prod.mk.injEq, List.map_eq_nil_iff]
      | failed error => constructor <;> (intro h; cases h)
    · rw [herror, hother]
      constructor <;> (intro h; cases h)

end Awaiting

/-! ## The parentheses of a text -/

namespace Token

/-- How many lists the tokens open. -/
def opens (tokens : List Token) : Nat := tokens.countP fun token => token.kind = .openParen

variable {token : Token} (first second : List Token)

theorem opens_append : opens (first ++ second) = opens first + opens second := List.countP_append

theorem opens_cons_paren (h : token.kind = .openParen) : opens (token :: first) = opens first + 1 :=
  List.countP_cons_of_pos (decide_eq_true h)

theorem opens_cons_other (h : token.kind ≠ .openParen) : opens (token :: first) = opens first :=
  List.countP_cons_of_neg (by rw [decide_eq_true_eq]; exact h)

/-- Neither a quote mark nor a word that stands for the empty list. -/
def Plain (token : Token) : Prop :=
  token.kind.quoteName? = none ∧ (token.kind = .word → Datum.isNilWord token.text = false)

end Token

namespace Datum

open Token (mark opens)

theorem opens_tokens (datum : Datum) :
    opens datum.tokens = opens datum.restTokens + if datum.isList then 1 else 0 := by
  cases datum with
  | cons car cdr => exact Token.opens_cons_paren (cons car cdr).restTokens rfl
  | _ => rfl

mutual

theorem plain_tokens {datum : Datum} (hnamed : datum.Everywhere Named) :
    ∀ token ∈ datum.tokens, token.Plain := by
  intro token htoken
  cases datum with
  | nil =>
    simp only [tokens, List.mem_cons, List.not_mem_nil, or_false] at htoken
    rcases htoken with rfl | rfl
    · exact ⟨rfl, nofun⟩
    · exact ⟨rfl, nofun⟩
  | atom name =>
    cases List.mem_singleton.1 htoken
    exact ⟨rfl, fun _ => hnamed.2.2⟩
  | string value =>
    cases List.mem_singleton.1 htoken
    exact ⟨rfl, nofun⟩
  | cons car cdr =>
    simp only [tokens, List.mem_cons, List.mem_append] at htoken
    rcases htoken with rfl | hcar | hcdr
    · exact ⟨rfl, nofun⟩
    · exact plain_tokens hnamed.2.1 token hcar
    · exact plain_restTokens hnamed.2.2 token hcdr

theorem plain_restTokens {datum : Datum} (hnamed : datum.Everywhere Named) :
    ∀ token ∈ datum.restTokens, token.Plain := by
  intro token htoken
  cases datum with
  | nil =>
    cases List.mem_singleton.1 htoken
    exact ⟨rfl, nofun⟩
  | atom name =>
    simp only [restTokens, List.mem_cons, List.not_mem_nil, or_false] at htoken
    rcases htoken with rfl | rfl | rfl
    · exact ⟨rfl, fun _ => by decide⟩
    · exact ⟨rfl, fun _ => hnamed.2.2⟩
    · exact ⟨rfl, nofun⟩
  | string value =>
    simp only [restTokens, List.mem_cons, List.not_mem_nil, or_false] at htoken
    rcases htoken with rfl | rfl | rfl
    · exact ⟨rfl, fun _ => by decide⟩
    · exact ⟨rfl, nofun⟩
    · exact ⟨rfl, nofun⟩
  | cons car cdr =>
    rcases List.mem_append.1 htoken with hcar | hcdr
    · exact plain_tokens hnamed.2.1 token hcar
    · exact plain_restTokens hnamed.2.2 token hcdr

end

end Datum

namespace Grammar

open Token (opens opens_append opens_cons_paren opens_cons_other)
open Awaiting (not_isDot_of_kind)

theorem eq_singleton_of_form_atom {form : List Token} {name : String} (h : Form form (.atom name))
    (hplain : ∀ token ∈ form, token.Plain) (hopens : opens form = 0) :
    ∃ token, form = [token] ∧ token.kind = .word ∧ token.text = name := by
  generalize hdatum : Datum.atom name = datum at h
  cases h with
  | string hkind => cases hdatum
  | @word token hkind =>
    rw [Datum.ofWord, (hplain token List.mem_cons_self).2 hkind] at hdatum
    cases hdatum
    exact ⟨token, rfl, hkind, rfl⟩
  | quoted hname htokens => cases hdatum
  | list hparen htokens =>
    rw [opens_cons_paren _ hparen] at hopens
    cases hopens

mutual

/-- A form of plain tokens opens at least as many lists as the tokens of what it denotes. It opens more if
a dot gets lost. -/
theorem opens_form {form : List Token} {datum : Datum} (h : Form form datum)
    (hplain : ∀ token ∈ form, token.Plain) :
    opens datum.tokens ≤ opens form ∧
      (opens form ≤ opens datum.tokens → datum.Everywhere Datum.Undotted) := by
  match h with
  | @Form.string token hkind => exact ⟨Nat.zero_le _, fun _ => trivial⟩
  | @Form.word token hkind =>
    have hnil := (hplain token List.mem_cons_self).2 hkind
    have hatom : Datum.ofWord token.text = .atom token.text := by
      rw [Datum.ofWord, hnil]
      rfl
    rw [hatom]
    exact ⟨Nat.zero_le _, fun _ => trivial⟩
  | @Form.quoted token name tokens datum hname htokens =>
    rw [(hplain token List.mem_cons_self).1] at hname
    cases hname
  | @Form.list token tokens datum hparen htokens =>
    have ⟨hle, hundotted⟩ := opens_body htokens fun other hother =>
      hplain other (List.mem_cons_of_mem token hother)
    rw [opens_cons_paren tokens hparen, Datum.opens_tokens]
    refine ⟨?_, fun hmost => hundotted ?_⟩
    · split <;> omega
    · split at hmost <;> omega

theorem opens_body {body : List Token} {datum : Datum} (h : Body body datum)
    (hplain : ∀ token ∈ body, token.Plain) :
    opens datum.restTokens ≤ opens body ∧
      (opens body ≤ opens datum.restTokens → datum.Everywhere Datum.Undotted) := by
  match h with
  | @Body.close token hclose => exact ⟨Nat.zero_le _, fun _ => trivial⟩
  | @Body.tail dot paren tokens datum hisDot htokens hclose =>
    have ⟨hle, hundotted⟩ := opens_form htokens fun other hother =>
      hplain other (List.mem_cons_of_mem dot (List.mem_append_left _ hother))
    have hword : dot.kind ≠ .openParen := by
      intro hparen
      exact not_isDot_of_kind (by rw [hparen]; decide) hisDot
    have hopens : opens (dot :: (tokens ++ [paren])) = opens tokens := by
      rw [opens_cons_other _ hword, opens_append, opens_cons_other _ (by rw [hclose]; decide)]
      rfl
    rw [Datum.opens_tokens] at hle hundotted
    rw [hopens]
    exact ⟨by omega, fun hmost => hundotted (by omega)⟩
  | @Body.item first rest car cdr hlone hfirst hrest =>
    have ⟨hcarle, hcar⟩ := opens_form hfirst fun other hother =>
      hplain other (List.mem_append_left rest hother)
    have ⟨hcdrle, hcdr⟩ := opens_body hrest fun other hother =>
      hplain other (List.mem_append_right first hother)
    have hopens : opens (Datum.cons car cdr).restTokens = opens car.tokens + opens cdr.restTokens :=
      opens_append car.tokens cdr.restTokens
    rw [opens_append, hopens]
    refine ⟨by omega, fun hmost => ⟨?_, hcar (by omega), hcdr (by omega)⟩⟩
    -- A name that is not behind any parenthesis is a word on its own, so it is no dot.
    cases car with
    | atom name =>
      rintro rfl
      have hname : opens (Datum.atom ".").tokens = 0 := rfl
      have hnone : opens first = 0 := by omega
      obtain ⟨token, htoken, hkind, htext⟩ := eq_singleton_of_form_atom hfirst
        (fun other hother => hplain other (List.mem_append_left rest hother)) hnone
      exact hlone token htoken (Token.isDot_iff.2 ⟨hkind, htext⟩)
    | _ => trivial

end

end Grammar

/-! ## Reading the tokens of a datum -/

namespace Datum

theorem Readable.of_cons {car cdr : Datum} (h : (cons car cdr).Readable) :
    car.Readable ∧ cdr.Readable ∧ car ≠ atom "." := by
  obtain ⟨⟨_, hcarnamed, hcdrnamed⟩, hundotted, hcarundotted, hcdrundotted⟩ := h
  refine ⟨⟨hcarnamed, hcarundotted⟩, ⟨hcdrnamed, hcdrundotted⟩, ?_⟩
  rintro rfl
  exact hundotted rfl

end Datum

namespace Awaiting

open Token (mark)

variable {limit : Nat} {whole car cdr : Datum}

/-- Where a datum is expected, the tokens are read to their end if they stay within the limit. -/
def ReadsAlone (limit : Nat) (whole : Datum) : Prop :=
  ∀ frames rest, frames.length + whole.nest ≤ limit →
    (∀ items others, frames = .items items :: others → whole ≠ .atom ".") →
      complete limit (datum frames) (whole.tokens ++ rest) = resume limit rest (deliver whole frames)

/-- So are the tokens of the rest of a list behind its first items. -/
def ReadsOn (limit : Nat) (whole : Datum) : Prop :=
  ∀ items frames rest, frames.length + 1 + whole.nestRest ≤ limit →
    complete limit (datum (.items items :: frames)) (whole.restTokens ++ rest) =
      resume limit rest (deliver (Datum.chain items.reverse whole) frames)

theorem readsAlone_atom {name : String} (hname : Datum.isNilWord name = false) :
    ReadsAlone limit (.atom name) := by
  intro frames rest _ hdot
  have hnotDot : ∀ items others, frames = .items items :: others → ¬(Token.isDot ⟨.word, name, ⟨0, 0⟩⟩) := by
    intro items others hframes hisDot
    exact hdot items others hframes (congrArg Datum.atom (Token.isDot_iff.1 hisDot).2)
  have hstep := step_datum limit ⟨.word, name, ⟨0, 0⟩⟩ frames fun items others hframes =>
    ⟨nofun, hnotDot items others hframes⟩
  rw [Datum.tokens, List.singleton_append, complete_cons, hstep, begin_word limit frames rfl,
    Datum.ofWord, hname]
  rfl

theorem readsAlone_string (value : String) : ReadsAlone limit (.string value) := by
  intro frames rest _ _
  have hstep := step_datum limit ⟨.string, value, ⟨0, 0⟩⟩ frames fun _ _ _ =>
    ⟨nofun, not_isDot_of_kind nofun⟩
  rw [Datum.tokens, List.singleton_append, complete_cons, hstep, begin_string limit frames rfl]

theorem ReadsAlone.on (h : ReadsAlone limit whole) (hlist : ¬whole.isList) : ReadsOn limit whole := by
  intro items frames rest hroom
  rw [(Datum.nest_of_not_isList hlist).2] at hroom
  rw [Datum.restTokens_of_not_isList hlist]
  have hinside : (Frame.tail items :: frames).length + whole.nest ≤ limit := by
    rw [(Datum.nest_of_not_isList hlist).1]
    exact hroom
  exact complete_tail rfl rfl (h (.tail items :: frames) _ hinside nofun)

theorem ReadsOn.alone (h : ReadsOn limit whole) (hlist : whole.isList) : ReadsAlone limit whole := by
  intro frames rest hroom _
  rw [Datum.nest_of_isList hlist] at hroom
  rw [Datum.tokens_of_isList hlist, List.cons_append, complete_open rfl (by omega)]
  exact h [] frames rest (by omega)

theorem ReadsOn.cons (hcar : ReadsAlone limit car) (hcdr : ReadsOn limit cdr) (hdot : car ≠ .atom ".") :
    ReadsOn limit (.cons car cdr) := by
  intro items frames rest hroom
  rw [Datum.nestRest] at hroom
  have hfirst := hcar (.items items :: frames) (cdr.restTokens ++ rest)
    (by rw [List.length_cons]; omega) (fun _ _ _ => hdot)
  exact complete_item hfirst (hcdr (car :: items) frames rest (by omega))

theorem reads_of_readable (hreadable : whole.Readable) : ReadsAlone limit whole ∧ ReadsOn limit whole := by
  induction whole with
  | nil =>
    have hon : ReadsOn limit .nil := fun items frames rest _ => complete_close rfl
    exact ⟨hon.alone rfl, hon⟩
  | atom name =>
    have halone : ReadsAlone limit (.atom name) := readsAlone_atom hreadable.1.2.2
    exact ⟨halone, halone.on nofun⟩
  | string value =>
    have halone : ReadsAlone limit (.string value) := readsAlone_string value
    exact ⟨halone, halone.on nofun⟩
  | cons car cdr ihcar ihcdr =>
    obtain ⟨hcar, hcdr, hdot⟩ := hreadable.of_cons
    have hon : ReadsOn limit (.cons car cdr) := .cons (ihcar hcar).1 (ihcdr hcdr).2 hdot
    exact ⟨hon.alone rfl, hon⟩

/-! ## Too deep a datum -/

/-- Where a datum is expected, the tokens are refused as too deep if they pass the limit. -/
def FailsAlone (limit : Nat) (whole : Datum) : Prop :=
  ∀ frames rest, frames.length ≤ limit → limit < frames.length + whole.nest →
    (complete limit (datum frames) (whole.tokens ++ rest)).1 = .error (.tooDeep limit)

/-- So are the tokens of the rest of a list behind its first items, if they pass it. -/
def FailsOn (limit : Nat) (whole : Datum) : Prop :=
  ∀ items frames rest, frames.length < limit → limit < frames.length + 1 + whole.nestRest →
    (complete limit (datum (.items items :: frames)) (whole.restTokens ++ rest)).1 = .error (.tooDeep limit)

theorem FailsOn.alone (h : FailsOn limit whole) (hlist : whole.isList) : FailsAlone limit whole := by
  intro frames rest hroom hdeep
  rw [Datum.nest_of_isList hlist] at hdeep
  rw [Datum.tokens_of_isList hlist, List.cons_append]
  by_cases hfull : frames.length < limit
  · rw [complete_open rfl hfull]
    exact h [] frames rest hfull (by omega)
  · rw [complete_cons, step_paren limit frames rfl]
    have hfailed : begin limit (mark .openParen ⟨0, 0⟩) frames = .failed (.tooDeep limit) := if_neg hfull
    rw [hfailed]
    rfl

theorem FailsOn.cons (hcar : FailsAlone limit car) (hread : ReadsAlone limit car) (hcdr : FailsOn limit cdr)
    (hdot : car ≠ .atom ".") : FailsOn limit (.cons car cdr) := by
  intro items frames rest hroom hdeep
  rw [Datum.nestRest] at hdeep
  rw [Datum.restTokens, List.append_assoc]
  have hlength : (Frame.items items :: frames).length = frames.length + 1 := rfl
  by_cases hfits : frames.length + 1 + car.nest ≤ limit
  · rw [hread (.items items :: frames) (cdr.restTokens ++ rest) hfits fun _ _ _ => hdot]
    exact hcdr (car :: items) frames rest hroom (by omega)
  · exact hcar (.items items :: frames) (cdr.restTokens ++ rest) (by omega) (by omega)

theorem fails_of_not_isList (h : ¬whole.isList) : FailsAlone limit whole ∧ FailsOn limit whole := by
  obtain ⟨hnest, hnestRest⟩ := Datum.nest_of_not_isList h
  refine ⟨fun frames rest hroom hdeep => ?_, fun items frames rest hroom hdeep => ?_⟩
  · rw [hnest] at hdeep
    omega
  · rw [hnestRest] at hdeep
    omega

theorem fails_of_readable (hreadable : whole.Readable) : FailsAlone limit whole ∧ FailsOn limit whole := by
  induction whole with
  | nil =>
    have hon : FailsOn limit .nil := by
      intro items frames rest hroom hdeep
      have hnest : Datum.nil.nestRest = 0 := rfl
      omega
    exact ⟨hon.alone rfl, hon⟩
  | atom name => exact fails_of_not_isList nofun
  | string value => exact fails_of_not_isList nofun
  | cons car cdr ihcar ihcdr =>
    obtain ⟨hcar, hcdr, hdot⟩ := hreadable.of_cons
    have hon : FailsOn limit (.cons car cdr) :=
      .cons (ihcar hcar).1 (reads_of_readable hcar).1 (ihcdr hcdr).2 hdot
    exact ⟨hon.alone rfl, hon⟩

theorem complete_tokens_iff (hnamed : whole.Everywhere Datum.Named) :
    complete limit start whole.tokens = (.ok whole, []) ↔
      whole.Everywhere Datum.Undotted ∧ whole.nest ≤ limit := by
  have hall : whole.tokens ++ [] = whole.tokens := List.append_nil whole.tokens
  constructor
  · intro h
    have hform := form_of_complete_all h
    have hundotted := (Grammar.opens_form hform (Datum.plain_tokens hnamed)).2 (Nat.le_refl _)
    refine ⟨hundotted, ?_⟩
    by_cases hdeep : whole.nest ≤ limit
    · exact hdeep
    · have halone : FailsAlone limit whole := (fails_of_readable ⟨hnamed, hundotted⟩).1
      have hfailed := halone [] [] (Nat.zero_le limit) (by rw [List.length_nil]; omega)
      rw [hall, ← start, h] at hfailed
      cases hfailed
  · rintro ⟨hundotted, hnest⟩
    have halone : ReadsAlone limit whole := (reads_of_readable ⟨hnamed, hundotted⟩).1
    have hread := halone [] [] (by rw [List.length_nil]; omega) nofun
    rw [hall] at hread
    exact hread

end Awaiting

/-! ## Texts -/

theorem Lexer.takeAll_text (datum : Datum) :
    (ofText datum.text).takeAll.1 = Token.OnePass.tokens datum.render ∧
      (ofText datum.text).takeAll.2.failure = none := by
  have htext : datum.text.toList = datum.render := String.toList_ofList
  rw [← htext]
  exact takeAll_of_holds (Source.holds_ofText datum.text)

namespace Reader

/-- Reading the text of a datum, whatever the datum is, gives that datum again exactly if the datum is readable
and nests no deeper than the limit. -/
theorem readSole_text_iff (datum : Datum) (limit : Nat) :
    (∃ again, (ofLexer (Lexer.ofText datum.text) limit).readSole.1 = .ok again ∧ again == datum) ↔
      datum.Readable ∧ datum.nest ≤ limit := by
  obtain ⟨htokens, hclean⟩ := Lexer.takeAll_text datum
  have hread : (ofLexer (Lexer.ofText datum.text) limit).readSole.1 = .ok datum ↔
      Awaiting.complete limit .start (Token.OnePass.tokens datum.render) = (.ok datum, []) := by
    rw [← htokens]
    apply readSole_eq_ok_iff
    exact hclean
  constructor
  · rintro ⟨again, hagain, hsame⟩
    obtain rfl := eq_of_beq hsame
    have hcomplete := hread.1 hagain
    -- Only now that the names are known to read as words are the tokens of the text known.
    have hvalid : ∀ token ∈ Token.OnePass.tokens again.render, token.Valid := by
      rw [← htokens]
      exact Lexer.valid_takeAll (Lexer.valid_ofSource _)
    have hnamed := Grammar.named_of_form (Awaiting.form_of_complete_all hcomplete) hvalid
    rw [← Awaiting.complete_unplaced, Datum.tokens_render hnamed, Awaiting.complete_tokens_iff hnamed]
      at hcomplete
    exact ⟨⟨hnamed, hcomplete.1⟩, hcomplete.2⟩
  · rintro ⟨⟨hnamed, hundotted⟩, hnest⟩
    have hcomplete := (Awaiting.complete_tokens_iff hnamed).2 ⟨hundotted, hnest⟩
    rw [← Datum.tokens_render hnamed, Awaiting.complete_unplaced, ← hread] at hcomplete
    exact ⟨datum, hcomplete, BEq.rfl⟩

end Reader

end Sexp
