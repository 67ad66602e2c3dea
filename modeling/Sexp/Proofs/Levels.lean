import Sexp.Proofs.Viability
import Sexp.Proofs.WriteBack

/-!
# Levels of source and text

The text of a datum opens at most one form more at once than the source that the datum was read from, and it opens one
more only where a `NIL` of the source stands at the limit (`Awaiting.nest_le_iff_of_complete`): the empty list takes a
level of its own in a text, which the word does not. The tokens of a text open lists and nothing else, and never more
than the datum nests (`Datum.stays_tokens`), so a reader with that limit cannot find them too deep, whatever else it
makes of them (`Awaiting.complete_ne_tooDeep`).
-/

namespace Sexp

namespace Awaiting

variable {limit : Nat} {state : Awaiting} {tokens rest : List Token} {token : Token} {whole : Datum}
  {frames : List Frame}

/-! ## Levels of the source -/

/-- While the tokens are read, a word that stands for the empty list is met where the text has as many levels open as
the limit allows. -/
def nilAtLimit (limit : Nat) (state : Awaiting) : List Token → Bool
  | [] => false
  | token :: tokens =>
    (token.isNil && limit ≤ state.level) ||
      match state.step limit token with
      | .more next => nilAtLimit limit next tokens
      | _ => false

theorem nest_le_iff_of_complete (hdepth : state.depth ≤ limit) (h : complete limit state tokens = (.ok whole, rest)) :
    whole.nest ≤ limit ↔ state.FitsState limit ∧ nilAtLimit limit state tokens = false := by
  induction tokens generalizing state with
  | nil => cases h
  | cons token tokens ih =>
    have hok : ∀ error, state.step limit token ≠ .failed error := by
      intro error hfailed
      rw [complete, hfailed] at h
      cases h
    have hfits := fitsStep_step_iff hdepth hok
    have hroom : (token.isNil && limit ≤ state.level) = false ↔ (token.isNil → state.level < limit) := by
      simp
    rw [nilAtLimit, Bool.or_eq_false_iff, ← and_assoc, hroom, ← hfits]
    rw [complete] at h
    cases hstep : state.step limit token with
    | more next =>
      rw [hstep] at h
      exact ih (depth_step_le hdepth hstep) h
    | done found =>
      rw [hstep] at h
      cases h
      exact (and_iff_left rfl).symm
    | failed error => exact absurd hstep (hok error)

theorem readTokens_of_complete (h : complete limit start tokens = (.ok whole, [])) :
    readTokens limit tokens = .ok [whole] := by
  have hne : tokens ≠ [] := by
    rintro rfl
    cases h
  rw [readTokens, completeAll_eq limit [] (.inl hne), h]
  rfl

/-! ## Levels of a text -/

/-- Where so many forms are open, the tokens open and close lists only and keep within the limit. -/
def Stays (limit : Nat) : Nat → List Token → Prop
  | _, [] => True
  | depth, token :: tokens =>
    match token.kind with
    | .openParen => depth < limit ∧ Stays limit (depth + 1) tokens
    | .closeParen => Stays limit (depth - 1) tokens
    | .word => Stays limit depth tokens
    | .string => Stays limit depth tokens
    | _ => False

theorem Stays.mono {depth less : Nat} (h : Stays limit depth tokens) (hle : less ≤ depth) :
    Stays limit less tokens := by
  induction tokens generalizing depth less with
  | nil => trivial
  | cons token tokens ih =>
    rw [Stays] at h ⊢
    split at h
    · exact ⟨by omega, ih h.2 (by omega)⟩
    · exact ih h (by omega)
    · exact ih h hle
    · exact ih h hle
    · exact h.elim

theorem stays_unplaced {depth : Nat} : Stays limit depth (tokens.map Token.unplaced) ↔ Stays limit depth tokens := by
  induction tokens generalizing depth with
  | nil => rfl
  | cons token tokens ih =>
    rw [List.map_cons, Stays, Stays, Token.kind_unplaced]
    cases token.kind <;> simp [ih]

/-- After a step the tokens that follow keep within the limit, and an error is not about the limit. -/
def StaysStep (limit : Nat) (tokens : List Token) : Step → Prop
  | .more next => Stays limit next.depth tokens
  | .done _ => True
  | .failed error => ∀ other, error ≠ .tooDeep other

theorem staysStep_deliver (whole : Datum) (h : Stays limit frames.length tokens) :
    StaysStep limit tokens (deliver whole frames) := by
  cases hdeliver : deliver whole frames with
  | more next => exact h.mono (inside_deliver hdeliver).2
  | done found => trivial
  | failed error => exact absurd hdeliver (deliver_ne_failed whole frames)

theorem staysStep_begin (h : Stays limit frames.length (token :: tokens)) :
    StaysStep limit tokens (begin limit token frames) := by
  obtain ⟨kind, text, position⟩ := token
  cases kind with
  | openParen =>
    have hopened : begin limit ⟨.openParen, text, position⟩ frames = .more (datum (.items [] :: frames)) :=
      begin_paren rfl h.1
    rw [hopened]
    exact h.2
  | closeParen =>
    intro other hsame
    cases hsame
  | string => exact staysStep_deliver (.string text) h
  | word => exact staysStep_deliver (.ofWord text) h
  | _ => exact h.elim

theorem staysStep_step (h : Stays limit state.depth (token :: tokens)) :
    StaysStep limit tokens (state.step limit token) := by
  have hclosed : ∀ {whole frames}, token.kind = .closeParen → state.depth = frames.length + 1 →
      StaysStep limit tokens (deliver whole frames) := by
    intro whole frames hclose hdepth
    rw [Stays, hclose, hdepth] at h
    exact staysStep_deliver whole h
  cases state with
  | close items tail frames =>
    rw [step]
    split
    · exact hclosed ‹_› rfl
    · intro other hsame
      cases hsame
  | datum frames =>
    rcases frames with _ | ⟨items | items | name, frames⟩
    · exact staysStep_begin h
    · rw [step]
      split
      · exact hclosed ‹_› rfl
      · split
        · rename_i hisDot
          rw [Stays, (Token.isDot_iff.1 hisDot).1] at h
          exact h
        · exact staysStep_begin h
    · exact staysStep_begin h
    · exact staysStep_begin h

theorem complete_ne_tooDeep (h : Stays limit state.depth tokens) (other : Nat) :
    (complete limit state tokens).1 ≠ .error (.tooDeep other) := by
  induction tokens generalizing state with
  | nil =>
    intro hsame
    cases hsame
  | cons token tokens ih =>
    have hstep := staysStep_step h
    rw [complete]
    generalize state.step limit token = outcome at hstep
    cases outcome with
    | more next => exact ih hstep
    | done found =>
      intro hsame
      cases hsame
    | failed error =>
      intro hsame
      cases hsame
      exact hstep other rfl

end Awaiting

namespace Datum

open Awaiting (Stays)

variable {limit : Nat} {datum car cdr : Datum}

/-- The tokens of the datum keep within the limit wherever it has room for the datum. -/
def StaysAlone (limit : Nat) (datum : Datum) : Prop :=
  ∀ depth rest, depth + datum.nest ≤ limit → Stays limit depth rest → Stays limit depth (datum.tokens ++ rest)

/-- So do its tokens as the rest of a list. -/
def StaysOn (limit : Nat) (datum : Datum) : Prop :=
  ∀ depth rest, depth + 1 + datum.nestRest ≤ limit → Stays limit depth rest →
    Stays limit (depth + 1) (datum.restTokens ++ rest)

theorem StaysOn.alone (h : StaysOn limit datum) (hlist : datum.isList) : StaysAlone limit datum := by
  intro depth rest hroom hrest
  rw [nest_of_isList hlist] at hroom
  rw [tokens_of_isList hlist]
  exact ⟨by omega, h depth rest (by omega) hrest⟩

theorem StaysAlone.on (h : StaysAlone limit datum) (hlist : ¬datum.isList) : StaysOn limit datum := by
  intro depth rest hroom hrest
  rw [(nest_of_not_isList hlist).2] at hroom
  rw [restTokens_of_not_isList hlist, List.cons_append, List.append_assoc]
  apply h
  · rw [(nest_of_not_isList hlist).1]
    exact hroom
  · exact hrest

theorem StaysOn.cons (hcar : StaysAlone limit car) (hcdr : StaysOn limit cdr) : StaysOn limit (cons car cdr) := by
  intro depth rest hroom hrest
  rw [nestRest] at hroom
  rw [restTokens, List.append_assoc]
  apply hcar
  · omega
  · exact hcdr depth rest (by omega) hrest

theorem stays_tokens (limit : Nat) (datum : Datum) : StaysAlone limit datum ∧ StaysOn limit datum := by
  induction datum with
  | nil =>
    have hon : StaysOn limit nil := fun depth rest _ hrest => hrest
    exact ⟨hon.alone rfl, hon⟩
  | atom name =>
    have halone : StaysAlone limit (atom name) := fun depth rest _ hrest => hrest
    exact ⟨halone, halone.on nofun⟩
  | string value =>
    have halone : StaysAlone limit (string value) := fun depth rest _ hrest => hrest
    exact ⟨halone, halone.on nofun⟩
  | cons car cdr ihcar ihcdr =>
    have hon : StaysOn limit (.cons car cdr) := .cons ihcar.1 ihcdr.2
    exact ⟨hon.alone rfl, hon⟩

end Datum

/-! ## Texts -/

namespace Reader

variable {reader : Reader}

theorem checkEnd_ne_tooDeep (hclean : reader.lexer.takeAll.2.failure = none) (other : Nat) :
    reader.checkEnd.1 ≠ .error (.tooDeep other) := by
  unfold checkEnd
  rcases hlook : reader.lexer.look with ⟨failure | (_ | token), rest⟩
  · have htake : reader.lexer.take = (.error failure, rest) := by rw [Lexer.take, hlook]
    rw [Lexer.takeAll_of_take_error htake, (Lexer.take_of_error htake).1] at hclean
    cases hclean
  · intro hsame
    cases hsame
  · intro hsame
    cases hsame

theorem complete_of_readSole_tooDeep {other : Nat} (hclean : reader.lexer.takeAll.2.failure = none)
    (h : reader.readSole.1 = .error (.tooDeep other)) :
    (Awaiting.complete reader.limit .start reader.lexer.takeAll.1).1 = .error (.tooDeep other) := by
  obtain ⟨hanswer, hleft⟩ := complete_of_clean reader.limit .start hclean
  unfold readSole at h
  rcases hread : reader.read with ⟨error | found, rest⟩
  · rw [hread] at h
    rw [← hanswer, ← h]
    exact congrArg Prod.fst hread
  · have hrest : rest.lexer = (complete reader.limit .start reader.lexer).2 :=
      congrArg (fun answer => answer.2.lexer) hread.symm
    rw [← hrest] at hleft
    have hend : rest.checkEnd.1 ≠ .error (.tooDeep other) := by
      apply checkEnd_ne_tooDeep
      rw [hleft]
      exact hclean
    rw [hread] at h
    cases hcheck : rest.checkEnd.1 with
    | error error =>
      simp only [hcheck, Except.map, Except.error.injEq] at h
      rw [hcheck, h] at hend
      exact absurd rfl hend
    | ok =>
      simp only [hcheck, Except.map] at h
      cases h

theorem readSole_congr {lexer : Lexer} {limit other : Nat}
    (h : complete limit .start lexer = complete other .start lexer) :
    (ofLexer lexer limit).readSole.1 = (ofLexer lexer other).readSole.1 := by
  unfold readSole read checkEnd
  simp only [ofLexer, h]
  rcases complete other .start lexer with ⟨error | found, rest⟩
  · rfl
  · rcases hlook : rest.look with ⟨failure | (_ | token), looked⟩ <;> simp only [hlook]

end Reader

namespace Datum

open Reader (ofLexer)

variable {datum : Datum} {limit : Nat}

theorem readSole_text_ne_tooDeep_of_nest (hnamed : datum.Everywhere Named) (hnest : datum.nest ≤ limit) (other : Nat) :
    (ofLexer (Lexer.ofText datum.text) limit).readSole.1 ≠ .error (.tooDeep other) := by
  intro hdeep
  obtain ⟨htokens, hclean⟩ := Lexer.takeAll_text datum
  have hstays : Awaiting.Stays limit 0 (Lexer.ofText datum.text).takeAll.1 := by
    have halone : StaysAlone limit datum := (stays_tokens limit datum).1
    have hall := halone 0 [] (by omega) trivial
    rw [List.append_nil, ← tokens_render hnamed, Awaiting.stays_unplaced, ← htokens] at hall
    exact hall
  have hfailed := @Reader.complete_of_readSole_tooDeep (ofLexer (Lexer.ofText datum.text) limit) other hclean hdeep
  exact @Awaiting.complete_ne_tooDeep limit .start _ hstays other hfailed

theorem readSole_text_tooDeep_of_nest (hnamed : datum.Everywhere Named) (hundotted : datum.Everywhere Undotted)
    (hnest : limit < datum.nest) :
    (ofLexer (Lexer.ofText datum.text) limit).readSole.1 = .error (.tooDeep limit) := by
  obtain ⟨_, hclean⟩ := Lexer.takeAll_text datum
  have hunread : ¬(ofLexer (Lexer.ofText datum.text) limit).readSole.1 = .ok datum := by
    rw [readSole_text_of_named hnamed]
    omega
  generalize hlexer : Lexer.ofText datum.text = lexer at hclean hunread ⊢
  have hroom : Awaiting.start.depth + lexer.takeAll.1.length ≤ max lexer.takeAll.1.length datum.nest := by
    rw [Awaiting.start, Awaiting.depth, List.length_nil, Nat.zero_add]
    exact Nat.le_max_left _ _
  have hread : (ofLexer lexer (max lexer.takeAll.1.length datum.nest)).readSole.1 = .ok datum := by
    rw [← hlexer, readSole_text_of_named hnamed]
    exact ⟨hundotted, Nat.le_max_right _ _⟩
  rcases Awaiting.within_or_exceeds limit _ .start lexer.takeAll.1 (Nat.zero_le limit) with
    hwithin | ⟨before, opener, left, htokens, hexceeds⟩
  · rw [← Reader.readSole_congr (Reader.complete_of_within hwithin hroom)] at hread
    exact absurd hread hunread
  · have hfailed := (Reader.complete_of_exceeds htokens hexceeds hroom).1
    have hread : (ofLexer lexer limit).read = (.error (.tooDeep limit), _) := Prod.ext hfailed rfl
    rw [Reader.readSole, hread]

/-- The text of a datum that is read from a source under a limit is not found too deep under a limit of one more. Under
the same limit it is not either, unless a `NIL` of the source is met where the text has as many levels open as the limit
allows. If one is, the text of a readable datum is found too deep. -/
theorem text_not_too_deep {source : String} (hread : (ofLexer (Lexer.ofText source) limit).readSole.1 = .ok datum) :
    (∀ other, (ofLexer (Lexer.ofText datum.text) (limit + 1)).readSole.1 ≠ .error (.tooDeep other)) ∧
      (Awaiting.nilAtLimit limit .start (Token.allOfText source) = false →
        ∀ other, (ofLexer (Lexer.ofText datum.text) limit).readSole.1 ≠ .error (.tooDeep other)) ∧
      (Awaiting.nilAtLimit limit .start (Token.allOfText source) = true → datum.Everywhere Undotted →
        (ofLexer (Lexer.ofText datum.text) limit).readSole.1 = .error (.tooDeep limit)) := by
  rw [Reader.readSole_ofText_eq_ok_iff] at hread
  have hnamed : datum.Everywhere Named :=
    Grammar.named_of_form (Awaiting.form_of_complete_all hread) (Lexer.valid_takeAll (Lexer.valid_ofSource _))
  have hmore : datum.nest ≤ limit + 1 :=
    Awaiting.nest_of_readTokens (Awaiting.readTokens_of_complete hread) datum List.mem_cons_self
  have hnest : datum.nest ≤ limit ↔ Awaiting.nilAtLimit limit .start (Token.allOfText source) = false := by
    have hiff := Awaiting.nest_le_iff_of_complete (Nat.zero_le limit) hread
    rwa [and_iff_right (show Awaiting.start.FitsState limit from trivial)] at hiff
  refine ⟨readSole_text_ne_tooDeep_of_nest hnamed hmore, fun hnil => ?_, fun hnil hundotted => ?_⟩
  · exact readSole_text_ne_tooDeep_of_nest hnamed (hnest.2 hnil)
  · apply readSole_text_tooDeep_of_nest hnamed hundotted
    rw [hnil] at hnest
    exact Nat.lt_of_not_le fun hle => absurd (hnest.1 hle) (by decide)

/-- The word opens no form, but what it stands for is written as a list. -/
theorem nil_text_too_deep :
    (ofLexer (Lexer.ofText "nil") 0).readSole.1 = .ok nil ∧
      (ofLexer (Lexer.ofText nil.text) 0).readSole.1 = .error (.tooDeep 0) := by
  decide +kernel

/-- The first word leaves room for one more form. At the second one the limit is reached, but it is a tail. -/
theorem text_not_too_deep_of_nil_tail :
    (ofLexer (Lexer.ofText "(nil (a . nil))") 2).readSole.1 = .ok (list [nil, list [atom "a"]]) ∧
      Awaiting.nilAtLimit 2 .start (Token.allOfText "(nil (a . nil))") = false ∧
      ∀ other, (ofLexer (Lexer.ofText (list [nil, list [atom "a"]]).text) 2).readSole.1 ≠ .error (.tooDeep other) := by
  have hread : (ofLexer (Lexer.ofText "(nil (a . nil))") 2).readSole.1 = .ok (list [nil, list [atom "a"]]) := by
    decide +kernel
  have hnil : Awaiting.nilAtLimit 2 .start (Token.allOfText "(nil (a . nil))") = false := by decide +kernel
  exact ⟨hread, hnil, (text_not_too_deep hread).2.1 hnil⟩

end Datum

end Sexp
