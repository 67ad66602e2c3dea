import Sexp.Proofs.Depth
import Sexp.Proofs.Derivation
import Sexp.Proofs.OnePass

/-!
# Reading all forms

Where no read fails, a reader reads all data as `Awaiting.readTokens` does from the tokens that are left
(`Reader.readAll_of_clean`). With room for all tokens these are data exactly if the grammar makes the tokens forms
that denote them (`Awaiting.readTokens_eq_ok_iff`). The invariant is `Awaiting.Progress`: the tokens read so far are
the forms of the data read so far and then the start of one more form.
-/

namespace Sexp

namespace Grammar

theorem Forms.append {first second : List Token} {data more : List Datum} (hfirst : Forms first data)
    (hsecond : Forms second more) : Forms (first ++ second) (data ++ more) := by
  induction hfirst with
  | nil => exact hsecond
  | cons hform _ ih =>
    rw [List.append_assoc]
    exact .cons hform ih

theorem Forms.snoc {tokens form : List Token} {data : List Datum} {datum : Datum}
    (h : Forms tokens data) (hform : Form form datum) : Forms (tokens ++ form) (data ++ [datum]) := by
  have hone : Forms (form ++ []) [datum] := .cons hform .nil
  rw [List.append_nil] at hone
  exact h.append hone

end Grammar

namespace Awaiting

open Grammar

variable {limit : Nat} {data later result : List Datum} {state next : Awaiting} {token : Token}
  {before tokens : List Token} {whole : Datum} {error : Error}

/-! ## Form by form -/

/-- What follows when a form has been completed. -/
def continueAll (limit : Nat) (data : List Datum) : Except Error Datum × List Token → Except Error (List Datum)
  | (.ok whole, rest) => completeAll limit (whole :: data) start rest
  | (.error error, _) => .error error

/-- The form that is open is completed first. Only between two forms may the text end. -/
theorem completeAll_eq (limit : Nat) (data : List Datum) {state : Awaiting} {tokens : List Token}
    (h : tokens ≠ [] ∨ 0 < state.depth) :
    completeAll limit data state tokens = continueAll limit data (complete limit state tokens) := by
  induction tokens generalizing state with
  | nil =>
    have hopen : 0 < state.depth := h.resolve_left fun hne => hne rfl
    rw [completeAll, if_neg (Nat.ne_of_gt hopen)]
    rfl
  | cons token tokens ih =>
    rw [completeAll, complete]
    cases hstep : state.step limit token with
    | more next => exact ih (.inr (inside_step hstep).1)
    | done whole => rfl
    | failed error => rfl

/-! ## Token by token -/

/-- What one more token makes of the data read so far, newest first, and of the state. -/
def turn (limit : Nat) (data : List Datum) (state : Awaiting) (token : Token) :
    Except Error (List Datum × Awaiting) :=
  match state.step limit token with
  | .more next => .ok (data, next)
  | .done whole => .ok (whole :: data, start)
  | .failed error => .error error

theorem completeAll_cons (limit : Nat) (data : List Datum) (state : Awaiting) (token : Token)
    (tokens : List Token) :
    completeAll limit data state (token :: tokens) =
      match turn limit data state token with
      | .ok (data, next) => completeAll limit data next tokens
      | .error error => .error error := by
  rw [completeAll, turn]
  cases state.step limit token <;> rfl

theorem turn_eq_ok (h : turn limit data state token = .ok (later, next)) :
    (state.step limit token = .more next ∧ later = data) ∨
      ∃ whole, state.step limit token = .done whole ∧ later = whole :: data ∧ next = start := by
  unfold turn at h
  cases hstep : state.step limit token <;> rw [hstep] at h <;> cases h
  · exact .inl ⟨rfl, rfl⟩
  · exact .inr ⟨_, rfl, rfl, rfl⟩

theorem turn_eq_error (h : turn limit data state token = .error error) :
    state.step limit token = .failed error := by
  unfold turn at h
  cases hstep : state.step limit token <;> rw [hstep] at h <;> cases h
  rfl

theorem depth_turn_le (h : turn limit data state token = .ok (later, next)) :
    next.depth ≤ state.depth + 1 := by
  rcases turn_eq_ok h with ⟨hstep, _⟩ | ⟨_, _, _, rfl⟩
  · exact (inside_step hstep).2
  · exact Nat.zero_le _

theorem depth_turn_le_of_le (hstate : state.depth ≤ limit) (h : turn limit data state token = .ok (later, next)) :
    next.depth ≤ limit := by
  rcases turn_eq_ok h with ⟨hstep, _⟩ | ⟨_, _, _, rfl⟩
  · exact depth_step_le hstate hstep
  · exact Nat.zero_le limit

theorem invariant_of_completeAll (Inv : List Token → List Datum → Awaiting → Prop)
    (hturn : ∀ {before data state token later next}, Inv before data state →
      turn limit data state token = .ok (later, next) → Inv (before ++ [token]) later next)
    (hfirst : Inv before data state) (h : completeAll limit data state tokens = .ok result) :
    ∃ last, last.depth = 0 ∧ Inv (before ++ tokens) result.reverse last := by
  induction tokens generalizing before data state with
  | nil =>
    rw [completeAll] at h
    split at h
    · cases h
      rw [List.append_nil, List.reverse_reverse]
      exact ⟨state, ‹_›, hfirst⟩
    · cases h
  | cons token tokens ih =>
    rw [completeAll_cons] at h
    rw [List.append_cons]
    cases houtcome : turn limit data state token with
    | ok outcome =>
      rw [houtcome] at h
      exact ih (hturn hfirst houtcome) h
    | error error =>
      rw [houtcome] at h
      cases h

/-! ## Soundness -/

/-- The tokens read so far are forms that denote the data, newest first, and then derive the state. -/
def Progress (before : List Token) (data : List Datum) (state : Awaiting) : Prop :=
  ∃ earlier current, before = earlier ++ current ∧ Forms earlier data.reverse ∧ state.Reached current

theorem progress_nil : Progress [] [] start := ⟨[], [], rfl, .nil, .nil⟩

theorem progress_turn (h : Progress before data state) (hturn : turn limit data state token = .ok (later, next)) :
    Progress (before ++ [token]) later next := by
  obtain ⟨earlier, current, rfl, hearlier, hcurrent⟩ := h
  have harrived := arrived_step limit token hcurrent
  rcases turn_eq_ok hturn with ⟨hstep, rfl⟩ | ⟨whole, hstep, rfl, rfl⟩
  · rw [hstep] at harrived
    exact ⟨earlier, current ++ [token], List.append_assoc .., hearlier, harrived⟩
  · rw [hstep] at harrived
    refine ⟨earlier ++ (current ++ [token]), [], by simp, ?_, .nil⟩
    rw [List.reverse_cons]
    exact hearlier.snoc harrived

theorem Progress.forms (h : Progress before data state) (hdepth : state.depth = 0) :
    Forms before data.reverse := by
  obtain ⟨earlier, current, rfl, hearlier, hcurrent⟩ := h
  cases state with
  | close items tail frames => cases hdepth
  | datum frames =>
    obtain rfl := List.eq_nil_of_length_eq_zero hdepth
    cases hcurrent
    rw [List.append_nil]
    exact hearlier

theorem forms_of_readTokens (h : readTokens limit tokens = .ok result) : Forms tokens result := by
  obtain ⟨last, hdepth, hprogress⟩ := invariant_of_completeAll Progress progress_turn progress_nil h
  have hforms := hprogress.forms hdepth
  rwa [List.reverse_reverse] at hforms

/-! ## Completeness -/

theorem form_ne_nil {form : List Token} (h : Form form whole) : form ≠ [] := by
  cases h <;> exact List.cons_ne_nil _ _

theorem completeAll_of_forms (h : Forms tokens result) (data : List Datum) (hroom : tokens.length ≤ limit) :
    completeAll limit data start tokens = .ok (data.reverse ++ result) := by
  induction h generalizing data with
  | nil =>
    rw [List.append_nil]
    rfl
  | @cons first rest datum others hform _ ih =>
    rw [List.length_append] at hroom
    have hread : complete limit start (first ++ rest) = (.ok datum, rest) := by
      refine complete_form hform limit [] rest ?_ nofun
      rw [List.length_nil]
      omega
    have hne : first ++ rest ≠ [] := fun hnil => form_ne_nil hform (List.append_eq_nil_iff.1 hnil).1
    rw [completeAll_eq limit data (.inl hne), hread, continueAll, ih (datum :: data) (by omega)]
    simp

theorem readTokens_eq_ok_iff (hroom : tokens.length ≤ limit) :
    readTokens limit tokens = .ok result ↔ Forms tokens result := by
  constructor
  · exact forms_of_readTokens
  · intro h
    exact completeAll_of_forms h [] hroom

end Awaiting

/-! ## Readers -/

namespace Reader

variable {reader : Reader}

theorem read?_of_nil (hclean : reader.lexer.takeAll.2.failure = none) (h : reader.lexer.takeAll.1 = []) :
    reader.read?.1 = .ok none := by
  unfold read?
  rcases hlook : reader.lexer.look with ⟨failure | (_ | token), looked⟩
  · have htake : reader.lexer.take = (.error failure, looked) := by rw [Lexer.take, hlook]
    rw [Lexer.takeAll_of_take_error htake, (Lexer.take_of_error htake).1] at hclean
    cases hclean
  · rfl
  · have htake : reader.lexer.take = (.ok (some token), { looked with lookahead := .nothing }) := by
      rw [Lexer.take, hlook]
    rw [Lexer.takeAll_of_take_token htake] at h
    cases h

theorem read?_of_ne_nil (hclean : reader.lexer.takeAll.2.failure = none) (h : reader.lexer.takeAll.1 ≠ []) :
    reader.read?.1 = (Awaiting.complete reader.limit .start reader.lexer.takeAll.1).1.map some ∧
      reader.read?.2.limit = reader.limit ∧
      reader.read?.2.lexer.takeAll =
        ((Awaiting.complete reader.limit .start reader.lexer.takeAll.1).2, reader.lexer.takeAll.2) := by
  unfold read?
  rcases hlook : reader.lexer.look with ⟨failure | (_ | token), looked⟩
  · have htake : reader.lexer.take = (.error failure, looked) := by rw [Lexer.take, hlook]
    rw [Lexer.takeAll_of_take_error htake] at h
    exact absurd rfl h
  · have htake : reader.lexer.take = (.ok none, looked) := by rw [Lexer.take, hlook]
    rw [Lexer.takeAll_of_take_none htake] at h
    exact absurd rfl h
  · have hsame := Lexer.takeAll_of_look_token hlook
    rw [← hsame] at hclean ⊢
    obtain ⟨hanswer, hleft⟩ := complete_of_clean reader.limit .start hclean
    exact ⟨congrArg (Except.map some) hanswer, rfl, hleft⟩

theorem readRest_of_clean (data : List Datum) (hclean : reader.lexer.takeAll.2.failure = none) :
    (readRest data reader).1 = Awaiting.completeAll reader.limit data .start reader.lexer.takeAll.1 := by
  induction hsize : reader.size using Nat.strongRecOn generalizing data reader with
  | _ size ih =>
    subst hsize
    rw [readRest_eq]
    by_cases hnil : reader.lexer.takeAll.1 = []
    · have hend := read?_of_nil hclean hnil
      rw [hnil]
      generalize reader.read? = answer at hend
      obtain ⟨answer, rest⟩ := answer
      cases hend
      rfl
    · obtain ⟨hanswer, hlimit, hleft⟩ := read?_of_ne_nil hclean hnil
      rw [Awaiting.completeAll_eq reader.limit data (.inl hnil)]
      rcases hread : reader.read? with ⟨error | (_ | datum), rest⟩
      all_goals
        rw [hread] at hanswer hlimit hleft
        rcases hcomplete : Awaiting.complete reader.limit .start reader.lexer.takeAll.1 with
          ⟨error' | whole, left⟩
        all_goals rw [hcomplete] at hanswer hleft
        all_goals cases hanswer
      · rfl
      · have hrest : rest.lexer.takeAll.2.failure = none := by rw [hleft]; exact hclean
        have hlater := ih _ (size_read? hread) (datum :: data) hrest rfl
        rw [hlimit, hleft] at hlater
        exact hlater

theorem readAll_of_clean (hclean : reader.lexer.takeAll.2.failure = none) :
    reader.readAll.1 = Awaiting.readTokens reader.limit reader.lexer.takeAll.1 :=
  readRest_of_clean [] hclean

theorem readSole_ofText_eq_ok_iff (text : String) (limit : Nat) (datum : Datum) :
    (ofLexer (Lexer.ofText text) limit).readSole.1 = .ok datum ↔
      Awaiting.complete limit .start (Token.allOfText text) = (.ok datum, []) := by
  apply readSole_eq_ok_iff
  exact (Lexer.takeAll_of_holds (Source.holds_ofText text)).2

theorem readAll_ofText (text : String) (limit : Nat) :
    (ofLexer (Lexer.ofText text) limit).readAll.1 = Awaiting.readTokens limit (Token.allOfText text) := by
  have hclean := (Lexer.takeAll_of_holds (Source.holds_ofText text)).2
  exact readAll_of_clean hclean

end Reader

end Sexp
