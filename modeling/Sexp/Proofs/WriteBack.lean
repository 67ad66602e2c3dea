import Sexp.Proofs.ReadAll
import Sexp.Proofs.RoundTrip

/-!
# Writing back what was read

What is read under a limit nests one level deeper than the limit at most, where a `NIL` stands in the innermost
form (`Awaiting.nest_of_readTokens`). Its names read as words. So the text of a datum that was read gives that datum
again, unless a pair in it starts with a dot (`Datum.reads_back_iff`): as an operand, or as the tail of a list without
items, a dot is read as a word, but where it is written it ends the items of a list.
-/

namespace Sexp

/-- The token is a word that stands for the empty list. -/
def Token.isNil (token : Token) : Bool := token.kind = .word && Datum.isNilWord token.text

theorem Token.isNil_of_kind {token : Token} (h : token.kind ≠ .word) : token.isNil = false := by
  simp [isNil, h]

theorem Token.isNil_of_isDot {token : Token} (h : token.isDot) : token.isNil = false := by
  have hword : Datum.isNilWord "." = false := by decide
  rw [isNil, (isDot_iff.1 h).2, hword, Bool.and_false]

namespace Datum

/-! ## Depth of lists -/

variable {bound : Nat} {items : List Datum} {tail : Datum}

theorem nestRest_chain_le_iff :
    (chain items tail).nestRest ≤ bound ↔ (∀ item ∈ items, item.nest ≤ bound) ∧ tail.nestRest ≤ bound := by
  induction items with
  | nil => simp
  | cons item items ih => rw [chain_cons, nestRest, Nat.max_le, ih, List.forall_mem_cons, and_assoc]

theorem nestRest_le_iff : tail.nestRest ≤ bound ↔ tail.nest ≤ bound + 1 := by
  by_cases hlist : tail.isList
  · rw [nest_of_isList hlist]
    omega
  · rw [(nest_of_not_isList hlist).1, (nest_of_not_isList hlist).2]
    omega

theorem nest_chain_le_iff :
    (chain items tail).nest ≤ bound + 1 ↔ (∀ item ∈ items, item.nest ≤ bound) ∧ tail.nest ≤ bound + 1 := by
  cases items with
  | nil => simp
  | cons item items =>
    rw [chain_cons, nest, Nat.add_le_add_iff_right, Nat.max_le, nestRest_chain_le_iff, nestRest_le_iff,
      List.forall_mem_cons, and_assoc]

theorem nest_quoted (name : String) (datum : Datum) : (quoted name datum).nest = datum.nest + 1 := by
  simp [quoted, list, nest, nestRest]

end Datum

namespace Awaiting

/-! ## Depth of what is read -/

/-- How many levels are open in its text around a datum that is read here. A tail is written on the level of its
list. -/
def levels : List Frame → Nat
  | [] => 0
  | .items _ :: frames => levels frames + 1
  | .operand _ :: frames => levels frames + 1
  | .tail _ :: frames => levels frames

theorem levels_le_length (frames : List Frame) : levels frames ≤ frames.length := by
  induction frames with
  | nil => exact Nat.le_refl 0
  | cons frame frames ih =>
    cases frame with
    | tail items => exact Nat.le_succ_of_le ih
    | _ => exact Nat.succ_le_succ ih

/-- The items of the open lists nest so that no text has more than `most` levels. -/
def Fits (most : Nat) : List Frame → Prop
  | [] => True
  | .operand _ :: frames => Fits most frames
  | .items items :: frames => (∀ item ∈ items, item.nest + levels frames < most) ∧ Fits most frames
  | .tail items :: frames => (∀ item ∈ items, item.nest + levels frames < most) ∧ Fits most frames

/-- So do the items of the state. -/
def FitsState (most : Nat) : Awaiting → Prop
  | datum frames => Fits most frames
  | close items tail frames => Fits most (.tail items :: frames) ∧ tail.nest + levels frames ≤ most

/-- And what a step makes of them, down to the complete datum. -/
def FitsStep (most : Nat) : Step → Prop
  | .more state => state.FitsState most
  | .done whole => whole.nest ≤ most
  | .failed _ => True

variable {most limit : Nat} {frames : List Frame} {state : Awaiting} {whole : Datum} {token : Token}

theorem fitsStep_deliver_iff :
    FitsStep most (deliver whole frames) ↔ Fits most frames ∧ whole.nest + levels frames ≤ most := by
  induction frames generalizing whole with
  | nil => simp [deliver, FitsStep, Fits, levels]
  | cons frame frames ih =>
    cases frame with
    | operand name => rw [deliver, ih, Datum.nest_quoted, Fits, levels, Nat.add_assoc, Nat.add_comm 1]
    | items items =>
      rw [deliver, FitsStep, FitsState, Fits, Fits, List.forall_mem_cons, levels, ← Nat.add_assoc, Nat.succ_le_iff]
      tauto
    | tail items => rfl

theorem fitsStep_list_iff {items : List Datum} {tail : Datum} (hroom : levels frames < most) :
    FitsStep most (deliver (Datum.chain items.reverse tail) frames) ↔
      Fits most (.tail items :: frames) ∧ tail.nest + levels frames ≤ most := by
  obtain ⟨bound, rfl⟩ : ∃ bound, most = levels frames + bound + 1 := ⟨most - levels frames - 1, by omega⟩
  have hlevel : ∀ nest, nest + levels frames ≤ levels frames + bound + 1 ↔ nest ≤ bound + 1 := by omega
  have hinside : ∀ nest, nest + levels frames < levels frames + bound + 1 ↔ nest ≤ bound := by omega
  simp only [fitsStep_deliver_iff, Fits, hlevel, hinside, Datum.nest_chain_le_iff, List.mem_reverse]
  tauto

/-- A word that stands for the empty list takes a level of its own in a text. -/
theorem fitsStep_begin_iff (hlength : frames.length ≤ most) (hok : ∀ error, begin limit token frames ≠ .failed error) :
    FitsStep most (begin limit token frames) ↔ Fits most frames ∧ (token.isNil → levels frames < most) := by
  have hlevels := levels_le_length frames
  obtain ⟨kind, text, position⟩ := token
  have henter : ∀ frame, (∀ error, enter limit frame frames ≠ .failed error) →
      (Fits most (frame :: frames) ↔ Fits most frames) →
      (FitsStep most (enter limit frame frames) ↔ Fits most frames) := by
    intro frame hopens hfits
    rw [enter] at hopens ⊢
    split
    · exact hfits
    · rename_i hfull
      rw [if_neg hfull] at hopens
      exact absurd rfl (hopens _)
  -- only a word can stand for the empty list, so nothing is asked of the levels otherwise
  have hother : kind ≠ .word → ∀ {outcome : Step}, (FitsStep most outcome ↔ Fits most frames) →
      (FitsStep most outcome ↔ Fits most frames ∧ ((Token.mk kind text position).isNil → levels frames < most)) := by
    intro hkind outcome hfits
    simp [Token.isNil_of_kind, hkind, hfits]
  cases kind with
  | openParen => exact hother (by decide) (henter (.items []) hok (by simp [Fits]))
  | quote => exact hother (by decide) (henter (.operand "QUOTE") hok (by rw [Fits]))
  | quasiquote => exact hother (by decide) (henter (.operand "QUASIQUOTE") hok (by rw [Fits]))
  | unquote => exact hother (by decide) (henter (.operand "UNQUOTE") hok (by rw [Fits]))
  | string =>
    have hstring : (Datum.string text).nest = 0 := rfl
    have hdeliver := @fitsStep_deliver_iff most frames (.string text)
    rw [hstring, Nat.zero_add, and_iff_left (Nat.le_trans hlevels hlength)] at hdeliver
    exact hother (by decide) hdeliver
  | word =>
    -- the word opens nothing, but the empty list is written as a list
    have hword : (Datum.ofWord text).nest + levels frames ≤ most ↔
        ((Token.mk .word text position).isNil → levels frames < most) := by
      cases hisNil : Datum.isNilWord text with
      | true =>
        have hempty : (Datum.ofWord text).nest = 1 := by rw [Datum.ofWord, hisNil]; rfl
        simp only [hempty, Token.isNil, hisNil, decide_true, Bool.and_self, forall_const]
        omega
      | false =>
        have hatom : (Datum.ofWord text).nest = 0 := by rw [Datum.ofWord, hisNil]; rfl
        simp [hatom, Token.isNil, hisNil, Nat.le_trans hlevels hlength]
    rw [← hword]
    exact fitsStep_deliver_iff
  | closeParen => exact absurd rfl (hok _)
  | endOfInput => exact absurd rfl (hok _)

/-- The levels that are open where the state waits for a datum or for the end of a list. -/
def level : Awaiting → Nat
  | datum frames => levels frames
  | close _ _ frames => levels frames

theorem level_le_depth (state : Awaiting) : state.level ≤ state.depth := by
  cases state with
  | datum frames => exact levels_le_length frames
  | close items tail frames => exact Nat.le_succ_of_le (levels_le_length frames)

theorem fitsStep_step_iff (hdepth : state.depth ≤ most) (hok : ∀ error, state.step limit token ≠ .failed error) :
    FitsStep most (state.step limit token) ↔ state.FitsState most ∧ (token.isNil → state.level < most) := by
  cases state with
  | close items tail frames =>
    have hlevels : levels frames < most := Nat.lt_of_le_of_lt (levels_le_length frames) hdepth
    rw [step] at hok ⊢
    split
    · rename_i hclose
      have hnil : token.isNil = false := Token.isNil_of_kind (by simp [hclose])
      rw [fitsStep_list_iff hlevels]
      simp [hnil, FitsState]
    · rename_i hclose
      rw [if_neg hclose] at hok
      exact absurd rfl (hok _)
  | datum frames =>
    rcases frames with _ | ⟨items | items | name, frames⟩
    · exact fitsStep_begin_iff hdepth hok
    · have hlevels : levels frames < most := Nat.lt_of_le_of_lt (levels_le_length frames) hdepth
      rw [step] at hok ⊢
      split
      · rename_i hclose
        have hnil : token.isNil = false := Token.isNil_of_kind (by simp [hclose])
        have hempty : Datum.nil.nest + levels frames ≤ most := by
          rw [Datum.nest, Nat.add_comm]
          exact hlevels
        rw [Datum.list, fitsStep_list_iff hlevels, and_iff_left hempty]
        simp [hnil, FitsState, Fits]
      · rename_i hclose
        rw [if_neg hclose] at hok
        split
        · rename_i hisDot
          simp [Token.isNil_of_isDot hisDot, FitsStep, FitsState, Fits]
        · rename_i hisDot
          rw [if_neg hisDot] at hok
          exact fitsStep_begin_iff hdepth hok
    · exact fitsStep_begin_iff hdepth hok
    · exact fitsStep_begin_iff hdepth hok

/-- After any tokens, the open lists and all data read so far leave at most one level more than the limit. -/
def FitsAll (limit : Nat) (_ : List Token) (data : List Datum) (state : Awaiting) : Prop :=
  state.depth ≤ limit ∧ state.FitsState (limit + 1) ∧ ∀ datum ∈ data, datum.nest ≤ limit + 1

theorem fitsAll_turn {before : List Token} {data later : List Datum} {next : Awaiting}
    (h : FitsAll limit before data state) (hturn : turn limit data state token = .ok (later, next)) :
    FitsAll limit (before ++ [token]) later next := by
  obtain ⟨hdepth, hstate, hdata⟩ := h
  have hok : ∀ error, state.step limit token ≠ .failed error := by
    intro error hfailed
    rw [turn, hfailed] at hturn
    cases hturn
  have hlevel := level_le_depth state
  have hfits := (fitsStep_step_iff (Nat.le_succ_of_le hdepth) hok).2 ⟨hstate, fun _ => by omega⟩
  rcases turn_eq_ok hturn with ⟨hstep, rfl⟩ | ⟨whole, hstep, rfl, rfl⟩
  · rw [hstep] at hfits
    exact ⟨depth_step_le hdepth hstep, hfits, hdata⟩
  · rw [hstep] at hfits
    exact ⟨Nat.zero_le limit, trivial, List.forall_mem_cons.2 ⟨hfits, hdata⟩⟩

theorem nest_of_readTokens {data : List Datum} {tokens : List Token} (h : readTokens limit tokens = .ok data) :
    ∀ datum ∈ data, datum.nest ≤ limit + 1 := by
  have hfirst : FitsAll limit [] [] start := ⟨Nat.zero_le limit, trivial, List.forall_mem_nil _⟩
  obtain ⟨last, _, _, _, hdata⟩ := invariant_of_completeAll (FitsAll limit) fitsAll_turn hfirst h
  exact fun datum hdatum => hdata datum (List.mem_reverse.2 hdatum)

end Awaiting

namespace Grammar

theorem named_of_forms {tokens : List Token} {data : List Datum} (h : Forms tokens data)
    (hvalid : ∀ token ∈ tokens, token.Valid) : ∀ datum ∈ data, datum.Everywhere Datum.Named := by
  induction h with
  | nil => exact List.forall_mem_nil _
  | cons hform _ ih =>
    intro datum hdatum
    rcases List.mem_cons.1 hdatum with rfl | hdatum
    · exact named_of_form hform fun token htoken => hvalid token (List.mem_append_left _ htoken)
    · exact ih (fun token htoken => hvalid token (List.mem_append_right _ htoken)) datum hdatum

end Grammar

/-! ## Texts -/

namespace Datum

open Reader (ofLexer noLimit defaultLimit)

variable {text : String} {data : List Datum} {datum : Datum}

theorem readTokens_of_allOfText (h : allOfText text = .ok data) :
    Awaiting.readTokens defaultLimit (Token.allOfText text) = .ok data := by
  rw [← Reader.readAll_ofText]
  exact h

theorem named_of_allOfText (h : allOfText text = .ok data) (hdatum : datum ∈ data) :
    datum.Everywhere Named := by
  have hforms := Awaiting.forms_of_readTokens (readTokens_of_allOfText h)
  exact Grammar.named_of_forms hforms (Lexer.valid_takeAll (Lexer.valid_ofSource _)) datum hdatum

theorem nest_of_allOfText (h : allOfText text = .ok data) (hdatum : datum ∈ data) :
    datum.nest ≤ defaultLimit + 1 :=
  Awaiting.nest_of_readTokens (readTokens_of_allOfText h) datum hdatum

theorem readSole_text_of_named (hnamed : datum.Everywhere Named) (limit : Nat) :
    (ofLexer (Lexer.ofText datum.text) limit).readSole.1 = .ok datum ↔
      datum.Everywhere Undotted ∧ datum.nest ≤ limit := by
  obtain ⟨htokens, hclean⟩ := Lexer.takeAll_text datum
  have hread := @Reader.readSole_eq_ok_iff (ofLexer (Lexer.ofText datum.text) limit) hclean datum
  rw [hread]
  show Awaiting.complete limit .start (Lexer.ofText datum.text).takeAll.1 = (.ok datum, []) ↔ _
  rw [htokens, ← Awaiting.complete_unplaced, tokens_render hnamed]
  exact Awaiting.complete_tokens_iff hnamed

/-- What was read from a text is written back readably exactly if no pair in it starts with a dot. -/
theorem reads_back_iff (h : allOfText text = .ok data) (hdatum : datum ∈ data) :
    (∃ again, (ofLexer (Lexer.ofText datum.text) noLimit).readSole.1 = .ok again ∧ again == datum) ↔
      datum.Everywhere Undotted := by
  have hnest : datum.nest ≤ noLimit := Nat.le_trans (nest_of_allOfText h hdatum) (by decide)
  have hread := readSole_text_of_named (named_of_allOfText h hdatum) noLimit
  constructor
  · rintro ⟨again, hagain, hsame⟩
    obtain rfl := eq_of_beq hsame
    exact (hread.1 hagain).1
  · intro hundotted
    exact ⟨datum, hread.2 ⟨hundotted, hnest⟩, BEq.rfl⟩

/-- A dot behind a quote mark is an operand, and in its text there is no tail behind the dot. -/
theorem quoted_dot_not_read_back :
    allOfText "'." = .ok [quoted "QUOTE" (atom ".")] ∧
      ¬∃ again, (ofLexer (Lexer.ofText (quoted "QUOTE" (atom ".")).text) noLimit).readSole.1 = .ok again ∧
        again == quoted "QUOTE" (atom ".") := by
  refine ⟨by decide +kernel, ?_⟩
  rintro ⟨again, hagain, _⟩
  have herror : (ofLexer (Lexer.ofText (quoted "QUOTE" (atom ".")).text) noLimit).readSole.1 =
      .error (.unexpectedToken ⟨1, 9⟩ "an expression" ")") := by
    decide +kernel
  rw [herror] at hagain
  cases hagain

/-- A dotted list with a quoted item and a string literal that ends in a backslash. -/
theorem reads_back_iff_of_dotted_list :
    allOfText "(a . ('b \"c\\\\\"))" = .ok [list [atom "a", quoted "QUOTE" (atom "b"), string "c\\"]] ∧
      ∃ again, (ofLexer (Lexer.ofText (list [atom "a", quoted "QUOTE" (atom "b"), string "c\\"]).text)
          noLimit).readSole.1 = .ok again ∧
        again == list [atom "a", quoted "QUOTE" (atom "b"), string "c\\"] := by
  have h : allOfText "(a . ('b \"c\\\\\"))" =
      .ok [list [atom "a", quoted "QUOTE" (atom "b"), string "c\\"]] := by
    decide +kernel
  have hpair : ∀ name cdr, name ≠ "." → (cons (atom name) cdr).Undotted := fun name cdr hname => hname
  have hquoted : (quoted "QUOTE" (atom "b")).Everywhere Undotted :=
    ⟨hpair _ _ (by decide), trivial, hpair _ _ (by decide), trivial, trivial⟩
  have hlist : (list [atom "a", quoted "QUOTE" (atom "b"), string "c\\"]).Everywhere Undotted :=
    ⟨hpair _ _ (by decide), trivial, trivial, hquoted, trivial, trivial, trivial⟩
  exact ⟨h, (reads_back_iff h List.mem_cons_self).2 hlist⟩

end Datum

end Sexp
