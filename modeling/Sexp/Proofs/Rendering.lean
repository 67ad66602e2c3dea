import Sexp.Datum.Render
import Sexp.Datum.Shape
import Sexp.Proofs.OnePass

/-!
# The tokens of a rendered datum

`Datum.tokens` lists the tokens that the text of a datum is made of. If all names in the datum read as
words, then the text is cut into exactly these tokens (`Datum.tokens_render`): a word ends at the blank or the
parenthesis behind it, and a string literal has its own content again.
-/

namespace Sexp

/-- The same token at no place in particular. -/
def Token.unplaced (token : Token) : Token := { token with position := ⟨0, 0⟩ }

@[simp] theorem Token.kind_unplaced (token : Token) : token.unplaced.kind = token.kind := rfl

namespace Datum

open Token (mark)

mutual

/-- The tokens of the text of a datum, at no place in particular. -/
def tokens : Datum → List Token
  | nil => [mark .openParen ⟨0, 0⟩, mark .closeParen ⟨0, 0⟩]
  | atom name => [⟨.word, name, ⟨0, 0⟩⟩]
  | string value => [⟨.string, value, ⟨0, 0⟩⟩]
  | cons car cdr => mark .openParen ⟨0, 0⟩ :: (tokens car ++ restTokens cdr)

/-- The tokens of what follows an item in a list. -/
def restTokens : Datum → List Token
  | nil => [mark .closeParen ⟨0, 0⟩]
  | atom name => [⟨.word, ".", ⟨0, 0⟩⟩, ⟨.word, name, ⟨0, 0⟩⟩, mark .closeParen ⟨0, 0⟩]
  | string value => [⟨.word, ".", ⟨0, 0⟩⟩, ⟨.string, value, ⟨0, 0⟩⟩, mark .closeParen ⟨0, 0⟩]
  | cons car cdr => tokens car ++ restTokens cdr

end

theorem tokens_of_isList {datum : Datum} (h : datum.isList) :
    datum.tokens = mark .openParen ⟨0, 0⟩ :: datum.restTokens := by
  cases datum with
  | nil => rfl
  | cons car cdr => rfl
  | _ => cases h

theorem restTokens_of_not_isList {datum : Datum} (h : ¬datum.isList) :
    datum.restTokens = ⟨.word, ".", ⟨0, 0⟩⟩ :: (datum.tokens ++ [mark .closeParen ⟨0, 0⟩]) := by
  cases datum with
  | atom name => rfl
  | string value => rfl
  | _ => exact absurd rfl h

theorem nest_of_isList {datum : Datum} (h : datum.isList) : datum.nest = datum.nestRest + 1 := by
  cases datum with
  | nil => rfl
  | cons car cdr => rfl
  | _ => cases h

theorem nest_of_not_isList {datum : Datum} (h : ¬datum.isList) : datum.nest = 0 ∧ datum.nestRest = 0 := by
  cases datum with
  | atom name => exact ⟨rfl, rfl⟩
  | string value => exact ⟨rfl, rfl⟩
  | _ => exact absurd rfl h

end Datum

/-! ## Pieces of text -/

namespace Token.OnePass

/-- Between tokens, behind these tokens, newest first. -/
def State.Idle (state : State) (tokens : List Token) : Prop :=
  state.begun = .nothing ∧ state.tokens.map unplaced = tokens

/-- Behind these tokens, newest first, the last of which may be a word that the next character ends. -/
def State.Settled (state : State) (tokens : List Token) : Prop :=
  (state.begun = .nothing ∨ ∃ start letters, state.begun = .word start letters) ∧
    state.ended.map unplaced = tokens

variable {state : State} {tokens : List Token} {c : Char}

theorem State.Idle.settled (h : state.Idle tokens) : state.Settled tokens := by
  obtain ⟨begun, place, ended⟩ := state
  obtain ⟨hbegun, htokens⟩ := h
  cases hbegun
  exact ⟨.inl rfl, htokens⟩

theorem step_of_settled (h : state.Settled tokens) (hc : ¬isConstituent c) :
    step state c = step ⟨.nothing, state.place, state.ended⟩ c := by
  obtain ⟨begun, place, ended⟩ := state
  obtain ⟨hbegun | ⟨start, letters, hbegun⟩, _⟩ := h
  · cases hbegun
    rfl
  · cases hbegun
    simp only [step, take_word_end place start letters ended hc]
    rfl

theorem idle_mark {kind : Kind} (h : state.Settled tokens) (hc : markKind? c = some kind)
    (hcon : ¬isConstituent c) : (step state c).Idle (mark kind ⟨0, 0⟩ :: tokens) := by
  rw [step_of_settled h hcon, step, take, between_mark _ _ hc]
  refine ⟨rfl, ?_⟩
  rw [List.map_cons, h.2]
  rfl

theorem idle_blank (h : state.Settled tokens) (hc : isBlank c) (hcon : ¬isConstituent c) :
    (step state c).Idle tokens := by
  rw [step_of_settled h hcon, step, take, between_blank _ _ hc]
  exact ⟨rfl, h.2⟩

theorem run_letters (start place : Position) (letters : List Char) (tokens : List Token) {more : List Char}
    (h : ∀ c ∈ more, isConstituent c) :
    ∃ place', run ⟨.word start letters, place, tokens⟩ more =
      ⟨.word start (more.reverse ++ letters), place', tokens⟩ := by
  induction more generalizing place letters with
  | nil => exact ⟨place, rfl⟩
  | cons c more ih =>
    have hc : isConstituent c := h c List.mem_cons_self
    obtain ⟨place', hrun⟩ := ih (next place c) (c :: letters) fun d hd => h d (List.mem_cons_of_mem c hd)
    refine ⟨place', ?_⟩
    rw [run_cons, take, if_pos hc, List.reverse_cons, List.append_assoc]
    exact hrun

theorem settled_word {word : String} (h : state.Idle tokens) (hne : word ≠ "")
    (hword : ∀ c ∈ word.toList, isConstituent c) :
    (run state word.toList).Settled (⟨.word, word, ⟨0, 0⟩⟩ :: tokens) := by
  obtain ⟨begun, place, ended⟩ := state
  obtain ⟨hbegun, htokens⟩ := h
  cases hbegun
  cases hletters : word.toList with
  | nil => exact absurd (String.toList_inj.1 hletters) hne
  | cons c more =>
    rw [hletters] at hword
    have hc : isConstituent c := hword c List.mem_cons_self
    obtain ⟨place', hrun⟩ := run_letters place (next place c) [c] ended fun d hd =>
      hword d (List.mem_cons_of_mem c hd)
    rw [run_cons, take, between_constituent _ _ hc, hrun]
    refine ⟨.inr ⟨place, _, rfl⟩, ?_⟩
    rw [State.ended, List.map_cons, htokens]
    have htext : String.ofList (more.reverse ++ [c]).reverse = word := by
      rw [← String.toList_inj, String.toList_ofList, hletters]
      simp
    rw [wordOf, htext]
    rfl

theorem run_spellLiteral (start place : Position) (content : List Char) (tokens : List Token) (c : Char) :
    ∃ place', run ⟨.string start content, place, tokens⟩ (Quoted.spellLiteral c) =
      ⟨.string start (c :: content), place', tokens⟩ := by
  unfold Quoted.spellLiteral
  split
  case h_6 hquote hescape hline hreturn _ =>
    have hend : ¬(c = '"' ∨ isLineEnd c) := by
      rw [isLineEnd_iff]
      rintro (h | h | h)
      · exact hquote h
      · exact hline h
      · exact hreturn h
    refine ⟨next place c, ?_⟩
    rw [run_cons, take, within, if_neg hend, if_neg hescape]
    rfl
  all_goals exact ⟨_, rfl⟩

theorem run_spellings (start place : Position) (content : List Char) (tokens : List Token)
    (text : List Char) :
    ∃ place', run ⟨.string start content, place, tokens⟩ (text.flatMap Quoted.spellLiteral) =
      ⟨.string start (text.reverse ++ content), place', tokens⟩ := by
  induction text generalizing place content with
  | nil => exact ⟨place, rfl⟩
  | cons c text ih =>
    obtain ⟨place', hspell⟩ := run_spellLiteral start place content tokens c
    obtain ⟨place'', hrun⟩ := ih place' (c :: content)
    refine ⟨place'', ?_⟩
    rw [List.flatMap_cons, run_append, hspell, hrun, List.reverse_cons, List.append_assoc,
      List.singleton_append]

theorem idle_literal (h : state.Idle tokens) (value : String) :
    (run state (Quoted.literal value)).Idle (⟨.string, value, ⟨0, 0⟩⟩ :: tokens) := by
  obtain ⟨begun, place, ended⟩ := state
  obtain ⟨hbegun, htokens⟩ := h
  cases hbegun
  obtain ⟨place', hrun⟩ := run_spellings place (next place '"') [] ended value.toList
  have hopen : take place ended '"' .nothing = (.string place [], ended) := rfl
  rw [Quoted.literal, Quoted.write, run_cons, hopen, run_append, hrun, List.append_nil, run_cons]
  refine ⟨rfl, ?_⟩
  have hend : take place' ended '"' (.string place value.toList.reverse) =
      (.nothing, stringOf place value.toList.reverse :: ended) := rfl
  rw [hend, run, List.foldl_nil, List.map_cons, htokens, stringOf, List.reverse_reverse,
    String.ofList_toList]
  rfl

theorem idle_dot (h : state.Settled tokens) :
    (run state [' ', '.', ' ']).Idle (⟨.word, ".", ⟨0, 0⟩⟩ :: tokens) := by
  have hbefore : (step state ' ').Idle tokens := idle_blank h (by decide) (by decide)
  have hdot : (run (step state ' ') ".".toList).Settled (⟨.word, ".", ⟨0, 0⟩⟩ :: tokens) :=
    settled_word hbefore (by decide) (List.all_eq_true.1 rfl)
  exact idle_blank hdot (by decide) (by decide)

end Token.OnePass

/-! ## Data -/

namespace Datum

open Token (mark)
open Token.OnePass (run run_append step State idle_mark idle_blank idle_literal idle_dot settled_word)

mutual

theorem settled_render {datum : Datum} (hnamed : datum.Everywhere Named) {state : State} {tokens : List Token}
    (h : state.Idle tokens) : (run state datum.render).Settled (datum.tokens.reverse ++ tokens) := by
  cases datum with
  | nil =>
    have hopen : (step state '(').Idle (mark .openParen ⟨0, 0⟩ :: tokens) :=
      idle_mark h.settled rfl (by decide)
    exact (idle_mark hopen.settled rfl (by decide)).settled
  | atom name => exact settled_word h hnamed.1 hnamed.2.1
  | string value => exact (idle_literal h value).settled
  | cons car cdr =>
    obtain ⟨_, hcar, hcdr⟩ := hnamed
    have hopen : (step state '(').Idle (mark .openParen ⟨0, 0⟩ :: tokens) :=
      idle_mark h.settled rfl (by decide)
    have hrest := idle_renderRest hcdr (settled_render hcar hopen)
    rw [← run_append] at hrest
    have hsplit : (cons car cdr).tokens.reverse ++ tokens =
        cdr.restTokens.reverse ++ (car.tokens.reverse ++ mark .openParen ⟨0, 0⟩ :: tokens) := by
      simp [Datum.tokens]
    rw [hsplit]
    exact hrest.settled

theorem idle_renderRest {datum : Datum} (hnamed : datum.Everywhere Named) {state : State}
    {tokens : List Token} (h : state.Settled tokens) :
    (run state datum.renderRest).Idle (datum.restTokens.reverse ++ tokens) := by
  cases datum with
  | nil => exact idle_mark h rfl (by decide)
  | atom name =>
    have hname := settled_word (idle_dot h) hnamed.1 hnamed.2.1
    rw [renderRest, run_append, run_append]
    exact idle_mark hname rfl (by decide)
  | string value =>
    have hvalue := idle_literal (idle_dot h) value
    rw [renderRest, run_append, run_append]
    exact idle_mark hvalue.settled rfl (by decide)
  | cons car cdr =>
    obtain ⟨_, hcar, hcdr⟩ := hnamed
    have hblank : (step state ' ').Idle tokens := idle_blank h (by decide) (by decide)
    have hrest := idle_renderRest hcdr (settled_render hcar hblank)
    rw [← run_append, ← List.append_assoc, ← List.reverse_append] at hrest
    exact hrest

end

theorem tokens_render {datum : Datum} (hnamed : datum.Everywhere Named) :
    (Token.OnePass.tokens datum.render).map Token.unplaced = datum.tokens := by
  have hstart : Token.OnePass.start.Idle [] := ⟨rfl, rfl⟩
  have hsettled := (settled_render hnamed hstart).2
  rw [Token.OnePass.tokens, Token.OnePass.State.finish_eq, List.map_reverse, hsettled, List.append_nil,
    List.reverse_reverse]

end Datum

end Sexp
