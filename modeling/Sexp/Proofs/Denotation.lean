import Sexp.Proofs.Layout
import Sexp.Proofs.ReadAll
import Sexp.Proofs.RoundTrip

/-!
# Which data texts denote

A text denotes a datum exactly if the names in the datum read as words (`Reader.exists_readSole_eq_ok_iff`). What is
read is a form of valid tokens, so its names do. For the other direction valid tokens are chosen for every part of the
datum, as a form and as the rest of a list (`Datum.exists_spelled`), and are laid out with a blank behind each. A dot
among the items of a list is the mark of the tail, but the tail of a list without items is that list, so `(. .)` spells
the item.
-/

namespace Sexp

/-! ## Tokens for a datum -/

namespace Datum

open Grammar (Form Body LoneDot)
open Token (mark)

variable {datum : Datum} {tokens : List Token} {name : String}

/-- Valid tokens denote the datum. -/
def Spelled (datum : Datum) (tokens : List Token) : Prop := (∀ token ∈ tokens, token.Valid) ∧ Form tokens datum

/-- Valid tokens denote it as the rest of a list. -/
def SpelledRest (datum : Datum) (tokens : List Token) : Prop := (∀ token ∈ tokens, token.Valid) ∧ Body tokens datum

theorem spelled_atom (h : IsName name) : (atom name).Spelled [⟨.word, name, ⟨0, 0⟩⟩] := by
  obtain ⟨hne, hword, hnil⟩ := h
  refine ⟨?_, ?_⟩
  · rw [List.forall_mem_singleton]
    exact ⟨hne, hword⟩
  · have hform := @Form.word ⟨.word, name, ⟨0, 0⟩⟩ rfl
    rw [ofWord, hnil] at hform
    exact hform

theorem spelled_string (value : String) : (string value).Spelled [⟨.string, value, ⟨0, 0⟩⟩] := by
  refine ⟨?_, @Form.string ⟨.string, value, ⟨0, 0⟩⟩ rfl⟩
  simp [Token.Valid]

theorem isName_dot : IsName "." := ⟨by decide, List.all_eq_true.1 rfl, by decide⟩

theorem SpelledRest.list (h : datum.SpelledRest tokens) : datum.Spelled (mark .openParen ⟨0, 0⟩ :: tokens) := by
  refine ⟨?_, .list rfl h.2⟩
  rw [List.forall_mem_cons]
  exact ⟨rfl, h.1⟩

theorem Spelled.rest (h : datum.Spelled tokens) :
    datum.SpelledRest (⟨.word, ".", ⟨0, 0⟩⟩ :: (tokens ++ [mark .closeParen ⟨0, 0⟩])) := by
  refine ⟨?_, .tail (by decide) h.2 rfl⟩
  simp only [List.forall_mem_cons, List.forall_mem_append]
  exact ⟨(spelled_atom isName_dot).1 _ List.mem_cons_self, h.1, rfl, fun _ h => by cases h⟩

theorem spelledRest_nil : nil.SpelledRest [mark .closeParen ⟨0, 0⟩] := by
  refine ⟨?_, .close rfl⟩
  simp [Token.Valid, mark]

theorem Spelled.item (h : datum.Spelled tokens) : ∃ item, datum.Spelled item ∧ ¬LoneDot item := by
  by_cases hdot : LoneDot tokens
  · -- the tail of a list without items
    exact ⟨_, h.rest.list, Grammar.not_loneDot_of_kind (by decide)⟩
  · exact ⟨tokens, h, hdot⟩

theorem exists_spelled (hnamed : datum.Everywhere Named) :
    (∃ tokens, datum.Spelled tokens) ∧ ∃ tokens, datum.SpelledRest tokens := by
  induction datum with
  | nil => exact ⟨⟨_, spelledRest_nil.list⟩, _, spelledRest_nil⟩
  | atom name => exact ⟨⟨_, spelled_atom hnamed⟩, _, (spelled_atom hnamed).rest⟩
  | string value => exact ⟨⟨_, spelled_string value⟩, _, (spelled_string value).rest⟩
  | cons car cdr ihcar ihcdr =>
    obtain ⟨_, hcar, hcdr⟩ := hnamed
    obtain ⟨⟨carTokens, hcarTokens⟩, _⟩ := ihcar hcar
    obtain ⟨_, rest, hrest⟩ := ihcdr hcdr
    obtain ⟨item, hitem, hlone⟩ := hcarTokens.item
    have hbody : (cons car cdr).SpelledRest (item ++ rest) := by
      refine ⟨List.forall_mem_append.2 ⟨hitem.1, hrest.1⟩, .item ?_ hitem.2 hrest.2⟩
      intro token htoken hisDot
      exact hlone ⟨token, htoken, hisDot⟩
    exact ⟨⟨_, hbody.list⟩, _, hbody⟩

end Datum

/-! ## Texts -/

namespace Token

variable {tokens : List Token}

theorem exists_text_of_valid (h : ∀ token ∈ tokens, token.Valid) :
    ∃ text, (allOfText text).map unplaced = tokens.map unplaced := by
  have hpieces : ∀ piece ∈ tokens.map fun token => (token, [' ']), piece.1.Valid ∧ Gap piece.2 := by
    intro piece hpiece
    obtain ⟨token, htoken, rfl⟩ := List.mem_map.1 hpiece
    exact ⟨h token htoken, .blank (by decide) .nil⟩
  have hapart : (tokens.map fun token => (token, [' '])).IsChain Apart := by
    apply List.Pairwise.isChain
    rw [List.pairwise_map]
    exact List.pairwise_of_forall fun _ _ _ _ => List.cons_ne_nil ' ' []
  have hread := allOfText_layout .nil hpieces hapart .nil
  rw [List.map_map] at hread
  exact ⟨_, hread⟩

end Token

namespace Reader

open Datum

/-- Under some limit some text is read as the datum exactly if the names in the datum read as words. Its strings may
hold anything, and its dots may stand anywhere. -/
theorem exists_readSole_eq_ok_iff (datum : Datum) :
    (∃ text limit, (ofLexer (Lexer.ofText text) limit).readSole.1 = .ok datum) ↔ datum.Everywhere Named := by
  constructor
  · rintro ⟨text, limit, hread⟩
    rw [readSole_ofText_eq_ok_iff] at hread
    exact Grammar.named_of_form (Awaiting.form_of_complete_all hread) (Lexer.valid_takeAll (Lexer.valid_ofSource _))
  · intro hnamed
    obtain ⟨⟨tokens, hvalid, hform⟩, _⟩ := exists_spelled hnamed
    obtain ⟨text, htext⟩ := Token.exists_text_of_valid hvalid
    refine ⟨text, tokens.length, ?_⟩
    have hcomplete : Awaiting.complete tokens.length .start tokens = (.ok datum, []) :=
      (Awaiting.complete_eq_ok_iff (Nat.le_refl _)).2 ⟨tokens, (List.append_nil _).symm, hform⟩
    rw [readSole_ofText_eq_ok_iff, ← Awaiting.complete_unplaced, htext, Awaiting.complete_unplaced]
    exact hcomplete

/-- Behind no item the second dot is the tail, which makes the inner list a dot. It is an item of the outer one. -/
theorem dot_read_as_item :
    (ofLexer (Lexer.ofText "((. .))") 2).readSole.1 = .ok (list [atom "."]) ∧ ¬(list [atom "."]).Denotable := by
  refine ⟨by decide +kernel, ?_⟩
  rintro ⟨_, ⟨hdot, _⟩⟩
  cases (hdot rfl).1

end Reader

end Sexp
