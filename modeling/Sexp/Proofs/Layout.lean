import Mathlib.Data.List.Chain
import Sexp.Proofs.Finality
import Sexp.Proofs.ReadFailure
import Sexp.Proofs.Rendering

/-!
# Tokens under any layout

Valid tokens can be written one after the other, with gaps of blanks and comments between them, and are read back:
the gaps leave no trace, and only two words need a gap to be kept apart (`Token.OnePass.settled_layout`). The other
way round, every token that a call hands out is valid.
-/

namespace Sexp

namespace Token

/-- How a token is written. -/
def written (token : Token) : List Char :=
  match token.kind with
  | .word => token.text.toList
  | .string => Quoted.literal token.text
  | kind => kind.describe.toList

/-- What may stand between tokens: blanks, and comments with the line breaks that end them. -/
inductive Gap : List Char → Prop
  | nil : Gap []
  | blank {c : Char} {rest : List Char} : isBlank c → Gap rest → Gap (c :: rest)
  | comment {content rest : List Char} : '\n' ∉ content → Gap rest → Gap (';' :: (content ++ '\n' :: rest))

/-- A comment that the end of the text ends, or nothing. -/
inductive Trail : List Char → Prop
  | nil : Trail []
  | comment {content : List Char} : '\n' ∉ content → Trail (';' :: content)

/-- Tokens are written, each with the gap behind it. -/
def layout (pieces : List (Token × List Char)) : List Char :=
  pieces.flatMap fun piece => piece.1.written ++ piece.2

/-- The gap between two words is not empty. -/
def Apart (first second : Token × List Char) : Prop :=
  first.1.kind = .word → second.1.kind = .word → first.2 ≠ []

/-! ## Gaps -/

theorem not_isConstituent_of_isBlank {c : Char} (h : isBlank c) : ¬isConstituent c := by
  rw [isConstituent, h]
  exact Bool.false_ne_true

namespace OnePass

variable {state : State} {tokens : List Token}

theorem run_of_settled (h : state.Settled tokens) {c : Char} (hc : ¬isConstituent c) (text : List Char) :
    ∃ between : State, between.Idle tokens ∧ run state (c :: text) = run between (c :: text) := by
  refine ⟨⟨.nothing, state.place, state.ended⟩, ⟨rfl, h.2⟩, ?_⟩
  show run (step state c) text = run (step _ c) text
  rw [step_of_settled h hc]

theorem run_comment_of_idle (h : state.Idle tokens) {content : List Char} (hcontent : '\n' ∉ content) :
    ∃ place ended, run state (';' :: content) = ⟨.comment, place, ended⟩ ∧ ended.map unplaced = tokens := by
  obtain ⟨begun, place, ended⟩ := state
  obtain ⟨hbegun, htokens⟩ := h
  cases hbegun
  obtain ⟨place', hrun⟩ := run_comment_content (next place ';') ended hcontent
  exact ⟨place', ended, hrun, htokens⟩

theorem idle_gap {gap : List Char} (hgap : Gap gap) (h : state.Idle tokens) : (run state gap).Idle tokens := by
  induction hgap generalizing state with
  | nil => exact h
  | blank hc _ ih => exact ih (idle_blank h.settled hc (not_isConstituent_of_isBlank hc))
  | comment hcontent _ ih =>
    obtain ⟨place, ended, hrun, htokens⟩ := run_comment_of_idle h hcontent
    rw [← List.cons_append, run_append, hrun]
    exact ih ⟨rfl, htokens⟩

theorem idle_gap_of_settled {gap : List Char} (hgap : Gap gap) (hne : gap ≠ []) (h : state.Settled tokens) :
    (run state gap).Idle tokens := by
  have hfirst : ∃ c rest, gap = c :: rest ∧ ¬isConstituent c := by
    cases hgap with
    | nil => exact absurd rfl hne
    | blank hc _ => exact ⟨_, _, rfl, not_isConstituent_of_isBlank hc⟩
    | comment _ _ => exact ⟨_, _, rfl, by decide⟩
  obtain ⟨c, rest, rfl, hc⟩ := hfirst
  obtain ⟨between, hidle, hrun⟩ := run_of_settled h hc rest
  rw [hrun]
  exact idle_gap hgap hidle

theorem ended_trail {trail : List Char} (htrail : Trail trail) (h : state.Settled tokens) :
    (run state trail).ended.map unplaced = tokens := by
  cases htrail with
  | nil => exact h.2
  | @comment content hcontent =>
    obtain ⟨between, hidle, hsame⟩ := run_of_settled h (c := ';') (by decide) content
    obtain ⟨place, ended, hrun, htokens⟩ := run_comment_of_idle hidle hcontent
    rw [hsame, hrun]
    exact htokens

/-! ## Tokens -/

theorem exists_mark_of_valid {token : Token} (hvalid : token.Valid) (hword : token.kind ≠ .word)
    (hstring : token.kind ≠ .string) : ∃ c, markKind? c = some token.kind ∧ token.written = [c] ∧
      token.unplaced = mark token.kind ⟨0, 0⟩ ∧ ¬isConstituent c := by
  obtain ⟨kind, text, position⟩ := token
  cases kind with
  | word => exact absurd rfl hword
  | string => exact absurd rfl hstring
  | endOfInput => exact hvalid.elim
  | openParen => cases hvalid; exact ⟨'(', rfl, show "(".toList = _ by decide, rfl, by decide⟩
  | closeParen => cases hvalid; exact ⟨')', rfl, show ")".toList = _ by decide, rfl, by decide⟩
  | quote => cases hvalid; exact ⟨'\'', rfl, show "'".toList = _ by decide, rfl, by decide⟩
  | quasiquote => cases hvalid; exact ⟨'`', rfl, show "`".toList = _ by decide, rfl, by decide⟩
  | unquote => cases hvalid; exact ⟨',', rfl, show ",".toList = _ by decide, rfl, by decide⟩

theorem idle_written {token : Token} (hvalid : token.Valid) (hword : token.kind ≠ .word)
    (h : state.Settled tokens) : (run state token.written).Idle (token.unplaced :: tokens) := by
  by_cases hstring : token.kind = .string
  · obtain ⟨kind, text, position⟩ := token
    cases hstring
    obtain ⟨between, hidle, hrun⟩ :=
      run_of_settled h (c := '"') (by decide) (text.toList.flatMap Quoted.spellLiteral ++ ['"'])
    have hliteral := idle_literal hidle text
    rw [Quoted.literal, Quoted.write, ← hrun] at hliteral
    exact hliteral
  · obtain ⟨c, hmark, hwritten, hunplaced, hc⟩ := exists_mark_of_valid hvalid hword hstring
    rw [hwritten, hunplaced]
    exact idle_mark h hmark hc

theorem settled_written_word {token : Token} (hvalid : token.Valid) (hword : token.kind = .word)
    (h : state.Idle tokens) : (run state token.written).Settled (token.unplaced :: tokens) := by
  obtain ⟨kind, text, position⟩ := token
  cases hword
  exact settled_word h hvalid.1 hvalid.2

theorem settled_piece {token : Token} {gap : List Char} (hvalid : token.Valid) (hgap : Gap gap)
    (h : state.Settled tokens) (hidle : token.kind = .word → state.Idle tokens) :
    (run (run state token.written) gap).Settled (token.unplaced :: tokens) ∧
      ((token.kind = .word → gap ≠ []) → (run (run state token.written) gap).Idle (token.unplaced :: tokens)) := by
  by_cases hword : token.kind = .word
  · have hopen := settled_written_word hvalid hword (hidle hword)
    refine ⟨?_, fun hne => idle_gap_of_settled hgap (hne hword) hopen⟩
    by_cases hne : gap = []
    · rw [hne]
      exact hopen
    · exact (idle_gap_of_settled hgap hne hopen).settled
  · have hclosed := idle_gap hgap (idle_written hvalid hword h)
    exact ⟨hclosed.settled, fun _ => hclosed⟩

theorem settled_layout {pieces : List (Token × List Char)} (hvalid : ∀ piece ∈ pieces, piece.1.Valid ∧ Gap piece.2)
    (hapart : pieces.IsChain Apart) (h : state.Settled tokens)
    (hfirst : ∀ piece ∈ pieces.head?, piece.1.kind = .word → state.Idle tokens) :
    (run state (layout pieces)).Settled ((pieces.map fun piece => piece.1.unplaced).reverse ++ tokens) := by
  induction pieces generalizing state tokens with
  | nil => exact h
  | cons piece pieces ih =>
    obtain ⟨token, gap⟩ := piece
    obtain ⟨htoken, hgap⟩ := hvalid (token, gap) List.mem_cons_self
    obtain ⟨hsettled, hidle⟩ := settled_piece htoken hgap h (hfirst (token, gap) rfl)
    rw [List.isChain_cons] at hapart
    rw [layout, List.flatMap_cons, run_append, run_append, List.map_cons, List.reverse_cons, List.append_assoc]
    refine ih (fun other hother => hvalid other (List.mem_cons_of_mem _ hother)) hapart.2 hsettled ?_
    intro second hsecond hword
    exact hidle fun hfirst => hapart.1 second hsecond hfirst hword

end OnePass

variable {pieces : List (Token × List Char)} {lead trail : List Char}

theorem allOfText_layout (hlead : Gap lead) (hpieces : ∀ piece ∈ pieces, piece.1.Valid ∧ Gap piece.2)
    (hapart : pieces.IsChain Apart) (htrail : Trail trail) :
    (allOfText (String.ofList (lead ++ (layout pieces ++ trail)))).map unplaced =
      pieces.map fun piece => piece.1.unplaced := by
  have hstart : OnePass.start.Idle [] := ⟨rfl, rfl⟩
  have hled := OnePass.idle_gap hlead hstart
  have hlaid := OnePass.settled_layout hpieces hapart hled.settled fun _ _ _ => hled
  have hended := OnePass.ended_trail htrail hlaid
  rw [Lexer.allOfText_ofList, OnePass.tokens, OnePass.State.finish_eq, OnePass.run_append, OnePass.run_append,
    List.map_reverse, hended, List.append_nil, List.reverse_reverse]

end Token

/-! ## Tokens that are handed out -/

namespace Lexer

variable {lexer : Lexer} {token : Token}

/-- The tokens in an answer. -/
def Answer.handedOut : Answer → List Token
  | .attempt (.ok (some found)) => [found]
  | .token (some found) => [found]
  | .tokens found => found
  | _ => []

theorem Answer.mem_handedOut_attempt {answer : Except Error (Option Token)}
    (h : token ∈ (Answer.attempt answer).handedOut) : answer = .ok (some token) := by
  rcases answer with error | (_ | found)
  · cases h
  · cases h
  · rw [List.mem_singleton.1 h]

theorem Answer.mem_handedOut_token {answer : Except Error (Option Token)}
    (h : token ∈ (Answer.token answer.toOption.join).handedOut) : answer = .ok (some token) := by
  rcases answer with error | (_ | found)
  · cases h
  · cases h
  · rw [List.mem_singleton.1 h]

theorem valid_handedOut (hlexer : lexer.Valid) (command : Command) (h : token ∈ (lexer.perform command).1.handedOut) :
    token.Valid := by
  have hlook : lexer.look.1 = .ok (some token) → token.Valid := fun hlook => valid_look hlexer (Prod.ext hlook rfl)
  have htake : lexer.take.1 = .ok (some token) → token.Valid := fun htake =>
    (valid_take hlexer (Prod.ext htake rfl)).1
  cases command with
  | look => exact hlook (Answer.mem_handedOut_attempt h)
  | look? => exact hlook (Answer.mem_handedOut_token h)
  | take => exact htake (Answer.mem_handedOut_attempt h)
  | take? => exact htake (Answer.mem_handedOut_token h)
  | takeAll => exact valid_takeAll hlexer token h
  | _ => cases h

end Lexer

namespace Reader

/-- The tokens in an answer. Only the lexer hands out tokens. -/
def Answer.handedOut : Answer → List Token
  | .lexer answer => answer.handedOut
  | _ => []

theorem valid_handedOut {reader : Reader} (hlexer : reader.lexer.Valid) (command : Command) {token : Token}
    (h : token ∈ (reader.perform command).1.handedOut) : token.Valid := by
  cases command with
  | lexer command => exact Lexer.valid_handedOut hlexer command h
  | _ => cases h

/-- Every token that a call hands out is valid, whatever the source delivers. And valid tokens that are written with
gaps between them, which only two words need, are read back with their kinds and texts. -/
theorem tokens_survive_layout :
    (∀ (source : Source) (limit : Nat) (commands : List Command),
      ∀ answer ∈ ((ofLexer (Lexer.ofSource source) limit).run commands).1,
        ∀ token ∈ answer.handedOut, token.Valid) ∧
      ∀ (lead trail : List Char) (pieces : List (Token × List Char)), Token.Gap lead → Token.Trail trail →
        (∀ piece ∈ pieces, piece.1.Valid ∧ Token.Gap piece.2) → pieces.IsChain Token.Apart →
          (Token.allOfText (String.ofList (lead ++ (Token.layout pieces ++ trail)))).map
              (fun token => (token.kind, token.text)) =
            pieces.map fun piece => (piece.1.kind, piece.1.text) := by
  constructor
  · intro source limit commands answer hanswer token htoken
    obtain ⟨middle, command, hreaches, rfl, _⟩ := exists_perform_of_mem_run hanswer
    exact valid_handedOut (Lexer.coherent_of_reaches hreaches).valid command htoken
  · intro lead trail pieces hlead htrail hpieces hapart
    have hread := congrArg (List.map fun token : Token => (token.kind, token.text))
      (Token.allOfText_layout hlead hpieces hapart htrail)
    rw [List.map_map, List.map_map] at hread
    exact hread

/-- A comment keeps two words apart. The string literal needs no gap, nor does the word behind it. -/
theorem tokens_survive_layout_of_comment :
    let source := Source.ofDeliveries [.bytes [97, 10], .failure "gone"]
    let pieces : List (Token × List Char) :=
      [(⟨.word, "a", ⟨0, 0⟩⟩, [';', '"', '(', '\n']), (⟨.word, ".", ⟨0, 0⟩⟩, []), (⟨.string, "b\n", ⟨0, 0⟩⟩, []),
        (⟨.word, "c", ⟨0, 0⟩⟩, []), (Token.mark .quote ⟨0, 0⟩, [])]
    (Answer.lexer (.token (some ⟨.word, "a", ⟨1, 1⟩⟩)) ∈
        ((ofLexer (Lexer.ofSource source) 8).run [.lexer .take?]).1 ∧
      Token.Valid ⟨.word, "a", ⟨1, 1⟩⟩) ∧
      Token.Gap ['\r'] ∧ Token.Trail [';', 'd'] ∧ (∀ piece ∈ pieces, piece.1.Valid ∧ Token.Gap piece.2) ∧
      pieces.IsChain Token.Apart ∧
      (Token.allOfText "\ra;\"(\n.\"b\\n\"c';d").map (fun token => (token.kind, token.text)) =
        [(.word, "a"), (.word, "."), (.string, "b\n"), (.word, "c"), (.quote, "")] := by
  intro source pieces
  have hlead : Token.Gap ['\r'] := .blank (by decide) .nil
  have htrail : Token.Trail [';', 'd'] := .comment (by decide)
  have hword : ∀ word : String, word ≠ "" → word.toList.all Token.isConstituent →
      (⟨.word, word, ⟨0, 0⟩⟩ : Token).Valid := fun word hne hall => ⟨hne, List.all_eq_true.1 hall⟩
  have hpieces : ∀ piece ∈ pieces, piece.1.Valid ∧ Token.Gap piece.2 := by
    simp only [pieces, List.forall_mem_cons]
    exact ⟨⟨hword "a" (by decide) (by decide), @Token.Gap.comment ['"', '('] [] (by decide) .nil⟩,
      ⟨hword "." (by decide) (by decide), .nil⟩, ⟨trivial, .nil⟩, ⟨hword "c" (by decide) (by decide), .nil⟩,
      ⟨rfl, .nil⟩, fun _ h => by cases h⟩
  have hapart : pieces.IsChain Token.Apart := by
    simp [pieces, Token.Apart, Token.mark]
  have htaken : (Lexer.ofSource source).take?.1 = some ⟨.word, "a", ⟨1, 1⟩⟩ := by decide +kernel
  have hanswer : Answer.lexer (.token (some ⟨.word, "a", ⟨1, 1⟩⟩)) ∈
      ((ofLexer (Lexer.ofSource source) 8).run [.lexer .take?]).1 := by
    rw [← htaken]
    exact List.mem_singleton_self _
  have hvalid := tokens_survive_layout.1 source 8 [.lexer .take?] _ hanswer _ (List.mem_singleton_self _)
  have hread := tokens_survive_layout.2 ['\r'] [';', 'd'] pieces hlead htrail hpieces hapart
  exact ⟨⟨hanswer, hvalid⟩, hlead, htrail, hpieces, hapart, hread⟩

end Reader

end Sexp
