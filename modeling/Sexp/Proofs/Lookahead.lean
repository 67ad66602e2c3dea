import Sexp.Proofs.Simulation

/-!
# Looking ahead

Looking may poll the source, meet its failure and keep what it found, but looking twice is looking once
(`Lexer.look_look`). So lexers that have the same thing to look at can stand in for each other, although one may have
read further than the other, and a run of calls reads the same with and without the calls that only look
(`Reader.reads_same_without_looking`).
-/

namespace Sexp

namespace Lexer

variable {a b : Lexer}

theorem look_look (lexer : Lexer) : lexer.look.2.look = lexer.look := by
  rcases look_cases lexer with ⟨_, _, hlook⟩ | ⟨_, hlook⟩ | ⟨_, _, _, hlook⟩ | ⟨_, _, hlook⟩
  · rw [hlook, hlook]
  · rw [hlook, hlook]
  · rw [hlook, hlook]
  · rw [hlook]
    rcases scanAhead_cases lexer.feed with ⟨error, hfailure, hscan⟩ | ⟨token, _, _, hscan⟩ | ⟨_, _, hscan⟩
    · rw [hscan]
      simp only [look, hfailure]
    · rw [hscan]
      rfl
    · rw [hscan]
      rfl

theorem take_eq_of_look_eq (h : a.look = b.look) : a.take = b.take := by
  unfold take
  rw [h]

/-- Lexers with the same thing to look at. None is ever lost. -/
def sameView : Simulation where
  Alike a b := a.look = b.look
  Lost _ := False
  look {a b} h := .inr ⟨congrArg Prod.fst h, (look_look a).trans (h.trans (look_look b).symm)⟩
  take h := by
    rw [take_eq_of_look_eq h]
    exact .inr ⟨rfl, rfl⟩
  lost_move _ hlost := hlost

/-- The call takes no token. -/
def Command.onlyLooks : Command → Bool
  | .take => false
  | .take? => false
  | .takeAll => false
  | _ => true

theorem look_perform_of_onlyLooks (lexer : Lexer) {command : Command} (h : command.onlyLooks) :
    (lexer.perform command).2.look = lexer.look := by
  cases command with
  | look => exact look_look lexer
  | look? => exact look_look lexer
  | take => cases h
  | take? => cases h
  | takeAll => cases h
  | hasToken => exact look_look lexer
  | lines => rfl
  | failure => rfl

/-! ### What looking answers -/

theorem fst_look (lexer : Lexer) : lexer.look.1 = lexer.take.1 := by
  unfold take
  rcases lexer.look with ⟨failure | (_ | token), rest⟩ <;> rfl

theorem hasToken_iff (lexer : Lexer) :
    lexer.hasToken.1 = true ↔ ∃ token, lexer.take.1 = .ok (some token) := by
  rw [← fst_look]
  unfold hasToken look?
  rcases lexer.look with ⟨failure | (_ | token), rest⟩
  · constructor
    · intro h; cases h
    · rintro ⟨token, h⟩; cases h
  · constructor
    · intro h; cases h
    · rintro ⟨token, h⟩; cases h
  · exact ⟨fun _ => ⟨token, rfl⟩, fun _ => rfl⟩

end Lexer

namespace Reader

open Lexer (sameView look_look fst_look hasToken_iff)

variable {a b : Reader}

theorem checkEnd_eq_ok_iff_take (reader : Reader) :
    reader.checkEnd.1 = .ok () ↔ reader.lexer.take.1 = .ok none := by
  rw [← fst_look]
  unfold checkEnd
  rcases reader.lexer.look with ⟨failure | (_ | token), rest⟩
  · constructor <;> (intro h; cases h)
  · exact ⟨fun _ => rfl, fun _ => rfl⟩
  · constructor <;> (intro h; cases h)

/-- The call takes no token. A new reader takes none either, but it may have another limit. -/
def Command.onlyLooks : Command → Bool
  | .checkEnd => true
  | .limit => true
  | .lexer command => command.onlyLooks
  | _ => false

theorem Command.onlyLooks_of_isQuery {command : Command} (h : command.isQuery) : command.onlyLooks = true := by
  cases command with
  | lexer command =>
    cases command with
    | lines => rfl
    | failure => rfl
    | _ => cases h
  | _ => cases h

theorem Related.of_onlyLooks {command : Command} (hlooks : command.onlyLooks) (h : Related sameView a b) :
    Related sameView (a.perform command).2 b := by
  cases command with
  | checkEnd =>
    show Related sameView a.checkEnd.2 b
    rw [snd_checkEnd]
    exact ⟨(look_look a.lexer).trans h.lexer, h.limit, h.stopped⟩
  | limit => exact h
  | lexer command =>
    exact ⟨(Lexer.look_perform_of_onlyLooks a.lexer hlooks).trans h.lexer, h.limit, h.stopped⟩
  | _ => cases hlooks

/-- The answers to the calls that do more than look. -/
def readAnswers (commands : List Command) (answers : List Answer) : List Answer :=
  ((commands.zip answers).filter fun call => !call.1.onlyLooks).map Prod.snd

theorem readAnswers_run (commands : List Command) (h : Related sameView a b) :
    readAnswers commands (a.run commands).1 =
      (b.run (commands.filter fun command => !command.onlyLooks)).1 := by
  induction commands generalizing a b with
  | nil => rfl
  | cons command commands ih =>
    unfold readAnswers
    cases hlooks : command.onlyLooks with
    | true =>
      rw [run_cons, List.zip_cons_cons, List.filter_cons_of_neg (by simp [hlooks]),
        List.filter_cons_of_neg (by simp [hlooks])]
      exact ih (h.of_onlyLooks hlooks)
    | false =>
      have hquery : command.isQuery → a.lexer.lines = b.lexer.lines ∧ a.lexer.failure = b.lexer.failure := by
        intro hquery
        cases hlooks.symm.trans (Command.onlyLooks_of_isQuery hquery)
      rw [run_cons, List.zip_cons_cons, List.filter_cons_of_pos (by simp [hlooks]),
        List.filter_cons_of_pos (by simp [hlooks]), run_cons, List.map_cons]
      rcases agree_perform command h hquery with hlost | ⟨hanswer, hrest⟩
      · exact hlost.elim
      · rw [hanswer]
        exact congrArg _ (ih hrest)

/-- Calls that only look change no answer of the others, wherever in a run they are made and whatever the source
delivers. In every state that a run can reach, looking answers what taking would answer, the end check succeeds
exactly if that is the clean end, and there is a next token exactly if that is a token. -/
theorem reads_same_without_looking (source : Source) (limit : Nat) (commands : List Command) :
    let start := ofLexer (Lexer.ofSource source) limit
    let reader := (start.run commands).2
    readAnswers commands (start.run commands).1 =
        (start.run (commands.filter fun command => !command.onlyLooks)).1 ∧
      reader.lexer.look.1 = reader.lexer.take.1 ∧
      (reader.checkEnd.1 = .ok () ↔ reader.lexer.take.1 = .ok none) ∧
      (reader.lexer.hasToken.1 = true ↔ ∃ token, reader.lexer.take.1 = .ok (some token)) := by
  intro start reader
  have hself : Related sameView start start := ⟨rfl, rfl, rfl⟩
  exact ⟨readAnswers_run commands hself, fst_look reader.lexer, checkEnd_eq_ok_iff_take reader,
    hasToken_iff reader.lexer⟩

end Reader

end Sexp
