import Sexp.Proofs.Unfold
import Sexp.Reader.OfTokens

/-!
# The tokens that are left

`Lexer.takeAll` lists the tokens that a lexer still hands out. Taking one token takes the first of this list,
and the two ways in which the list can end are final. So where no read fails, a reader does with its lexer
what `Awaiting.complete` does with the list (`Reader.complete_of_clean`).
-/

namespace Sexp

namespace Lexer

variable {lexer rest : Lexer}

theorem take_of_none (h : lexer.take = (.ok none, rest)) : rest.take = (.ok none, rest) := by
  have hfinish : rest.lookahead = .finish := by
    unfold take look scanAhead at h
    grind
  simp only [take, look, hfinish]

theorem take_of_error {error : Error} (h : lexer.take = (.error error, rest)) :
    rest.failure = some error ∧ rest.take = (.error error, rest) := by
  have hfailed : rest.lookahead = .nothing ∧ rest.feed.failure = some error := by
    unfold take look scanAhead at h
    grind
  refine ⟨hfailed.2, ?_⟩
  simp only [take, look, hfailed.1, hfailed.2]

theorem takeAll_of_take_token {token : Token} (h : lexer.take = (.ok (some token), rest)) :
    lexer.takeAll = (token :: rest.takeAll.1, rest.takeAll.2) := by
  refine takeAll_of_token ?_
  rw [take?, h]
  rfl

theorem takeAll_of_take_none (h : lexer.take = (.ok none, rest)) : lexer.takeAll = ([], rest) := by
  refine takeAll_of_none ?_
  rw [take?, h]
  rfl

theorem takeAll_of_take_error {error : Error} (h : lexer.take = (.error error, rest)) :
    lexer.takeAll = ([], rest) := by
  refine takeAll_of_none ?_
  rw [take?, h]
  rfl

theorem takeAll_of_look_token {token : Token} (h : lexer.look = (.ok (some token), rest)) :
    rest.takeAll = lexer.takeAll := by
  have htake : lexer.take = (.ok (some token), { rest with lookahead := .nothing }) := by rw [take, h]
  have hrest : rest.take = (.ok (some token), { rest with lookahead := .nothing }) := by
    rw [take, look, lookahead_look h]
  rw [takeAll_of_take_token htake, takeAll_of_take_token hrest]

end Lexer

namespace Reader

/-- Where no read fails, a form is completed from the tokens that are left, and leaves the others. -/
theorem complete_of_clean (limit : Nat) (state : Awaiting) {lexer : Lexer}
    (hclean : lexer.takeAll.2.failure = none) :
    (complete limit state lexer).1 = (Awaiting.complete limit state lexer.takeAll.1).1 ∧
      (complete limit state lexer).2.takeAll =
        ((Awaiting.complete limit state lexer.takeAll.1).2, lexer.takeAll.2) := by
  induction hsize : lexer.size using Nat.strongRecOn generalizing state lexer with
  | _ size ih =>
    subst hsize
    rw [complete_eq]
    rcases htake : lexer.take with ⟨failure | (_ | token), rest⟩
    · rw [Lexer.takeAll_of_take_error htake] at hclean
      rw [(Lexer.take_of_error htake).1] at hclean
      cases hclean
    · rw [Lexer.takeAll_of_take_none htake]
      exact ⟨rfl, Lexer.takeAll_of_take_none (Lexer.take_of_none htake)⟩
    · rw [Lexer.takeAll_of_take_token htake] at hclean ⊢
      simp only [afterToken, Awaiting.complete]
      cases state.step limit token with
      | more state => exact ih _ (Lexer.size_take_lt htake) state hclean rfl
      | done datum => exact ⟨rfl, rfl⟩
      | failed error => exact ⟨rfl, rfl⟩

theorem checkEnd_eq_ok_iff {reader : Reader} (hclean : reader.lexer.takeAll.2.failure = none) :
    reader.checkEnd.1 = .ok () ↔ reader.lexer.takeAll.1 = [] := by
  unfold checkEnd
  rcases hlook : reader.lexer.look with ⟨failure | (_ | token), rest⟩
  · have htake : reader.lexer.take = (.error failure, rest) := by rw [Lexer.take, hlook]
    rw [Lexer.takeAll_of_take_error htake, (Lexer.take_of_error htake).1] at hclean
    cases hclean
  · have htake : reader.lexer.take = (.ok none, rest) := by rw [Lexer.take, hlook]
    rw [Lexer.takeAll_of_take_none htake]
    exact ⟨fun _ => rfl, fun _ => rfl⟩
  · have htake : reader.lexer.take = (.ok (some token), ⟨rest.feed, .nothing⟩) := by
      rw [Lexer.take, hlook]
    rw [Lexer.takeAll_of_take_token htake]
    constructor <;> (intro h; cases h)

theorem readSole_eq_ok_iff {reader : Reader} (hclean : reader.lexer.takeAll.2.failure = none)
    (datum : Datum) :
    reader.readSole.1 = .ok datum ↔
      Awaiting.complete reader.limit .start reader.lexer.takeAll.1 = (.ok datum, []) := by
  obtain ⟨hanswer, hleft⟩ := complete_of_clean reader.limit .start hclean
  unfold readSole
  rcases hread : reader.read with ⟨error | found, rest⟩
  · have herror : (complete reader.limit .start reader.lexer).1 = .error error := congrArg Prod.fst hread
    rw [herror] at hanswer
    rw [Prod.ext_iff, ← hanswer]
    constructor
    · intro h
      cases h
    · rintro ⟨h, _⟩
      cases h
  · have hfound : (complete reader.limit .start reader.lexer).1 = .ok found := congrArg Prod.fst hread
    have hrest : rest.lexer = (complete reader.limit .start reader.lexer).2 :=
      congrArg (fun answer => answer.2.lexer) hread.symm
    rw [hfound] at hanswer
    rw [← hrest] at hleft
    -- the check looks at what the form has left
    have hchecked : rest.lexer.takeAll.2.failure = none := by rw [hleft]; exact hclean
    have hend := checkEnd_eq_ok_iff hchecked
    rw [hleft] at hend
    rw [Prod.ext_iff, ← hanswer, ← hend]
    show (rest.checkEnd.1.map fun _ => found) = .ok datum ↔
      (.ok found : Except Error Datum) = .ok datum ∧ rest.checkEnd.1 = .ok ()
    cases rest.checkEnd.1 with
    | error error =>
      constructor
      · intro h
        cases h
      · rintro ⟨_, h⟩
        cases h
    | ok => exact ⟨fun h => ⟨h, rfl⟩, fun h => h.1⟩

end Reader

end Sexp
