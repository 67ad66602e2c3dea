import Sexp.Proofs.Unfold
import Sexp.Reader.Descent

/-!
# The descent reads what the reader reads

The reader keeps the open forms on a stack and takes one token after the other. The descent has a call for each of them
and comes back from it with what the reader then delivers to the form around it. So both answer the same and leave the
same lexer (`Descent.read_eq`), however many forms an earlier descent has counted.
-/

namespace Sexp

namespace Descent

open Awaiting (begin)
open Reader (complete complete_eq afterToken)

variable {limit : Nat} {here : Descent} {frames : List Frame}

/-! ## Going on around a form -/

/-- The reader goes on behind a step. -/
def resume (limit : Nat) (lexer : Lexer) : Step → Except Error Datum × Lexer
  | .more state => complete limit state lexer
  | .done datum => (.ok datum, lexer)
  | .failed error => (.error error, lexer)

/-- The reader goes on with what a descent comes back with, in the forms around it. -/
def Return.deliver (limit : Nat) (frames : List Frame) (result : Return here) : Except Error Datum × Lexer :=
  match result.answer with
  | .ok datum => resume limit result.rest.lexer (Awaiting.deliver datum frames)
  | .error error => (.error error, result.rest.lexer)

theorem Return.deliver_quoted (name : String) (result : Return here) :
    (result.map (Datum.quoted name)).deliver limit frames = result.deliver limit (.operand name :: frames) := by
  rcases result with ⟨error | found, rest, hsize, hdepth⟩ <;> rfl

theorem complete_next (limit : Nat) (state : Awaiting) (lexer : Lexer) :
    complete limit state lexer =
      match next state.context lexer with
      | (.ok token, rest) => resume limit rest (state.step limit token)
      | (.error error, rest) => (.error error, rest) := by
  rw [complete_eq]
  unfold next
  rcases lexer.take with ⟨failure | (_ | token), rest⟩
  · rfl
  · rfl
  · simp only [afterToken]
    cases state.step limit token <;> rfl

theorem complete_withNext {state : Awaiting}
    {go : Token → (rest : Lexer) → rest.size < here.lexer.size → Return { here with lexer := rest }}
    (hgo : ∀ token rest hrest,
      resume limit rest (state.step limit token) = (go token rest hrest).deliver limit frames) :
    complete limit state here.lexer = (withNext state.context here go).deliver limit frames := by
  have hcomplete := complete_next limit state here.lexer
  unfold withNext
  split
  · rename_i token rest hnext
    rw [hnext] at hcomplete
    exact hcomplete.trans (hgo token rest (size_next_lt hnext))
  · rename_i error rest hnext
    rw [hnext] at hcomplete
    exact hcomplete

theorem Return.deliver_andThen {outer : List Frame} {state : Datum → Awaiting}
    {go : Datum → (later : Descent) → later.lexer.size ≤ here.lexer.size → Return later} (result : Return here)
    (hmore : ∀ datum, Awaiting.deliver datum frames = .more (state datum))
    (hgo : ∀ datum later hlater, later.depth = here.depth →
      complete limit (state datum) later.lexer = (go datum later hlater).deliver limit outer) :
    result.deliver limit frames = (result.andThen go).deliver limit outer := by
  rcases result with ⟨error | datum, rest, hsize, hdepth⟩
  · rfl
  · simp only [Return.deliver, hmore, resume]
    exact hgo datum rest hsize hdepth

theorem deliver_nested {frame : Frame} {go : Unit → Return { here with depth := here.depth + 1 }}
    (hdepth : frames.length = here.depth)
    (hgo : complete limit (.datum (frame :: frames)) here.lexer = (go ()).deliver limit frames) :
    resume limit here.lexer (Awaiting.enter limit frame frames) = (nested limit here go).deliver limit frames := by
  rw [Awaiting.enter, nested, hdepth]
  by_cases hroom : here.depth < limit
  · rw [if_pos hroom, if_pos hroom]
    exact hgo
  · rw [if_neg hroom, if_neg hroom]
    rfl

/-! ## One form -/

/-- The descent from here does what the reader does, whichever token starts the datum. -/
def Follows (limit : Nat) (here : Descent) : Prop :=
  ∀ token frames, frames.length = here.depth →
    resume limit here.lexer (begin limit token frames) = (datum limit token here).deliver limit frames

theorem complete_closing (found : List Datum) (last : Datum) :
    complete limit (.close found last frames) here.lexer = (closing found last here).deliver limit frames := by
  refine complete_withNext fun token rest _ => ?_
  by_cases hclose : token.kind = .closeParen
  · simp only [Awaiting.step, if_pos hclose]
    rfl
  · simp only [Awaiting.step, if_neg hclose]
    rfl

section

variable (hinner : ∀ later : Descent, later.lexer.size < here.lexer.size → Follows limit later)

include hinner

theorem complete_operand (name : String) (hdepth : frames.length + 1 = here.depth) :
    complete limit (.datum (.operand name :: frames)) here.lexer = (operand limit name here).deliver limit frames := by
  rw [operand]
  refine complete_withNext fun token rest hrest => ?_
  rw [Return.deliver_quoted]
  exact hinner { here with lexer := rest } hrest token _ hdepth

theorem complete_tail (found : List Datum) (hdepth : frames.length + 1 = here.depth) :
    complete limit (.datum (.tail found :: frames)) here.lexer = (tail limit found here).deliver limit frames := by
  rw [tail]
  refine complete_withNext fun token rest hrest => ?_
  have hlast := hinner { here with lexer := rest } hrest token (.tail found :: frames) hdepth
  exact hlast.trans (Return.deliver_andThen _ (fun _ => rfl) fun last later _ _ => complete_closing found last)

end

theorem complete_items (hinner : ∀ later : Descent, later.lexer.size < here.lexer.size → Follows limit later)
    (found : List Datum) (hdepth : frames.length + 1 = here.depth) :
    complete limit (.datum (.items found :: frames)) here.lexer = (items limit found here).deliver limit frames := by
  induction hsize : here.lexer.size using Nat.strongRecOn generalizing here found with
  | _ size ih =>
    subst hsize
    rw [items]
    refine complete_withNext fun token rest hrest => ?_
    simp only [Awaiting.step]
    by_cases hclose : token.kind = .closeParen
    · rw [if_pos hclose, if_pos hclose]
      rfl
    · rw [if_neg hclose, if_neg hclose]
      by_cases hdot : token.isDot
      · rw [if_pos hdot, if_pos hdot]
        have hless : ∀ later : Descent, later.lexer.size < rest.size → Follows limit later :=
          fun later hlater => hinner later (Nat.lt_trans hlater hrest)
        exact @complete_tail limit { here with lexer := rest } frames hless found hdepth
      · rw [if_neg hdot, if_neg hdot]
        have hitem := hinner { here with lexer := rest } hrest token (.items found :: frames) hdepth
        refine hitem.trans (Return.deliver_andThen _ (fun _ => rfl) fun item later hlater hsame => ?_)
        have hless : later.lexer.size < here.lexer.size := Nat.lt_of_le_of_lt hlater hrest
        exact ih _ hless (fun last hlast => hinner last (Nat.lt_trans hlast hless)) (item :: found)
          (hdepth.trans hsame.symm) rfl

theorem follows (limit : Nat) (here : Descent) : Follows limit here := by
  induction hsize : here.lexer.size using Nat.strongRecOn generalizing here with
  | _ size ih =>
    subst hsize
    intro token frames hdepth
    have hinner : ∀ later : Descent, later.lexer.size < here.lexer.size → Follows limit later :=
      fun later hlater => ih _ hlater later rfl
    -- the form that the token may open
    let inside : Descent := { here with depth := here.depth + 1 }
    have hinside : frames.length + 1 = inside.depth := congrArg (· + 1) hdepth
    have hquoted : ∀ name, resume limit here.lexer (Awaiting.enter limit (.operand name) frames) =
        (nested limit here fun _ => operand limit name inside).deliver limit frames :=
      fun name => deliver_nested hdepth (@complete_operand limit inside frames hinner name hinside)
    rw [datum]
    obtain ⟨kind, text, position⟩ := token
    cases kind with
    | openParen => exact deliver_nested hdepth (@complete_items limit inside frames hinner [] hinside)
    | quote => exact hquoted "QUOTE"
    | quasiquote => exact hquoted "QUASIQUOTE"
    | unquote => exact hquoted "UNQUOTE"
    | _ => rfl

theorem Return.deliver_nil (limit : Nat) (result : Return here) :
    result.deliver limit [] = (result.answer, result.rest.lexer) := by
  rcases result with ⟨error | datum, rest, hsize, hdepth⟩ <;> rfl

/-- Whatever the count has been left at, the descent answers what the reader answers and leaves the same lexer, and no
form is open any more. -/
theorem read_eq (limit : Nat) (before : Descent) :
    read limit before = ((complete limit .start before.lexer).1, ⟨(complete limit .start before.lexer).2, 0⟩) := by
  let start : Descent := { before with depth := 0 }
  let result : Return start := withNext Awaiting.start.context start fun token rest _ =>
    datum limit token { start with lexer := rest }
  have hresult : complete limit .start start.lexer = result.deliver limit [] :=
    complete_withNext fun token rest _ => follows limit { start with lexer := rest } token [] rfl
  have hread : complete limit .start before.lexer = (result.answer, result.rest.lexer) :=
    hresult.trans (result.deliver_nil limit)
  have hrest : result.rest = ⟨result.rest.lexer, 0⟩ := congrArg (Descent.mk result.rest.lexer) result.depth_eq
  rw [hread, ← hrest]
  rfl

end Descent

end Sexp
