import Sexp.Proofs.Descent
import Sexp.Proofs.Reaching

/-!
# A reader keeps no history

Between two calls a reader keeps its lexer and whether `yield` has stopped, and only an error that `yield` yields stops
it (`Reader.stopped_perform`). So as long as there is none, a new reader over the same lexer does as well as the old one,
however many forms have been left open by errors. And one reader yields one error at most.
-/

namespace Sexp

namespace Reader

/-! ## Errors that are yielded -/

/-- The errors among what an iterator has yielded. -/
def errorsOf (answers : List (Except Error Datum)) : List Error :=
  answers.filterMap fun answer =>
    match answer with
    | .ok _ => none
    | .error error => some error

theorem errorsOf_error (error : Error) (answers : List (Except Error Datum)) :
    errorsOf (.error error :: answers) = error :: errorsOf answers := rfl

theorem length_errorsOf_reverse (answers : List (Except Error Datum)) :
    (errorsOf answers.reverse).length = (errorsOf answers).length := by
  rw [errorsOf, List.filterMap_reverse, List.length_reverse]
  rfl

/-- The errors that an answer yields. -/
def Answer.yieldedErrors : Answer → List Error
  | .yielded answer => errorsOf answer.toList
  | .allYielded answers => errorsOf answers
  | _ => []

/-- The errors that a run of calls yields. -/
def yieldedErrors (answers : List Answer) : List Error := answers.flatMap Answer.yieldedErrors

theorem yieldedErrors_cons (answer : Answer) (answers : List Answer) :
    yieldedErrors (answer :: answers) = answer.yieldedErrors ++ yieldedErrors answers := List.flatMap_cons

/-! ## What stops a reader -/

variable {reader : Reader}

theorem stopped_readRest (data : List Datum) (reader : Reader) :
    (readRest data reader).2.stopped = reader.stopped := by
  induction hsize : reader.size using Nat.strongRecOn generalizing data reader with
  | _ size ih =>
    subst hsize
    have hstopped := stopped_read? reader
    rw [readRest_eq]
    rcases hread : reader.read? with ⟨error | (_ | datum), rest⟩
    all_goals rw [hread] at hstopped
    · exact hstopped
    · exact hstopped
    · exact (ih _ (size_read? hread) (datum :: data) rest rfl).trans hstopped

theorem stopped_yield (reader : Reader) :
    reader.yield.2.stopped.toNat = reader.stopped.toNat + (errorsOf reader.yield.1.toList).length := by
  by_cases hstopped : reader.stopped
  · rw [yield, if_pos hstopped]
    rfl
  · have hread := stopped_read? reader
    rw [Bool.not_eq_true] at hstopped
    rw [hstopped] at hread
    rw [yield, hstopped, if_neg Bool.false_ne_true]
    generalize reader.read? = answered at hread
    rcases answered with ⟨error | (_ | datum), rest⟩
    · rfl
    · exact congrArg Bool.toNat hread
    · exact congrArg Bool.toNat hread

theorem stopped_drain (answers : List (Except Error Datum)) (reader : Reader) :
    (drain answers reader).2.stopped.toNat + (errorsOf answers).length =
      reader.stopped.toNat + (errorsOf (drain answers reader).1).length := by
  induction hsize : reader.size using Nat.strongRecOn generalizing answers reader with
  | _ size ih =>
    subst hsize
    have hstopped := stopped_yield reader
    rw [drain_eq]
    rcases hyield : reader.yield with ⟨_ | (error | datum), rest⟩
    all_goals rw [hyield] at hstopped
    · rw [hstopped, length_errorsOf_reverse]
      rfl
    · rw [hstopped, length_errorsOf_reverse, errorsOf_error, List.length_cons, Nat.add_right_comm]
      rfl
    · have hrest := ih _ (size_yield hyield) (.ok datum :: answers) rest rfl
      rw [hstopped] at hrest
      exact hrest

theorem stopped_perform (reader : Reader) {command : Command} (h : ∀ limit, command ≠ .renew limit) :
    (reader.perform command).2.stopped.toNat =
      reader.stopped.toNat + (reader.perform command).1.yieldedErrors.length := by
  cases command with
  | readAll => exact congrArg Bool.toNat (stopped_readRest [] reader)
  | read? => exact congrArg Bool.toNat (stopped_read? reader)
  | yield => exact stopped_yield reader
  | yieldAll => exact stopped_drain [] reader
  | checkEnd =>
    show reader.checkEnd.2.stopped.toNat = reader.stopped.toNat
    rw [snd_checkEnd]
  | renew limit => exact absurd rfl (h limit)
  | _ => rfl

theorem stopped_run (reader : Reader) {commands : List Command} (h : ∀ limit, .renew limit ∉ commands) :
    (reader.run commands).2.stopped.toNat =
      reader.stopped.toNat + (yieldedErrors (reader.run commands).1).length := by
  induction commands generalizing reader with
  | nil => rfl
  | cons command commands ih =>
    have hfirst := reader.stopped_perform fun limit heq => h limit (heq ▸ List.mem_cons_self)
    have hrest := ih (reader.perform command).2 fun limit hmem => h limit (List.mem_cons_of_mem _ hmem)
    rw [run_cons, hrest, hfirst, yieldedErrors_cons, List.length_append, Nat.add_assoc]

theorem yield_eq_of_stopped (h : reader.stopped) : reader.yield = (none, reader) ∧ reader.yieldAll = ([], reader) := by
  have hyield : reader.yield = (none, reader) := by rw [yield, if_pos h]
  refine ⟨hyield, ?_⟩
  rw [yieldAll, drain_eq, hyield]
  rfl

/-! ## Renewal -/

/-- A new reader over the same lexer, with the same limit. -/
def renewed (reader : Reader) : Reader := (reader.perform (.renew reader.limit)).2

/-- Performs the calls in order, and goes on with a new reader wherever there is none. -/
def runRenewing (reader : Reader) : List (Option Command) → List Answer × Reader
  | [] => ([], reader)
  | none :: session => reader.renewed.runRenewing session
  | some command :: session =>
    let (answer, reader) := reader.perform command
    let (answers, reader) := reader.runRenewing session
    (answer :: answers, reader)

theorem runRenewing_some (reader : Reader) (command : Command) (session : List (Option Command)) :
    reader.runRenewing (some command :: session) =
      ((reader.perform command).1 :: ((reader.perform command).2.runRenewing session).1,
        ((reader.perform command).2.runRenewing session).2) := rfl

theorem renewed_eq (h : reader.stopped = false) : reader.renewed = reader := by
  obtain ⟨lexer, limit, stopped⟩ := reader
  cases h
  rfl

theorem stopped_perform_eq_false {command : Command} (h : reader.stopped = false)
    (hnone : (reader.perform command).1.yieldedErrors = []) : (reader.perform command).2.stopped = false := by
  by_cases hrenew : ∃ limit, command = .renew limit
  · obtain ⟨limit, rfl⟩ := hrenew
    rfl
  · rw [← Bool.toNat_eq_zero, stopped_perform reader (not_exists.1 hrenew), h, hnone]
    rfl

theorem runRenewing_eq {session : List (Option Command)} (h : reader.stopped = false)
    (hnone : yieldedErrors (reader.run (session.filterMap id)).1 = []) :
    reader.runRenewing session = reader.run (session.filterMap id) := by
  induction session generalizing reader with
  | nil => rfl
  | cons call session ih =>
    cases call with
    | none =>
      rw [runRenewing, renewed_eq h]
      exact ih h hnone
    | some command =>
      have hall : (reader.perform command).1.yieldedErrors ++
          yieldedErrors ((reader.perform command).2.run (session.filterMap id)).1 = [] := hnone
      obtain ⟨hfirst, hrest⟩ := List.append_eq_nil_iff.1 hall
      have hsame := ih (stopped_perform_eq_false h hfirst) hrest
      rw [runRenewing_some, hsame]
      rfl

/-- A reader may be replaced at any time, as long as it has yielded no error. In every run, one reader yields one error at
most and then nothing more, and its lexer is left alone by that. Neither depends on how many forms a descent has left
open, since the next one starts anew and leaves none. -/
theorem no_hidden_history (source : Source) (limit : Nat) :
    (∀ session : List (Option Command),
      yieldedErrors ((ofLexer (Lexer.ofSource source) limit).run (session.filterMap id)).1 = [] →
        (ofLexer (Lexer.ofSource source) limit).runRenewing session =
          (ofLexer (Lexer.ofSource source) limit).run (session.filterMap id)) ∧
      (∀ earlier later : List Command, (∀ limit', .renew limit' ∉ later) →
        let before := ((ofLexer (Lexer.ofSource source) limit).run earlier).2
        let after := (before.run later).2
        (yieldedErrors (before.run later).1).length ≤ 1 ∧
          (yieldedErrors (before.run later).1 ≠ [] →
            after.yield = (none, after) ∧ after.yieldAll = ([], after))) ∧
      ∀ (earlier : List Command) (depth : Nat),
        let before := ((ofLexer (Lexer.ofSource source) limit).run earlier).2
        Descent.read before.limit ⟨before.lexer, depth⟩ = (before.read.1, ⟨before.read.2.lexer, 0⟩) := by
  refine ⟨fun session hnone => runRenewing_eq rfl hnone, fun earlier later hlater => ?_, fun earlier depth => ?_⟩
  · intro before after
    have hstopped : after.stopped.toNat = before.stopped.toNat + (yieldedErrors (before.run later).1).length :=
      before.stopped_run hlater
    have hle : after.stopped.toNat ≤ 1 := Bool.toNat_le _
    refine ⟨by omega, fun hsome => yield_eq_of_stopped ?_⟩
    have hpos := List.length_pos_iff.2 hsome
    rw [← Bool.toNat_eq_one]
    omega
  · exact Descent.read_eq _ _

/-- A form is left at the limit, and later ones at the parentheses that have lost their partners. Only one of these errors
is yielded, although the next one is read by the same reader. -/
theorem no_hidden_history_of_left_forms :
    let start := ofLexer (Lexer.ofSource (Source.ofText "((a) b) ) c)")) 1
    let before := (start.run [.read, .yield]).2
    let after := (before.run [.read, .yield, .yield, .read]).2
    yieldedErrors (start.run [.read, .yield, .read, .read?]).1 = [] ∧
      start.runRenewing [some .read, none, some .yield, none, some .read, some .read?, none] =
        start.run [.read, .yield, .read, .read?] ∧
      (∀ limit, .renew limit ∉ [Command.read, .yield, .yield, .read]) ∧
      yieldedErrors (before.run [.read, .yield, .yield, .read]).1 ≠ [] ∧
      (yieldedErrors (before.run [.read, .yield, .yield, .read]).1).length ≤ 1 ∧
      after.yield = (none, after) ∧
      Descent.read before.limit ⟨before.lexer, 1⟩ = (before.read.1, ⟨before.read.2.lexer, 0⟩) := by
  intro start before after
  have hnone : yieldedErrors (start.run [.read, .yield, .read, .read?]).1 = [] := by decide +kernel
  have hsome : yieldedErrors (before.run [.read, .yield, .yield, .read]).1 ≠ [] := by decide +kernel
  have hrenew : ∀ limit, .renew limit ∉ [Command.read, .yield, .yield, .read] := by simp
  obtain ⟨hsame, honce, hdepth⟩ := no_hidden_history (Source.ofText "((a) b) ) c)") 1
  obtain ⟨hle, hafter⟩ := honce [.read, .yield] [.read, .yield, .yield, .read] hrenew
  exact ⟨hnone, hsame [some .read, none, some .yield, none, some .read, some .read?, none] hnone, hrenew, hsome, hle,
    (hafter hsome).1, hdepth [.read, .yield] 1⟩

end Reader

end Sexp
