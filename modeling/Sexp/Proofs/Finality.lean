import Mathlib.Data.List.Forall2
import Sexp.Proofs.Reaching
import Sexp.Proofs.Viability

/-!
# Reading ends once and for all

Reading ends in a line that cannot be read, which the feed remembers, or at the clean end of the text, which the
lookahead remembers. A lexer that has ended stays as it is, whatever is called, and so every later call has a
settled answer (`Reader.ended_for_good`). What a lexer remembers is coherent: a failure leaves no token of
lookahead behind and carries the number of the line after those that were read (`Lexer.Coherent`).
-/

namespace Sexp

/-- How reading has ended. -/
inductive Outcome
  /-- A line could not be read. -/
  | failed (error : Error)
  /-- The text is at its clean end. -/
  | finished

namespace Outcome

/-- The failure, or else what is answered at the clean end. -/
def settle {α : Type} (outcome : Outcome) (atEnd : Except Error α) : Except Error α :=
  match outcome with
  | failed error => .error error
  | finished => atEnd

def failure? : Outcome → Option Error
  | failed error => some error
  | finished => none

end Outcome

/-- The end of reading that an error tells of. -/
def Error.outcome? : Error → Option Outcome
  | unreadable line failure => some (.failed (unreadable line failure))
  | unexpectedEnd _ => some .finished
  | _ => none

/-! ## Coherent lexers -/

namespace Feed

/-- A failure is that of the line after those that have been read. -/
def Numbered (feed : Feed) : Prop :=
  ∀ error, feed.failure = some error → ∃ failure, error = .unreadable (feed.line + 1) failure

theorem numbered_nextLine {feed : Feed} (h : feed.failure = none) : feed.nextLine.Numbered := by
  unfold nextLine
  rcases feed.source.takeText with ⟨failure | (_ | ⟨c, text⟩), source⟩
  · rintro error ⟨⟩
    exact ⟨failure, rfl⟩
  all_goals
    intro error herror
    cases h.symm.trans herror

theorem numbered_move {feed next : Feed} (hmove : feed.Move next) (h : feed.Numbered) : next.Numbered := by
  cases hmove with
  | fill =>
    unfold fill
    split
    · exact h
    · rename_i hread
      rw [not_or] at hread
      exact numbered_nextLine (Option.not_isSome_iff_eq_none.1 hread.2)
  | pass => exact h
  | passLine => exact h

end Feed

namespace Lexer

variable {lexer next rest : Lexer} {outcome other : Outcome}

/-- What a lexer remembers fits together. -/
structure Coherent (lexer : Lexer) : Prop where
  valid : lexer.Valid
  numbered : lexer.feed.Numbered
  /-- After a failure there is no lookahead. -/
  lookahead (error : Error) : lexer.failure = some error → lexer.lookahead = .nothing

theorem coherent_ofSource (source : Source) : (ofSource source).Coherent :=
  ⟨valid_ofSource source, fun _ h => (by cases h), fun _ _ => rfl⟩

theorem coherent_look (h : lexer.Coherent) : lexer.look.2.Coherent := by
  have hnumbered := (feed_reaches_look lexer).keeps Feed.numbered_move h.numbered
  rcases look_cases lexer with ⟨_, _, hlook⟩ | ⟨_, hlook⟩ | ⟨_, _, _, hlook⟩ | ⟨_, _, hlook⟩
  · rw [hlook]; exact h
  · rw [hlook]; exact h
  · rw [hlook]; exact h
  · rw [hlook] at hnumbered ⊢
    rcases scanAhead_cases lexer.feed with ⟨error, _, hscan⟩ | ⟨token, htoken, hnone, hscan⟩ | ⟨_, hnone, hscan⟩
    all_goals rw [hscan] at hnumbered ⊢
    · exact ⟨fun _ htoken => (by cases htoken), hnumbered, fun _ _ => rfl⟩
    · refine ⟨?_, hnumbered, fun error hfailure => (by cases hnone.symm.trans hfailure)⟩
      rintro other ⟨⟩
      exact Token.valid_scan htoken
    · refine ⟨fun _ hother => (by cases hother), hnumbered, fun error hfailure => ?_⟩
      cases hnone.symm.trans hfailure

theorem take_cases (lexer : Lexer) :
    (∃ token rest, lexer.look = (.ok (some token), rest) ∧
        lexer.take = (.ok (some token), { rest with lookahead := .nothing })) ∨
      lexer.take = lexer.look := by
  unfold take
  rcases lexer.look with ⟨failure | (_ | token), rest⟩
  · exact .inr rfl
  · exact .inr rfl
  · exact .inl ⟨token, rest, rfl, rfl⟩

theorem coherent_move (hmove : lexer.Move next) (h : lexer.Coherent) : next.Coherent := by
  have hlooked := coherent_look h
  cases hmove with
  | look => exact hlooked
  | take =>
    rcases take_cases lexer with ⟨token, rest, hlook, htake⟩ | htake
    · rw [hlook] at hlooked
      rw [htake]
      exact ⟨fun _ htoken => (by cases htoken), hlooked.numbered, fun _ _ => rfl⟩
    · rw [htake]
      exact hlooked

theorem coherent_of_reaches {source : Source} (h : (ofSource source).Reaches lexer) : lexer.Coherent :=
  h.keeps coherent_move (coherent_ofSource source)

/-! ## Lexers that have ended -/

/-- Reading has ended this way. -/
def Ended (lexer : Lexer) : Outcome → Prop
  | .failed error => lexer.failure = some error
  | .finished => lexer.lookahead = .finish

theorem Ended.eq (hcoherent : lexer.Coherent) (h : lexer.Ended outcome) (hother : lexer.Ended other) :
    other = outcome := by
  have hclash : ∀ error, lexer.failure = some error → lexer.lookahead ≠ .finish := by
    intro error hfailure
    rw [hcoherent.lookahead error hfailure]
    intro hfinish
    cases hfinish
  cases outcome with
  | failed error =>
    cases other with
    | failed error' => exact congrArg Outcome.failed (Option.some.inj (hother.symm.trans h))
    | finished => exact absurd hother (hclash error h)
  | finished =>
    cases other with
    | failed error => exact absurd h (hclash error hother)
    | finished => rfl

theorem look_of_ended (hcoherent : lexer.Coherent) (h : lexer.Ended outcome) :
    lexer.look = (outcome.settle (.ok none), lexer) := by
  cases outcome with
  | failed error => simp only [look, hcoherent.lookahead error h, show lexer.feed.failure = some error from h]; rfl
  | finished => simp only [look, show lexer.lookahead = .finish from h]; rfl

theorem take_of_ended (hcoherent : lexer.Coherent) (h : lexer.Ended outcome) :
    lexer.take = (outcome.settle (.ok none), lexer) := by
  rw [take, look_of_ended hcoherent h]
  cases outcome <;> rfl

theorem eq_of_ended (hcoherent : lexer.Coherent) (h : lexer.Ended outcome) (hreach : lexer.Reaches next) :
    next = lexer := by
  induction hreach with
  | refl => rfl
  | tail _ hmove ih =>
    subst ih
    cases hmove with
    | look => rw [look_of_ended hcoherent h]
    | take => rw [take_of_ended hcoherent h]

/-- What a call of a lexer that has ended this way answers, so many lines having been read. -/
def Command.settled (outcome : Outcome) (lines : Nat) : Command → Answer
  | .look => .attempt (outcome.settle (.ok none))
  | .look? => .token none
  | .take => .attempt (outcome.settle (.ok none))
  | .take? => .token none
  | .takeAll => .tokens []
  | .hasToken => .flag false
  | .lines => .count lines
  | .failure => .failure outcome.failure?

theorem perform_of_ended (hcoherent : lexer.Coherent) (h : lexer.Ended outcome) (command : Command) :
    (lexer.perform command).1 = command.settled outcome lexer.lines := by
  have hlook := look_of_ended hcoherent h
  have htake := take_of_ended hcoherent h
  have htake? : lexer.take? = (none, lexer) := by
    rw [take?, htake]
    cases outcome <;> rfl
  have hlook? : lexer.look? = (none, lexer) := by
    rw [look?, hlook]
    cases outcome <;> rfl
  cases command with
  | look => rw [perform, hlook]; rfl
  | look? => rw [perform, hlook?]; rfl
  | take => rw [perform, htake]; rfl
  | take? => rw [perform, htake?]; rfl
  | takeAll => rw [perform, takeAll_of_none htake?]; rfl
  | hasToken => rw [perform, hasToken, hlook?]; rfl
  | lines => rfl
  | failure =>
    cases outcome with
    | failed error => exact congrArg Answer.failure h
    | finished =>
      have hfailure : lexer.failure = none := by
        cases hfailure : lexer.failure with
        | none => rfl
        | some error => cases Eq.trans (Eq.symm h) (hcoherent.lookahead error hfailure)
      exact congrArg Answer.failure hfailure

end Lexer

/-! ## Readers that have ended -/

namespace Reader

open Lexer (look_of_ended take_of_ended)

variable {reader : Reader} {outcome : Outcome}

/-- What a call of a reader may answer whose lexer has ended this way, so many lines having been read. The failure is
yielded once at most. -/
inductive Settled (outcome : Outcome) (lines : Nat) : Command → Answer → Prop
  | read : Settled outcome lines .read (.datum (outcome.settle (.error (.unexpectedEnd Awaiting.start.context))))
  | read? : Settled outcome lines .read? (.optional (outcome.settle (.ok none)))
  | readAll : Settled outcome lines .readAll (.data (outcome.settle (.ok [])))
  | yieldNone : Settled outcome lines .yield (.yielded none)
  | yieldFailure {error : Error} : outcome = .failed error →
    Settled outcome lines .yield (.yielded (some (.error error)))
  | yieldAllNone : Settled outcome lines .yieldAll (.allYielded [])
  | yieldAllFailure {error : Error} : outcome = .failed error →
    Settled outcome lines .yieldAll (.allYielded [.error error])
  | checkEnd : Settled outcome lines .checkEnd (.checked (outcome.settle (.ok ())))
  | limit (limit : Nat) : Settled outcome lines .limit (.limit limit)
  | renew (limit : Nat) : Settled outcome lines (.renew limit) .renewed
  | lexer (command : Lexer.Command) : Settled outcome lines (.lexer command) (.lexer (command.settled outcome lines))

theorem complete_of_ended (limit : Nat) {lexer : Lexer} (hcoherent : lexer.Coherent) (h : lexer.Ended outcome) :
    complete limit .start lexer = (outcome.settle (.error (.unexpectedEnd Awaiting.start.context)), lexer) := by
  rw [complete_eq, take_of_ended hcoherent h]
  cases outcome <;> rfl

theorem read?_of_ended (hcoherent : reader.lexer.Coherent) (h : reader.lexer.Ended outcome) :
    reader.read? = (outcome.settle (.ok none), reader) := by
  rw [read?, look_of_ended hcoherent h]
  cases outcome <;> rfl

theorem checkEnd_of_ended (hcoherent : reader.lexer.Coherent) (h : reader.lexer.Ended outcome) :
    reader.checkEnd = (outcome.settle (.ok ()), reader) := by
  rw [checkEnd, look_of_ended hcoherent h]
  cases outcome <;> rfl

theorem settled_yield (hcoherent : reader.lexer.Coherent) (h : reader.lexer.Ended outcome) (lines : Nat) :
    Settled outcome lines .yield (.yielded reader.yield.1) := by
  rw [yield, read?_of_ended hcoherent h]
  split
  · exact .yieldNone
  · cases outcome with
    | failed error => exact .yieldFailure rfl
    | finished => exact .yieldNone

theorem settled_yieldAll (hcoherent : reader.lexer.Coherent) (h : reader.lexer.Ended outcome) (lines : Nat) :
    Settled outcome lines .yieldAll (.allYielded reader.yieldAll.1) := by
  rw [yieldAll, drain_eq, yield, read?_of_ended hcoherent h]
  by_cases hstopped : reader.stopped
  · rw [if_pos hstopped]
    exact .yieldAllNone
  · rw [if_neg hstopped]
    cases outcome with
    | failed error => exact .yieldAllFailure rfl
    | finished => exact .yieldAllNone

theorem settled_perform (hcoherent : reader.lexer.Coherent) (h : reader.lexer.Ended outcome) (command : Command) :
    Settled outcome reader.lexer.lines command (reader.perform command).1 := by
  cases command with
  | read =>
    rw [perform, read, complete_of_ended reader.limit hcoherent h]
    exact .read
  | read? =>
    rw [perform, read?_of_ended hcoherent h]
    exact .read?
  | readAll =>
    rw [perform, readAll, readRest_eq, read?_of_ended hcoherent h]
    cases outcome <;> exact .readAll
  | yield => exact settled_yield hcoherent h _
  | yieldAll => exact settled_yieldAll hcoherent h _
  | checkEnd =>
    rw [perform, checkEnd_of_ended hcoherent h]
    exact .checkEnd
  | limit => exact .limit reader.limit
  | renew limit => exact .renew limit
  | lexer command =>
    show Settled outcome _ (.lexer command) (.lexer (reader.lexer.perform command).1)
    rw [Lexer.perform_of_ended hcoherent h]
    exact .lexer command

theorem settled_run (hcoherent : reader.lexer.Coherent) (h : reader.lexer.Ended outcome)
    (commands : List Command) :
    (reader.run commands).2.lexer = reader.lexer ∧
      List.Forall₂ (Settled outcome reader.lexer.lines) commands (reader.run commands).1 := by
  refine ⟨Lexer.eq_of_ended hcoherent h (reaches_run reader commands), ?_⟩
  induction commands generalizing reader with
  | nil => exact .nil
  | cons command commands ih =>
    have hsame := Lexer.eq_of_ended hcoherent h (reaches_perform reader command)
    have hrest := @ih (reader.perform command).2 (hsame ▸ hcoherent) (hsame ▸ h)
    rw [hsame] at hrest
    rw [run_cons]
    exact .cons (settled_perform hcoherent h command) hrest

end Reader

/-! ## Answers that tell of the end -/

/-- The answer says that reading has ended this way, if the answers at the clean end are these. -/
def Outcome.ToldBy {α : Type} (outcome : Outcome) (atEnd : α → Prop) : Except Error α → Prop
  | .ok answer => outcome = .finished ∧ atEnd answer
  | .error error => error.outcome? = some outcome

theorem Error.BlamesToken.outcome?_eq_none {error : Error} {position : Position}
    (h : error.BlamesToken position) : error.outcome? = none := by
  rcases h with ⟨_, _, rfl⟩ | ⟨_, rfl⟩ <;> rfl

theorem Awaiting.outcome?_of_step_failed {limit : Nat} {state : Awaiting} {token : Token} {error : Error}
    (hvalid : token.Valid) (h : state.step limit token = .failed error) : error.outcome? = none := by
  have hroom : state.depth < state.depth + 1 := Nat.lt_succ_self _
  rcases step_of_room limit token hroom with hsame | ⟨_, hfull, _⟩
  · rw [hsame] at h
    exact (step_failed hroom hvalid.kind_ne_endOfInput h).outcome?_eq_none
  · rw [hfull] at h
    cases h
    rfl

namespace Lexer

variable {lexer rest : Lexer} {outcome : Outcome}

theorem ended_of_look_none (h : lexer.look = (.ok none, rest)) : rest.Ended .finished := by
  rcases look_cases lexer with ⟨_, _, hlook⟩ | ⟨hfinish, hlook⟩ | ⟨_, _, _, hlook⟩ | ⟨_, _, hlook⟩
  all_goals rw [hlook] at h
  · cases h
  · cases h; exact hfinish
  · cases h
  · rcases scanAhead_cases lexer.feed with ⟨_, _, hscan⟩ | ⟨_, _, _, hscan⟩ | ⟨_, _, hscan⟩
    all_goals
      rw [hscan] at h
      cases h
    rfl

theorem ended_of_look_error {error : Error} (h : lexer.look = (.error error, rest)) : rest.Ended (.failed error) := by
  rcases look_cases lexer with ⟨_, _, hlook⟩ | ⟨_, hlook⟩ | ⟨_, _, hfailure, hlook⟩ | ⟨_, _, hlook⟩
  all_goals rw [hlook] at h
  · cases h
  · cases h
  · cases h; exact hfailure
  · rcases scanAhead_cases lexer.feed with ⟨_, hfailure, hscan⟩ | ⟨_, _, _, hscan⟩ | ⟨_, _, hscan⟩
    all_goals
      rw [hscan] at h
      cases h
    exact hfailure

theorem ended_of_look (hcoherent : lexer.Coherent) (h : outcome.ToldBy (· = none) lexer.look.1) :
    lexer.look.2.Ended outcome := by
  have hrest := coherent_look hcoherent
  rcases hlook : lexer.look with ⟨error | token?, rest⟩
  all_goals
    rw [hlook] at h hrest
  · have hended := ended_of_look_error hlook
    obtain ⟨failure, hunreadable⟩ := hrest.numbered error hended
    have houtcome : error.outcome? = some (.failed error) := by rw [hunreadable]; rfl
    cases houtcome.symm.trans h
    exact hended
  · obtain ⟨rfl, rfl⟩ := h
    exact ended_of_look_none hlook

theorem ended_of_take (hcoherent : lexer.Coherent) (h : outcome.ToldBy (· = none) lexer.take.1) :
    lexer.take.2.Ended outcome := by
  rcases take_cases lexer with ⟨token, rest, _, htake⟩ | htake
  · rw [htake] at h
    cases h.2
  · rw [htake] at h ⊢
    exact ended_of_look hcoherent h

theorem exists_ended_of_look? (h : lexer.look?.1 = none) : ∃ outcome, lexer.look.2.Ended outcome := by
  unfold look? at h
  rcases hlook : lexer.look with ⟨error | (_ | token), rest⟩ <;> rw [hlook] at h
  · exact ⟨.failed error, ended_of_look_error hlook⟩
  · exact ⟨.finished, ended_of_look_none hlook⟩
  · cases h

theorem exists_ended_of_take? (h : lexer.take?.1 = none) : ∃ outcome, lexer.take.2.Ended outcome := by
  rcases take_cases lexer with ⟨token, rest, _, htake⟩ | htake
  · rw [take?, htake] at h
    cases h
  · rw [take?, htake] at h
    rw [htake]
    exact exists_ended_of_look? h

theorem exists_ended_takeAll (lexer : Lexer) : ∃ outcome, lexer.takeAll.2.Ended outcome := by
  induction hsize : lexer.size using Nat.strongRecOn generalizing lexer with
  | _ size ih =>
    subst hsize
    rcases htake : lexer.take? with ⟨_ | token, rest⟩
    · rw [takeAll_of_none htake]
      have hended := exists_ended_of_take? (congrArg Prod.fst htake)
      rwa [← snd_take?, htake] at hended
    · rw [takeAll_of_token htake]
      exact ih _ (size_take?_lt htake) rest rfl

end Lexer

namespace Reader

variable {reader : Reader} {outcome : Outcome}

/-- The answer says that reading has ended this way. -/
def Answer.Tells (outcome : Outcome) : Answer → Prop
  | .datum answer => outcome.ToldBy (fun _ => False) answer
  | .optional answer => outcome.ToldBy (· = none) answer
  | .data answer => outcome.ToldBy (fun _ => True) answer
  | .yielded (some answer) => outcome.ToldBy (fun _ => False) answer
  | .allYielded answers => ∃ answer ∈ answers, outcome.ToldBy (fun _ => False) answer
  | .checked answer => outcome.ToldBy (fun _ => True) answer
  | .lexer (.attempt answer) => outcome.ToldBy (· = none) answer
  | .lexer (.failure (some error)) => outcome = .failed error
  | _ => False

/-- The answer says that there is no further token, but not why. -/
def Answer.TellsNoToken : Answer → Prop
  | .lexer (.token token?) => token? = none
  | .lexer (.flag answer) => answer = false
  | .lexer (.tokens _) => True
  | _ => False

theorem ended_of_complete (limit : Nat) (state : Awaiting) {lexer : Lexer} (hcoherent : lexer.Coherent)
    (h : outcome.ToldBy (fun _ => False) (complete limit state lexer).1) :
    (complete limit state lexer).2.Ended outcome := by
  induction hsize : lexer.size using Nat.strongRecOn generalizing state lexer with
  | _ size ih =>
    subst hsize
    have hended := @Lexer.ended_of_take lexer outcome hcoherent
    rw [complete_eq] at h ⊢
    rcases htake : lexer.take with ⟨failure | (_ | token), rest⟩ <;> rw [htake] at h hended
    · exact hended h
    · cases h
      exact hended ⟨rfl, rfl⟩
    · have hrest : rest.Coherent := by
        have := Lexer.coherent_move .take hcoherent
        rwa [htake] at this
      simp only [afterToken] at h ⊢
      cases hstep : state.step limit token with
      | more next =>
        simp only [hstep] at h ⊢
        exact ih _ (Lexer.size_take_lt htake) next hrest h rfl
      | done datum =>
        simp only [hstep] at h
        exact h.2.elim
      | failed error =>
        simp only [hstep] at h
        have hnone := Awaiting.outcome?_of_step_failed (Lexer.valid_take hcoherent.valid htake).1 hstep
        cases hnone.symm.trans h

theorem ended_of_read? (hcoherent : reader.lexer.Coherent) (h : outcome.ToldBy (· = none) reader.read?.1) :
    reader.read?.2.lexer.Ended outcome := by
  have hended := @Lexer.ended_of_look reader.lexer outcome hcoherent
  have hrest := Lexer.coherent_look hcoherent
  unfold read? at h ⊢
  rcases hlook : reader.lexer.look with ⟨failure | (_ | token), rest⟩
  all_goals
    rw [hlook] at h hended hrest
  · exact hended h
  · exact hended ⟨h.1, rfl⟩
  · refine ended_of_complete reader.limit .start hrest ?_
    have htold : outcome.ToldBy (· = none) ((complete reader.limit .start rest).1.map some) := h
    cases hanswer : (complete reader.limit .start rest).1 with
    | error error =>
      rw [hanswer] at htold
      exact htold
    | ok datum =>
      rw [hanswer] at htold
      cases htold.2

theorem ended_of_checkEnd (hcoherent : reader.lexer.Coherent)
    (h : outcome.ToldBy (fun _ => True) reader.checkEnd.1) : reader.checkEnd.2.lexer.Ended outcome := by
  have hended := @Lexer.ended_of_look reader.lexer outcome hcoherent
  unfold checkEnd at h ⊢
  rcases hlook : reader.lexer.look with ⟨failure | (_ | token), rest⟩
  all_goals
    rw [hlook] at h hended
  · exact hended h
  · exact hended ⟨h.1, rfl⟩
  · cases h

theorem ended_of_yield (hcoherent : reader.lexer.Coherent) {error : Error}
    (hyield : reader.yield.1 = some (.error error)) (h : error.outcome? = some outcome) :
    reader.yield.2.lexer.Ended outcome := by
  have hended := @ended_of_read? reader outcome hcoherent
  unfold yield at hyield ⊢
  split at hyield
  · cases hyield
  · rename_i hstopped
    rw [if_neg hstopped]
    rcases hread : reader.read? with ⟨failure | (_ | datum), rest⟩
    all_goals
      rw [hread] at hyield hended
      cases hyield
    exact hended h

theorem ended_of_readRest (data : List Datum) (hcoherent : reader.lexer.Coherent)
    (h : outcome.ToldBy (fun _ => True) (readRest data reader).1) :
    (readRest data reader).2.lexer.Ended outcome := by
  induction hsize : reader.size using Nat.strongRecOn generalizing data reader with
  | _ size ih =>
    subst hsize
    have hended := @ended_of_read? reader outcome hcoherent
    have hrest := (reaches_read? reader).keeps Lexer.coherent_move hcoherent
    rw [readRest_eq] at h ⊢
    rcases hread : reader.read? with ⟨failure | (_ | datum), rest⟩
    all_goals
      rw [hread] at h hended hrest
    · exact hended h
    · exact hended ⟨h.1, rfl⟩
    · exact ih _ (size_read? hread) (datum :: data) hrest h rfl

/-- All that is yielded ends with one last call of `yield`, and nothing but data come before its answer. -/
theorem exists_last_yield (answers : List (Except Error Datum)) (reader : Reader) :
    ∃ (last : Reader) (data : List Datum), reader.lexer.Reaches last.lexer ∧ last.stopped = reader.stopped ∧
      (drain answers reader).2 = last.yield.2 ∧
      (last.yield.1 = none ∧ (drain answers reader).1 = answers.reverse ++ data.map .ok ∨
        ∃ error, last.yield.1 = some (.error error) ∧
          (drain answers reader).1 = answers.reverse ++ data.map .ok ++ [.error error]) := by
  induction hsize : reader.size using Nat.strongRecOn generalizing answers reader with
  | _ size ih =>
    subst hsize
    have hreaches := reaches_yield reader
    rw [drain_eq]
    rcases hyield : reader.yield with ⟨_ | (error | datum), rest⟩
    · refine ⟨reader, [], .refl _, rfl, (congrArg Prod.snd hyield).symm, .inl ⟨congrArg Prod.fst hyield, ?_⟩⟩
      exact (List.append_nil _).symm
    · refine ⟨reader, [], .refl _, rfl, (congrArg Prod.snd hyield).symm, .inr ⟨error, ?_, ?_⟩⟩
      · exact congrArg Prod.fst hyield
      · rw [List.map_nil, List.append_nil]
        exact List.reverse_cons
    · rw [hyield] at hreaches
      obtain ⟨last, data, hlast, hstopped, hleft, hanswers⟩ :=
        ih _ (size_yield hyield) (.ok datum :: answers) rest rfl
      rw [List.reverse_cons, List.append_assoc, List.singleton_append, ← List.map_cons] at hanswers
      have hgoing := hstopped.trans (stopped_of_yield_ok hyield)
      exact ⟨last, datum :: data, hreaches.trans hlast, hgoing, hleft, hanswers⟩

theorem ended_of_yieldAll (hcoherent : reader.lexer.Coherent) {error : Error}
    (hmem : .error error ∈ reader.yieldAll.1) (h : error.outcome? = some outcome) :
    reader.yieldAll.2.lexer.Ended outcome := by
  obtain ⟨last, data, hreaches, _, hleft, ⟨_, hanswers⟩ | ⟨failure, hyield, hanswers⟩⟩ :=
    exists_last_yield [] reader
  all_goals rw [yieldAll, hanswers, List.reverse_nil, List.nil_append] at hmem
  · obtain ⟨_, _, hdatum⟩ := List.mem_map.1 hmem
    cases hdatum
  · rw [yieldAll, hleft]
    refine ended_of_yield (hreaches.keeps Lexer.coherent_move hcoherent) ?_ h
    rcases List.mem_append.1 hmem with hmem | hmem
    · obtain ⟨_, _, hdatum⟩ := List.mem_map.1 hmem
      cases hdatum
    · cases List.mem_singleton.1 hmem
      exact hyield

theorem ended_of_tells (hcoherent : reader.lexer.Coherent) (command : Command)
    (h : (reader.perform command).1.Tells outcome) : (reader.perform command).2.lexer.Ended outcome := by
  cases command with
  | read => exact ended_of_complete reader.limit .start hcoherent h
  | read? => exact ended_of_read? hcoherent h
  | readAll => exact ended_of_readRest [] hcoherent h
  | yield =>
    have htold : (Answer.yielded reader.yield.1).Tells outcome := h
    rcases hyield : reader.yield.1 with _ | (error | datum)
    all_goals rw [hyield] at htold
    · exact htold.elim
    · exact ended_of_yield hcoherent hyield htold
    · exact htold.2.elim
  | yieldAll =>
    obtain ⟨error | datum, hmem, htold⟩ := h
    · exact ended_of_yieldAll hcoherent hmem htold
    · exact htold.2.elim
  | checkEnd => exact ended_of_checkEnd hcoherent h
  | limit => exact h.elim
  | renew limit => exact h.elim
  | lexer command =>
    cases command with
    | look => exact Lexer.ended_of_look hcoherent h
    | take => exact Lexer.ended_of_take hcoherent h
    | failure =>
      have htold : (Answer.lexer (.failure reader.lexer.failure)).Tells outcome := h
      cases hfailure : reader.lexer.failure with
      | none => rw [hfailure] at htold; exact htold.elim
      | some error =>
        rw [hfailure] at htold
        cases htold
        exact hfailure
    | _ => exact h.elim

theorem exists_ended_of_tellsNoToken (command : Command) (h : (reader.perform command).1.TellsNoToken) :
    ∃ outcome, (reader.perform command).2.lexer.Ended outcome := by
  cases command with
  | lexer command =>
    cases command with
    | look? => exact Lexer.exists_ended_of_look? h
    | take? => exact Lexer.exists_ended_of_take? h
    | hasToken =>
      have hnone : reader.lexer.look?.1.isSome = false := h
      exact Lexer.exists_ended_of_look? (Option.not_isSome_iff_eq_none.1 (Bool.eq_false_iff.1 hnone))
    | takeAll => exact Lexer.exists_ended_takeAll reader.lexer
    | _ => exact h.elim
  | _ => exact h.elim

/-! ### Iterators that have not stopped -/

/-- The answer says that the data are over. An iterator that has stopped says so as well. -/
def Answer.YieldsNoMore : Answer → Prop
  | .yielded answer? => answer? = none
  | .allYielded answers => ∀ answer ∈ answers, ∃ datum, answer = .ok datum
  | _ => False

theorem ended_of_yield_none (hcoherent : reader.lexer.Coherent) (hgoing : reader.stopped = false)
    (hyield : reader.yield.1 = none) : reader.yield.2.lexer.Ended .finished := by
  have hended := @ended_of_read? reader .finished hcoherent
  rw [yield, hgoing] at hyield ⊢
  rcases hread : reader.read? with ⟨failure | (_ | datum), rest⟩
  all_goals
    rw [hread] at hyield hended
    cases hyield
  exact hended ⟨rfl, rfl⟩

theorem ended_of_yieldAll_ok (hcoherent : reader.lexer.Coherent) (hgoing : reader.stopped = false)
    (hdata : ∀ answer ∈ reader.yieldAll.1, ∃ datum, answer = .ok datum) :
    reader.yieldAll.2.lexer.Ended .finished := by
  obtain ⟨last, data, hreaches, hstopped, hleft, ⟨hyield, _⟩ | ⟨failure, _, hanswers⟩⟩ :=
    exists_last_yield [] reader
  · rw [yieldAll, hleft]
    exact ended_of_yield_none (hreaches.keeps Lexer.coherent_move hcoherent) (hstopped.trans hgoing) hyield
  · have hmem : .error failure ∈ reader.yieldAll.1 := by
      rw [yieldAll, hanswers]
      exact List.mem_append_right _ (List.mem_singleton_self _)
    obtain ⟨datum, hfailure⟩ := hdata _ hmem
    cases hfailure

theorem ended_of_yieldsNoMore (hcoherent : reader.lexer.Coherent) (hgoing : reader.stopped = false)
    (command : Command) (h : (reader.perform command).1.YieldsNoMore) :
    (reader.perform command).2.lexer.Ended .finished := by
  cases command with
  | yield => exact ended_of_yield_none hcoherent hgoing h
  | yieldAll => exact ended_of_yieldAll_ok hcoherent hgoing h
  | _ => exact h.elim

/-! ## Runs -/

/-- Whatever has been called, an answer that tells how reading has ended is right, and an answer that there is no
further token means that reading has ended. A reader that has not stopped and yields no more has met the clean end.
Once reading has ended, it cannot have ended otherwise, a failure has the number of the line after those that were read,
the lexer with its source stays as it is, and every later call has its settled answer. -/
theorem ended_for_good (source : Source) (limit : Nat) (earlier : List Command) {answers : List Answer}
    {reader : Reader} (h : (ofLexer (Lexer.ofSource source) limit).run earlier = (answers, reader)) :
    (∀ answer ∈ answers, ∀ outcome, answer.Tells outcome → reader.lexer.Ended outcome) ∧
      (∀ answer ∈ answers, answer.TellsNoToken → ∃ outcome, reader.lexer.Ended outcome) ∧
      (∀ before command after, earlier = before ++ command :: after →
        let middle := ((ofLexer (Lexer.ofSource source) limit).run before).2
        middle.stopped = false → (middle.perform command).1.YieldsNoMore → reader.lexer.Ended .finished) ∧
      ∀ outcome, reader.lexer.Ended outcome →
        (∀ other, reader.lexer.Ended other → other = outcome) ∧
        (∀ error, outcome = .failed error → ∃ failure, error = .unreadable (reader.lexer.lines + 1) failure) ∧
        ∀ later, (reader.run later).2.lexer = reader.lexer ∧
          List.Forall₂ (Settled outcome reader.lexer.lines) later (reader.run later).1 := by
  have hreaches := reaches_run (ofLexer (Lexer.ofSource source) limit) earlier
  have hmem := @exists_perform_of_mem_run (ofLexer (Lexer.ofSource source) limit) earlier
  rw [h] at hreaches hmem
  have hcoherent := Lexer.coherent_of_reaches hreaches
  -- what a call finds is still so when the run is over
  have hlast : ∀ {middle : Reader} {command : Command} {outcome : Outcome},
      (ofLexer (Lexer.ofSource source) limit).lexer.Reaches middle.lexer →
      (middle.perform command).2.lexer.Reaches reader.lexer →
      (middle.perform command).2.lexer.Ended outcome → reader.lexer.Ended outcome := by
    intro middle command outcome hbefore hafter hended
    have hthere := Lexer.coherent_of_reaches (hbefore.trans (reaches_perform middle command))
    rw [Lexer.eq_of_ended hthere hended hafter]
    exact hended
  refine ⟨?_, ?_, ?_, ?_⟩
  · intro answer hanswer outcome htells
    obtain ⟨middle, command, hbefore, rfl, hafter⟩ := hmem hanswer
    exact hlast hbefore hafter (ended_of_tells (Lexer.coherent_of_reaches hbefore) command htells)
  · intro answer hanswer htells
    obtain ⟨middle, command, hbefore, rfl, hafter⟩ := hmem hanswer
    obtain ⟨outcome, hended⟩ := exists_ended_of_tellsNoToken command htells
    exact ⟨outcome, hlast hbefore hafter hended⟩
  · rintro before command after rfl middle hgoing hnoMore
    have hbefore := reaches_run (ofLexer (Lexer.ofSource source) limit) before
    have hthere := Lexer.coherent_of_reaches hbefore
    rw [run_append, run_cons] at h
    have hreader : ((middle.perform command).2.run after).2 = reader := congrArg Prod.snd h
    have hafter : (middle.perform command).2.lexer.Reaches reader.lexer := by
      rw [← hreader]
      exact reaches_run (middle.perform command).2 after
    exact hlast hbefore hafter (ended_of_yieldsNoMore hthere hgoing command hnoMore)
  · intro outcome hended
    refine ⟨fun other hother => hended.eq hcoherent hother, ?_, settled_run hcoherent hended⟩
    rintro error rfl
    exact hcoherent.numbered error hended

/-- A read that failed within a list is not made up for by what the source would still have delivered. -/
theorem ended_for_good_of_failure_within_list :
    let source := Source.ofDeliveries [.bytes [40, 97, 10], .failure "gone", .bytes [41, 10]]
    let answered := (ofLexer (Lexer.ofSource source) 8).run [.read]
    let error := Error.unreadable 2 (.reported "gone")
    answered.1 = [.datum (.error error)] ∧ answered.2.lexer.Ended (.failed error) ∧
      ∀ later, (answered.2.run later).2.lexer = answered.2.lexer ∧
        List.Forall₂ (Settled (.failed error) 1) later (answered.2.run later).1 := by
  intro source answered error
  have hread : (ofLexer (Lexer.ofSource source) 8).read.1 = .error error := by decide +kernel
  have hanswers : answered.1 = [.datum (.error error)] := by rw [← hread]; rfl
  have hlines : answered.2.lexer.lines = 1 := by decide +kernel
  obtain ⟨htells, _, _, hended⟩ :=
    @ended_for_good source 8 [.read] [.datum (.error error)] answered.2 (Prod.ext hanswers rfl)
  have hfailed := htells _ (List.mem_singleton_self _) (.failed error) rfl
  refine ⟨hanswers, hfailed, ?_⟩
  rw [← hlines]
  exact (hended _ hfailed).2.2

end Reader

end Sexp
