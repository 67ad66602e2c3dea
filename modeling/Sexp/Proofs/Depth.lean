import Sexp.Proofs.Remaining

/-!
# The limit only cuts off

A token either opens a form or does the same whatever the limit is (`Awaiting.step_cases`). So a reader with a
limit takes the same steps as one with room for all tokens until that one has more forms open than the limit
allows, and there it stops (`Reader.read_limit`). The forms that are open in the run with room are those of
`Awaiting.after?`, which says what state the first tokens lead to.
-/

namespace Sexp

namespace Awaiting

/-! ## One step -/

/-- The state is inside of a form, and no more than so many are open. -/
def Inside (most : Nat) (state : Awaiting) : Prop := 0 < state.depth ∧ state.depth ≤ most

theorem Inside.mono {most more : Nat} {state : Awaiting} (h : state.Inside most) (hle : most ≤ more) :
    state.Inside more :=
  ⟨h.1, Nat.le_trans h.2 hle⟩

theorem inside_deliver {whole : Datum} {frames : List Frame} {next : Awaiting}
    (h : deliver whole frames = .more next) : next.Inside frames.length := by
  induction frames generalizing whole with
  | nil => cases h
  | cons frame frames ih =>
    cases frame with
    | items items =>
      cases h
      exact ⟨Nat.succ_pos _, Nat.le_refl _⟩
    | tail items =>
      cases h
      exact ⟨Nat.succ_pos _, Nat.le_refl _⟩
    | operand name => exact (ih h).mono (Nat.le_succ _)

theorem begin_cases (token : Token) (frames : List Frame) :
    (∃ frame, ∀ limit, begin limit token frames = enter limit frame frames) ∨
      ∃ outcome, (∀ limit, begin limit token frames = outcome) ∧
        ∀ next, outcome = .more next → next.Inside frames.length := by
  obtain ⟨kind, text, position⟩ := token
  cases kind with
  | openParen => exact .inl ⟨.items [], fun _ => rfl⟩
  | quote => exact .inl ⟨.operand "QUOTE", fun _ => rfl⟩
  | quasiquote => exact .inl ⟨.operand "QUASIQUOTE", fun _ => rfl⟩
  | unquote => exact .inl ⟨.operand "UNQUOTE", fun _ => rfl⟩
  | string => exact .inr ⟨_, fun _ => rfl, fun _ => inside_deliver⟩
  | word => exact .inr ⟨_, fun _ => rfl, fun _ => inside_deliver⟩
  | closeParen => exact .inr ⟨_, fun _ => rfl, nofun⟩
  | endOfInput => exact .inr ⟨_, fun _ => rfl, nofun⟩

theorem step_cases (token : Token) (state : Awaiting) :
    (∃ frame frames, frames.length = state.depth ∧
      ∀ limit, state.step limit token = enter limit frame frames) ∨
      ∃ outcome, (∀ limit, state.step limit token = outcome) ∧
        ∀ next, outcome = .more next → next.Inside state.depth := by
  -- the cases where the token starts a datum
  have hbegin : ∀ frames, (∀ limit, (datum frames).step limit token = begin limit token frames) →
      (∃ frame frames', frames'.length = frames.length ∧
        ∀ limit, (datum frames).step limit token = enter limit frame frames') ∨
      ∃ outcome, (∀ limit, (datum frames).step limit token = outcome) ∧
        ∀ next, outcome = .more next → next.Inside frames.length := by
    intro frames hstep
    rcases begin_cases token frames with ⟨frame, henter⟩ | ⟨outcome, hsame, hdepth⟩
    · exact .inl ⟨frame, frames, rfl, fun limit => (hstep limit).trans (henter limit)⟩
    · exact .inr ⟨outcome, fun limit => (hstep limit).trans (hsame limit), hdepth⟩
  cases state with
  | close items tail frames =>
    right
    by_cases hclose : token.kind = .closeParen
    · exact ⟨_, fun _ => if_pos hclose, fun _ h => (inside_deliver h).mono (Nat.le_succ _)⟩
    · exact ⟨_, fun _ => if_neg hclose, nofun⟩
  | datum frames =>
    rcases frames with _ | ⟨items | items | name, frames⟩
    · exact hbegin _ fun _ => rfl
    · by_cases hclose : token.kind = .closeParen
      · exact .inr ⟨_, fun _ => if_pos hclose, fun _ h => (inside_deliver h).mono (Nat.le_succ _)⟩
      · by_cases hisDot : token.isDot
        · refine .inr ⟨.more (datum (.tail items :: frames)), fun _ => ?_, ?_⟩
          · rw [step, if_neg hclose, if_pos hisDot]
          · rintro next ⟨⟩
            exact ⟨Nat.succ_pos _, Nat.le_refl _⟩
        · refine hbegin _ fun _ => ?_
          rw [step, if_neg hclose, if_neg hisDot]
    · exact hbegin _ fun _ => rfl
    · exact hbegin _ fun _ => rfl

variable {limit room : Nat} {token : Token} {state next : Awaiting}

theorem depth_step_le (hstate : state.depth ≤ limit) (h : state.step limit token = .more next) :
    next.depth ≤ limit := by
  rcases step_cases token state with ⟨frame, frames, hframes, henter⟩ | ⟨outcome, hsame, hinside⟩
  · rw [henter, enter] at h
    split at h
    · cases h
      show frames.length + 1 ≤ limit
      omega
    · cases h
  · exact Nat.le_trans (hinside next ((hsame limit).symm.trans h)).2 hstate

theorem inside_step (h : state.step limit token = .more next) : next.Inside (state.depth + 1) := by
  rcases step_cases token state with ⟨frame, frames, hframes, henter⟩ | ⟨outcome, hsame, hinside⟩
  · rw [henter, enter] at h
    split at h
    · cases h
      show 0 < frames.length + 1 ∧ frames.length + 1 ≤ state.depth + 1
      omega
    · cases h
  · exact (hinside next ((hsame limit).symm.trans h)).mono (Nat.le_succ _)

/-- Next to a reader that has room for one more form, one with a limit takes the same step, or it has no room and
the step opens one more form. -/
theorem step_of_room (limit : Nat) (token : Token) (hroom : state.depth < room) :
    state.step limit token = state.step room token ∨
      limit ≤ state.depth ∧ state.step limit token = .failed (.tooDeep limit) ∧
        ∃ next, state.step room token = .more next ∧ next.depth = state.depth + 1 := by
  rcases step_cases token state with ⟨frame, frames, hframes, henter⟩ | ⟨outcome, hsame, _⟩
  · have hopened : state.step room token = .more (datum (frame :: frames)) := by
      rw [henter, enter, if_pos (by omega)]
    by_cases hlimit : frames.length < limit
    · left
      rw [hopened, henter, enter, if_pos hlimit]
    · right
      refine ⟨by omega, ?_, _, hopened, ?_⟩
      · rw [henter, enter, if_neg hlimit]
      · show frames.length + 1 = state.depth + 1
        omega
  · left
    rw [hsame, hsame]

/-! ## The first tokens -/

/-- The state that the tokens lead to, if the datum is not complete before that. -/
def after? (limit : Nat) (state : Awaiting) : List Token → Option Awaiting
  | [] => some state
  | token :: tokens =>
    match state.step limit token with
    | .more next => next.after? limit tokens
    | _ => none

/-- With room for `room` forms, never more than `limit` are open at once. -/
def Within (limit room : Nat) (state : Awaiting) (tokens : List Token) : Prop :=
  ∀ before next, before <+: tokens → state.after? room before = some next → next.depth ≤ limit

/-- With room for `room` forms, the token behind these is the first one with which more than `limit` are open. -/
def Exceeds (limit room : Nat) (state : Awaiting) (before : List Token) (opener : Token) : Prop :=
  Within limit room state before ∧
    ∃ next, state.after? room (before ++ [opener]) = some next ∧ next.depth = limit + 1

variable {before left tokens : List Token} {opener : Token}

theorem after?_cons_eq_some {last : Awaiting} :
    state.after? room (token :: tokens) = some last ↔
      ∃ next, state.step room token = .more next ∧ next.after? room tokens = some last := by
  rw [after?]
  cases state.step room token <;> simp

theorem within_nil (hstate : state.depth ≤ limit) : Within limit room state [] := by
  intro before last hbefore hlast
  rw [List.prefix_nil] at hbefore
  subst hbefore
  cases hlast
  exact hstate

theorem Within.head (h : Within limit room state tokens) : state.depth ≤ limit :=
  h [] state List.nil_prefix rfl

theorem Within.tail (h : Within limit room state (token :: tokens)) (hstep : state.step room token = .more next) :
    Within limit room next tokens := by
  intro before last hbefore hlast
  exact h (token :: before) last (List.cons_prefix_cons.2 ⟨rfl, hbefore⟩)
    (after?_cons_eq_some.2 ⟨next, hstep, hlast⟩)

theorem Within.cons (hstate : state.depth ≤ limit)
    (h : ∀ next, state.step room token = .more next → Within limit room next tokens) :
    Within limit room state (token :: tokens) := by
  intro before last hbefore hlast
  cases before with
  | nil =>
    cases hlast
    exact hstate
  | cons first before =>
    obtain ⟨rfl, hrest⟩ := List.cons_prefix_cons.1 hbefore
    obtain ⟨next, hstep, hlast⟩ := after?_cons_eq_some.1 hlast
    exact h next hstep before last hrest hlast

theorem Within.cons_of_step (h : Within limit room next tokens) (hstate : state.depth ≤ limit)
    (hstep : state.step room token = .more next) : Within limit room state (token :: tokens) := by
  refine .cons hstate fun next' hstep' => ?_
  rw [hstep] at hstep'
  cases hstep'
  exact h

theorem Within.mono {larger : Nat} (h : Within limit room state tokens) (hle : limit ≤ larger) :
    Within larger room state tokens :=
  fun before next hbefore hnext => Nat.le_trans (h before next hbefore hnext) hle

theorem within_or_exceeds (limit room : Nat) (state : Awaiting) (tokens : List Token)
    (hstate : state.depth ≤ limit) :
    Within limit room state tokens ∨
      ∃ before opener left, tokens = before ++ opener :: left ∧ Exceeds limit room state before opener := by
  induction tokens generalizing state with
  | nil => exact .inl (within_nil hstate)
  | cons token tokens ih =>
    cases hstep : state.step room token with
    | more next =>
      by_cases hkept : next.depth ≤ limit
      · rcases ih next hkept with hwithin | ⟨before, opener, left, htokens, hbefore, last, hlast, hdeep⟩
        · exact .inl (hwithin.cons_of_step hstate hstep)
        · refine .inr ⟨token :: before, opener, left, by rw [htokens, List.cons_append], ?_, last, ?_, hdeep⟩
          · exact hbefore.cons_of_step hstate hstep
          · exact after?_cons_eq_some.2 ⟨next, hstep, hlast⟩
      · have hdepth := (inside_step hstep).2
        refine .inr ⟨[], token, tokens, rfl, within_nil hstate, next, ?_, by omega⟩
        exact after?_cons_eq_some.2 ⟨next, hstep, rfl⟩
    | done whole => exact .inl (.cons hstate fun next hnext => by rw [hstep] at hnext; cases hnext)
    | failed error => exact .inl (.cons hstate fun next hnext => by rw [hstep] at hnext; cases hnext)

end Awaiting

/-! ## Runs -/

namespace Lexer

theorem take_of_takeAll {lexer : Lexer} {token : Token} {tokens : List Token}
    (h : lexer.takeAll.1 = token :: tokens) :
    ∃ rest, lexer.take = (.ok (some token), rest) ∧ rest.takeAll = (tokens, lexer.takeAll.2) := by
  rcases htake : lexer.take with ⟨failure | (_ | first), rest⟩
  · rw [takeAll_of_take_error htake] at h
    cases h
  · rw [takeAll_of_take_none htake] at h
    cases h
  · rw [takeAll_of_take_token htake] at h ⊢
    cases h
    exact ⟨rest, rfl, rfl⟩

end Lexer

namespace Reader

open Awaiting

variable {limit room : Nat} {state : Awaiting} {lexer : Lexer}

theorem complete_of_within (hwithin : Within limit room state lexer.takeAll.1)
    (hroom : state.depth + lexer.takeAll.1.length ≤ room) :
    complete limit state lexer = complete room state lexer := by
  induction hsize : lexer.size using Nat.strongRecOn generalizing state lexer with
  | _ size ih =>
    subst hsize
    rw [complete_eq, complete_eq]
    rcases htake : lexer.take with ⟨failure | (_ | token), rest⟩
    · rfl
    · rfl
    · rw [Lexer.takeAll_of_take_token htake] at hwithin hroom
      rw [List.length_cons] at hroom
      rcases step_of_room limit token (show state.depth < room by omega) with
        hsame | ⟨hfull, _, next, hstep, hdepth⟩
      · simp only [afterToken, hsame]
        cases hstep : state.step room token with
        | more next =>
          have hdepth := (inside_step hstep).2
          exact ih _ (Lexer.size_take_lt htake) (hwithin.tail hstep) (by omega) rfl
        | done whole => rfl
        | failed error => rfl
      · have hnext := (hwithin.tail hstep).head
        omega

theorem complete_of_exceeds {before left : List Token} {opener : Token}
    (htokens : lexer.takeAll.1 = before ++ opener :: left) (h : Exceeds limit room state before opener)
    (hroom : state.depth + lexer.takeAll.1.length ≤ room) :
    (complete limit state lexer).1 = .error (.tooDeep limit) ∧
      (complete limit state lexer).2.takeAll = (left, lexer.takeAll.2) := by
  obtain ⟨hwithin, last, hlast, hdeep⟩ := h
  induction before generalizing state lexer with
  | nil =>
    obtain ⟨rest, htake, hrest⟩ := Lexer.take_of_takeAll htokens
    rw [htokens, List.nil_append, List.length_cons] at hroom
    obtain ⟨next, hstep, hnext⟩ := after?_cons_eq_some.1 hlast
    cases hnext
    rw [complete_eq, htake]
    rcases step_of_room limit opener (show state.depth < room by omega) with hsame | ⟨_, hfailed, _⟩
    · -- a step under the limit would keep it
      have hkept := depth_step_le hwithin.head (hsame.trans hstep)
      omega
    · simp only [afterToken, hfailed]
      exact ⟨trivial, hrest⟩
  | cons token before ih =>
    obtain ⟨rest, htake, hrest⟩ := Lexer.take_of_takeAll htokens
    rw [htokens, List.cons_append, List.length_cons] at hroom
    obtain ⟨next, hstep, hnext⟩ := after?_cons_eq_some.1 hlast
    have hkept := (hwithin.tail hstep).head
    have hdepth := (inside_step hstep).2
    rw [complete_eq, htake]
    rcases step_of_room limit token (show state.depth < room by omega) with
      hsame | ⟨hfull, _, next', hstep', hopen⟩
    · simp only [afterToken, hsame, hstep]
      have hleft : rest.takeAll.1 = before ++ opener :: left := congrArg Prod.fst hrest
      obtain ⟨hanswer, hrun⟩ := ih hleft (by rw [hleft]; omega) (hwithin.tail hstep) hnext
      rw [hrest] at hrun
      exact ⟨hanswer, hrun⟩
    · -- the opener is the first token that finds no room
      rw [hstep] at hstep'
      cases hstep'
      omega

theorem complete_mono {larger : Nat} {datum : Datum} {rest : Lexer} (hle : limit ≤ larger)
    (h : complete limit .start lexer = (.ok datum, rest)) :
    complete larger .start lexer = (.ok datum, rest) := by
  have hstart : ∀ limit, start.depth ≤ limit := Nat.zero_le
  have hroom : start.depth + lexer.takeAll.1.length ≤ lexer.takeAll.1.length := by
    rw [start, depth, List.length_nil]
    omega
  rcases within_or_exceeds limit lexer.takeAll.1.length start lexer.takeAll.1 (hstart limit) with
    hwithin | ⟨before, opener, left, htokens, hexceeds⟩
  · rw [complete_of_within (hwithin.mono hle) hroom, ← complete_of_within hwithin hroom, h]
  · have hfailed := (complete_of_exceeds htokens hexceeds hroom).1
    rw [h] at hfailed
    cases hfailed

/-- The limit only cuts off. Next to a run with room for all tokens, reading answers the same and leaves the lexer
the same if that run never has more forms open than the limit allows. Otherwise it fails and has taken the
tokens up to the first one that opens a form too many. So what is read under a limit is read under any larger one. -/
theorem read_limit {reader : Reader} (hroom : reader.lexer.takeAll.1.length ≤ room) :
    (Within reader.limit room .start reader.lexer.takeAll.1 →
        reader.read.1 = ({ reader with limit := room } : Reader).read.1 ∧
          reader.read.2.lexer = ({ reader with limit := room } : Reader).read.2.lexer) ∧
      (¬Within reader.limit room .start reader.lexer.takeAll.1 →
        ∃ before opener left, reader.lexer.takeAll.1 = before ++ opener :: left ∧
          Exceeds reader.limit room .start before opener ∧
          reader.read.1 = .error (.tooDeep reader.limit) ∧
          reader.read.2.lexer.takeAll = (left, reader.lexer.takeAll.2)) ∧
      ∀ larger datum, reader.limit ≤ larger → reader.read.1 = .ok datum →
        ({ reader with limit := larger } : Reader).read.1 = .ok datum ∧
          ({ reader with limit := larger } : Reader).read.2.lexer = reader.read.2.lexer := by
  obtain ⟨lexer, limit, stopped⟩ := reader
  have hdepth : start.depth + lexer.takeAll.1.length ≤ room := by
    rw [start, depth, List.length_nil, Nat.zero_add]
    exact hroom
  refine ⟨fun hwithin => ?_, fun hnot => ?_, fun larger datum hle hread => ?_⟩
  · show (complete limit .start lexer).1 = (complete room .start lexer).1 ∧
      (complete limit .start lexer).2 = (complete room .start lexer).2
    rw [complete_of_within hwithin hdepth]
    exact ⟨rfl, rfl⟩
  · rcases within_or_exceeds limit room start lexer.takeAll.1 (Nat.zero_le limit) with
      hwithin | ⟨before, opener, left, htokens, hexceeds⟩
    · exact absurd hwithin hnot
    · obtain ⟨hanswer, hleft⟩ := complete_of_exceeds htokens hexceeds hdepth
      exact ⟨before, opener, left, htokens, hexceeds, hanswer, hleft⟩
  · have hread : complete limit .start lexer = (.ok datum, (complete limit .start lexer).2) :=
      Prod.ext hread rfl
    show (complete larger .start lexer).1 = .ok datum ∧
      (complete larger .start lexer).2 = (complete limit .start lexer).2
    rw [complete_mono hle hread]
    exact ⟨rfl, rfl⟩

/-- The list behind the quote mark is the third form that is open. -/
theorem read_limit_of_quoted_list :
    (ofLexer (Lexer.ofText "(a '(b) c)") 2).lexer.takeAll.1.length ≤ 8 ∧
      ¬Within 2 8 .start (ofLexer (Lexer.ofText "(a '(b) c)") 2).lexer.takeAll.1 ∧
      ∃ before opener left, (ofLexer (Lexer.ofText "(a '(b) c)") 2).lexer.takeAll.1 = before ++ opener :: left ∧
        Exceeds 2 8 .start before opener ∧
        (ofLexer (Lexer.ofText "(a '(b) c)") 2).read.1 = .error (.tooDeep 2) ∧
        (ofLexer (Lexer.ofText "(a '(b) c)") 2).read.2.lexer.takeAll =
          (left, (ofLexer (Lexer.ofText "(a '(b) c)") 2).lexer.takeAll.2) := by
  have htokens : (ofLexer (Lexer.ofText "(a '(b) c)") 2).lexer.takeAll.1 =
      [⟨.openParen, "", ⟨1, 1⟩⟩, ⟨.word, "a", ⟨1, 2⟩⟩, ⟨.quote, "", ⟨1, 4⟩⟩,
          ⟨.openParen, "", ⟨1, 5⟩⟩] ++
        [⟨.word, "b", ⟨1, 6⟩⟩, ⟨.closeParen, "", ⟨1, 7⟩⟩, ⟨.word, "c", ⟨1, 9⟩⟩,
          ⟨.closeParen, "", ⟨1, 10⟩⟩] := by
    decide +kernel
  have hroom : (ofLexer (Lexer.ofText "(a '(b) c)") 2).lexer.takeAll.1.length ≤ 8 := by
    rw [htokens]
    decide
  have hdeep : ¬Within 2 8 .start (ofLexer (Lexer.ofText "(a '(b) c)") 2).lexer.takeAll.1 := by
    intro hwithin
    rw [htokens] at hwithin
    have hthree := hwithin _ _ (List.prefix_append _ _) rfl
    exact absurd hthree (by decide)
  exact ⟨hroom, hdeep, (read_limit hroom).2.1 hdeep⟩

end Reader

end Sexp
