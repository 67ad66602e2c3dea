import Sexp.Proofs.Reaching

/-!
# Two runs side by side

A `Feed.Simulation` relates feeds that cannot be told apart by their characters, positions and failures. If it
survives the moves of a feed, then everything that reads keeps related feeds related and answers the same, up to
whole runs of calls (`Lexer.Simulation.agree_run`). A simulation may give up where the first of two feeds has gone too
far: such a feed is lost, stays lost, and nothing is said about it any more.
-/

namespace Sexp

/-- Unless the first state is lost, both answers are the same and the states behind them are related. -/
def AgreeUnless {α σ : Type} (lost : σ → Prop) (alike : σ → σ → Prop) (x y : α × σ) : Prop :=
  lost x.2 ∨ x.1 = y.1 ∧ alike x.2 y.2

theorem AgreeUnless.map {α β σ : Type} {lost : σ → Prop} {alike : σ → σ → Prop} {x y : α × σ} (f : α → β)
    (h : AgreeUnless lost alike x y) : AgreeUnless lost alike (f x.1, x.2) (f y.1, y.2) :=
  h.imp id fun ⟨hanswer, hrest⟩ => ⟨congrArg f hanswer, hrest⟩

/-! ## Feeds -/

namespace Feed

/-- A relation between feeds that reading keeps until the first one is lost. -/
structure Simulation where
  Alike : Feed → Feed → Prop
  Lost : Feed → Prop
  current? {a b : Feed} : Alike a b → a.current? = b.current?
  position {a b : Feed} : Alike a b → a.position = b.position
  failure {a b : Feed} : Alike a b → a.failure = b.failure
  fill {a b : Feed} : Alike a b → Lost a.fill ∨ Alike a.fill b.fill
  pass {a b : Feed} {c : Char} : Alike a b → a.current? = some c → Alike a.pass b.pass
  passLine {a b : Feed} {c : Char} : Alike a b → a.current? = some c → Alike a.passLine b.passLine
  lost_move {a b : Feed} : a.Move b → Lost a → Lost b

namespace Simulation

variable {sim : Simulation} {a b : Feed}

abbrev Agree {α : Type} (sim : Simulation) : α × Feed → α × Feed → Prop := AgreeUnless sim.Lost sim.Alike

theorem lost_of_reaches (h : a.Reaches b) (ha : sim.Lost a) : sim.Lost b :=
  h.keeps (fun hmove => sim.lost_move hmove) ha

theorem agree_of_fill {α : Type} {x y : α × Feed} (h : sim.Alike a b) (hreach : a.fill.Reaches x.2)
    (hfilled : sim.Alike a.fill b.fill → sim.Agree x y) : sim.Agree x y := by
  rcases sim.fill h with hlost | hfill
  · exact .inl (lost_of_reaches hreach hlost)
  · exact hfilled hfill

end Simulation

end Feed

namespace Token

open Feed (Simulation reaches_pass reaches_passLine)
open Feed.Simulation

variable {sim : Simulation} {a b : Feed}

theorem agree_takeWord (letters : List Char) (h : sim.Alike a b) :
    sim.Agree (takeWord letters a) (takeWord letters b) := by
  fun_induction takeWord letters a generalizing b with
  | case1 letters a c hc hcon ih =>
    refine agree_of_fill h ((reaches_pass hc).trans (reaches_takeWord ..)) fun hfill => ?_
    rw [takeWord_some letters ((sim.current? hfill).symm.trans hc), if_pos hcon]
    exact ih (sim.pass hfill hc)
  | case2 letters a c hc hcon =>
    refine agree_of_fill h (.refl _) fun hfill => ?_
    rw [takeWord_some letters ((sim.current? hfill).symm.trans hc), if_neg hcon]
    exact .inr ⟨rfl, hfill⟩
  | case3 letters a hc =>
    refine agree_of_fill h (.refl _) fun hfill => ?_
    rw [takeWord_none letters ((sim.current? hfill).symm.trans hc)]
    exact .inr ⟨rfl, hfill⟩

theorem agree_takeOctal (digits code : Nat) (h : sim.Alike a b) :
    sim.Agree (takeOctal digits code a) (takeOctal digits code b) := by
  fun_induction takeOctal digits code a generalizing b with
  | case1 => exact .inr ⟨rfl, h⟩
  | case2 digits code a digit hdigit ih =>
    obtain ⟨c, hc, _⟩ := Option.bind_eq_some_iff.1 hdigit
    refine agree_of_fill h ((reaches_pass hc).trans (reaches_takeOctal ..)) fun hfill => ?_
    rw [takeOctal, ← sim.current? hfill, hdigit]
    exact ih (sim.pass hfill hc)
  | case3 digits code a hdigit =>
    refine agree_of_fill h (.refl _) fun hfill => ?_
    rw [takeOctal, ← sim.current? hfill, hdigit]
    exact .inr ⟨rfl, hfill⟩

theorem agree_takeEscape (h : sim.Alike a b) : sim.Agree (takeEscape a) (takeEscape b) := by
  refine agree_of_fill h (fill_reaches_takeEscape a) fun hfill => ?_
  unfold takeEscape
  rw [← sim.current? hfill]
  cases hc : a.fill.current? with
  | none => exact .inr ⟨rfl, hfill⟩
  | some c =>
    have hpass := sim.pass hfill hc
    simp only
    cases octalDigit? c with
    | none => exact .inr ⟨rfl, hpass⟩
    | some first =>
      rcases agree_takeOctal (octalDigitsAfter first) first hpass with hlost | ⟨hcode, hrest⟩
      · exact .inl hlost
      · exact .inr ⟨congrArg (fun code => some (Char.ofNat code)) hcode, hrest⟩

theorem agree_takeString (content : List Char) (h : sim.Alike a b) :
    sim.Agree (takeString content a) (takeString content b) := by
  fun_induction takeString content a generalizing b with
  | case1 content a hc =>
    refine agree_of_fill h (reaches_pass hc) fun hfill => ?_
    rw [takeString_some content ((sim.current? hfill).symm.trans hc), if_pos rfl]
    exact .inr ⟨rfl, sim.pass hfill hc⟩
  | case2 content a c hc hquote hend =>
    refine agree_of_fill h (.refl _) fun hfill => ?_
    rw [takeString_some content ((sim.current? hfill).symm.trans hc), if_neg hquote, if_pos hend]
    exact .inr ⟨rfl, hfill⟩
  | case3 content a escaped rest he hc hquote hend ih =>
    have hreach := reaches_takeEscape a.fill.pass
    rw [he] at hreach
    refine agree_of_fill h (((reaches_pass hc).trans hreach).trans (reaches_takeString ..)) fun hfill => ?_
    rw [takeString_some content ((sim.current? hfill).symm.trans hc), if_neg hquote, if_neg hend, if_pos rfl]
    have hescape := agree_takeEscape (sim.pass hfill hc)
    rw [he] at hescape
    generalize takeEscape b.fill.pass = escape at hescape ⊢
    obtain ⟨escaped', rest'⟩ := escape
    -- the escape may read a further line, and what is lost there stays lost
    rcases hescape with hlost | ⟨rfl, hrest⟩
    · exact .inl (lost_of_reaches (reaches_takeString ..) hlost)
    · exact ih hrest
  | case4 content a rest he hc hquote hend =>
    have hreach := reaches_takeEscape a.fill.pass
    rw [he] at hreach
    refine agree_of_fill h ((reaches_pass hc).trans hreach) fun hfill => ?_
    rw [takeString_some content ((sim.current? hfill).symm.trans hc), if_neg hquote, if_neg hend, if_pos rfl]
    have hescape := agree_takeEscape (sim.pass hfill hc)
    rw [he] at hescape
    generalize takeEscape b.fill.pass = escape at hescape ⊢
    obtain ⟨escaped', rest'⟩ := escape
    rcases hescape with hlost | ⟨rfl, hrest⟩
    · exact .inl hlost
    · exact .inr ⟨rfl, hrest⟩
  | case5 content a c hc hquote hend hescape ih =>
    refine agree_of_fill h ((reaches_pass hc).trans (reaches_takeString ..)) fun hfill => ?_
    rw [takeString_some content ((sim.current? hfill).symm.trans hc), if_neg hquote, if_neg hend,
      if_neg hescape]
    exact ih (sim.pass hfill hc)
  | case6 content a hc =>
    refine agree_of_fill h (.refl _) fun hfill => ?_
    rw [takeString_none content ((sim.current? hfill).symm.trans hc)]
    exact .inr ⟨rfl, hfill⟩

theorem agree_scanFrom {c : Char} (h : sim.Alike a b) (hc : a.current? = some c) :
    sim.Agree (scanFrom c a) (scanFrom c b) := by
  have hpass := sim.pass h hc
  unfold scanFrom
  rw [← sim.position h]
  cases markKind? c with
  | some kind => exact .inr ⟨rfl, hpass⟩
  | none =>
    simp only
    by_cases hquote : c = '"'
    · rw [if_pos hquote, if_pos hquote]
      rcases agree_takeString [] hpass with hlost | ⟨hcontent, hrest⟩
      · exact .inl hlost
      · rw [hcontent]
        exact .inr ⟨rfl, hrest⟩
    · rw [if_neg hquote, if_neg hquote]
      rcases agree_takeWord [] h with hlost | ⟨hletters, hrest⟩
      · exact .inl hlost
      · rw [hletters]
        exact .inr ⟨rfl, hrest⟩

theorem agree_scan (h : sim.Alike a b) : sim.Agree (scan a) (scan b) := by
  induction hsize : a.size using Nat.strongRecOn generalizing a b with
  | _ size ih =>
    subst hsize
    cases hc : a.fill.current? with
    | none =>
      rw [scan_none hc]
      refine agree_of_fill h (.refl _) fun hfill => ?_
      rw [scan_none ((sim.current? hfill).symm.trans hc)]
      exact .inr ⟨rfl, hfill⟩
    | some c =>
      rw [scan_some hc]
      by_cases hblank : isBlank c
      · rw [if_pos hblank]
        refine agree_of_fill h ((reaches_pass hc).trans (reaches_scan _)) fun hfill => ?_
        rw [scan_some ((sim.current? hfill).symm.trans hc), if_pos hblank]
        exact ih _ (Feed.size_pass_fill hc) (sim.pass hfill hc) rfl
      · rw [if_neg hblank]
        by_cases hcomment : c = ';'
        · rw [if_pos hcomment]
          refine agree_of_fill h ((reaches_passLine hc).trans (reaches_scan _)) fun hfill => ?_
          rw [scan_some ((sim.current? hfill).symm.trans hc), if_neg hblank, if_pos hcomment]
          exact ih _ (Feed.size_passLine_fill hc) (sim.passLine hfill hc) rfl
        · rw [if_neg hcomment]
          refine agree_of_fill h (reaches_scanFrom hc) fun hfill => ?_
          rw [scan_some ((sim.current? hfill).symm.trans hc), if_neg hblank, if_neg hcomment]
          rcases agree_scanFrom hfill hc with hlost | ⟨htoken, hrest⟩
          · exact .inl hlost
          · exact .inr ⟨congrArg some htoken, hrest⟩

end Token

/-! ## Lexers -/

namespace Lexer

/-- A relation between lexers that reading keeps until the first one is lost. -/
structure Simulation where
  Alike : Lexer → Lexer → Prop
  Lost : Lexer → Prop
  look {a b : Lexer} : Alike a b → AgreeUnless Lost Alike a.look b.look
  take {a b : Lexer} : Alike a b → AgreeUnless Lost Alike a.take b.take
  lost_move {a b : Lexer} : a.Move b → Lost a → Lost b

end Lexer

namespace Feed.Simulation

variable {sim : Simulation}

/-- Lexers with related feeds and the same lookahead. -/
structure Lexers (sim : Simulation) (a b : Lexer) : Prop where
  feed : sim.Alike a.feed b.feed
  lookahead : a.lookahead = b.lookahead

theorem agree_scanAhead {a b : Feed} (h : sim.Alike a b) :
    AgreeUnless (fun lexer => sim.Lost lexer.feed) sim.Lexers (Lexer.scanAhead a) (Lexer.scanAhead b) := by
  have hfeed := Lexer.feed_scanAhead a
  rcases Token.agree_scan h with hlost | ⟨htoken, hrest⟩
  · rw [← hfeed] at hlost
    exact .inl hlost
  · right
    unfold Lexer.scanAhead
    generalize Token.scan a = scanned at htoken hrest ⊢
    generalize Token.scan b = scanned' at htoken hrest ⊢
    obtain ⟨token?, rest⟩ := scanned
    obtain ⟨token?', rest'⟩ := scanned'
    simp only at htoken hrest ⊢
    rw [← sim.failure hrest, ← htoken]
    cases rest.failure with
    | some failure => exact ⟨rfl, hrest, rfl⟩
    | none =>
      cases token? with
      | some token => exact ⟨rfl, hrest, rfl⟩
      | none => exact ⟨rfl, hrest, rfl⟩

theorem agree_look {a b : Lexer} (h : sim.Lexers a b) :
    AgreeUnless (fun lexer => sim.Lost lexer.feed) sim.Lexers a.look b.look := by
  unfold Lexer.look
  rw [← h.lookahead, ← sim.failure h.feed]
  cases a.lookahead with
  | token token => exact .inr ⟨rfl, h⟩
  | finish => exact .inr ⟨rfl, h⟩
  | nothing =>
    cases a.feed.failure with
    | some failure => exact .inr ⟨rfl, h⟩
    | none => exact agree_scanAhead h.feed

theorem agree_take {a b : Lexer} (h : sim.Lexers a b) :
    AgreeUnless (fun lexer => sim.Lost lexer.feed) sim.Lexers a.take b.take := by
  rcases agree_look h with hlost | ⟨hanswer, hrest⟩
  · rw [← Lexer.feed_take] at hlost
    exact .inl hlost
  · right
    unfold Lexer.take
    generalize a.look = looked at hanswer hrest ⊢
    generalize b.look = looked' at hanswer hrest ⊢
    obtain ⟨answer, rest⟩ := looked
    obtain ⟨answer', rest'⟩ := looked'
    obtain rfl := hanswer
    rcases answer with failure | (_ | token)
    · exact ⟨rfl, hrest⟩
    · exact ⟨rfl, hrest⟩
    · exact ⟨rfl, hrest.feed, rfl⟩

/-- Reading keeps lexers related if it keeps their feeds related. -/
def lexer (sim : Simulation) : Lexer.Simulation where
  Alike := sim.Lexers
  Lost lexer := sim.Lost lexer.feed
  look := agree_look
  take := agree_take
  lost_move hmove hlost := lost_of_reaches hmove.feed hlost

theorem Lexers.lines {a b : Lexer} (h : sim.Lexers a b) : a.lines = b.lines :=
  congrArg Position.line (sim.position h.feed)

theorem Lexers.failure {a b : Lexer} (h : sim.Lexers a b) : a.failure = b.failure := sim.failure h.feed

end Feed.Simulation

namespace Lexer

/-- The call asks how far the reading has come, and not for anything that is read. -/
def Command.isQuery : Command → Bool
  | .lines => true
  | .failure => true
  | _ => false

end Lexer

namespace Lexer.Simulation

variable {sim : Simulation} {a b : Lexer}

abbrev Agree {α : Type} (sim : Simulation) : α × Lexer → α × Lexer → Prop := AgreeUnless sim.Lost sim.Alike

theorem lost_of_reaches (h : a.Reaches b) (ha : sim.Lost a) : sim.Lost b :=
  h.keeps (fun hmove => sim.lost_move hmove) ha

theorem agree_look? (h : sim.Alike a b) : sim.Agree a.look? b.look? :=
  (sim.look h).map fun answer => answer.toOption.join

theorem agree_take? (h : sim.Alike a b) : sim.Agree a.take? b.take? :=
  (sim.take h).map fun answer => answer.toOption.join

theorem agree_hasToken (h : sim.Alike a b) : sim.Agree a.hasToken b.hasToken :=
  (agree_look? h).map Option.isSome

theorem agree_takeAll (h : sim.Alike a b) : sim.Agree a.takeAll b.takeAll := by
  induction hsize : a.size using Nat.strongRecOn generalizing a b with
  | _ size ih =>
    subst hsize
    rcases agree_take? h with hlost | ⟨htoken, hrest⟩
    · exact .inl (lost_of_reaches (take?_reaches_takeAll a) hlost)
    · generalize hb : b.take? = taken' at htoken hrest
      obtain ⟨token?', rest'⟩ := taken'
      rcases ha : a.take? with ⟨_ | token, rest⟩
      · rw [ha] at htoken hrest
        obtain rfl := htoken
        rw [takeAll_of_none ha, takeAll_of_none hb]
        exact .inr ⟨rfl, hrest⟩
      · rw [ha] at htoken hrest
        obtain rfl := htoken
        rw [takeAll_of_token ha, takeAll_of_token hb]
        exact (ih _ (size_take?_lt ha) hrest rfl).map (token :: ·)

theorem agree_perform (command : Command) (h : sim.Alike a b)
    (hquery : command.isQuery → a.lines = b.lines ∧ a.failure = b.failure) :
    sim.Agree (a.perform command) (b.perform command) := by
  cases command with
  | look => exact (sim.look h).map Answer.attempt
  | look? => exact (agree_look? h).map Answer.token
  | take => exact (sim.take h).map Answer.attempt
  | take? => exact (agree_take? h).map Answer.token
  | takeAll => exact (agree_takeAll h).map Answer.tokens
  | hasToken => exact (agree_hasToken h).map Answer.flag
  | lines => exact .inr ⟨congrArg Answer.count (hquery rfl).1, h⟩
  | failure => exact .inr ⟨congrArg Answer.failure (hquery rfl).2, h⟩

end Lexer.Simulation

/-! ## Readers -/

namespace Reader

open Lexer.Simulation (lost_of_reaches)

variable {sim : Lexer.Simulation}

theorem agree_complete (limit : Nat) (state : Awaiting) {a b : Lexer} (h : sim.Alike a b) :
    sim.Agree (complete limit state a) (complete limit state b) := by
  induction hsize : a.size using Nat.strongRecOn generalizing state a b with
  | _ size ih =>
    subst hsize
    rcases sim.take h with hlost | ⟨hanswer, hrest⟩
    · exact .inl (lost_of_reaches (take_reaches_complete limit state a) hlost)
    · rw [complete_eq, complete_eq]
      generalize b.take = taken' at hanswer hrest
      obtain ⟨answer', rest'⟩ := taken'
      rcases ha : a.take with ⟨answer, rest⟩
      rw [ha] at hanswer hrest
      obtain rfl := hanswer
      rcases answer with failure | (_ | token)
      · exact .inr ⟨rfl, hrest⟩
      · exact .inr ⟨rfl, hrest⟩
      · simp only [afterToken]
        cases state.step limit token with
        | more next => exact ih _ (Lexer.size_take_lt ha) next hrest rfl
        | done datum => exact .inr ⟨rfl, hrest⟩
        | failed error => exact .inr ⟨rfl, hrest⟩

/-- Readers with related lexers that are the same otherwise. -/
structure Related (sim : Lexer.Simulation) (a b : Reader) : Prop where
  lexer : sim.Alike a.lexer b.lexer
  limit : a.limit = b.limit
  stopped : a.stopped = b.stopped

abbrev Agree {α : Type} (sim : Lexer.Simulation) : α × Reader → α × Reader → Prop :=
  AgreeUnless (fun reader => sim.Lost reader.lexer) (Related sim)

variable {a b : Reader}

theorem agree_read (h : Related sim a b) : Agree sim a.read b.read := by
  unfold read
  rw [← h.limit]
  rcases agree_complete a.limit .start h.lexer with hlost | ⟨hanswer, hrest⟩
  · exact .inl hlost
  · exact .inr ⟨hanswer, hrest, rfl, h.stopped⟩

theorem agree_read? (h : Related sim a b) : Agree sim a.read? b.read? := by
  rcases sim.look h.lexer with hlost | ⟨hanswer, hrest⟩
  · exact .inl (lost_of_reaches (look_reaches_read? a) hlost)
  · unfold read?
    generalize a.lexer.look = looked at hanswer hrest ⊢
    generalize b.lexer.look = looked' at hanswer hrest ⊢
    obtain ⟨answer, rest⟩ := looked
    obtain ⟨answer', rest'⟩ := looked'
    obtain rfl := hanswer
    rcases answer with failure | (_ | token)
    · exact .inr ⟨rfl, hrest, h.limit, h.stopped⟩
    · exact .inr ⟨rfl, hrest, h.limit, h.stopped⟩
    · have hreaders : Related sim { a with lexer := rest } { b with lexer := rest' } :=
        ⟨hrest, h.limit, h.stopped⟩
      exact (agree_read hreaders).map (Except.map some)

theorem agree_checkEnd (h : Related sim a b) : Agree sim a.checkEnd b.checkEnd := by
  rcases sim.look h.lexer with hlost | ⟨hanswer, hrest⟩
  · rw [← lexer_checkEnd] at hlost
    exact .inl hlost
  · right
    unfold checkEnd
    generalize a.lexer.look = looked at hanswer hrest ⊢
    generalize b.lexer.look = looked' at hanswer hrest ⊢
    obtain ⟨answer, rest⟩ := looked
    obtain ⟨answer', rest'⟩ := looked'
    obtain rfl := hanswer
    rcases answer with failure | (_ | token)
    · exact ⟨rfl, hrest, h.limit, h.stopped⟩
    · exact ⟨rfl, hrest, h.limit, h.stopped⟩
    · exact ⟨rfl, hrest, h.limit, h.stopped⟩

theorem agree_yield (h : Related sim a b) : Agree sim a.yield b.yield := by
  have hread := agree_read? h
  unfold yield
  rw [← h.stopped]
  by_cases hstopped : a.stopped
  · rw [if_pos hstopped, if_pos hstopped]
    exact .inr ⟨rfl, h⟩
  · rw [if_neg hstopped, if_neg hstopped]
    generalize a.read? = out at hread ⊢
    generalize b.read? = out' at hread ⊢
    obtain ⟨answer, rest⟩ := out
    obtain ⟨answer', rest'⟩ := out'
    rcases hread with hlost | ⟨rfl, hrest⟩
    · left
      rcases answer with error | (_ | datum) <;> exact hlost
    · rcases answer with error | (_ | datum)
      · exact .inr ⟨rfl, hrest.lexer, hrest.limit, rfl⟩
      · exact .inr ⟨rfl, hrest⟩
      · exact .inr ⟨rfl, hrest⟩

theorem agree_readRest (data : List Datum) (h : Related sim a b) :
    Agree sim (readRest data a) (readRest data b) := by
  induction hsize : a.size using Nat.strongRecOn generalizing data a b with
  | _ size ih =>
    subst hsize
    rcases agree_read? h with hlost | ⟨hanswer, hrest⟩
    · exact .inl (lost_of_reaches (read?_reaches_readRest data a) hlost)
    · rw [readRest_eq, readRest_eq]
      generalize b.read? = out' at hanswer hrest
      obtain ⟨answer', rest'⟩ := out'
      rcases ha : a.read? with ⟨answer, rest⟩
      rw [ha] at hanswer hrest
      obtain rfl := hanswer
      rcases answer with error | (_ | datum)
      · exact .inr ⟨rfl, hrest⟩
      · exact .inr ⟨rfl, hrest⟩
      · exact ih _ (size_read? ha) (datum :: data) hrest rfl

theorem agree_drain (answers : List (Except Error Datum)) (h : Related sim a b) :
    Agree sim (drain answers a) (drain answers b) := by
  induction hsize : a.size using Nat.strongRecOn generalizing answers a b with
  | _ size ih =>
    subst hsize
    rcases agree_yield h with hlost | ⟨hanswer, hrest⟩
    · exact .inl (lost_of_reaches (yield_reaches_drain answers a) hlost)
    · rw [drain_eq, drain_eq]
      generalize b.yield = out' at hanswer hrest
      obtain ⟨answer', rest'⟩ := out'
      rcases ha : a.yield with ⟨answer, rest⟩
      rw [ha] at hanswer hrest
      obtain rfl := hanswer
      rcases answer with _ | (error | datum)
      · exact .inr ⟨rfl, hrest⟩
      · exact .inr ⟨rfl, hrest⟩
      · exact ih _ (size_yield ha) (.ok datum :: answers) hrest rfl

/-! ## Runs -/

/-- The call asks the lexer how far the reading has come. -/
def Command.isQuery : Command → Bool
  | .lexer command => command.isQuery
  | _ => false

theorem agree_perform (command : Command) (h : Related sim a b)
    (hquery : command.isQuery → a.lexer.lines = b.lexer.lines ∧ a.lexer.failure = b.lexer.failure) :
    Agree sim (a.perform command) (b.perform command) := by
  cases command with
  | read => exact (agree_read h).map Answer.datum
  | read? => exact (agree_read? h).map Answer.optional
  | readAll => exact (agree_readRest [] h).map Answer.data
  | yield => exact (agree_yield h).map Answer.yielded
  | yieldAll => exact (agree_drain [] h).map Answer.allYielded
  | checkEnd => exact (agree_checkEnd h).map Answer.checked
  | limit => exact .inr ⟨congrArg Answer.limit h.limit, h⟩
  | renew limit => exact .inr ⟨rfl, h.lexer, rfl, rfl⟩
  | lexer command =>
    rcases Lexer.Simulation.agree_perform command h.lexer hquery with hlost | ⟨hanswer, hrest⟩
    · exact .inl hlost
    · exact .inr ⟨congrArg Answer.lexer hanswer, hrest, h.limit, h.stopped⟩

/-- If related lexers have come equally far, related readers give the same answers to all calls. -/
theorem agree_run (commands : List Command) (h : Related sim a b)
    (hquery : ∀ {a b : Lexer}, sim.Alike a b → a.lines = b.lines ∧ a.failure = b.failure) :
    Agree sim (a.run commands) (b.run commands) := by
  induction commands generalizing a b with
  | nil => exact .inr ⟨rfl, h⟩
  | cons command commands ih =>
    rw [run_cons, run_cons]
    rcases agree_perform command h (fun _ => hquery h.lexer) with hlost | ⟨hanswer, hrest⟩
    · exact .inl (lost_of_reaches (reaches_run _ commands) hlost)
    · rw [hanswer]
      exact (ih hrest).map _

end Reader

end Sexp
