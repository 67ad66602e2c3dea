import Mathlib.Logic.Relation
import Sexp.Proofs.Unfold
import Sexp.Reader.Session

/-!
# What reading does to a feed

Whatever is called, all that happens to a feed is that it is filled and that characters or lines are passed, and
all that happens to a lexer is that a token is looked at or taken. So what these moves keep is kept by every
scanner and every call, and by every run of calls (`Reader.reaches_run`).
-/

namespace Sexp

/-! ## Feeds -/

namespace Feed

/-- One thing that happens to a feed while it is read. Only a character at hand is passed. -/
inductive Move (feed : Feed) : Feed → Prop
  | fill : Move feed feed.fill
  | pass {c : Char} : feed.current? = some c → Move feed feed.pass
  | passLine {c : Char} : feed.current? = some c → Move feed feed.passLine

/-- Reading can turn the first feed into the second one. -/
def Reaches : Feed → Feed → Prop := Relation.ReflTransGen Move

variable {feed next last : Feed} {c : Char}

theorem Reaches.refl (feed : Feed) : feed.Reaches feed := Relation.ReflTransGen.refl

theorem Reaches.trans (h : feed.Reaches next) (hlast : next.Reaches last) : feed.Reaches last :=
  Relation.ReflTransGen.trans h hlast

theorem reaches_fill (feed : Feed) : feed.Reaches feed.fill := .single .fill

theorem reaches_pass (hc : feed.current? = some c) : feed.Reaches feed.pass := .single (.pass hc)

theorem reaches_passLine (hc : feed.current? = some c) : feed.Reaches feed.passLine := .single (.passLine hc)

theorem reaches_pass_fill (hc : feed.fill.current? = some c) : feed.Reaches feed.fill.pass :=
  (reaches_fill feed).trans (reaches_pass hc)

/-- What every move keeps, reading keeps. -/
theorem Reaches.keeps {P : Feed → Prop} (hmove : ∀ {feed next : Feed}, feed.Move next → P feed → P next)
    (h : feed.Reaches next) (hfeed : P feed) : P next := by
  induction h with
  | refl => exact hfeed
  | tail _ hlast ih => exact hmove hlast ih

end Feed

/-! ## Scanners -/

namespace Token

open Feed (reaches_fill reaches_pass reaches_passLine reaches_pass_fill)

variable {feed : Feed}

theorem reaches_takeWord (letters : List Char) (feed : Feed) : feed.Reaches (takeWord letters feed).2 := by
  fun_induction takeWord letters feed with
  | case1 letters feed c hc hcon ih => exact (reaches_pass_fill hc).trans ih
  | case2 => exact reaches_fill _
  | case3 => exact reaches_fill _

theorem reaches_takeOctal (digits code : Nat) (feed : Feed) :
    feed.Reaches (takeOctal digits code feed).2 := by
  fun_induction takeOctal digits code feed with
  | case1 => exact .refl _
  | case2 digits code feed digit hdigit ih =>
    obtain ⟨c, hc, _⟩ := Option.bind_eq_some_iff.1 hdigit
    exact (reaches_pass_fill hc).trans ih
  | case3 => exact reaches_fill _

theorem fill_reaches_takeEscape (feed : Feed) : feed.fill.Reaches (takeEscape feed).2 := by
  unfold takeEscape
  cases hc : feed.fill.current? with
  | none => exact .refl _
  | some c =>
    simp only
    cases octalDigit? c with
    | none => exact reaches_pass hc
    | some first => exact (reaches_pass hc).trans (reaches_takeOctal ..)

theorem reaches_takeEscape (feed : Feed) : feed.Reaches (takeEscape feed).2 :=
  (reaches_fill feed).trans (fill_reaches_takeEscape feed)

theorem fill_reaches_takeString (content : List Char) (feed : Feed) :
    feed.fill.Reaches (takeString content feed).2 := by
  fun_induction takeString content feed with
  | case1 content feed hc => exact reaches_pass hc
  | case2 => exact .refl _
  | case3 content feed escaped rest he hc hquote hend ih =>
    have hescape := reaches_takeEscape feed.fill.pass
    rw [he] at hescape
    exact ((reaches_pass hc).trans hescape).trans ((reaches_fill rest).trans ih)
  | case4 content feed rest he hc hquote hend =>
    have hescape := reaches_takeEscape feed.fill.pass
    rw [he] at hescape
    exact (reaches_pass hc).trans hescape
  | case5 content feed c hc hquote hend hescape ih => exact (reaches_pass hc).trans ((reaches_fill _).trans ih)
  | case6 => exact .refl _

theorem reaches_takeString (content : List Char) (feed : Feed) : feed.Reaches (takeString content feed).2 :=
  (reaches_fill feed).trans (fill_reaches_takeString content feed)

theorem reaches_scanFrom {c : Char} (hc : feed.current? = some c) : feed.Reaches (scanFrom c feed).2 := by
  unfold scanFrom
  cases markKind? c with
  | some kind => exact reaches_pass hc
  | none =>
    simp only
    split
    · exact (reaches_pass hc).trans (reaches_takeString ..)
    · exact reaches_takeWord ..

theorem fill_reaches_scan (feed : Feed) : feed.fill.Reaches (scan feed).2 := by
  induction hsize : feed.size using Nat.strongRecOn generalizing feed with
  | _ size ih =>
    subst hsize
    cases hc : feed.fill.current? with
    | none =>
      rw [scan_none hc]
      exact .refl _
    | some c =>
      rw [scan_some hc]
      split
      · exact (reaches_pass hc).trans ((reaches_fill _).trans (ih _ (Feed.size_pass_fill hc) _ rfl))
      · split
        · exact (reaches_passLine hc).trans ((reaches_fill _).trans (ih _ (Feed.size_passLine_fill hc) _ rfl))
        · exact reaches_scanFrom hc

theorem reaches_scan (feed : Feed) : feed.Reaches (scan feed).2 :=
  (reaches_fill feed).trans (fill_reaches_scan feed)

end Token

/-! ## Lexers -/

namespace Lexer

/-- One thing that happens to a lexer while it is read. -/
inductive Move (lexer : Lexer) : Lexer → Prop
  | look : Move lexer lexer.look.2
  | take : Move lexer lexer.take.2

/-- Reading can turn the first lexer into the second one. -/
def Reaches : Lexer → Lexer → Prop := Relation.ReflTransGen Move

variable {lexer next last : Lexer}

theorem Reaches.refl (lexer : Lexer) : lexer.Reaches lexer := Relation.ReflTransGen.refl

theorem Reaches.trans (h : lexer.Reaches next) (hlast : next.Reaches last) : lexer.Reaches last :=
  Relation.ReflTransGen.trans h hlast

theorem reaches_look (lexer : Lexer) : lexer.Reaches lexer.look.2 := .single .look

theorem reaches_take (lexer : Lexer) : lexer.Reaches lexer.take.2 := .single .take

theorem Reaches.keeps {P : Lexer → Prop} (hmove : ∀ {lexer next : Lexer}, lexer.Move next → P lexer → P next)
    (h : lexer.Reaches next) (hlexer : P lexer) : P next := by
  induction h with
  | refl => exact hlexer
  | tail _ hlast ih => exact hmove hlast ih

/-! ### Their feeds -/

theorem scanAhead_cases (feed : Feed) :
    (∃ error, (Token.scan feed).2.failure = some error ∧
        scanAhead feed = (.error error, ⟨(Token.scan feed).2, .nothing⟩)) ∨
      (∃ token, (Token.scan feed).1 = some token ∧ (Token.scan feed).2.failure = none ∧
        scanAhead feed = (.ok (some token), ⟨(Token.scan feed).2, .token token⟩)) ∨
      ((Token.scan feed).1 = none ∧ (Token.scan feed).2.failure = none ∧
        scanAhead feed = (.ok none, ⟨(Token.scan feed).2, .finish⟩)) := by
  unfold scanAhead
  rcases Token.scan feed with ⟨token?, rest⟩
  cases hfailure : rest.failure with
  | some error => exact .inl ⟨error, rfl, by simp only [hfailure]⟩
  | none =>
    cases token? with
    | some token => exact .inr (.inl ⟨token, rfl, rfl, by simp only [hfailure]⟩)
    | none => exact .inr (.inr ⟨rfl, rfl, by simp only [hfailure]⟩)

theorem feed_scanAhead (feed : Feed) : (scanAhead feed).2.feed = (Token.scan feed).2 := by
  rcases scanAhead_cases feed with ⟨_, _, h⟩ | ⟨_, _, _, h⟩ | ⟨_, _, h⟩ <;> rw [h]

theorem look_cases (lexer : Lexer) :
    (∃ token, lexer.lookahead = .token token ∧ lexer.look = (.ok (some token), lexer)) ∨
      (lexer.lookahead = .finish ∧ lexer.look = (.ok none, lexer)) ∨
      (∃ error, lexer.lookahead = .nothing ∧ lexer.failure = some error ∧ lexer.look = (.error error, lexer)) ∨
      (lexer.lookahead = .nothing ∧ lexer.failure = none ∧ lexer.look = scanAhead lexer.feed) := by
  unfold look failure
  cases lexer.lookahead with
  | token token => exact .inl ⟨token, rfl, rfl⟩
  | finish => exact .inr (.inl ⟨rfl, rfl⟩)
  | nothing =>
    right; right
    cases lexer.feed.failure with
    | some error => exact .inl ⟨error, rfl, rfl, rfl⟩
    | none => exact .inr ⟨rfl, rfl, rfl⟩

theorem feed_reaches_look (lexer : Lexer) : lexer.feed.Reaches lexer.look.2.feed := by
  rcases look_cases lexer with ⟨_, _, h⟩ | ⟨_, h⟩ | ⟨_, _, _, h⟩ | ⟨_, _, h⟩
  · rw [h]; exact .refl _
  · rw [h]; exact .refl _
  · rw [h]; exact .refl _
  · rw [h, feed_scanAhead]
    exact Token.reaches_scan lexer.feed

theorem feed_take (lexer : Lexer) : lexer.take.2.feed = lexer.look.2.feed := by
  unfold take
  rcases lexer.look with ⟨failure | (_ | token), rest⟩ <;> rfl

theorem Move.feed (h : lexer.Move next) : lexer.feed.Reaches next.feed := by
  cases h with
  | look => exact feed_reaches_look lexer
  | take =>
    rw [feed_take]
    exact feed_reaches_look lexer

theorem Reaches.feed (h : lexer.Reaches next) : lexer.feed.Reaches next.feed :=
  h.keeps (P := fun next => lexer.feed.Reaches next.feed) (fun hmove hbefore => hbefore.trans hmove.feed)
    (.refl _)

/-! ### All tokens -/

theorem snd_take? (lexer : Lexer) : lexer.take?.2 = lexer.take.2 := rfl

theorem take?_reaches_takeAll (lexer : Lexer) : lexer.take?.2.Reaches lexer.takeAll.2 := by
  induction hsize : lexer.size using Nat.strongRecOn generalizing lexer with
  | _ size ih =>
    subst hsize
    rcases htake : lexer.take? with ⟨_ | token, rest⟩
    · rw [takeAll_of_none htake]
      exact .refl _
    · rw [takeAll_of_token htake]
      have hrest : rest.Reaches rest.take?.2 := reaches_take rest
      exact hrest.trans (ih _ (size_take?_lt htake) rest rfl)

theorem reaches_perform (lexer : Lexer) (command : Command) : lexer.Reaches (lexer.perform command).2 := by
  cases command with
  | look => exact reaches_look lexer
  | look? => exact reaches_look lexer
  | take => exact reaches_take lexer
  | take? => exact reaches_take lexer
  | takeAll => exact (reaches_take lexer).trans (take?_reaches_takeAll lexer)
  | hasToken => exact reaches_look lexer
  | lines => exact .refl _
  | failure => exact .refl _

end Lexer

/-! ## Readers -/

namespace Reader

open Lexer (reaches_look reaches_take)

variable {reader : Reader}

theorem take_reaches_complete (limit : Nat) (state : Awaiting) (lexer : Lexer) :
    lexer.take.2.Reaches (complete limit state lexer).2 := by
  induction hsize : lexer.size using Nat.strongRecOn generalizing state lexer with
  | _ size ih =>
    subst hsize
    rw [complete_eq]
    rcases htake : lexer.take with ⟨failure | (_ | token), rest⟩
    · exact .refl _
    · exact .refl _
    · simp only [afterToken]
      cases state.step limit token with
      | more next => exact (reaches_take rest).trans (ih _ (Lexer.size_take_lt htake) next rest rfl)
      | done datum => exact .refl _
      | failed error => exact .refl _

theorem reaches_complete (limit : Nat) (state : Awaiting) (lexer : Lexer) :
    lexer.Reaches (complete limit state lexer).2 :=
  (reaches_take lexer).trans (take_reaches_complete limit state lexer)

theorem look_reaches_read? (reader : Reader) : reader.lexer.look.2.Reaches reader.read?.2.lexer := by
  unfold read?
  rcases reader.lexer.look with ⟨failure | (_ | token), rest⟩
  · exact .refl _
  · exact .refl _
  · exact reaches_complete ..

theorem reaches_read? (reader : Reader) : reader.lexer.Reaches reader.read?.2.lexer :=
  (reaches_look reader.lexer).trans (look_reaches_read? reader)

theorem snd_read? (reader : Reader) : reader.read?.2 = { reader with lexer := reader.read?.2.lexer } := by
  unfold read?
  rcases reader.lexer.look with ⟨failure | (_ | token), rest⟩ <;> rfl

theorem stopped_read? (reader : Reader) : reader.read?.2.stopped = reader.stopped := by
  rw [snd_read?]

theorem stopped_of_yield_ok {reader rest : Reader} {datum : Datum}
    (hyield : reader.yield = (some (.ok datum), rest)) : rest.stopped = reader.stopped := by
  have hstopped := stopped_read? reader
  unfold yield at hyield
  split at hyield
  · cases hyield
  · rcases hread : reader.read? with ⟨error | (_ | found), left⟩
    all_goals
      rw [hread] at hyield hstopped
      cases hyield
    exact hstopped

theorem snd_checkEnd (reader : Reader) : reader.checkEnd.2 = { reader with lexer := reader.lexer.look.2 } := by
  unfold checkEnd
  rcases reader.lexer.look with ⟨failure | (_ | token), rest⟩ <;> rfl

theorem lexer_checkEnd (reader : Reader) : reader.checkEnd.2.lexer = reader.lexer.look.2 := by
  rw [snd_checkEnd]

theorem reaches_yield (reader : Reader) : reader.lexer.Reaches reader.yield.2.lexer := by
  unfold yield
  split
  · exact .refl _
  · have hread := reaches_read? reader
    rcases hr : reader.read? with ⟨error | (_ | datum), rest⟩ <;> rw [hr] at hread <;> exact hread

theorem read?_reaches_readRest (data : List Datum) (reader : Reader) :
    reader.read?.2.lexer.Reaches (readRest data reader).2.lexer := by
  induction hsize : reader.size using Nat.strongRecOn generalizing data reader with
  | _ size ih =>
    subst hsize
    rw [readRest_eq]
    rcases hread : reader.read? with ⟨error | (_ | datum), rest⟩
    · exact .refl _
    · exact .refl _
    · exact (reaches_read? rest).trans (ih _ (size_read? hread) (datum :: data) rest rfl)

theorem yield_reaches_drain (answers : List (Except Error Datum)) (reader : Reader) :
    reader.yield.2.lexer.Reaches (drain answers reader).2.lexer := by
  induction hsize : reader.size using Nat.strongRecOn generalizing answers reader with
  | _ size ih =>
    subst hsize
    rw [drain_eq]
    rcases hyield : reader.yield with ⟨_ | (error | datum), rest⟩
    · exact .refl _
    · exact .refl _
    · exact (reaches_yield rest).trans (ih _ (size_yield hyield) (.ok datum :: answers) rest rfl)

theorem reaches_perform (reader : Reader) (command : Command) :
    reader.lexer.Reaches (reader.perform command).2.lexer := by
  cases command with
  | read => exact reaches_complete ..
  | read? => exact reaches_read? reader
  | readAll => exact (reaches_read? reader).trans (read?_reaches_readRest [] reader)
  | yield => exact reaches_yield reader
  | yieldAll => exact (reaches_yield reader).trans (yield_reaches_drain [] reader)
  | checkEnd =>
    show reader.lexer.Reaches reader.checkEnd.2.lexer
    rw [lexer_checkEnd]
    exact reaches_look reader.lexer
  | limit => exact .refl _
  | renew limit => exact .refl _
  | lexer command => exact reader.lexer.reaches_perform command

theorem run_cons (reader : Reader) (command : Command) (commands : List Command) :
    reader.run (command :: commands) =
      ((reader.perform command).1 :: ((reader.perform command).2.run commands).1,
        ((reader.perform command).2.run commands).2) := rfl

theorem run_append (reader : Reader) (earlier later : List Command) :
    reader.run (earlier ++ later) =
      ((reader.run earlier).1 ++ ((reader.run earlier).2.run later).1, ((reader.run earlier).2.run later).2) := by
  induction earlier generalizing reader with
  | nil => rfl
  | cons command earlier ih =>
    rw [List.cons_append, run_cons, ih, run_cons]
    rfl

theorem run_snoc (reader : Reader) (commands : List Command) (command : Command) :
    reader.run (commands ++ [command]) =
      ((reader.run commands).1 ++ [((reader.run commands).2.perform command).1],
        ((reader.run commands).2.perform command).2) :=
  run_append reader commands [command]

theorem reaches_run (reader : Reader) (commands : List Command) :
    reader.lexer.Reaches (reader.run commands).2.lexer := by
  induction commands generalizing reader with
  | nil => exact .refl _
  | cons command commands ih =>
    rw [run_cons]
    exact (reaches_perform reader command).trans (ih _)

/-- An answer of a run is that of a call which reading has led to and from which it has gone on. -/
theorem exists_perform_of_mem_run {commands : List Command} {answer : Answer}
    (h : answer ∈ (reader.run commands).1) :
    ∃ (middle : Reader) (command : Command), reader.lexer.Reaches middle.lexer ∧
      (middle.perform command).1 = answer ∧
      (middle.perform command).2.lexer.Reaches (reader.run commands).2.lexer := by
  induction commands generalizing reader with
  | nil => cases h
  | cons command commands ih =>
    rw [run_cons] at h ⊢
    rcases List.mem_cons.1 h with rfl | h
    · exact ⟨reader, command, .refl _, rfl, reaches_run _ commands⟩
    · obtain ⟨middle, later, hbefore, hanswer, hafter⟩ := ih h
      exact ⟨middle, later, (reaches_perform reader command).trans hbefore, hanswer, hafter⟩

end Reader

end Sexp
