import Sexp.Guarded.Reader
import Sexp.Proofs.Descent
import Sexp.Proofs.LexerSafety

/-!
# The reader meets no fault

A descent leaves as many forms open as it has found, in all of its ways out, and opens one only below the limit. So the
count of open forms stays between zero and a limit of 64 bits, and none is left behind a datum. Together with the safety
of the lexer this says that no run of calls meets a fault: the guarded run gives the answers of the plain one
(`Reader.run_without_fault`).
-/

namespace Sexp

namespace Guarded

open Descent (Return)

variable {limit : Nat} {before : Descent} {context : String}

/-! ## Ways through a descent -/

theorem next_eq {lexer : Lexer} (h : lexer.feed.Within) : next context lexer = .ok (Descent.next context lexer) := by
  rw [next, Descent.next, take_eq h, ok_bind]
  rcases lexer.take with ⟨failure | (_ | token), rest⟩ <;> rfl

theorem within_next {lexer : Lexer} (h : lexer.feed.Within) : (Descent.next context lexer).2.feed.Within := by
  have htake := within_take h
  unfold Descent.next
  generalize lexer.take = taken at htake ⊢
  obtain ⟨failure | (_ | token), rest⟩ := taken <;> exact htake

theorem enter_eq {depth : Nat} (hlimit : limit < UInt64.size) (hroom : depth < limit) :
    enter limit depth = .ok (depth + 1) := by
  rw [enter, demand_eq (Nat.lt_of_le_of_lt hroom hlimit), ok_bind]
  exact demand_eq hroom _

/-- The guarded descent comes back with the same, and the place in the line is not behind its end. -/
structure Agrees (guarded : Except Fault (Except Error Datum × Descent)) (result : Return before) : Prop where
  eq : guarded = .ok (result.answer, result.rest)
  within : result.rest.lexer.feed.Within

theorem agrees_stay (h : before.lexer.feed.Within) (answer : Except Error Datum) :
    Agrees (.ok (answer, before)) (.stay answer : Return before) := ⟨rfl, h⟩

theorem agrees_withNext {resume : Except Error Token × Lexer → Except Fault (Except Error Datum × Descent)}
    {go : Token → (rest : Lexer) → rest.size < before.lexer.size → Return { before with lexer := rest }}
    (h : before.lexer.feed.Within)
    (hgo : ∀ token rest hrest, rest.feed.Within → Agrees (resume (.ok token, rest)) (go token rest hrest))
    (herror : ∀ error rest, resume (.error error, rest) = .ok (.error error, { before with lexer := rest })) :
    Agrees (next context before.lexer >>= resume) (Descent.withNext context before go) := by
  have hwithin : (Descent.next context before.lexer).2.feed.Within := within_next h
  rw [next_eq h, ok_bind]
  unfold Descent.withNext
  split
  · rename_i token rest hnext
    rw [hnext] at hwithin
    obtain ⟨heq, hrest⟩ := hgo token rest (Descent.size_next_lt hnext) hwithin
    exact ⟨(congrArg resume hnext).trans heq, hrest⟩
  · rename_i error rest hnext
    rw [hnext] at hwithin
    exact ⟨(congrArg resume hnext).trans (herror error rest), hwithin⟩

section

variable {guarded : Except Fault (Except Error Datum × Descent)}
  {resume : Except Error Datum × Descent → Except Fault (Except Error Datum × Descent)}

theorem Agrees.map {result : Return before} (h : Agrees guarded result) {f : Datum → Datum}
    (hresume : ∀ answer after, resume (answer, after) = .ok (answer.map f, after)) :
    Agrees (guarded >>= resume) (result.map f) := by
  refine ⟨?_, h.within⟩
  rw [h.eq, ok_bind]
  exact hresume _ _

theorem Agrees.andThen {result : Return before} (h : Agrees guarded result)
    {go : Datum → (later : Descent) → later.lexer.size ≤ before.lexer.size → Return later}
    (hgo : ∀ datum later hlater, later.lexer.feed.Within → later.depth = before.depth →
      Agrees (resume (.ok datum, later)) (go datum later hlater))
    (herror : ∀ error later, resume (.error error, later) = .ok (.error error, later)) :
    Agrees (guarded >>= resume) (result.andThen go) := by
  obtain ⟨heq, hwithin⟩ := h
  rw [heq, ok_bind]
  obtain ⟨error | datum, later, hsize, hdepth⟩ := result
  · exact ⟨herror error later, hwithin⟩
  · obtain ⟨heq, hlast⟩ := hgo datum later hsize hwithin hdepth
    exact ⟨heq, hlast⟩

/-- Whatever has happened inside, the form that was opened can be closed. -/
theorem Agrees.leave {result : Return { before with depth := before.depth + 1 }} (h : Agrees guarded result)
    (hresume : ∀ answer after,
      resume (answer, after) = Guarded.leave after.depth >>= fun depth => .ok (answer, { after with depth })) :
    Agrees (guarded >>= resume) result.leave := by
  have hopen : 0 < result.rest.depth := by
    rw [result.depth_eq]
    exact Nat.succ_pos _
  refine ⟨?_, h.within⟩
  rw [h.eq, ok_bind, hresume, Guarded.leave, demand_eq hopen, ok_bind]
  rfl

end

/-! ## One form -/

/-- The guarded descent from here agrees with the plain one, whichever token starts the datum. -/
def Faultless (limit : Nat) (before : Descent) : Prop :=
  before.lexer.feed.Within → before.depth ≤ limit →
    ∀ token, Agrees (datum limit token before) (Descent.datum limit token before)

theorem agrees_closing (found : List Datum) (last : Datum) (h : before.lexer.feed.Within) :
    Agrees (closing found last before) (Descent.closing found last before) := by
  refine agrees_withNext h (fun token rest _ hwithin => ?_) fun _ _ => rfl
  by_cases hclose : token.kind = .closeParen
  · simp only [if_pos hclose]
    exact agrees_stay hwithin _
  · simp only [if_neg hclose]
    exact agrees_stay hwithin _

section

variable (hinner : ∀ later : Descent, later.lexer.size < before.lexer.size → Faultless limit later)

include hinner

theorem agrees_operand (name : String) (h : before.lexer.feed.Within) (hdepth : before.depth ≤ limit) :
    Agrees (operand limit name before) (Descent.operand limit name before) := by
  rw [operand, Descent.operand]
  refine agrees_withNext h (fun token rest hrest hwithin => ?_) fun _ _ => rfl
  simp only [dif_pos hrest]
  exact (hinner { before with lexer := rest } hrest hwithin hdepth token).map fun _ _ => rfl

theorem agrees_tail (found : List Datum) (h : before.lexer.feed.Within) (hdepth : before.depth ≤ limit) :
    Agrees (tail limit found before) (Descent.tail limit found before) := by
  rw [tail, Descent.tail]
  refine agrees_withNext h (fun token rest hrest hwithin => ?_) fun _ _ => rfl
  simp only [dif_pos hrest]
  refine (hinner { before with lexer := rest } hrest hwithin hdepth token).andThen ?_ fun _ _ => rfl
  exact fun last later _ hlater _ => agrees_closing found last hlater

end

theorem agrees_items (hinner : ∀ later : Descent, later.lexer.size < before.lexer.size → Faultless limit later)
    (found : List Datum) (h : before.lexer.feed.Within) (hdepth : before.depth ≤ limit) :
    Agrees (items limit found before) (Descent.items limit found before) := by
  induction hsize : before.lexer.size using Nat.strongRecOn generalizing before found with
  | _ size ih =>
    subst hsize
    rw [items, Descent.items]
    refine agrees_withNext h (fun token rest hrest hwithin => ?_) fun _ _ => rfl
    simp only [dif_pos hrest]
    by_cases hclose : token.kind = .closeParen
    · rw [if_pos hclose, if_pos hclose]
      exact agrees_stay hwithin _
    · rw [if_neg hclose, if_neg hclose]
      by_cases hdot : token.isDot
      · rw [if_pos hdot, if_pos hdot]
        have hless : ∀ later : Descent, later.lexer.size < rest.size → Faultless limit later :=
          fun later hlater => hinner later (Nat.lt_trans hlater hrest)
        exact @agrees_tail limit { before with lexer := rest } hless found hwithin hdepth
      · rw [if_neg hdot, if_neg hdot]
        refine (hinner { before with lexer := rest } hrest hwithin hdepth token).andThen ?_ fun _ _ => rfl
        intro item later hlater hafter hsame
        have hless : later.lexer.size < before.lexer.size := Nat.lt_of_le_of_lt hlater hrest
        simp only [dif_pos hless]
        exact ih _ hless (fun last hlast => hinner last (Nat.lt_trans hlast hless)) (item :: found) hafter
          (Nat.le_trans (Nat.le_of_eq hsame) hdepth) rfl

theorem faultless (hlimit : limit < UInt64.size) (before : Descent) : Faultless limit before := by
  induction hsize : before.lexer.size using Nat.strongRecOn generalizing before with
  | _ size ih =>
    subst hsize
    intro h hdepth token
    have hinner : ∀ later : Descent, later.lexer.size < before.lexer.size → Faultless limit later :=
      fun later hlater => ih _ hlater later rfl
    -- the form that the token may open
    let inside : Descent := { before with depth := before.depth + 1 }
    rw [datum, Descent.datum]
    by_cases hroom : before.depth < limit
    · have hquoted : ∀ name, Agrees (operand limit name inside) (Descent.operand limit name inside) :=
        fun name => @agrees_operand limit inside hinner name h hroom
      have hlist := @agrees_items limit inside hinner [] h hroom
      simp only [Descent.nested, if_pos hroom, enter_eq hlimit hroom, ok_bind]
      obtain ⟨kind, text, position⟩ := token
      cases kind with
      | openParen => exact hlist.leave fun _ _ => rfl
      | quote => exact (hquoted "QUOTE").leave fun _ _ => rfl
      | quasiquote => exact (hquoted "QUASIQUOTE").leave fun _ _ => rfl
      | unquote => exact (hquoted "UNQUOTE").leave fun _ _ => rfl
      | _ => exact agrees_stay h _
    · simp only [Descent.nested, if_neg hroom]
      obtain ⟨kind, text, position⟩ := token
      cases kind <;> exact agrees_stay h _

/-! ## Readers -/

variable {reader : Reader}

/-- What the guards of a reader need. -/
structure Safe (reader : Reader) : Prop where
  within : reader.lexer.feed.Within
  limit_lt : reader.limit < UInt64.size

theorem Safe.reaches {rest : Reader} (h : Safe reader) (hreaches : reader.lexer.Reaches rest.lexer)
    (hlimit : rest.limit = reader.limit) : Safe rest :=
  ⟨hreaches.feed.within h.within, hlimit ▸ h.limit_lt⟩

theorem Safe.look (h : Safe reader) : Safe { reader with lexer := reader.lexer.look.2 } :=
  h.reaches (Lexer.reaches_look reader.lexer) rfl

theorem read_eq (h : Safe reader) : read reader = .ok reader.read := by
  let start : Descent := ⟨reader.lexer, 0⟩
  let result : Return start := Descent.withNext "expected an expression" start fun token rest _ =>
    Descent.datum reader.limit token { start with lexer := rest }
  have hform : Agrees (form reader.limit start) result :=
    agrees_withNext h.within (fun token rest _ hwithin =>
      faultless h.limit_lt { start with lexer := rest } hwithin (Nat.zero_le _) token) fun _ _ => rfl
  have hplain : (result.answer, result.rest) = _ := Descent.read_eq reader.limit start
  rw [read, hform.eq, ok_bind, hplain]
  exact demand_eq rfl _

theorem read?_eq (h : Safe reader) : read? reader = .ok reader.read? := by
  have hlooked := h.look
  rw [read?, Reader.read?, look_eq h.within, ok_bind]
  generalize reader.lexer.look = looked at hlooked ⊢
  obtain ⟨failure | (_ | token), lexer⟩ := looked
  · rfl
  · rfl
  · simp only [read_eq hlooked, ok_bind]
    rfl

theorem limit_read? (reader : Reader) : reader.read?.2.limit = reader.limit := by
  rw [Reader.snd_read?]

theorem Safe.read? (h : Safe reader) : Safe reader.read?.2 :=
  h.reaches (Reader.reaches_read? reader) (limit_read? reader)

theorem yield_eq (h : Safe reader) : yield reader = .ok reader.yield := by
  unfold yield Reader.yield
  split
  · rfl
  · rw [read?_eq h, ok_bind]
    rcases reader.read? with ⟨error | (_ | datum), rest⟩ <;> rfl

theorem limit_yield (reader : Reader) : reader.yield.2.limit = reader.limit := by
  have hread := limit_read? reader
  unfold Reader.yield
  split
  · rfl
  · generalize reader.read? = answered at hread ⊢
    obtain ⟨error | (_ | datum), rest⟩ := answered <;> exact hread

theorem Safe.yield (h : Safe reader) : Safe reader.yield.2 :=
  h.reaches (Reader.reaches_yield reader) (limit_yield reader)

theorem checkEnd_eq (h : Safe reader) : checkEnd reader = .ok reader.checkEnd := by
  rw [checkEnd, Reader.checkEnd, look_eq h.within, ok_bind]
  rcases reader.lexer.look with ⟨failure | (_ | token), lexer⟩ <;> rfl

theorem readRest_eq (data : List Datum) (h : Safe reader) :
    readRest data reader = .ok (Reader.readRest data reader) := by
  induction hsize : reader.size using Nat.strongRecOn generalizing data reader with
  | _ size ih =>
    subst hsize
    have hrest := h.read?
    rw [readRest, read?_eq h, ok_bind, Reader.readRest_eq]
    rcases hread : reader.read? with ⟨error | (_ | datum), rest⟩
    all_goals rw [hread] at hrest
    · rfl
    · rfl
    · have hless := Reader.size_read? hread
      simp only [dif_pos hless]
      exact ih _ hless _ hrest rfl

theorem drain_eq (answers : List (Except Error Datum)) (h : Safe reader) :
    drain answers reader = .ok (Reader.drain answers reader) := by
  induction hsize : reader.size using Nat.strongRecOn generalizing answers reader with
  | _ size ih =>
    subst hsize
    have hrest := h.yield
    rw [drain, yield_eq h, ok_bind, Reader.drain_eq]
    rcases hyield : reader.yield with ⟨_ | (error | datum), rest⟩
    all_goals rw [hyield] at hrest
    · rfl
    · rfl
    · have hless := Reader.size_yield hyield
      simp only [dif_pos hless]
      exact ih _ hless _ hrest rfl

theorem Safe.readRest (data : List Datum) (h : Safe reader) : Safe (Reader.readRest data reader).2 := by
  induction hsize : reader.size using Nat.strongRecOn generalizing data reader with
  | _ size ih =>
    subst hsize
    have hrest := h.read?
    rw [Reader.readRest_eq]
    rcases hread : reader.read? with ⟨error | (_ | datum), rest⟩
    all_goals rw [hread] at hrest
    · exact hrest
    · exact hrest
    · exact ih _ (Reader.size_read? hread) (datum :: data) hrest rfl

theorem Safe.drain (answers : List (Except Error Datum)) (h : Safe reader) : Safe (Reader.drain answers reader).2 := by
  induction hsize : reader.size using Nat.strongRecOn generalizing answers reader with
  | _ size ih =>
    subst hsize
    have hrest := h.yield
    rw [Reader.drain_eq]
    rcases hyield : reader.yield with ⟨_ | (error | datum), rest⟩
    all_goals rw [hyield] at hrest
    · exact hrest
    · exact hrest
    · exact ih _ (Reader.size_yield hyield) (.ok datum :: answers) hrest rfl

/-! ## Runs -/

open Reader (Command Answer)

theorem perform_eq (h : Safe reader) (command : Command) : perform reader command = .ok (reader.perform command) := by
  cases command with
  | read => rw [perform, read_eq h]; rfl
  | read? => rw [perform, read?_eq h]; rfl
  | readAll => rw [perform, readRest_eq [] h]; rfl
  | yield => rw [perform, yield_eq h]; rfl
  | yieldAll => rw [perform, drain_eq [] h]; rfl
  | checkEnd => rw [perform, checkEnd_eq h]; rfl
  | limit => rfl
  | renew limit => rfl
  | lexer command => rw [perform, performLexer_eq h.within]; rfl

theorem Safe.perform (h : Safe reader) {command : Command}
    (hrenew : ∀ limit, command = .renew limit → limit < UInt64.size) : Safe (reader.perform command).2 := by
  have hreaches := Reader.reaches_perform reader command
  cases command with
  | readAll => exact h.readRest []
  | read? => exact h.read?
  | yield => exact h.yield
  | yieldAll => exact h.drain []
  | checkEnd =>
    show Safe reader.checkEnd.2
    rw [Reader.snd_checkEnd]
    exact h.look
  | renew limit => exact ⟨h.within, hrenew limit rfl⟩
  | _ => exact h.reaches hreaches rfl

theorem run_eq (h : Safe reader) {commands : List Command}
    (hrenew : ∀ limit, .renew limit ∈ commands → limit < UInt64.size) :
    run reader commands = .ok (reader.run commands) := by
  induction commands generalizing reader with
  | nil => rfl
  | cons command commands ih =>
    have hlater : Safe (reader.perform command).2 :=
      h.perform fun limit heq => hrenew limit (heq ▸ List.mem_cons_self)
    rw [run, perform_eq h, ok_bind]
    simp only [ih hlater fun limit hmem => hrenew limit (List.mem_cons_of_mem _ hmem), ok_bind]
    rfl

end Guarded

namespace Reader

open Guarded (Safe)

/-- Whatever the source delivers and whatever calls are made, no guard of lexer and reader stops a run: each call comes
back with its answer, no character is taken where there is none, and the open forms are counted between zero and the
limit, and are none behind a datum. In the end the place in the line is not behind its end, and no more lines have been
counted than there were bytes. -/
theorem run_without_fault (source : Source) {limit : Nat} {commands : List Command} (hlimit : limit < UInt64.size)
    (hrenew : ∀ limit', .renew limit' ∈ commands → limit' < UInt64.size) :
    let start := ofLexer (Lexer.ofSource source) limit
    let feed := (start.run commands).2.lexer.feed
    Guarded.run start commands = .ok (start.run commands) ∧
      feed.cursor ≤ feed.text.size ∧
      feed.line + feed.source.size ≤ source.size := by
  intro start feed
  have hsafe : Safe start := ⟨Feed.within_ofSource source, hlimit⟩
  have hreaches : start.lexer.feed.Reaches feed := (reaches_run start commands).feed
  refine ⟨Guarded.run_eq hsafe hrenew, hreaches.within hsafe.within, ?_⟩
  have hline := hreaches.line_le
  rwa [show start.lexer.feed.line = 0 from rfl, Nat.zero_add] at hline

/-- The second form meets the limit, and a reader with a higher one goes on behind it. Then the source reports its end
within an octal code and fails when a further digit is asked for, which takes the line away from under the scanner. -/
theorem run_without_fault_of_failure_within_escape :
    let texts := ["((a) \"\\4", "", "2\""]
    let deliveries := texts.map (fun text => .bytes (Utf8.encode text.toList)) ++ [.failure "lost"]
    let start := ofLexer (Lexer.ofSource (.ofDeliveries deliveries)) 1
    let commands : List Command := [.read, .renew 2, .read, .yieldAll, .lexer .take, .checkEnd]
    let feed := (start.run commands).2.lexer.feed
    1 < UInt64.size ∧ (∀ limit', .renew limit' ∈ commands → limit' < UInt64.size) ∧
      feed.failure = some (.unreadable 2 (.reported "lost")) ∧
      Guarded.run start commands = .ok (start.run commands) ∧
      feed.cursor ≤ feed.text.size ∧
      feed.line + feed.source.size ≤ (Source.ofDeliveries deliveries).size := by
  intro texts deliveries start commands feed
  have hlimit : 1 < UInt64.size := by decide
  have hrenew : ∀ limit', .renew limit' ∈ commands → limit' < UInt64.size := by
    intro limit' hmem
    simp only [commands, List.mem_cons, List.not_mem_nil, reduceCtorEq, Command.renew.injEq, or_false, false_or] at hmem
    rw [hmem]
    decide
  have hfailure : feed.failure = some (.unreadable 2 (.reported "lost")) := by decide +kernel
  exact ⟨hlimit, hrenew, hfailure, run_without_fault (.ofDeliveries deliveries) hlimit hrenew⟩

end Reader

end Sexp
