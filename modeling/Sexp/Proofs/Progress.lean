import Sexp.Proofs.Finality
import Sexp.Proofs.Lookahead

/-!
# Every reading makes progress

Reading takes tokens off the front of those that are left and changes nothing behind them, whether it answers a
datum or an error. The first of these tokens is taken in any case, and where the end of the text or a read failure
is answered all of them are (`Reader.read_progress`). So whoever reads on for as long as there is a token, and
cares for no error, is done after one call for every token at most (`Reader.readOn`).
-/

namespace Sexp

namespace Lexer

variable {lexer rest last : Lexer} {tokens more : List Token} {outcome : Outcome}

/-- The first lexer has these tokens and then what the second one has, and ends as that one does. -/
def Spends (lexer : Lexer) (tokens : List Token) (rest : Lexer) : Prop :=
  lexer.takeAll = (tokens ++ rest.takeAll.1, rest.takeAll.2)

theorem Spends.trans (h : lexer.Spends tokens rest) (hrest : rest.Spends more last) :
    lexer.Spends (tokens ++ more) last := by
  unfold Spends at h hrest ⊢
  rw [h, hrest, List.append_assoc]

theorem spends_take (lexer : Lexer) : lexer.Spends lexer.take?.1.toList lexer.take.2 := by
  unfold Spends
  rcases htake : lexer.take with ⟨failure | (_ | token), rest⟩
  · have hagain := (take_of_error htake).2
    rw [take?, htake, takeAll_of_take_error htake, takeAll_of_take_error hagain]
    rfl
  · have hagain := take_of_none htake
    rw [take?, htake, takeAll_of_take_none htake, takeAll_of_take_none hagain]
    rfl
  · rw [take?, htake, takeAll_of_take_token htake]
    rfl

theorem takeAll_of_ended (hcoherent : lexer.Coherent) (h : lexer.Ended outcome) : lexer.takeAll = ([], lexer) := by
  apply takeAll_of_none
  rw [take?, take_of_ended hcoherent h]
  cases outcome <;> rfl

theorem takeAll_look (lexer : Lexer) : lexer.look.2.takeAll = lexer.takeAll := by
  have hspends := spends_take lexer.look.2
  rw [Spends, take?, take_eq_of_look_eq (look_look lexer)] at hspends
  rw [hspends]
  exact (spends_take lexer).symm

theorem exists_take?_of_hasToken (h : lexer.hasToken.1 = true) : ∃ token, lexer.take?.1 = some token := by
  obtain ⟨token, htake⟩ := (hasToken_iff lexer).1 h
  refine ⟨token, ?_⟩
  show lexer.take.1.toOption.join = some token
  rw [htake]
  rfl

theorem hasToken_look (lexer : Lexer) : lexer.look.2.hasToken = lexer.hasToken := by
  unfold hasToken look?
  rw [look_look]

end Lexer

namespace Reader

variable {reader : Reader}

/-! ## One form -/

/-- Whatever it answers, reading takes the first token, if there is one, and after that only tokens behind it. -/
theorem complete_spends (limit : Nat) (state : Awaiting) (lexer : Lexer) :
    ∃ more, lexer.Spends (lexer.take?.1.toList ++ more) (complete limit state lexer).2 := by
  induction hsize : lexer.size using Nat.strongRecOn generalizing state lexer with
  | _ size ih =>
    subst hsize
    have hspends := Lexer.spends_take lexer
    have hone : ∃ more, lexer.Spends (lexer.take?.1.toList ++ more) lexer.take.2 := by
      refine ⟨[], ?_⟩
      rw [List.append_nil]
      exact hspends
    rw [complete_eq]
    rcases htake : lexer.take with ⟨failure | (_ | token), rest⟩
    all_goals rw [htake] at hspends hone
    · exact hone
    · exact hone
    · simp only [afterToken]
      cases state.step limit token with
      | more next =>
        obtain ⟨more, hmore⟩ := ih _ (Lexer.size_take_lt htake) next rest rfl
        exact ⟨rest.take?.1.toList ++ more, hspends.trans hmore⟩
      | done datum => exact hone
      | failed error => exact hone

theorem read_spends (reader : Reader) :
    ∃ taken, reader.lexer.Spends taken reader.read.2.lexer ∧ (reader.lexer.hasToken.1 = true → taken ≠ []) := by
  obtain ⟨more, hmore⟩ := complete_spends reader.limit .start reader.lexer
  refine ⟨_, hmore, ?_⟩
  intro htoken
  obtain ⟨token, htake⟩ := Lexer.exists_take?_of_hasToken htoken
  rw [htake]
  exact List.cons_ne_nil token more

/-! ## Reading on -/

theorem length_read_lt (h : reader.lexer.hasToken.1 = true) :
    reader.read.2.lexer.takeAll.1.length < reader.lexer.takeAll.1.length := by
  obtain ⟨taken, hspends, hne⟩ := read_spends reader
  have hpos := List.length_pos_iff.2 (hne h)
  rw [hspends, List.length_append]
  omega

theorem length_read_looked_lt {looked : Lexer} (h : reader.lexer.hasToken = (true, looked)) :
    (read { reader with lexer := looked }).2.lexer.takeAll.1.length < reader.lexer.takeAll.1.length := by
  obtain rfl : reader.lexer.look.2 = looked := congrArg Prod.snd h
  have hlooked : reader.lexer.look.2.hasToken.1 = true := by rw [Lexer.hasToken_look, h]
  have hlt := @length_read_lt { reader with lexer := reader.lexer.look.2 } hlooked
  rwa [Lexer.takeAll_look] at hlt

/-- Reads one datum after the other for as long as there is a token, whatever is answered. -/
def readOn (reader : Reader) : List (Except Error Datum) × Reader :=
  match _ : reader.lexer.hasToken with
  | (true, lexer) =>
    let answered := read { reader with lexer }
    let later := readOn answered.2
    (answered.1 :: later.1, later.2)
  | (false, lexer) => ([], { reader with lexer })
termination_by reader.lexer.takeAll.1.length
decreasing_by exact length_read_looked_lt (by assumption)

theorem length_readOn_le (reader : Reader) :
    reader.readOn.1.length ≤ reader.lexer.takeAll.1.length ∧ reader.readOn.2.lexer.hasToken.1 = false := by
  fun_induction readOn reader with
  | case1 reader looked h answered later ih =>
    have hlt : answered.2.lexer.takeAll.1.length < reader.lexer.takeAll.1.length := length_read_looked_lt h
    refine ⟨?_, ih.2⟩
    show answered.2.readOn.1.length + 1 ≤ reader.lexer.takeAll.1.length
    omega
  | case2 reader looked h =>
    obtain rfl : reader.lexer.look.2 = looked := congrArg Prod.snd h
    refine ⟨Nat.zero_le _, ?_⟩
    rw [Lexer.hasToken_look, h]

/-- The dot has no tail, and the second list is too deep: reading goes on behind the tokens at fault. -/
example : (ofLexer (Lexer.ofText "(a .) b ((c") 1).readOn.1 =
    [.error (.unexpectedToken ⟨1, 5⟩ "an expression" ")"), .ok (.atom "b"), .error (.tooDeep 1), .ok (.atom "c")] := by
  decide +kernel

/-! ## Progress -/

/-- In every state that a run of calls can reach, reading takes the first of the tokens that are left, with some of
those behind it, and leaves the others with their end. It takes one whenever there is one. If it answers that the text
has ended or that it cannot be read, no token is left. So reading on takes no more calls than there are tokens. -/
theorem read_progress (source : Source) (limit : Nat) (commands : List Command) :
    let reader := ((ofLexer (Lexer.ofSource source) limit).run commands).2
    let next := reader.read.2
    (∃ taken, reader.lexer.takeAll.1 = taken ++ next.lexer.takeAll.1 ∧
        reader.lexer.takeAll.2 = next.lexer.takeAll.2 ∧ (reader.lexer.hasToken.1 = true → taken ≠ [])) ∧
      (∀ error, reader.read.1 = .error error → error.isUnreadable ∨ (∃ context, error = .unexpectedEnd context) →
        next.lexer.takeAll.1 = []) ∧
      reader.readOn.1.length ≤ reader.lexer.takeAll.1.length ∧ reader.readOn.2.lexer.hasToken.1 = false := by
  intro reader next
  have hcoherent : reader.lexer.Coherent :=
    Lexer.coherent_of_reaches (reaches_run (ofLexer (Lexer.ofSource source) limit) commands)
  refine ⟨?_, ?_, length_readOn_le reader⟩
  · obtain ⟨taken, hspends, hne⟩ := read_spends reader
    obtain ⟨htokens, hlast⟩ := Prod.ext_iff.1 hspends
    exact ⟨taken, htokens, hlast, hne⟩
  · intro error herror hend
    -- either error tells how reading has ended, and behind that there is no token
    have houtcome : ∃ outcome, error.outcome? = some outcome := by
      rcases hend with hunreadable | ⟨context, rfl⟩
      · cases error with
        | unreadable line failure => exact ⟨_, rfl⟩
        | _ => cases hunreadable
      · exact ⟨_, rfl⟩
    obtain ⟨outcome, houtcome⟩ := houtcome
    have hended : next.lexer.Ended outcome := by
      apply ended_of_complete reader.limit .start hcoherent
      rw [show (complete reader.limit .start reader.lexer).1 = .error error from herror]
      exact houtcome
    have hnext : next.lexer.Coherent := (reaches_complete _ _ _).keeps Lexer.coherent_move hcoherent
    rw [Lexer.takeAll_of_ended hnext hended]

end Reader

end Sexp
