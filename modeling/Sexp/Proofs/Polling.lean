import Sexp.Proofs.Layout
import Sexp.Proofs.LineByLine
import Sexp.Proofs.Progress

/-!
# How much a source is asked for

A source does not remember that it has reported its end, so whoever meets the end asks once more: the line that it cuts
short, an octal code, the string literal around it, and at last the search for a further token. These are the only polls
behind the last delivery, since the lexer remembers the clean end (`Feed.Overpolls` says where the scanner may have made
how many of them). And each token costs a byte. So however many calls there are, the deliveries bound the polls and the
tokens (`Reader.polls_and_tokens_bounded`).
-/

namespace Sexp

/-! ## Sources -/

namespace Source

variable {source : Source} {steps : Nat}

/-- Each poll so far has taken one of so many deliveries. -/
def Covered (steps : Nat) (source : Source) : Prop := source.polls + source.pending.length ≤ steps

/-- Nothing is left of what has been delivered, and no delivery is to come. -/
def Drained (source : Source) : Prop := source.unread = [] ∧ source.pending = []

theorem covered_or_drained_collectLine (collected : List UInt8) (polls : Nat) (pending : List Delivery)
    (h : polls + pending.length ≤ steps) :
    (collectLine collected polls pending).2.Covered steps ∨
      (collectLine collected polls pending).2.Drained ∧
        (collectLine collected polls pending).2.polls ≤ steps + 1 := by
  fun_induction collectLine collected polls pending with
  | case1 => exact .inr ⟨⟨rfl, rfl⟩, Nat.add_le_add_right h 1⟩
  | case2 collected polls pending ih =>
    rw [List.length_cons] at h
    exact ih (by omega)
  | case6 collected polls content pending _ _ ih =>
    rw [List.length_cons] at h
    exact ih (by omega)
  | _ =>
    rw [List.length_cons] at h
    refine .inl ?_
    simp only [Covered]
    omega

theorem covered_or_drained_takeText (h : source.Covered steps) :
    source.takeText.2.Covered steps ∨ source.takeText.2.Drained ∧ source.takeText.2.polls ≤ steps + 1 := by
  rw [takeText_eq, takeLine]
  cases cutLine? source.unread with
  | some cut => exact .inl h
  | none => exact covered_or_drained_collectLine _ _ _ h

theorem takeText_of_drained (h : source.Drained) : source.takeText = (.ok [], ⟨[], [], source.polls + 1⟩) := by
  obtain ⟨unread, pending, polls⟩ := source
  obtain ⟨rfl, rfl⟩ := h
  rfl

theorem size_ofDeliveries_append (before after : List Delivery) :
    (ofDeliveries (before ++ after)).size = (ofDeliveries before).size + (ofDeliveries after).size := by
  induction before with
  | nil => exact (Nat.zero_add _).symm
  | cons delivery before ih =>
    simp only [size, ofDeliveries, List.cons_append, List.map_cons, List.foldr_cons, List.length_nil] at ih ⊢
    omega

theorem pending_collectLine (collected : List UInt8) (polls : Nat) (pending : List Delivery) :
    (collectLine collected polls pending).2.pending <:+ pending := by
  fun_induction collectLine collected polls pending with
  | case1 => exact List.suffix_refl _
  | case2 collected polls pending ih => exact ih.trans (List.suffix_cons _ _)
  | case6 collected polls content pending _ _ ih => exact ih.trans (List.suffix_cons _ _)
  | _ => exact List.suffix_cons _ _

theorem pending_takeText (source : Source) : source.takeText.2.pending <:+ source.pending := by
  rw [takeText_eq, takeLine]
  cases cutLine? source.unread with
  | some cut => exact List.suffix_refl _
  | none => exact pending_collectLine ..

end Source

/-! ## Feeds -/

namespace Feed

variable {feed next : Feed} {steps extra more : Nat} {c : Char}

/-- There has been no poll behind so many deliveries, or the source is drained and there have been no more than `extra`
of them. A line that still has characters ahead has seen the one at most that cut it short. -/
def Overpolls (steps extra : Nat) (feed : Feed) : Prop :=
  feed.source.Covered steps ∨
    (feed.source.Drained ∧ feed.source.polls ≤ steps + extra ∧
      (feed.ahead ≠ [] → feed.source.polls ≤ steps + 1))

theorem overpolls_ofDeliveries (deliveries : List Delivery) (extra : Nat) :
    (ofSource (.ofDeliveries deliveries)).Overpolls deliveries.length extra :=
  .inl (Nat.le_of_eq (Nat.zero_add _))

theorem Overpolls.mono (hle : extra ≤ more) (h : feed.Overpolls steps extra) : feed.Overpolls steps more := by
  rcases h with hcovered | ⟨hdrained, hpolls, hahead⟩
  · exact .inl hcovered
  · exact .inr ⟨hdrained, by omega, hahead⟩

theorem ahead_ne_nil_of_current? (hc : feed.current? = some c) : feed.ahead ≠ [] := by
  intro hnil
  rw [current?_eq_head?, hnil] at hc
  cases hc

theorem Overpolls.here (hc : feed.current? = some c) (h : feed.Overpolls steps extra) : feed.Overpolls steps 1 := by
  rcases h with hcovered | ⟨hdrained, _, hahead⟩
  · exact .inl hcovered
  · exact .inr ⟨hdrained, hahead (ahead_ne_nil_of_current? hc), hahead⟩

theorem Overpolls.pass (h : feed.Overpolls steps 1) : feed.pass.Overpolls steps 1 := by
  rcases h with hcovered | ⟨hdrained, hpolls, _⟩
  · exact .inl hcovered
  · exact .inr ⟨hdrained, hpolls, fun _ => hpolls⟩

theorem Overpolls.passLine (h : feed.Overpolls steps 1) : feed.passLine.Overpolls steps 1 := by
  rcases h with hcovered | ⟨hdrained, hpolls, _⟩
  · exact .inl hcovered
  · exact .inr ⟨hdrained, hpolls, fun _ => hpolls⟩

/-- A further line costs one poll behind the deliveries at most. If the source was drained before, there is none. -/
theorem Overpolls.nextLine (hahead : feed.ahead = []) (h : feed.Overpolls steps extra) :
    feed.nextLine.Overpolls steps (extra + 1) := by
  rcases h with hcovered | ⟨hdrained, hpolls, _⟩
  · have htaken := Source.covered_or_drained_takeText hcovered
    rw [← source_nextLine] at htaken
    rcases htaken with hcovered | ⟨hdrained, hpolls⟩
    · exact .inl hcovered
    · exact .inr ⟨hdrained, by omega, fun _ => hpolls⟩
  · have hnext : feed.nextLine = { feed with source := ⟨[], [], feed.source.polls + 1⟩ } := by
      rw [Feed.nextLine, Source.takeText_of_drained hdrained]
    rw [hnext]
    exact .inr ⟨⟨rfl, rfl⟩, Nat.add_le_add_right hpolls 1, fun hne => absurd hahead hne⟩

theorem Overpolls.fill (h : feed.Overpolls steps extra) : feed.fill.Overpolls steps (extra + 1) := by
  unfold Feed.fill
  split
  · exact h.mono (Nat.le_succ _)
  · rename_i hread
    rw [not_or, Nat.not_lt] at hread
    exact h.nextLine ((ahead_eq_nil_iff feed).2 hread.1)

theorem Overpolls.pass_fill (hc : feed.fill.current? = some c) (h : feed.Overpolls steps extra) :
    feed.fill.pass.Overpolls steps 1 :=
  (h.fill.here hc).pass

/-! ### Deliveries and bytes -/

/-- The deliveries of the source are the last of these. -/
def Awaits (deliveries : List Delivery) (feed : Feed) : Prop := feed.source.pending <:+ deliveries

theorem awaits_move {deliveries : List Delivery} (hmove : feed.Move next) (h : feed.Awaits deliveries) :
    next.Awaits deliveries := by
  cases hmove with
  | fill =>
    unfold Feed.fill
    split
    · exact h
    · rw [Awaits, source_nextLine]
      exact (Source.pending_takeText feed.source).trans h
  | pass => exact h
  | passLine => exact h

end Feed

/-! ## Scanners -/

namespace Token

variable {feed : Feed} {steps : Nat}

theorem overpolls_takeWord (letters : List Char) (h : feed.Overpolls steps 1) :
    (takeWord letters feed).2.Overpolls steps 2 := by
  fun_induction takeWord letters feed with
  | case1 letters feed c hc _ ih => exact ih (h.pass_fill hc)
  | case2 => exact h.fill
  | case3 => exact h.fill

theorem overpolls_takeOctal (digits code : Nat) (h : feed.Overpolls steps 1) :
    (takeOctal digits code feed).2.Overpolls steps 2 := by
  fun_induction takeOctal digits code feed with
  | case1 => exact h.mono (Nat.le_succ _)
  | case2 digits code feed digit hdigit ih =>
    obtain ⟨c, hc, _⟩ := Option.bind_eq_some_iff.1 hdigit
    exact ih (h.pass_fill hc)
  | case3 => exact h.fill

theorem overpolls_takeEscape (h : feed.Overpolls steps 1) : (takeEscape feed).2.Overpolls steps 2 := by
  unfold takeEscape
  cases hc : feed.fill.current? with
  | none => exact h.fill
  | some c =>
    simp only
    cases octalDigit? c with
    | none => exact (h.pass_fill hc).mono (Nat.le_succ _)
    | some first => exact overpolls_takeOctal _ _ (h.pass_fill hc)

theorem overpolls_takeString (content : List Char) (h : feed.Overpolls steps 2) :
    (takeString content feed).2.Overpolls steps 3 := by
  fun_induction takeString content feed with
  | case1 content feed hc => exact (h.pass_fill hc).mono (by omega)
  | case2 => exact h.fill
  | case3 content feed escaped rest he hc _ _ ih =>
    have hescape := overpolls_takeEscape (h.pass_fill hc)
    rw [he] at hescape
    exact ih hescape
  | case4 content feed rest he hc _ _ =>
    have hescape := overpolls_takeEscape (h.pass_fill hc)
    rw [he] at hescape
    exact hescape.mono (Nat.le_succ _)
  | case5 content feed c hc _ _ _ ih => exact ih ((h.pass_fill hc).mono (Nat.le_succ _))
  | case6 => exact h.fill

theorem overpolls_scanFrom {c : Char} (h : feed.Overpolls steps 1) : (scanFrom c feed).2.Overpolls steps 3 := by
  unfold scanFrom
  cases markKind? c with
  | some kind => exact h.pass.mono (by omega)
  | none =>
    simp only
    split
    · exact overpolls_takeString [] (h.pass.mono (Nat.le_succ _))
    · exact (overpolls_takeWord [] h).mono (Nat.le_succ _)

/-- Behind a token there is one poll left for the search for the next one. -/
theorem overpolls_scan (feed : Feed) (h : feed.Overpolls steps 3) :
    (scan feed).2.Overpolls steps 4 ∧ ((scan feed).1 ≠ none → (scan feed).2.Overpolls steps 3) := by
  induction hsize : feed.size using Nat.strongRecOn generalizing feed with
  | _ size ih =>
    subst hsize
    cases hc : feed.fill.current? with
    | none =>
      rw [scan_none hc]
      exact ⟨h.fill, fun hne => absurd rfl hne⟩
    | some c =>
      have hhere := h.fill.here hc
      rw [scan_some hc]
      split
      · exact ih _ (Feed.size_pass_fill hc) _ (hhere.pass.mono (by omega)) rfl
      · split
        · exact ih _ (Feed.size_passLine_fill hc) _ (hhere.passLine.mono (by omega)) rfl
        · exact ⟨(overpolls_scanFrom hhere).mono (Nat.le_succ _), fun _ => overpolls_scanFrom hhere⟩

end Token

/-! ## Lexers -/

namespace Lexer

variable {lexer next : Lexer} {steps : Nat} {deliveries : List Delivery}

/-- There have been four polls behind so many deliveries at most, and three if the source may be polled again. -/
def Overpolls (steps : Nat) (lexer : Lexer) : Prop :=
  lexer.feed.Overpolls steps 4 ∧ ((∃ outcome, lexer.Ended outcome) ∨ lexer.feed.Overpolls steps 3)

theorem overpolls_scanAhead {feed : Feed} (h : feed.Overpolls steps 3) : (scanAhead feed).2.Overpolls steps := by
  obtain ⟨hfour, hthree⟩ := Token.overpolls_scan feed h
  rcases scanAhead_cases feed with ⟨error, hfailure, hscan⟩ | ⟨token, htoken, _, hscan⟩ | ⟨_, _, hscan⟩
  all_goals rw [hscan]
  · exact ⟨hfour, .inl ⟨.failed error, hfailure⟩⟩
  · refine ⟨hfour, .inr (hthree ?_)⟩
    rw [htoken]
    exact Option.some_ne_none token
  · exact ⟨hfour, .inl ⟨.finished, rfl⟩⟩

theorem overpolls_look (hcoherent : lexer.Coherent) (h : lexer.Overpolls steps) : lexer.look.2.Overpolls steps := by
  rcases h.2 with ⟨outcome, hended⟩ | hthree
  · rw [look_of_ended hcoherent hended]
    exact h
  · rcases look_cases lexer with ⟨_, _, hlook⟩ | ⟨_, hlook⟩ | ⟨_, _, _, hlook⟩ | ⟨_, _, hlook⟩
    all_goals rw [hlook]
    · exact h
    · exact h
    · exact h
    · exact overpolls_scanAhead hthree

theorem overpolls_move (hmove : lexer.Move next) (h : lexer.Coherent ∧ lexer.Overpolls steps) :
    next.Coherent ∧ next.Overpolls steps := by
  refine ⟨coherent_move hmove h.1, ?_⟩
  have hlooked := overpolls_look h.1 h.2
  cases hmove with
  | look => exact hlooked
  | take =>
    rcases take_cases lexer with ⟨token, rest, hlook, htake⟩ | htake
    · rw [hlook] at hlooked
      rw [htake]
      refine ⟨hlooked.1, .inr ?_⟩
      -- a lexer with a token of lookahead has not ended
      rcases hlooked.2 with ⟨outcome, hended⟩ | hthree
      · have hrest : rest.Coherent := by
          have := coherent_look h.1
          rwa [hlook] at this
        have hlookahead := lookahead_look hlook
        cases outcome with
        | failed error => cases hlookahead.symm.trans (hrest.lookahead error hended)
        | finished => cases hlookahead.symm.trans hended
      · exact hthree
    · rw [htake]
      exact hlooked

theorem polls_le_of_reaches (h : (ofSource (.ofDeliveries deliveries)).Reaches lexer) :
    lexer.polls ≤ deliveries.length + 4 := by
  have hstart : (ofSource (.ofDeliveries deliveries)).Overpolls deliveries.length :=
    ⟨Feed.overpolls_ofDeliveries deliveries 4, .inr (Feed.overpolls_ofDeliveries deliveries 3)⟩
  have hlast := (h.keeps overpolls_move ⟨coherent_ofSource _, hstart⟩).2.1
  rcases hlast with hcovered | ⟨_, hpolls, _⟩
  · have hle : lexer.polls + lexer.feed.source.pending.length ≤ deliveries.length := hcovered
    omega
  · exact hpolls

end Lexer

/-! ## Tokens -/

/-- The token of lookahead, if there is one. -/
def Lookahead.tokens : Lookahead → List Token
  | .token found => [found]
  | _ => []

namespace Lexer

variable {lexer next : Lexer}

theorem size_eq (lexer : Lexer) : lexer.size = lexer.feed.size + lexer.lookahead.tokens.length := by
  unfold size
  cases lexer.lookahead <;> rfl

/-- The lexer has come to the second one by handing out these tokens, each of which lowers what is left. The token of
lookahead is one of them, or it is still there. -/
structure Takes (lexer : Lexer) (tokens : List Token) (rest : Lexer) : Prop where
  spends : lexer.Spends tokens rest
  size_le : tokens.length + rest.size ≤ lexer.size
  lookahead : lexer.lookahead.tokens ⊆ tokens ++ rest.lookahead.tokens

theorem Takes.trans {tokens more : List Token} {last : Lexer} (h : lexer.Takes tokens next)
    (hlast : next.Takes more last) : lexer.Takes (tokens ++ more) last := by
  refine ⟨h.spends.trans hlast.spends, ?_, ?_⟩
  · have hsize := h.size_le
    have hmore := hlast.size_le
    rw [List.length_append]
    omega
  · rw [List.append_assoc]
    exact List.Subset.trans h.lookahead (List.append_subset.2 ⟨List.subset_append_left _ _,
      List.subset_append_of_subset_right _ hlast.lookahead⟩)

theorem takes_nil (lexer : Lexer) : lexer.Takes [] lexer :=
  ⟨rfl, Nat.le_of_eq (Nat.zero_add _), List.Subset.refl _⟩

theorem takes_look (lexer : Lexer) : lexer.Takes [] lexer.look.2 := by
  refine ⟨(takeAll_look lexer).symm, ?_, ?_⟩
  · have hsize := size_look lexer
    rwa [List.length_nil, Nat.zero_add]
  · rcases look_cases lexer with ⟨_, _, hlook⟩ | ⟨_, hlook⟩ | ⟨_, _, _, hlook⟩ | ⟨hnothing, _⟩
    · rw [hlook]; exact List.Subset.refl _
    · rw [hlook]; exact List.Subset.refl _
    · rw [hlook]; exact List.Subset.refl _
    · rw [hnothing]
      exact List.nil_subset _

theorem takes_take (lexer : Lexer) : lexer.Takes lexer.take?.1.toList lexer.take.2 := by
  refine ⟨spends_take lexer, ?_, ?_⟩
  · cases htoken : lexer.take?.1 with
    | none =>
      rw [Option.toList_none, List.length_nil, Nat.zero_add]
      exact size_take lexer
    | some token =>
      rw [Option.toList_some, List.length_singleton, Nat.add_comm]
      exact size_take?_lt (Prod.ext htoken rfl)
  · cases hlookahead : lexer.lookahead with
    | token token =>
      have htake : lexer.take?.1 = some token := by rw [take?, take, look, hlookahead]; rfl
      rw [htake]
      exact List.subset_append_left _ _
    | _ => exact List.nil_subset _

theorem exists_takes_of_reaches (h : lexer.Reaches next) : ∃ tokens, lexer.Takes tokens next := by
  induction h with
  | refl => exact ⟨[], takes_nil lexer⟩
  | tail _ hmove ih =>
    obtain ⟨tokens, htakes⟩ := ih
    cases hmove with
    | look => exact ⟨tokens ++ [], htakes.trans (takes_look _)⟩
    | take => exact ⟨_, htakes.trans (takes_take _)⟩

theorem takes_takeAll (lexer : Lexer) : lexer.Takes lexer.takeAll.1 lexer.takeAll.2 := by
  induction hsize : lexer.size using Nat.strongRecOn generalizing lexer with
  | _ size ih =>
    subst hsize
    have hone := takes_take lexer
    rcases htake : lexer.take? with ⟨_ | token, rest⟩
    all_goals
      rw [htake] at hone
      rw [← snd_take?, htake] at hone
    · rw [takeAll_of_none htake]
      exact hone
    · rw [takeAll_of_token htake]
      exact hone.trans (ih _ (size_take?_lt htake) rest rfl)

theorem exists_takes_perform (lexer : Lexer) {command : Command} (h : command.onlyLooks = false) :
    ∃ tokens, lexer.Takes tokens (lexer.perform command).2 ∧
      (lexer.perform command).1.handedOut.Sublist tokens := by
  cases command with
  | take =>
    refine ⟨_, takes_take lexer, ?_⟩
    show (Answer.attempt lexer.take.1).handedOut.Sublist lexer.take.1.toOption.join.toList
    rcases lexer.take.1 with error | (_ | token) <;> exact List.Sublist.refl _
  | take? =>
    refine ⟨_, takes_take lexer, ?_⟩
    show (Answer.token lexer.take?.1).handedOut.Sublist lexer.take?.1.toList
    rcases lexer.take?.1 with _ | token <;> exact List.Sublist.refl _
  | takeAll => exact ⟨_, takes_takeAll lexer, List.Sublist.refl _⟩
  | _ => cases h

theorem handedOut_subset_of_onlyLooks (lexer : Lexer) {command : Command} (h : command.onlyLooks) :
    (lexer.perform command).1.handedOut ⊆ (lexer.perform command).2.lookahead.tokens := by
  have hlook : ∀ token, lexer.look.1 = .ok (some token) → token ∈ lexer.look.2.lookahead.tokens := by
    intro token hlook
    rw [lookahead_look (Prod.ext hlook rfl)]
    exact List.mem_singleton_self token
  intro token htoken
  cases command with
  | look => exact hlook token (Answer.mem_handedOut_attempt htoken)
  | look? => exact hlook token (Answer.mem_handedOut_token htoken)
  | take => cases h
  | take? => cases h
  | takeAll => cases h
  | _ => cases htoken

end Lexer

/-! ## Runs -/

namespace Reader

theorem exists_takes_perform (reader : Reader) (command : Command) :
    ∃ tokens, reader.lexer.Takes tokens (reader.perform command).2.lexer ∧
      (command.onlyLooks = false → (reader.perform command).1.handedOut.Sublist tokens) ∧
      (reader.perform command).1.handedOut ⊆ tokens ++ (reader.perform command).2.lexer.lookahead.tokens := by
  obtain ⟨tokens, htakes⟩ := Lexer.exists_takes_of_reaches (reaches_perform reader command)
  cases command with
  | lexer command =>
    cases hlooks : command.onlyLooks with
    | true =>
      refine ⟨tokens, htakes, fun h => (by cases hlooks.symm.trans h), ?_⟩
      exact List.subset_append_of_subset_right _ (Lexer.handedOut_subset_of_onlyLooks reader.lexer hlooks)
    | false =>
      obtain ⟨tokens, htakes, hsub⟩ := Lexer.exists_takes_perform reader.lexer hlooks
      exact ⟨tokens, htakes, fun _ => hsub, List.subset_append_of_subset_left _ hsub.subset⟩
  | _ => exact ⟨tokens, htakes, fun _ => List.nil_sublist tokens, List.nil_subset _⟩

theorem exists_takes_run (reader : Reader) (commands : List Command) :
    ∃ tokens, reader.lexer.Takes tokens (reader.run commands).2.lexer ∧
      ((readAnswers commands (reader.run commands).1).flatMap Answer.handedOut).Sublist tokens ∧
      ∀ answer ∈ (reader.run commands).1,
        answer.handedOut ⊆ tokens ++ (reader.run commands).2.lexer.lookahead.tokens := by
  induction commands generalizing reader with
  | nil => exact ⟨[], reader.lexer.takes_nil, List.Sublist.refl _, List.forall_mem_nil _⟩
  | cons command commands ih =>
    obtain ⟨first, hfirst, hhanded, hshown⟩ := exists_takes_perform reader command
    obtain ⟨more, hmore, hrest, hlater⟩ := ih (reader.perform command).2
    rw [run_cons]
    refine ⟨first ++ more, hfirst.trans hmore, ?_, ?_⟩
    · rw [readAnswers, List.zip_cons_cons]
      cases hlooks : command.onlyLooks with
      | true =>
        rw [List.filter_cons_of_neg (by simp [hlooks])]
        exact hrest.trans (List.sublist_append_right first more)
      | false =>
        rw [List.filter_cons_of_pos (by simp [hlooks]), List.map_cons, List.flatMap_cons]
        exact (hhanded hlooks).append hrest
    · rw [List.append_assoc]
      refine List.forall_mem_cons.2 ⟨?_, fun answer hanswer => ?_⟩
      · -- what has only been looked at is taken later, or is looked at still
        exact List.Subset.trans hshown (List.append_subset.2 ⟨List.subset_append_left _ _,
          List.subset_append_of_subset_right _ hmore.lookahead⟩)
      · exact List.subset_append_of_subset_right _ (hlater answer hanswer)

/-- However many calls there are, the source is polled once for each delivery and four times behind them at most. The
tokens that have been taken, be they handed out or made into data, are no more than the bytes of the deliveries so far,
even if the token that has only been looked at is counted with them. -/
theorem polls_and_tokens_bounded (deliveries : List Delivery) (limit : Nat) (commands : List Command) :
    let start := ofLexer (Lexer.ofSource (.ofDeliveries deliveries)) limit
    let answers := (start.run commands).1
    let last := (start.run commands).2.lexer
    last.polls ≤ deliveries.length + 4 ∧
      ∃ delivered taken, deliveries = delivered ++ last.feed.source.pending ∧
        start.lexer.takeAll = (taken ++ last.takeAll.1, last.takeAll.2) ∧
        ((readAnswers commands answers).flatMap Answer.handedOut).Sublist taken ∧
        (∀ answer ∈ answers, answer.handedOut ⊆ taken ++ last.lookahead.tokens) ∧
        (taken ++ last.lookahead.tokens).length ≤ (Source.ofDeliveries delivered).size := by
  intro start answers last
  have hreaches : start.lexer.Reaches last := reaches_run start commands
  obtain ⟨taken, htakes, hhanded, hshown⟩ := exists_takes_run start commands
  have hawaits : last.feed.Awaits deliveries := hreaches.feed.keeps Feed.awaits_move (List.suffix_refl deliveries)
  obtain ⟨delivered, hdelivered⟩ := hawaits
  refine ⟨Lexer.polls_le_of_reaches hreaches, delivered, taken, hdelivered.symm, htakes.spends, hhanded, hshown, ?_⟩
  have hsize : taken.length + last.size ≤ (Source.ofDeliveries deliveries).size :=
    Nat.le_trans htakes.size_le (Nat.le_of_eq (Nat.zero_add _))
  have hleft : last.lookahead.tokens.length + (Source.ofDeliveries last.feed.source.pending).size ≤ last.size := by
    rw [Lexer.size_eq, Feed.size]
    simp only [Source.size, Source.ofDeliveries, List.length_nil]
    omega
  rw [← hdelivered, Source.size_ofDeliveries_append] at hsize
  rw [List.length_append]
  omega

/-- The line, the octal code, the string literal and the search for a further token all meet the end. -/
example : ((ofLexer (Lexer.ofSource (.ofDeliveries [.bytes [34, 92, 49]])) 8).run
    [.lexer .takeAll, .read]).2.lexer.polls = 1 + 4 := by
  decide +kernel

end Reader

end Sexp
