import Sexp.Guarded.Lexer
import Sexp.Proofs.Reaching

/-!
# The lexer meets no fault

As long as the place in the line is not behind its end, the guarded scanners do what the plain ones do, and no guard
stops them. Every move of a feed keeps it so (`Feed.within_move`), hence every call of a lexer does
(`Guarded.performLexer_eq`).
-/

namespace Sexp

/-! ## Places within their line -/

namespace Feed

variable {feed next : Feed} {c : Char}

/-- The place in the line is not behind its end. -/
def Within (feed : Feed) : Prop := feed.cursor ≤ feed.text.size

theorem within_ofSource (source : Source) : (ofSource source).Within := Nat.le_refl _

theorem current?_eq_none_iff (feed : Feed) : feed.current? = none ↔ feed.text.size ≤ feed.cursor :=
  Array.getElem?_eq_none_iff

/-- Either a further line has been read and has a first character, or the line is as used up as before. -/
theorem nextLine_cases (hused : feed.text.size ≤ feed.cursor) :
    (feed.line < feed.nextLine.line ∧ ∃ c, feed.nextLine.current? = some c) ∨
      (feed.nextLine.line = feed.line ∧ feed.nextLine.current? = none) := by
  unfold nextLine
  rcases feed.source.takeText with ⟨failure | (_ | ⟨c, text⟩), source⟩
  · exact .inr ⟨rfl, rfl⟩
  · exact .inr ⟨rfl, (current?_eq_none_iff _).2 hused⟩
  · exact .inl ⟨Nat.lt_succ_self _, c, rfl⟩

theorem within_nextLine (h : feed.Within) : feed.nextLine.Within := by
  unfold nextLine
  rcases feed.source.takeText with ⟨failure | (_ | ⟨c, text⟩), source⟩
  · exact Nat.zero_le _
  · exact h
  · exact Nat.zero_le _

theorem within_fill (h : feed.Within) : feed.fill.Within := by
  unfold fill
  split
  · exact h
  · exact within_nextLine h

theorem within_pass (hc : feed.current? = some c) : feed.pass.Within := cursor_lt_of_current? hc

theorem within_passLine (feed : Feed) : feed.passLine.Within := Nat.le_refl _

theorem within_move (hmove : feed.Move next) (h : feed.Within) : next.Within := by
  cases hmove with
  | fill => exact within_fill h
  | pass hc => exact within_pass hc
  | passLine => exact within_passLine feed

theorem Reaches.within (hreaches : feed.Reaches next) (h : feed.Within) : next.Within := hreaches.keeps within_move h

/-! ## The count of lines -/

theorem line_nextLine_le (feed : Feed) :
    feed.nextLine.line + feed.nextLine.source.size ≤ feed.line + feed.source.size := by
  have hsize := Source.size_takeText feed.source
  unfold nextLine
  generalize feed.source.takeText = read at hsize ⊢
  obtain ⟨failure | (_ | ⟨c, text⟩), source⟩ := read
  all_goals
    simp only [Source.amount, List.length_nil, List.length_cons] at hsize ⊢
    omega

theorem line_fill_le (feed : Feed) : feed.fill.line + feed.fill.source.size ≤ feed.line + feed.source.size := by
  unfold fill
  split
  · exact Nat.le_refl _
  · exact line_nextLine_le feed

theorem line_move_le (hmove : feed.Move next) : next.line + next.source.size ≤ feed.line + feed.source.size := by
  cases hmove with
  | fill => exact line_fill_le feed
  | pass => exact Nat.le_refl _
  | passLine => exact Nat.le_refl _

theorem Reaches.line_le (hreaches : feed.Reaches next) :
    next.line + next.source.size ≤ feed.line + feed.source.size :=
  hreaches.keeps (P := fun last => last.line + last.source.size ≤ feed.line + feed.source.size)
    (fun hmove hbefore => Nat.le_trans (line_move_le hmove) hbefore) (Nat.le_refl _)

end Feed

namespace Guarded

open Feed (within_fill within_pass within_passLine within_nextLine)

variable {feed : Feed} {c : Char}

theorem ok_bind {α β : Type} (a : α) (f : α → Except Fault β) : (Except.ok a >>= f) = f a := rfl

theorem demand_eq {α : Type} {fault : Fault} {safe : Prop} [Decidable safe] (h : safe) (value : α) :
    demand fault safe value = .ok value := if_pos h

/-! ## Feeds -/

theorem within_eq (h : feed.Within) : within feed = .ok feed := if_pos h

theorem pass_eq (hc : feed.current? = some c) : pass feed = .ok feed.pass := within_eq (within_pass hc)

theorem passLine_eq (feed : Feed) : passLine feed = .ok feed.passLine := within_eq (within_passLine feed)

theorem here_eq (hc : feed.current? = some c) : here feed = .ok (feed.current?, feed) := by
  have htext : feed.text[feed.cursor]? = some c := hc
  rw [here, htext, hc]

theorem peek_eq (h : feed.Within) : peek feed = .ok (feed.fill.current?, feed.fill) := by
  unfold peek Feed.fill
  by_cases hahead : feed.cursor < feed.text.size
  · rw [if_pos hahead, if_pos (.inl hahead)]
    exact here_eq (Array.getElem?_eq_getElem hahead)
  · have hused : feed.text.size ≤ feed.cursor := Nat.not_lt.1 hahead
    by_cases hfailure : feed.failure.isSome
    · rw [if_neg hahead, if_pos hfailure, if_pos (.inr hfailure), (feed.current?_eq_none_iff).2 hused]
    · rw [if_neg hahead, if_neg hfailure, if_neg (not_or.2 ⟨hahead, hfailure⟩),
        within_eq (within_nextLine h), ok_bind]
      rcases Feed.nextLine_cases hused with ⟨hline, c, hc⟩ | ⟨hline, hnone⟩
      · rw [if_pos hline]
        exact here_eq hc
      · rw [if_neg (Nat.not_lt.2 (Nat.le_of_eq hline)), hnone]
        rfl

/-! ## Scanning -/

theorem octalDigit?_eq (c : Char) :
    Token.octalDigit? c = if isOctalDigit c then some (c.toNat - '0'.toNat) else none := by
  unfold Token.octalDigit? isOctalDigit
  simp only [Bool.and_eq_true, decide_eq_true_eq]

theorem octalValue_lt (hc : isOctalDigit c) : c.toNat - '0'.toNat < 8 := by
  simp only [isOctalDigit, Bool.and_eq_true, decide_eq_true_eq] at hc
  have hle : c.toNat ≤ '7'.toNat := hc.2
  have hseven : '7'.toNat = 55 := rfl
  have hzero : '0'.toNat = 48 := rfl
  omega

/-- The code stays a number of 8 bits, even if so many further digits are all as large as can be. -/
def Fits : Nat → Nat → Prop
  | 0, code => code < UInt8.size
  | digits + 1, code => Fits digits (code * 8 + 7)

theorem Fits.mono {digits code smaller : Nat} (h : Fits digits code) (hle : smaller ≤ code) :
    Fits digits smaller := by
  induction digits generalizing code smaller with
  | zero => exact Nat.lt_of_le_of_lt hle h
  | succ digits ih =>
    have hlargest : Fits digits (code * 8 + 7) := h
    exact ih hlargest (by omega)

theorem Fits.digit {digits code digit : Nat} (h : Fits (digits + 1) code) (hdigit : digit < 8) :
    Fits digits (code * 8 + digit) := by
  have hlargest : Fits digits (code * 8 + 7) := h
  exact hlargest.mono (by omega)

theorem Fits.lt {digits code : Nat} (h : Fits digits code) : code < UInt8.size := by
  induction digits generalizing code with
  | zero => exact h
  | succ digits ih =>
    have hlargest : code * 8 + 7 < UInt8.size := ih h
    omega

theorem fits_octalDigitsAfter {first : Nat} (h : first < 8) : Fits (Token.octalDigitsAfter first) first := by
  unfold Token.octalDigitsAfter
  split <;> simp only [Fits, UInt8.size] <;> omega

theorem takeOctal_eq (digits code : Nat) (h : feed.Within) (hfits : Fits digits code) :
    takeOctal digits code feed = .ok (Token.takeOctal digits code feed) := by
  induction digits generalizing code feed with
  | zero => rfl
  | succ digits ih =>
    rw [takeOctal, Token.takeOctal, peek_eq h, ok_bind]
    cases hc : feed.fill.current? with
    | none => rfl
    | some c =>
      simp only [Option.bind_some, Option.filter_some, octalDigit?_eq]
      by_cases hdigit : isOctalDigit c
      · have hlt := octalValue_lt hdigit
        have hnext := hfits.digit hlt
        simp only [if_pos hdigit, octalValue, inByte, demand_eq hdigit, demand_eq hnext.lt, pass_eq hc, ok_bind]
        exact ih _ (within_pass hc) hnext
      · simp only [if_neg hdigit]
        rfl

theorem takeEscape_eq (h : feed.Within) : takeEscape feed = .ok (Token.takeEscape feed) := by
  rw [takeEscape, Token.takeEscape, peek_eq h, ok_bind]
  cases hc : feed.fill.current? with
  | none => rfl
  | some c =>
    simp only [pass_eq hc, ok_bind, octalDigit?_eq]
    by_cases hdigit : isOctalDigit c
    · have hfits := fits_octalDigitsAfter (octalValue_lt hdigit)
      simp only [if_pos hdigit, octalValue, demand_eq hdigit, ok_bind, takeOctal_eq _ _ (within_pass hc) hfits]
      rfl
    · simp only [if_neg hdigit]
      rfl

theorem takeWord_eq (letters : List Char) (h : feed.Within) :
    takeWord letters feed = .ok (Token.takeWord letters feed) := by
  induction hsize : feed.size using Nat.strongRecOn generalizing letters feed with
  | _ size ih =>
    subst hsize
    rw [takeWord, peek_eq h, ok_bind]
    cases hc : feed.fill.current? with
    | none =>
      rw [Token.takeWord_none letters hc]
      rfl
    | some c =>
      have hless := Feed.size_pass_fill hc
      rw [Token.takeWord_some letters hc]
      by_cases hcon : Token.isConstituent c
      · simp only [if_pos hcon, pass_eq hc, ok_bind, dif_pos hless]
        exact ih _ hless _ (within_pass hc) rfl
      · simp only [if_neg hcon]
        rfl

theorem takeString_eq (content : List Char) (h : feed.Within) :
    takeString content feed = .ok (Token.takeString content feed) := by
  induction hsize : feed.size using Nat.strongRecOn generalizing content feed with
  | _ size ih =>
    subst hsize
    rw [takeString, peek_eq h, ok_bind]
    cases hc : feed.fill.current? with
    | none =>
      rw [Token.takeString_none content hc]
      rfl
    | some c =>
      have hless := Feed.size_pass_fill hc
      rw [Token.takeString_some content hc]
      simp only [pass_eq hc, ok_bind, takeEscape_eq (within_pass hc), dif_pos hless]
      by_cases hquote : c = '"'
      · rw [if_pos hquote, if_pos hquote]
        rfl
      · rw [if_neg hquote, if_neg hquote]
        by_cases hend : Token.isLineEnd c
        · rw [if_pos hend, if_pos hend]
          rfl
        · rw [if_neg hend, if_neg hend]
          by_cases hescape : c = '\\'
          · rw [if_pos hescape, if_pos hescape]
            have hrest : (Token.takeEscape feed.fill.pass).2.Within :=
              (Token.reaches_takeEscape feed.fill.pass).within (within_pass hc)
            have hsmaller := Nat.lt_of_le_of_lt (Token.size_takeEscape feed.fill.pass) hless
            generalize Token.takeEscape feed.fill.pass = escaped at hrest hsmaller ⊢
            obtain ⟨_ | escaped, rest⟩ := escaped
            · rfl
            · simp only [dif_pos hsmaller]
              exact ih _ hsmaller _ hrest rfl
          · rw [if_neg hescape, if_neg hescape]
            exact ih _ hless _ (within_pass hc) rfl

theorem scanFrom_eq (h : feed.Within) (hc : feed.current? = some c) :
    scanFrom c feed = .ok (Token.scanFrom c feed) := by
  unfold scanFrom Token.scanFrom
  cases Token.markKind? c with
  | some kind =>
    simp only [pass_eq hc, ok_bind]
    rfl
  | none =>
    simp only [pass_eq hc, takeString_eq [] (within_pass hc), takeWord_eq [] h, ok_bind]
    split <;> rfl

theorem scan_eq (h : feed.Within) : scan feed = .ok (Token.scan feed) := by
  induction hsize : feed.size using Nat.strongRecOn generalizing feed with
  | _ size ih =>
    subst hsize
    rw [scan, peek_eq h, ok_bind]
    cases hc : feed.fill.current? with
    | none =>
      rw [Token.scan_none hc]
      rfl
    | some c =>
      have hpass := Feed.size_pass_fill hc
      have hline := Feed.size_passLine_fill hc
      rw [Token.scan_some hc]
      simp only [pass_eq hc, passLine_eq, ok_bind, dif_pos hpass, dif_pos hline, scanFrom_eq (within_fill h) hc]
      by_cases hblank : Token.isBlank c
      · rw [if_pos hblank, if_pos hblank]
        exact ih _ hpass (within_pass hc) rfl
      · rw [if_neg hblank, if_neg hblank]
        by_cases hcomment : c = ';'
        · rw [if_pos hcomment, if_pos hcomment]
          exact ih _ hline (within_passLine _) rfl
        · rw [if_neg hcomment, if_neg hcomment]
          rfl

/-! ## Lexers -/

variable {lexer : Lexer}

theorem look_eq (h : lexer.feed.Within) : look lexer = .ok lexer.look := by
  unfold look Lexer.look
  cases lexer.lookahead with
  | token token => rfl
  | finish => rfl
  | nothing =>
    cases lexer.feed.failure with
    | some failure => rfl
    | none =>
      simp only [scan_eq h, ok_bind, Lexer.scanAhead]
      rcases Token.scan lexer.feed with ⟨token?, rest⟩
      cases rest.failure <;> cases token? <;> rfl

theorem take_eq (h : lexer.feed.Within) : take lexer = .ok lexer.take := by
  rw [take, Lexer.take, look_eq h, ok_bind]
  rcases lexer.look with ⟨failure | (_ | token), rest⟩ <;> rfl

theorem look?_eq (h : lexer.feed.Within) : look? lexer = .ok lexer.look? := by
  rw [look?, look_eq h]
  rfl

theorem take?_eq (h : lexer.feed.Within) : take? lexer = .ok lexer.take? := by
  rw [take?, take_eq h]
  rfl

theorem within_take (h : lexer.feed.Within) : lexer.take.2.feed.Within :=
  (Lexer.reaches_take lexer).feed.within h

theorem takeRest_eq (tokens : List Token) (h : lexer.feed.Within) :
    takeRest tokens lexer = .ok (Lexer.drain tokens lexer) := by
  induction hsize : lexer.size using Nat.strongRecOn generalizing tokens lexer with
  | _ size ih =>
    subst hsize
    have hrest : lexer.take?.2.feed.Within := within_take h
    rw [takeRest, take?_eq h, ok_bind, Lexer.drain_eq]
    rcases htake : lexer.take? with ⟨_ | token, rest⟩
    all_goals rw [htake] at hrest
    · rw [Lexer.takeAll_of_none htake, List.append_nil]
      rfl
    · have hless := Lexer.size_take?_lt htake
      simp only [dif_pos hless]
      rw [ih _ hless _ hrest rfl, Lexer.drain_eq, Lexer.takeAll_of_token htake, List.reverse_cons, List.append_assoc]
      rfl

theorem performLexer_eq (h : lexer.feed.Within) (command : Lexer.Command) :
    performLexer lexer command = .ok (lexer.perform command) := by
  cases command with
  | look => rw [performLexer, look_eq h]; rfl
  | look? => rw [performLexer, look?_eq h]; rfl
  | take => rw [performLexer, take_eq h]; rfl
  | take? => rw [performLexer, take?_eq h]; rfl
  | takeAll => rw [performLexer, takeRest_eq [] h]; rfl
  | hasToken => rw [performLexer, look?_eq h]; rfl
  | lines => rfl
  | failure => rfl

end Guarded

end Sexp
