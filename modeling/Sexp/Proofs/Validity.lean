import Sexp.Datum.Shape
import Sexp.Proofs.Remaining
import Sexp.Reader.Grammar

/-!
# Valid tokens and names

Every token that a lexer hands out is valid, whatever its source delivers: a mark has no text, and a word is not
empty and has only the characters of words. So every atom of a form that is read has a name that reads as
a word (`Grammar.named_of_form`).
-/

namespace Sexp

namespace Token

/-- A mark without text, a word of at least one of the characters that words are made of, or any string
literal. -/
def Valid (token : Token) : Prop :=
  match token.kind with
  | .word => token.text ≠ "" ∧ ∀ c ∈ token.text.toList, isConstituent c
  | .string => True
  | .endOfInput => False
  | _ => token.text = ""

theorem Valid.kind_ne_endOfInput {token : Token} (h : token.Valid) : token.kind ≠ .endOfInput := by
  intro hkind
  rw [Valid, hkind] at h
  exact h

/-! ## Scanning -/

variable {feed : Feed}

theorem takeWord_letters (letters : List Char) (feed : Feed) :
    ∃ more, (takeWord letters feed).1 = letters.reverse ++ more ∧ ∀ c ∈ more, isConstituent c := by
  fun_induction takeWord letters feed with
  | case1 letters feed c _ hcon ih =>
    obtain ⟨more, hletters, hmore⟩ := ih
    refine ⟨c :: more, ?_, ?_⟩
    · rw [hletters, List.reverse_cons, List.append_assoc, List.singleton_append]
    · intro d hd
      rcases List.mem_cons.1 hd with rfl | hd
      · exact hcon
      · exact hmore d hd
  | case2 => exact ⟨[], (List.append_nil _).symm, fun c hc => by cases hc⟩
  | case3 => exact ⟨[], (List.append_nil _).symm, fun c hc => by cases hc⟩

theorem takeWord_here {c : Char} (hc : feed.fill.current? = some c) (hcon : isConstituent c) :
    ∃ more, (takeWord [] feed).1 = c :: more ∧ ∀ d ∈ c :: more, isConstituent d := by
  rw [takeWord_some [] hc, if_pos hcon]
  obtain ⟨more, hletters, hmore⟩ := takeWord_letters [c] feed.fill.pass
  refine ⟨more, hletters, ?_⟩
  intro d hd
  rcases List.mem_cons.1 hd with rfl | hd
  · exact hcon
  · exact hmore d hd

theorem fill_of_current? {c : Char} (hc : feed.current? = some c) : feed.fill = feed := by
  unfold Feed.fill
  rw [if_pos (.inl (Feed.cursor_lt_of_current? hc))]

theorem valid_scanFrom {c : Char} (hc : feed.current? = some c) (hblank : ¬isBlank c) (hcomment : c ≠ ';') :
    (scanFrom c feed).1.Valid := by
  unfold scanFrom
  cases hkind : markKind? c with
  | some kind =>
    unfold markKind? at hkind
    split at hkind <;> cases hkind <;> rfl
  | none =>
    simp only
    by_cases hquote : c = '"'
    · rw [if_pos hquote]
      trivial
    · rw [if_neg hquote]
      have hcon := isConstituent_of_scan hblank hcomment hkind hquote
      rw [← fill_of_current? hc] at hc
      obtain ⟨more, hletters, hmore⟩ := takeWord_here hc hcon
      rw [hletters]
      refine ⟨?_, ?_⟩
      · rw [Ne, ← String.toList_inj, String.toList_ofList]
        exact List.cons_ne_nil c more
      · rw [String.toList_ofList]
        exact hmore

theorem valid_scan {token : Token} (h : (scan feed).1 = some token) : token.Valid := by
  induction hsize : feed.size using Nat.strongRecOn generalizing feed with
  | _ size ih =>
    subst hsize
    cases hc : feed.fill.current? with
    | none =>
      rw [scan_none hc] at h
      cases h
    | some c =>
      rw [scan_some hc] at h
      by_cases hblank : isBlank c
      · rw [if_pos hblank] at h
        exact ih _ (Feed.size_pass_fill hc) h rfl
      · rw [if_neg hblank] at h
        by_cases hcomment : c = ';'
        · rw [if_pos hcomment] at h
          exact ih _ (Feed.size_passLine_fill hc) h rfl
        · rw [if_neg hcomment] at h
          cases h
          exact valid_scanFrom hc hblank hcomment

end Token

/-! ## Taking tokens -/

namespace Lexer

/-- The token of lookahead is valid, if there is one. -/
def Valid (lexer : Lexer) : Prop := ∀ token, lexer.lookahead = .token token → token.Valid

variable {lexer rest : Lexer}

theorem valid_ofSource (source : Source) : (ofSource source).Valid := fun token h => by cases h

theorem valid_scanAhead {feed : Feed} {token : Token}
    (h : scanAhead feed = (.ok (some token), rest)) : token.Valid := by
  unfold scanAhead at h
  rcases hscan : Token.scan feed with ⟨_ | scanned, after⟩
  · rw [hscan] at h
    cases hfailure : after.failure <;> simp only [hfailure] at h <;> cases h
  · rw [hscan] at h
    cases hfailure : after.failure <;> simp only [hfailure] at h <;> cases h
    exact Token.valid_scan (congrArg Prod.fst hscan)

theorem valid_look {token : Token} (hlexer : lexer.Valid) (h : lexer.look = (.ok (some token), rest)) :
    token.Valid := by
  unfold look at h
  cases hlookahead : lexer.lookahead with
  | token peeked =>
    rw [hlookahead] at h
    cases h
    exact hlexer token hlookahead
  | finish =>
    rw [hlookahead] at h
    cases h
  | nothing =>
    rw [hlookahead] at h
    simp only at h
    split at h
    · cases h
    · exact valid_scanAhead h

theorem valid_take {token : Token} (hlexer : lexer.Valid) (h : lexer.take = (.ok (some token), rest)) :
    token.Valid ∧ rest.Valid := by
  unfold take at h
  rcases hlook : lexer.look with ⟨failure | (_ | peeked), looked⟩
  · rw [hlook] at h
    cases h
  · rw [hlook] at h
    cases h
  · rw [hlook] at h
    cases h
    exact ⟨valid_look hlexer hlook, fun token htoken => by cases htoken⟩

theorem valid_takeAll (h : lexer.Valid) : ∀ token ∈ lexer.takeAll.1, token.Valid := by
  induction hsize : lexer.size using Nat.strongRecOn generalizing lexer with
  | _ size ih =>
    subst hsize
    rcases htake : lexer.take with ⟨failure | (_ | token), rest⟩
    · rw [takeAll_of_take_error htake]
      exact fun token hmem => by cases hmem
    · rw [takeAll_of_take_none htake]
      exact fun token hmem => by cases hmem
    · obtain ⟨htoken, hrest⟩ := valid_take h htake
      rw [takeAll_of_take_token htake]
      intro other hother
      rcases List.mem_cons.1 hother with rfl | hother
      · exact htoken
      · exact ih _ (size_take_lt htake) hrest rfl other hother

end Lexer

/-! ## Forms of valid tokens -/

namespace Datum

theorem named_ofWord {token : Token} (hkind : token.kind = .word) (h : token.Valid) :
    (ofWord token.text).Everywhere Named := by
  unfold Token.Valid at h
  rw [hkind] at h
  unfold ofWord
  cases hnil : isNilWord token.text with
  | true => exact trivial
  | false => exact ⟨h.1, h.2, hnil⟩

theorem named_quoted {mark : Token} {name : String} {datum : Datum}
    (hname : mark.kind.quoteName? = some name) (h : datum.Everywhere Named) :
    (quoted name datum).Everywhere Named := by
  have hatom : (atom name).Everywhere Named := by
    rcases Token.Kind.quoteName?_eq_some_iff.1 hname with ⟨_, rfl⟩ | ⟨_, rfl⟩ | ⟨_, rfl⟩
    all_goals exact ⟨by decide, List.all_eq_true.1 rfl, by decide⟩
  exact ⟨trivial, hatom, trivial, h, trivial⟩

end Datum

namespace Grammar

mutual

/-- The atoms of a form of valid tokens have names that read as words. -/
theorem named_of_form {form : List Token} {datum : Datum} (h : Form form datum)
    (hvalid : ∀ token ∈ form, token.Valid) : datum.Everywhere Datum.Named := by
  match h with
  | @Form.string token hkind => exact trivial
  | @Form.word token hkind => exact Datum.named_ofWord hkind (hvalid token List.mem_cons_self)
  | @Form.quoted token name tokens datum hname htokens =>
    have htail : ∀ other ∈ tokens, other.Valid := fun other hother =>
      hvalid other (List.mem_cons_of_mem _ hother)
    exact Datum.named_quoted hname (named_of_form htokens htail)
  | @Form.list token tokens datum hparen htokens =>
    have htail : ∀ other ∈ tokens, other.Valid := fun other hother =>
      hvalid other (List.mem_cons_of_mem _ hother)
    exact named_of_body htokens htail

theorem named_of_body {body : List Token} {datum : Datum} (h : Body body datum)
    (hvalid : ∀ token ∈ body, token.Valid) : datum.Everywhere Datum.Named := by
  match h with
  | @Body.close token hclose => exact trivial
  | @Body.tail dot paren tokens datum hisDot htokens hclose =>
    have hinside : ∀ other ∈ tokens, other.Valid := fun other hother =>
      hvalid other (List.mem_cons_of_mem _ (List.mem_append_left _ hother))
    exact named_of_form htokens hinside
  | @Body.item first rest car cdr hlone hfirst hrest =>
    have hcar := named_of_form hfirst fun other hother => hvalid other (List.mem_append_left _ hother)
    have hcdr := named_of_body hrest fun other hother => hvalid other (List.mem_append_right _ hother)
    exact ⟨trivial, hcar, hcdr⟩

end

end Grammar

end Sexp
