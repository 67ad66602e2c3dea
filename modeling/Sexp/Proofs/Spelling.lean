import Mathlib.Data.List.Chain
import Sexp.Proofs.OnePass

/-!
# String literals however they are spelled

A character of a string literal can be written as it is, behind a backslash, as the letter that names it or as
its octal code (`Token.Spelling`). Any mixture of these is read back, if no octal code that could have gone on
has an octal digit behind it: the scanner takes one spelling after the other (`Token.takeString_spelling`), also
where an escaped line break makes it read a further line.
-/

namespace Sexp

namespace Token

/-! ## Spellings -/

def IsOctalDigit (c : Char) : Prop := '0' ≤ c ∧ c ≤ '7'

instance : DecidablePred IsOctalDigit := fun c => inferInstanceAs (Decidable ('0' ≤ c ∧ c ≤ '7'))

/-- How many octal digits may follow this one, so that the code stays below 256. -/
def digitsAfter (first : Fin 8) : Nat := if first ≤ 3 then 2 else 1

/-- The code of these digits behind those that have the code so far. -/
def octalCode (code : Nat) (digits : List (Fin 8)) : Nat := digits.foldl (fun code digit => code * 8 + digit.val) code

def octalDigits (digits : List (Fin 8)) : List Char := digits.map fun digit => Nat.digitChar digit.val

/-- The letters that name a control character behind a backslash. -/
def namedEscapes : List (Char × Char) :=
  [('a', '\x07'), ('b', '\x08'), ('f', '\x0c'), ('n', '\n'), ('r', '\r'), ('t', '\t'), ('v', '\x0b')]

/-- One way to write one character in a string literal. -/
inductive Spelling
  | plain (c : Char) (valid : c ∉ ['"', '\\', '\n', '\r'])
  | escaped (c : Char) (valid : c ∉ namedEscapes.map Prod.fst ∧ ¬IsOctalDigit c)
  | named (letter c : Char) (valid : (letter, c) ∈ namedEscapes)
  | octal (first : Fin 8) (more : List (Fin 8)) (valid : more.length ≤ digitsAfter first)

namespace Spelling

/-- The character that is meant. -/
def char : Spelling → Char
  | plain c _ => c
  | escaped c _ => c
  | named _ c _ => c
  | octal first more _ => Char.ofNat (octalCode 0 (first :: more))

def written : Spelling → List Char
  | plain c _ => [c]
  | escaped c _ => ['\\', c]
  | named letter _ _ => ['\\', letter]
  | octal first more _ => '\\' :: octalDigits (first :: more)

/-- An octal code that could have a further digit. -/
def IsOpen : Spelling → Prop
  | octal first more _ => more.length < digitsAfter first
  | _ => False

/-- Nothing of the second spelling is taken for a part of the first one. -/
def Apart (spelling next : Spelling) : Prop :=
  spelling.IsOpen → ∀ c ∈ next.written.head?, ¬IsOctalDigit c

/-- The string that is meant. -/
def text (spellings : List Spelling) : String := String.ofList (spellings.map char)

/-- The literal that is written. -/
def literal (spellings : List Spelling) : List Char := '"' :: (spellings.flatMap written ++ ['"'])

theorem written_ne_nil (spelling : Spelling) : spelling.written ≠ [] := by
  cases spelling <;> exact List.cons_ne_nil _ _

end Spelling

/-! ## Characters -/

theorem octalDigit?_of_not_isOctalDigit {c : Char} (h : ¬IsOctalDigit c) : octalDigit? c = none := if_neg h

theorem octalDigit?_digitChar (digit : Fin 8) : octalDigit? (Nat.digitChar digit) = some digit.val :=
  octalDigit?_eq_some_iff.2 ⟨digit.isLt, rfl⟩

theorem octalDigitsAfter_eq (first : Fin 8) : octalDigitsAfter first = digitsAfter first := by
  revert first
  decide

theorem meaning_of_mem {letter c : Char} (h : (letter, c) ∈ namedEscapes) :
    octalDigit? letter = none ∧ meaning letter = c := by
  have hall : ∀ escape ∈ namedEscapes, octalDigit? escape.1 = none ∧ meaning escape.1 = escape.2 := by decide
  exact hall _ h

theorem meaning_of_not_mem {c : Char} (h : c ∉ namedEscapes.map Prod.fst) : meaning c = c := by
  unfold meaning
  split
  case h_8 => rfl
  all_goals exact absurd (by decide) h

/-! ## Scanning -/

open OnePass

variable {feed : Feed} {rest : List Char} {place : Position}

theorem takeOctal_digits {more : List (Fin 8)} {digits : Nat} (code : Nat) (hlength : more.length ≤ digits)
    (hend : more.length < digits → ∀ c ∈ rest.head?, ¬IsOctalDigit c)
    (h : feed.Shows (octalDigits more ++ rest) place) :
    (takeOctal digits code feed).1 = octalCode code more ∧
      (takeOctal digits code feed).2.Shows rest ((octalDigits more).foldl next place) := by
  induction more generalizing digits code feed place with
  | nil =>
    cases digits with
    | zero => exact ⟨rfl, h⟩
    | succ digits =>
      have hnone : feed.fill.current?.bind octalDigit? = none := by
        rw [h.current?]
        refine Option.bind_eq_none_iff.2 fun c hc => ?_
        exact octalDigit?_of_not_isOctalDigit (hend (Nat.succ_pos _) c hc)
      rw [takeOctal, hnone]
      exact ⟨rfl, h.fill.1⟩
  | cons digit more ih =>
    obtain ⟨fewer, rfl⟩ : ∃ fewer, digits = fewer + 1 :=
      Nat.exists_eq_add_one.2 (Nat.lt_of_lt_of_le (Nat.succ_pos _) hlength)
    have hdigit : feed.fill.current?.bind octalDigit? = some digit.val := by
      rw [h.current?]
      exact octalDigit?_digitChar digit
    rw [takeOctal, hdigit]
    exact ih _ (Nat.le_of_succ_le_succ hlength) (fun hlt => hend (Nat.succ_lt_succ hlt)) h.pass

theorem takeEscape_letter {c : Char} (hc : octalDigit? c = none) (h : feed.Shows (c :: rest) place) :
    takeEscape feed = (some (meaning c), feed.fill.pass) := by
  rw [takeEscape, h.current?]
  simp only [List.head?_cons, hc]

theorem takeEscape_octal {first : Fin 8} {more : List (Fin 8)} (hlength : more.length ≤ digitsAfter first)
    (hend : more.length < digitsAfter first → ∀ c ∈ rest.head?, ¬IsOctalDigit c)
    (h : feed.Shows (octalDigits (first :: more) ++ rest) place) :
    ∃ after, takeEscape feed = (some (Char.ofNat (octalCode 0 (first :: more))), after) ∧
      after.Shows rest ((octalDigits (first :: more)).foldl next place) := by
  rw [← octalDigitsAfter_eq] at hlength hend
  obtain ⟨hcode, hshows⟩ := takeOctal_digits first.val hlength hend h.pass
  refine ⟨_, ?_, hshows⟩
  have hcurrent : feed.fill.current? = some (Nat.digitChar first.val) := h.current?
  have hall : octalCode 0 (first :: more) = octalCode first.val more := by
    rw [octalCode, List.foldl_cons, Nat.zero_mul, Nat.zero_add, octalCode]
  rw [takeEscape, hcurrent, hall, ← hcode]
  simp only [octalDigit?_digitChar]

theorem takeString_backslash (content : List Char) (h : feed.Shows ('\\' :: rest) place) :
    takeString content feed = continueString content (takeEscape feed.fill.pass) := by
  rw [takeString_some content h.current?, if_neg (by decide), if_neg (by decide), if_pos rfl]

theorem takeString_spelling (content : List Char) (spelling : Spelling)
    (hend : spelling.IsOpen → ∀ c ∈ rest.head?, ¬IsOctalDigit c) (h : feed.Shows (spelling.written ++ rest) place) :
    ∃ after, takeString content feed = takeString (spelling.char :: content) after ∧
      after.Shows rest (spelling.written.foldl next place) := by
  cases spelling with
  | plain c valid =>
    simp only [List.mem_cons, List.not_mem_nil, or_false, not_or] at valid
    obtain ⟨hquote, hbackslash, hbreak, hreturn⟩ := valid
    have hend : ¬isLineEnd c := fun hend => (isLineEnd_iff.1 hend).elim hbreak hreturn
    refine ⟨feed.fill.pass, ?_, h.pass⟩
    rw [takeString_some content h.current?, if_neg hquote, if_neg hend, if_neg hbackslash]
    rfl
  | escaped c valid =>
    refine ⟨feed.fill.pass.fill.pass, ?_, h.pass.pass⟩
    have hescape := takeEscape_letter (octalDigit?_of_not_isOctalDigit valid.2) h.pass
    rw [takeString_backslash content h, hescape, meaning_of_not_mem valid.1]
    rfl
  | named letter c valid =>
    refine ⟨feed.fill.pass.fill.pass, ?_, h.pass.pass⟩
    obtain ⟨hletter, hmeaning⟩ := meaning_of_mem valid
    rw [takeString_backslash content h, takeEscape_letter hletter h.pass, hmeaning]
    rfl
  | octal first more valid =>
    obtain ⟨after, hescape, hshows⟩ := takeEscape_octal valid hend h.pass
    refine ⟨after, ?_, hshows⟩
    rw [takeString_backslash content h, hescape]
    rfl

theorem takeString_spellings (content : List Char) {spellings : List Spelling}
    (hapart : spellings.IsChain Spelling.Apart)
    (h : feed.Shows (spellings.flatMap Spelling.written ++ '"' :: rest) place) :
    ∃ after, takeString content feed = (content.reverse ++ spellings.map Spelling.char, after) ∧
      after.Shows rest ((spellings.flatMap Spelling.written ++ ['"']).foldl next place) := by
  induction spellings generalizing content feed place with
  | nil =>
    refine ⟨feed.fill.pass, ?_, h.pass⟩
    rw [takeString_some content h.current?, if_pos rfl, List.map_nil, List.append_nil]
  | cons spelling spellings ih =>
    rw [List.isChain_cons] at hapart
    rw [List.flatMap_cons, List.append_assoc] at h
    have hend : spelling.IsOpen →
        ∀ c ∈ (spellings.flatMap Spelling.written ++ '"' :: rest).head?, ¬IsOctalDigit c := by
      intro hopen c hc
      cases spellings with
      | nil =>
        cases hc
        decide
      | cons second spellings =>
        rw [List.flatMap_cons, List.append_assoc, List.head?_append_of_ne_nil _ second.written_ne_nil] at hc
        exact hapart.1 second rfl hopen c hc
    obtain ⟨middle, hstep, hmiddle⟩ := takeString_spelling content spelling hend h
    obtain ⟨after, hall, hafter⟩ := ih (spelling.char :: content) hapart.2 hmiddle
    refine ⟨after, ?_, ?_⟩
    · rw [hstep, hall, List.reverse_cons, List.append_assoc, List.singleton_append, List.map_cons]
    · rw [List.flatMap_cons, List.append_assoc, List.foldl_append]
      exact hafter

theorem scan_literal {spellings : List Spelling} (hapart : spellings.IsChain Spelling.Apart)
    (h : feed.Shows (Spelling.literal spellings ++ rest) place) :
    ∃ after, scan feed = (some ⟨.string, Spelling.text spellings, place⟩, after) ∧
      after.Shows rest ((Spelling.literal spellings).foldl next place) := by
  rw [Spelling.literal, List.cons_append, List.append_assoc, List.singleton_append] at h
  obtain ⟨after, hcontent, hafter⟩ := takeString_spellings [] hapart h.pass
  refine ⟨after, ?_, hafter⟩
  have hmark : markKind? '"' = none := rfl
  have htoken : scanFrom '"' feed.fill = (⟨.string, Spelling.text spellings, place⟩, after) := by
    simp only [scanFrom, hmark, if_true, hcontent, h.position]
    rfl
  rw [scan_some h.current?, if_neg (by decide), if_neg (by decide), htoken]

/-! ## Places -/

theorem foldl_next (text : List Char) : text.foldl next ⟨1, 1⟩ = placeAfter text := by
  induction text using List.reverseRecOn with
  | nil => rfl
  | append_singleton text c ih =>
    rw [List.foldl_append, ih, placeAfter_snoc]
    rfl

end Token

namespace Lexer

open Token

/-- A string literal has one token, whichever way its characters are spelled, and the lexer goes on right behind the
closing quote. -/
theorem take_literal {spellings : List Spelling} (hapart : spellings.IsChain Spelling.Apart) (rest : List Char) :
    (∀ (feed : Feed) (place : Position), feed.Shows (Spelling.literal spellings ++ rest) place →
      ∃ after, (Lexer.mk feed .nothing).take =
          (.ok (some ⟨.string, Spelling.text spellings, place⟩), ⟨after, .nothing⟩) ∧
        after.Shows rest ((Spelling.literal spellings).foldl OnePass.next place)) ∧
      allOfText (String.ofList (Spelling.literal spellings ++ rest)) =
        ⟨.string, Spelling.text spellings, ⟨1, 1⟩⟩ ::
          (OnePass.run ⟨.nothing, placeAfter (Spelling.literal spellings), []⟩ rest).finish := by
  constructor
  · intro feed place h
    obtain ⟨after, hscan, hafter⟩ := scan_literal hapart h
    exact ⟨after, take_of_scan_token h.failure hscan hafter.failure, hafter⟩
  · have hholds := Source.holds_ofText (String.ofList (Spelling.literal spellings ++ rest))
    rw [String.toList_ofList] at hholds
    have hshows := Feed.shows_ofSource hholds
    obtain ⟨after, hscan, hafter⟩ := scan_literal hapart hshows
    rw [foldl_next] at hafter
    have hgives : after.Gives .nothing []
        (OnePass.run ⟨.nothing, placeAfter (Spelling.literal spellings), []⟩ rest).finish :=
      ⟨rest, _, hafter, rfl⟩
    rw [allOfText, ofText, ofSource, takeAll_of_token (take?_of_scan_token hshows.failure hscan hafter.failure),
      (takeAll_of_gives hgives).1]
    rfl

/-- A code of three digits before a digit, an open one before an escaped line break, a named escape and an escaped
quote. The word behind the literal is in the second line. -/
theorem take_literal_of_mixture :
    let spellings : List Spelling :=
      [.octal 1 [0, 1] (by decide), .plain '7' (by decide), .octal 4 [] (by decide), .escaped '\n' (by decide),
        .named 'n' '\n' (by decide), .escaped '"' (by decide)]
    let feed := (ofText "\"\\1017\\4\\\n\\n\\\"\"x").feed
    spellings.IsChain Spelling.Apart ∧ feed.Shows (Spelling.literal spellings ++ ['x']) ⟨1, 1⟩ ∧
      (∃ after, (Lexer.mk feed .nothing).take =
          (.ok (some ⟨.string, "A7\x04\n\n\"", ⟨1, 1⟩⟩), ⟨after, .nothing⟩) ∧
        after.Shows ['x'] ⟨2, 6⟩) ∧
      allOfText "\"\\1017\\4\\\n\\n\\\"\"x" =
        [⟨.string, "A7\x04\n\n\"", ⟨1, 1⟩⟩, ⟨.word, "x", ⟨2, 6⟩⟩] := by
  intro spellings feed
  have hapart : spellings.IsChain Spelling.Apart := by
    simp [spellings, Spelling.Apart, Spelling.IsOpen, Spelling.written, IsOctalDigit, digitsAfter]
  have hshows : feed.Shows (Spelling.literal spellings ++ ['x']) ⟨1, 1⟩ :=
    Feed.shows_ofSource (Source.holds_ofText "\"\\1017\\4\\\n\\n\\\"\"x")
  obtain ⟨htake, hall⟩ := take_literal hapart ['x']
  exact ⟨hapart, hshows, htake feed _ hshows, hall.trans (by decide)⟩

end Lexer

end Sexp
