import Mathlib.Data.List.Induction
import Sexp.Proofs.Scanning

/-!
# Reading by lines gives the tokens of the one pass

The tokens of a text are those of the automaton (`Token.allOfText_eq_onePass`), and each of them starts where
its first character is. The first half is scanning a text that ends cleanly. For the second, the automaton
places each token while it runs (`Token.OnePass.Keeps`).
-/

namespace Sexp

/-! ## Texts that end cleanly -/

namespace Feed

open Token Token.OnePass

/-- With this token begun and these tokens ended, newest first, the automaton makes `all` of the text that is
left. -/
def Gives (feed : Feed) (begun : Begun) (tokens all : List Token) : Prop :=
  ∃ rest place, feed.Shows rest place ∧ (run ⟨begun, place, tokens⟩ rest).finish = all

variable {feed : Feed} {begun : Begun} {tokens all : List Token}

theorem Gives.failure (h : feed.Gives begun tokens all) : feed.failure = none := by
  obtain ⟨rest, place, hshows, _⟩ := h
  exact hshows.failure

theorem Gives.leads (h : feed.Gives begun tokens all) :
    ∃ result, View.clean.Leads feed begun tokens result ∧ all = (View.clean.handed result).reverse := by
  obtain ⟨rest, place, hshows, hall⟩ := h
  exact ⟨_, ⟨rest, place, hshows, rfl⟩, hall.symm.trans (State.finish_eq _)⟩

end Feed

namespace Lexer

open Token

variable {feed : Feed} {tokens all : List Token}

theorem takeAll_of_gives (h : feed.Gives .nothing tokens all) :
    all = tokens.reverse ++ (Lexer.mk feed .nothing).takeAll.1 ∧
      (Lexer.mk feed .nothing).takeAll.2.failure = none := by
  obtain ⟨result, hleads, rfl⟩ := h.leads
  obtain ⟨hall, hclean⟩ := takeAll_of_leads hleads h.failure
  rw [hall, List.reverse_append, List.reverse_reverse]
  exact ⟨rfl, hclean⟩

theorem takeAll_of_holds {source : Source} {text : List Char}
    (h : source.Holds (Utf8.encode text) .clean) :
    (ofSource source).takeAll.1 = OnePass.tokens text ∧ (ofSource source).takeAll.2.failure = none := by
  have hgives : (Feed.ofSource source).Gives .nothing [] (OnePass.tokens text) :=
    ⟨text, ⟨1, 1⟩, Feed.shows_ofSource h, rfl⟩
  obtain ⟨hall, hclean⟩ := takeAll_of_gives hgives
  exact ⟨hall.symm, hclean⟩

end Lexer

/-! ## Where tokens start -/

namespace Token

open OnePass

/-- The place after these characters, counted by the line breaks among them. -/
def placeAfter (before : List Char) : Position :=
  ⟨1 + before.count '\n', 1 + (before.reverse.takeWhile (· != '\n')).length⟩

/-- The token starts with this character. -/
def OpensWith (token : Token) (c : Char) : Prop :=
  match token.kind with
  | .string => c = '"'
  | .word => token.text.toList.head? = some c
  | kind => markKind? c = some kind

theorem placeAfter_snoc (before : List Char) (c : Char) :
    placeAfter (before ++ [c]) = next (placeAfter before) c := by
  unfold placeAfter next
  rw [List.count_append, List.reverse_append, List.reverse_singleton, List.singleton_append]
  by_cases hc : c = '\n'
  · rw [hc, if_pos rfl]
    simp [Nat.add_assoc]
  · have hcount : [c].count '\n' = 0 := by
      rw [List.count_eq_zero, List.mem_singleton]
      exact Ne.symm hc
    have hne : (c != '\n') = true := by simpa using hc
    have htake : (c :: before.reverse).takeWhile (· != '\n') =
        c :: before.reverse.takeWhile (· != '\n') :=
      List.takeWhile_cons_of_pos hne
    rw [if_neg hc, hcount, htake, List.length_cons, Nat.add_zero, ← Nat.add_assoc]

namespace OnePass

theorem run_snoc (state : State) (text : List Char) (c : Char) :
    run state (text ++ [c]) = step (run state text) c := by
  rw [run, List.foldl_append]
  rfl

theorem place_run (text : List Char) : (run OnePass.start text).place = placeAfter text := by
  induction text using List.reverseRecOn with
  | nil => rfl
  | append_singleton text c ih =>
    rw [run_snoc, placeAfter_snoc, ← ih]
    rfl

/-- In this text a token starts at this place with this character, and these tokens end before it. -/
def Starts (text : List Char) (earlier : List Token) (place : Position) (first : Char) : Prop :=
  ∃ before after, text = before ++ first :: after ∧ OnePass.tokens before = earlier.reverse ∧
    place = placeAfter before

/-- Each of the tokens, newest first, starts in the text behind the earlier ones. -/
def Placed (text : List Char) : List Token → Prop
  | [] => True
  | token :: earlier =>
    (∃ first, token.OpensWith first ∧ Starts text earlier token.position first) ∧ Placed text earlier

/-- What has begun starts in the text behind the tokens that have ended. -/
def BegunIn (text : List Char) (tokens : List Token) : Begun → Prop
  | .nothing => True
  | .comment => True
  | .word start letters => ∃ first, letters.getLast? = some first ∧ Starts text tokens start first
  | .string start _ => Starts text tokens start '"'
  | .escape start _ => Starts text tokens start '"'
  | .octal start _ _ _ => Starts text tokens start '"'

theorem Starts.snoc {text : List Char} {earlier : List Token} {place : Position} {first : Char}
    (h : Starts text earlier place first) (c : Char) : Starts (text ++ [c]) earlier place first := by
  obtain ⟨before, after, rfl, htokens, hplace⟩ := h
  exact ⟨before, after ++ [c], by simp, htokens, hplace⟩

theorem Placed.snoc {text : List Char} {tokens : List Token} (h : Placed text tokens) (c : Char) :
    Placed (text ++ [c]) tokens := by
  induction tokens with
  | nil => trivial
  | cons token earlier ih =>
    obtain ⟨⟨first, hopens, hstarts⟩, hearlier⟩ := h
    exact ⟨⟨first, hopens, hstarts.snoc c⟩, ih hearlier⟩

theorem starts_here {text : List Char} {tokens : List Token} (c : Char)
    (h : OnePass.tokens text = tokens.reverse) :
    Starts (text ++ [c]) tokens (placeAfter text) c :=
  ⟨text, [], rfl, h, rfl⟩

/-- What a character has begun and ended after this text is placed in it. -/
def Keeps (text : List Char) (taken : Begun × List Token) : Prop :=
  Placed text taken.2 ∧ BegunIn text taken.2 taken.1

theorem keeps_between {text : List Char} {tokens : List Token} (c : Char) (hplaced : Placed text tokens)
    (h : OnePass.tokens text = tokens.reverse) :
    Keeps (text ++ [c]) (between (placeAfter text) tokens c) := by
  have hold := hplaced.snoc c
  have hhere := starts_here c h
  unfold between
  split
  case h_6 => exact ⟨hold, trivial⟩
  case h_7 => exact ⟨hold, hhere⟩
  case h_8 =>
    by_cases hblank : isBlank c
    · rw [if_pos hblank]
      exact ⟨hold, trivial⟩
    · rw [if_neg hblank]
      exact ⟨hold, c, rfl, hhere⟩
  -- the five marks
  all_goals
    refine ⟨⟨⟨_, ?_, hhere⟩, hold⟩, trivial⟩
    rfl

theorem keeps_within {text : List Char} {tokens : List Token} {start : Position} (content : List Char)
    (c : Char) (hplaced : Placed text tokens) (h : Starts text tokens start '"') :
    Keeps (text ++ [c]) (within start content tokens c) := by
  unfold within
  by_cases hclose : c = '"' ∨ isLineEnd c
  · rw [if_pos hclose]
    exact ⟨⟨⟨'"', rfl, h.snoc c⟩, hplaced.snoc c⟩, trivial⟩
  · rw [if_neg hclose]
    by_cases hescape : c = '\\'
    · rw [if_pos hescape]
      exact ⟨hplaced.snoc c, h.snoc c⟩
    · rw [if_neg hescape]
      exact ⟨hplaced.snoc c, h.snoc c⟩

theorem keeps_take {text : List Char} {begun : Begun} {tokens : List Token} (c : Char)
    (h : Keeps text (begun, tokens))
    (hended : OnePass.tokens text = (State.ended ⟨begun, placeAfter text, tokens⟩).reverse) :
    Keeps (text ++ [c]) (take (placeAfter text) tokens c begun) := by
  obtain ⟨hplaced, hbegun⟩ := h
  cases begun with
  | nothing => exact keeps_between c hplaced hended
  | comment =>
    refine ⟨hplaced.snoc c, ?_⟩
    by_cases hc : c = '\n'
    · rw [hc]
      trivial
    · change BegunIn _ _ (if c = '\n' then .nothing else .comment)
      rw [if_neg hc]
      trivial
  | word start letters =>
    obtain ⟨first, hfirst, hstarts⟩ := hbegun
    show Keeps _ (if isConstituent c then _ else _)
    by_cases hcon : isConstituent c
    · rw [if_pos hcon]
      refine ⟨hplaced.snoc c, first, ?_, hstarts.snoc c⟩
      rw [List.getLast?_cons, hfirst]
      rfl
    · rw [if_neg hcon]
      -- the word is over, and the character may be the first one of the next token
      refine keeps_between c ⟨⟨first, ?_, hstarts⟩, hplaced⟩ hended
      show (String.ofList letters.reverse).toList.head? = some first
      rw [String.toList_ofList, List.head?_reverse, hfirst]
  | string start content => exact keeps_within content c hplaced hbegun
  | escape start content =>
    cases hoctal : octalDigit? c with
    | some digit =>
      simp only [take, hoctal]
      exact ⟨hplaced.snoc c, hbegun.snoc c⟩
    | none =>
      simp only [take, hoctal]
      exact ⟨hplaced.snoc c, hbegun.snoc c⟩
  | octal start content digits code =>
    cases hoctal : octalDigit? c with
    | none =>
      rw [take_octal_end _ _ _ _ _ _ hoctal]
      exact keeps_within _ c hplaced hbegun
    | some digit =>
      cases digits with
      | zero => exact keeps_within _ c hplaced hbegun
      | succ digits =>
        simp only [take, hoctal]
        exact ⟨hplaced.snoc c, hbegun.snoc c⟩

theorem keeps_run (text : List Char) :
    Keeps text ((run OnePass.start text).begun, (run OnePass.start text).tokens) := by
  induction text using List.reverseRecOn with
  | nil => exact ⟨trivial, trivial⟩
  | append_singleton text c ih =>
    rw [run_snoc]
    have hplace := place_run text
    have hended : OnePass.tokens text = (run OnePass.start text).ended.reverse := State.finish_eq _
    generalize run OnePass.start text = state at ih hplace hended ⊢
    obtain ⟨begun, place, tokens⟩ := state
    subst hplace
    exact keeps_take c ih hended

theorem placed_tokens (text : List Char) : Placed text (OnePass.tokens text).reverse := by
  obtain ⟨hplaced, hbegun⟩ := keeps_run text
  rw [OnePass.tokens, State.finish_eq, List.reverse_reverse]
  generalize run OnePass.start text = state at hplaced hbegun ⊢
  obtain ⟨begun, place, tokens⟩ := state
  cases begun with
  | nothing => exact hplaced
  | comment => exact hplaced
  | word start letters =>
    obtain ⟨first, hfirst, hstarts⟩ := hbegun
    refine ⟨⟨first, ?_, hstarts⟩, hplaced⟩
    show (String.ofList letters.reverse).toList.head? = some first
    rw [String.toList_ofList, List.head?_reverse, hfirst]
  | string start content => exact ⟨⟨'"', rfl, hbegun⟩, hplaced⟩
  | escape start content => exact ⟨⟨'"', rfl, hbegun⟩, hplaced⟩
  | octal start content digits code => exact ⟨⟨'"', rfl, hbegun⟩, hplaced⟩

theorem Placed.starts {text : List Char} {earlier later : List Token} {token : Token}
    (h : Placed text (later ++ token :: earlier)) :
    ∃ first, token.OpensWith first ∧ Starts text earlier token.position first := by
  induction later with
  | nil => exact h.1
  | cons _ later ih => exact ih h.2

end OnePass

/-- The tokens of a text, which is read line by line, are those of the one pass over it. Each starts where
the characters up to its first one end the tokens before it, and its place counts the line breaks there. -/
theorem allOfText_eq_onePass (text : String) :
    allOfText text = OnePass.tokens text.toList ∧
      ∀ earlier token later, allOfText text = earlier ++ token :: later →
        ∃ before first after, text.toList = before ++ first :: after ∧ token.OpensWith first ∧
          OnePass.tokens before = earlier ∧ token.position = placeAfter before := by
  have hall : allOfText text = OnePass.tokens text.toList :=
    (Lexer.takeAll_of_holds (Source.holds_ofText text)).1
  refine ⟨hall, fun earlier token later hsplit => ?_⟩
  have hplaced := placed_tokens text.toList
  rw [← hall, hsplit, List.reverse_append, List.reverse_cons, List.append_assoc,
    List.singleton_append] at hplaced
  obtain ⟨first, hopens, before, after, htext, htokens, hplace⟩ := hplaced.starts
  rw [List.reverse_reverse] at htokens
  exact ⟨before, first, after, htext, hopens, htokens, hplace⟩

/-- A word and a string literal that goes on behind an escaped line break. -/
theorem allOfText_eq_onePass_of_two_lines :
    allOfText "x;\n \"y\\\nz" = [] ++ ⟨.word, "x", ⟨1, 1⟩⟩ :: [⟨.string, "y\nz", ⟨2, 2⟩⟩] ∧
      allOfText "x;\n \"y\\\nz" = [⟨.word, "x", ⟨1, 1⟩⟩] ++ ⟨.string, "y\nz", ⟨2, 2⟩⟩ :: [] ∧
      ∃ before first after, "x;\n \"y\\\nz".toList = before ++ first :: after ∧
        OpensWith ⟨.string, "y\nz", ⟨2, 2⟩⟩ first ∧
        OnePass.tokens before = [⟨.word, "x", ⟨1, 1⟩⟩] ∧ (⟨2, 2⟩ : Position) = placeAfter before := by
  have h := allOfText_eq_onePass "x;\n \"y\\\nz"
  have htokens : allOfText "x;\n \"y\\\nz" =
      [⟨.word, "x", ⟨1, 1⟩⟩] ++ ⟨.string, "y\nz", ⟨2, 2⟩⟩ :: [] := h.1.trans (by decide)
  exact ⟨htokens, htokens, h.2 _ _ _ htokens⟩

end Token

end Sexp
