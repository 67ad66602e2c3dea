import Sexp.Token.Scan

/-!
# The lexer

Hands out the tokens of a source one after the other, with one token of lookahead. Two outcomes are final:
the clean end of the text, which the lookahead keeps, and a read failure, which the feed keeps. After
either of them the source is left alone.
-/

namespace Sexp

/-- What has been scanned but not handed out. -/
inductive Lookahead
  | nothing
  | token (token : Token)
  /-- The clean end of the text. -/
  | finish

structure Lexer where
  feed : Feed
  lookahead : Lookahead

namespace Lexer

def ofSource (source : Source) : Lexer := ⟨Feed.ofSource source, .nothing⟩

def ofText (text : String) : Lexer := ofSource (Source.ofText text)

/-- Scans into an empty lookahead. A token in which the reading failed is lost. -/
def scanAhead (feed : Feed) : Except Error (Option Token) × Lexer :=
  let (token?, feed) := Token.scan feed
  match feed.failure, token? with
  | some failure, _ => (.error failure, ⟨feed, .nothing⟩)
  | none, some token => (.ok (some token), ⟨feed, .token token⟩)
  | none, none => (.ok none, ⟨feed, .finish⟩)

/-- The next token, which stays where it is. `none` is the clean end of the text. -/
def look (lexer : Lexer) : Except Error (Option Token) × Lexer :=
  match lexer.lookahead with
  | .token token => (.ok (some token), lexer)
  | .finish => (.ok none, lexer)
  | .nothing =>
    match lexer.feed.failure with
    | some failure => (.error failure, lexer)
    | none => scanAhead lexer.feed

/-- Hands out the next token. -/
def take (lexer : Lexer) : Except Error (Option Token) × Lexer :=
  match lexer.look with
  | (.ok (some token), lexer) => (.ok (some token), { lexer with lookahead := .nothing })
  | other => other

/-- The next token, which stays where it is. `none` is the end or a read failure. -/
def look? (lexer : Lexer) : Option Token × Lexer :=
  let (answer, lexer) := lexer.look
  (answer.toOption.join, lexer)

/-- Hands out the next token, `none` at the end or after a read failure. -/
def take? (lexer : Lexer) : Option Token × Lexer :=
  let (answer, lexer) := lexer.take
  (answer.toOption.join, lexer)

/-- There is a next token. -/
def hasToken (lexer : Lexer) : Bool × Lexer :=
  let (token?, lexer) := lexer.look?
  (token?.isSome, lexer)

/-- The read failure that stopped the lexer. -/
def failure (lexer : Lexer) : Option Error := lexer.feed.failure

/-- How many lines have been read. -/
def lines (lexer : Lexer) : Nat := lexer.feed.line

/-- How often the source has been polled. -/
def polls (lexer : Lexer) : Nat := lexer.feed.source.polls

/-! ## What is left -/

def size (lexer : Lexer) : Nat :=
  lexer.feed.size + match lexer.lookahead with | .token _ => 1 | _ => 0

theorem size_scanAhead (feed : Feed) : (scanAhead feed).2.size ≤ feed.size := by
  have := Token.size_scan feed
  unfold scanAhead
  generalize Token.scan feed = scanned at this ⊢
  obtain ⟨token?, rest⟩ := scanned
  cases token? <;> cases hf : rest.failure <;> simp [size, hf] at this ⊢ <;> omega

theorem size_look (lexer : Lexer) : lexer.look.2.size ≤ lexer.size := by
  unfold look
  split
  · exact Nat.le_refl _
  · exact Nat.le_refl _
  · split
    · exact Nat.le_refl _
    · exact Nat.le_trans (size_scanAhead _) (Nat.le_add_right ..)

theorem lookahead_look {lexer rest : Lexer} {token : Token}
    (h : lexer.look = (.ok (some token), rest)) : rest.lookahead = .token token := by
  unfold look scanAhead at h
  grind

theorem size_take_lt {lexer rest : Lexer} {token : Token}
    (h : lexer.take = (.ok (some token), rest)) : rest.size < lexer.size := by
  unfold take at h
  split at h
  · rename_i t peeked hlook
    have := size_look lexer
    have hl := lookahead_look hlook
    rw [hlook] at this
    cases h
    simp only [size, hl] at this ⊢
    omega
  · rename_i hnot
    exact absurd h (hnot _ _)

theorem size_take (lexer : Lexer) : lexer.take.2.size ≤ lexer.size := by
  unfold take
  split
  · rename_i token rest hlook
    have : lexer.take = (.ok (some token), { rest with lookahead := .nothing }) := by
      simp [take, hlook]
    exact Nat.le_of_lt (size_take_lt this)
  · exact size_look lexer

theorem size_take?_lt {lexer rest : Lexer} {token : Token} (h : lexer.take? = (some token, rest)) :
    rest.size < lexer.size := by
  simp only [take?, Prod.mk.injEq] at h
  obtain ⟨hanswer, rfl⟩ := h
  refine @size_take_lt _ _ token (Prod.ext ?_ rfl)
  revert hanswer
  cases lexer.take.1 <;> simp [Except.toOption]

/-! ## All of it -/

/-- Hands out all further tokens, after those handed out so far (newest first). -/
def drain (tokens : List Token) (lexer : Lexer) : List Token × Lexer :=
  match _ : lexer.take? with
  | (some token, rest) => drain (token :: tokens) rest
  | (none, rest) => (tokens.reverse, rest)
termination_by lexer.size
decreasing_by exact size_take?_lt (by assumption)

/-- All tokens up to the end or a read failure. -/
def takeAll (lexer : Lexer) : List Token × Lexer := drain [] lexer

theorem drain_eq (tokens : List Token) (lexer : Lexer) :
    drain tokens lexer = (tokens.reverse ++ lexer.takeAll.1, lexer.takeAll.2) := by
  suffices ∀ before tokens, drain (tokens ++ before) lexer =
      (before.reverse ++ (drain tokens lexer).1, (drain tokens lexer).2) from this tokens []
  intro before tokens
  fun_induction drain tokens lexer with
  | case1 tokens lexer token rest h ih =>
    rw [drain, ← ih]
    split
    · rename_i heq
      rw [h] at heq
      cases heq
      rfl
    · rename_i heq
      rw [h] at heq
      cases heq
  | case2 tokens lexer rest h =>
    rw [drain]
    split
    · rename_i heq
      rw [h] at heq
      cases heq
    · rename_i heq
      rw [h] at heq
      cases heq
      simp

theorem takeAll_of_token {lexer rest : Lexer} {token : Token} (h : lexer.take? = (some token, rest)) :
    lexer.takeAll = (token :: rest.takeAll.1, rest.takeAll.2) := by
  rw [takeAll, drain]
  split
  · rename_i heq
    rw [h] at heq
    cases heq
    exact drain_eq [token] rest
  · rename_i heq
    rw [h] at heq
    cases heq

theorem takeAll_of_none {lexer rest : Lexer} (h : lexer.take? = (none, rest)) :
    lexer.takeAll = ([], rest) := by
  rw [takeAll, drain]
  split
  · rename_i heq
    rw [h] at heq
    cases heq
  · rename_i heq
    rw [h] at heq
    cases heq
    rfl

end Lexer

/-- All tokens of a text. -/
def Token.allOfText (text : String) : List Token := (Lexer.ofText text).takeAll.1

end Sexp
