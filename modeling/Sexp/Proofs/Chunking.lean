import Sexp.Proofs.Delivery
import Sexp.Proofs.Simulation

/-!
# Where the bytes are cut does not matter

Two feeds are alike if they stand at the same place of the same line and their sources hold the same bytes
with the same ending. A feed that has failed no longer looks at its source, so there nothing is asked of the
sources. Filling and passing keep feeds alike, so two readers over sources that hold the same bytes give the same
answers to all calls (`Reader.run_eq_of_holds`).
-/

namespace Sexp

/-! ## Feeds -/

namespace Feed

structure Alike (a b : Feed) : Prop where
  text : a.text = b.text
  cursor : a.cursor = b.cursor
  line : a.line = b.line
  failure : a.failure = b.failure
  source : a.failure = none → ∃ bytes ending, a.source.Holds bytes ending ∧ b.source.Holds bytes ending

variable {a b : Feed}

theorem alike_ofSource {first second : Source} {bytes : List UInt8} {ending : Ending}
    (hfirst : first.Holds bytes ending) (hsecond : second.Holds bytes ending) :
    (ofSource first).Alike (ofSource second) :=
  ⟨rfl, rfl, rfl, rfl, fun _ => ⟨bytes, ending, hfirst, hsecond⟩⟩

theorem Alike.current? (h : a.Alike b) : a.current? = b.current? := by
  rw [Feed.current?, Feed.current?, h.text, h.cursor]

theorem Alike.position (h : a.Alike b) : a.position = b.position := by
  rw [Feed.position, Feed.position, h.line, h.cursor]

theorem Alike.pass (h : a.Alike b) : a.pass.Alike b.pass :=
  ⟨h.text, congrArg (· + 1) h.cursor, h.line, h.failure, h.source⟩

theorem Alike.passLine (h : a.Alike b) : a.passLine.Alike b.passLine :=
  ⟨h.text, congrArg Array.size h.text, h.line, h.failure, h.source⟩

theorem Alike.nextLine (h : a.Alike b) (hfailure : a.failure = none) : a.nextLine.Alike b.nextLine := by
  obtain ⟨bytes, ending, ha, hb⟩ := h.source hfailure
  obtain ⟨htexta, hresta⟩ := Source.takeText_of_holds ha
  obtain ⟨htextb, hrestb⟩ := Source.takeText_of_holds hb
  have hsame : a.source.takeText.1 = b.source.takeText.1 := htexta.trans htextb.symm
  unfold Feed.nextLine
  generalize a.source.takeText = taken at hsame hresta ⊢
  generalize b.source.takeText = taken' at hsame hrestb ⊢
  obtain ⟨text, rest⟩ := taken
  obtain ⟨text', rest'⟩ := taken'
  simp only at hsame hresta hrestb
  subst hsame
  rcases text with failure | (_ | ⟨c, text⟩)
  · exact ⟨rfl, rfl, h.line, by rw [h.line], fun hnone => by cases hnone⟩
  · exact ⟨h.text, h.cursor, h.line, h.failure, fun _ => ⟨_, ending, hresta _ rfl, hrestb _ rfl⟩⟩
  · exact ⟨rfl, rfl, congrArg (· + 1) h.line, h.failure,
      fun _ => ⟨_, ending, hresta _ rfl, hrestb _ rfl⟩⟩

theorem Alike.fill (h : a.Alike b) : a.fill.Alike b.fill := by
  unfold Feed.fill
  rw [← h.text, ← h.cursor, ← h.failure]
  by_cases hstays : a.cursor < a.text.size ∨ a.failure.isSome
  · rw [if_pos hstays, if_pos hstays]
    exact h
  · rw [if_neg hstays, if_neg hstays]
    refine h.nextLine ?_
    rw [not_or] at hstays
    exact Option.not_isSome_iff_eq_none.1 hstays.2

/-- Reading keeps feeds alike, and none is ever lost. -/
def sameBytes : Simulation where
  Alike := Alike
  Lost _ := False
  current? := Alike.current?
  position := Alike.position
  failure := Alike.failure
  fill h := .inr h.fill
  pass h _ := h.pass
  passLine h _ := h.passLine
  lost_move _ hlost := hlost

end Feed

/-! ## Runs -/

namespace Reader

/-- Readers over sources that hold the same bytes give the same answers to all calls. -/
theorem run_eq_of_holds {first second : Source} {bytes : List UInt8} {ending : Ending}
    (hfirst : first.Holds bytes ending) (hsecond : second.Holds bytes ending) (limit : Nat)
    (commands : List Command) :
    (run (ofLexer (Lexer.ofSource first) limit) commands).1 =
      (run (ofLexer (Lexer.ofSource second) limit) commands).1 := by
  have hreaders : Related Feed.sameBytes.lexer (ofLexer (Lexer.ofSource first) limit)
      (ofLexer (Lexer.ofSource second) limit) :=
    ⟨⟨Feed.alike_ofSource hfirst hsecond, rfl⟩, rfl, rfl⟩
  rcases agree_run commands hreaders (fun h => ⟨h.lines, h.failure⟩) with hlost | ⟨hanswers, _⟩
  · exact hlost.elim
  · exact hanswers

/-- It does not matter how the bytes are delivered: deliveries of the same bytes with the same ending give
the same answers to all calls, and those of a text that ends cleanly give the answers of that text. -/
theorem run_eq_of_delivers {first second : List Delivery} {bytes : List UInt8} {ending : Ending}
    (hfirst : Delivers first bytes ending) (hsecond : Delivers second bytes ending) (limit : Nat)
    (commands : List Command) :
    (run (ofLexer (Lexer.ofSource (.ofDeliveries first)) limit) commands).1 =
        (run (ofLexer (Lexer.ofSource (.ofDeliveries second)) limit) commands).1 ∧
      ∀ text : String, bytes = Utf8.encode text.toList → ending = .clean →
        (run (ofLexer (Lexer.ofSource (.ofDeliveries first)) limit) commands).1 =
          (run (ofLexer (Lexer.ofText text) limit) commands).1 := by
  refine ⟨run_eq_of_holds (Source.holds_ofDeliveries hfirst) (Source.holds_ofDeliveries hsecond) limit
    commands, ?_⟩
  rintro text rfl rfl
  exact run_eq_of_holds (Source.holds_ofDeliveries hfirst) (Source.holds_ofText text) limit commands

/-- A string literal that is cut inside of a character and inside of an escape. -/
theorem run_eq_of_cut_string :
    Delivers [.bytes [0x22, 0xc3], .interrupted, .bytes [0xa9, 0x5c], .bytes [0x6e, 0x22]]
        [0x22, 0xc3, 0xa9, 0x5c, 0x6e, 0x22] .clean ∧
      Delivers [.bytes [0x22, 0xc3, 0xa9, 0x5c, 0x6e, 0x22], .bytes []]
        [0x22, 0xc3, 0xa9, 0x5c, 0x6e, 0x22] .clean ∧
      (run (ofLexer (Lexer.ofSource (.ofDeliveries
          [.bytes [0x22, 0xc3], .interrupted, .bytes [0xa9, 0x5c], .bytes [0x6e, 0x22]])) 256)
          [.lexer .look, .read?, .lexer .lines]).1 =
        (run (ofLexer (Lexer.ofSource (.ofDeliveries
          [.bytes [0x22, 0xc3, 0xa9, 0x5c, 0x6e, 0x22], .bytes []])) 256)
          [.lexer .look, .read?, .lexer .lines]).1 ∧
      (run (ofLexer (Lexer.ofSource (.ofDeliveries
          [.bytes [0x22, 0xc3], .interrupted, .bytes [0xa9, 0x5c], .bytes [0x6e, 0x22]])) 256)
          [.lexer .look, .read?, .lexer .lines]).1 =
        (run (ofLexer (Lexer.ofText "\"é\\n\"") 256) [.lexer .look, .read?, .lexer .lines]).1 := by
  have hcut : Delivers [.bytes [0x22, 0xc3], .interrupted, .bytes [0xa9, 0x5c], .bytes [0x6e, 0x22]]
      [0x22, 0xc3, 0xa9, 0x5c, 0x6e, 0x22] .clean :=
    .piece (by decide) (.interrupted (.piece (by decide) (.piece (by decide) .done)))
  have hwhole : Delivers [.bytes [0x22, 0xc3, 0xa9, 0x5c, 0x6e, 0x22], .bytes []]
      [0x22, 0xc3, 0xa9, 0x5c, 0x6e, 0x22] .clean :=
    .piece (by decide) (.finish .done)
  have h := run_eq_of_delivers hcut hwhole 256 [.lexer .look, .read?, .lexer .lines]
  exact ⟨hcut, hwhole, h.1, h.2 "\"é\\n\"" (by decide) rfl⟩

end Reader

end Sexp
