import Sexp.Source

/-!
# What a source holds

`Source.Holds source bytes ending` says that all the polls of a source together bring these bytes and then
this ending, wherever the bytes are cut and however often a poll brings nothing yet. A line that is taken
depends on the bytes and the ending alone (`Source.takeLine_of_holds`, `Source.takeText_of_holds`), and what
is left holds the rest.
-/

namespace Sexp

/-- How a source goes on after its last byte. -/
inductive Ending
  /-- Every further poll reports the end. -/
  | clean
  /-- The next poll fails with this text. -/
  | failure (text : String)

/-- The deliveries bring these bytes in non-empty pieces and then end this way. What comes after a failure
does not matter. -/
inductive Delivers : List Delivery → List UInt8 → Ending → Prop
  | done : Delivers [] [] .clean
  | finish {pending : List Delivery} : Delivers pending [] .clean → Delivers (.bytes [] :: pending) [] .clean
  | failure {text : String} {pending : List Delivery} :
    Delivers (.failure text :: pending) [] (.failure text)
  | interrupted {pending : List Delivery} {bytes : List UInt8} {ending : Ending} :
    Delivers pending bytes ending → Delivers (.interrupted :: pending) bytes ending
  | piece {content bytes : List UInt8} {pending : List Delivery} {ending : Ending} :
    content ≠ [] → Delivers pending bytes ending →
      Delivers (.bytes content :: pending) (content ++ bytes) ending

namespace Source

/-- The unread bytes and the polls still to come bring these bytes and then this ending. -/
def Holds (source : Source) (bytes : List UInt8) (ending : Ending) : Prop :=
  ∃ later, Delivers source.pending later ending ∧ bytes = source.unread ++ later

theorem holds_ofDeliveries {deliveries : List Delivery} {bytes : List UInt8} {ending : Ending}
    (h : Delivers deliveries bytes ending) : (ofDeliveries deliveries).Holds bytes ending :=
  ⟨bytes, h, rfl⟩

theorem holds_ofText (text : String) : (ofText text).Holds (Utf8.encode text.toList) .clean :=
  ⟨[], .done, (List.append_nil _).symm⟩

/-! ## Cutting lines -/

theorem cutLine?_of_not_mem {bytes : List UInt8} (h : lineBreak ∉ bytes) : cutLine? bytes = none := by
  have hdrop : bytes.dropWhile (· != lineBreak) = [] := by
    rw [← List.append_nil bytes, List.dropWhile_append_of_pos]
    · rfl
    · intro b hb
      have hne : b ≠ lineBreak := fun heq => h (heq ▸ hb)
      simpa using hne
  rw [cutLine?, hdrop]

theorem cutLine?_line {before rest : List UInt8} (h : lineBreak ∉ before) :
    cutLine? (before ++ lineBreak :: rest) = some (before ++ [lineBreak], rest) := by
  have hall : ∀ b ∈ before, (b != lineBreak) = true := by
    intro b hb
    have hne : b ≠ lineBreak := fun heq => h (heq ▸ hb)
    simpa using hne
  unfold cutLine?
  rw [List.dropWhile_append_of_pos hall, List.takeWhile_append_of_pos hall]
  simp

/-- Bytes hold no line break, or they start with a line. -/
theorem line_cases (bytes : List UInt8) :
    lineBreak ∉ bytes ∨
      ∃ before rest, lineBreak ∉ before ∧ bytes = before ++ lineBreak :: rest := by
  by_cases hmem : lineBreak ∈ bytes
  · obtain ⟨before, rest, heq, hbefore⟩ := List.eq_append_cons_of_mem hmem
    exact .inr ⟨before, rest, hbefore, heq⟩
  · exact .inl hmem

/-! ## Taking lines -/

end Source

/-- The first line of bytes that end this way, and the bytes after it. -/
def Ending.line (ending : Ending) (bytes : List UInt8) :
    Except ReadFailure (List UInt8) × List UInt8 :=
  match Source.cutLine? bytes with
  | some (line, rest) => (.ok line, rest)
  | none =>
    match ending with
    | clean => (.ok bytes, [])
    | failure text => (.error (.reported text), [])

namespace Source

theorem line_of_break {before rest : List UInt8} (ending : Ending) (h : lineBreak ∉ before) :
    ending.line (before ++ lineBreak :: rest) = (.ok (before ++ [lineBreak]), rest) := by
  simp only [Ending.line, cutLine?_line h]

theorem line_clean {bytes : List UInt8} (h : lineBreak ∉ bytes) : Ending.line .clean bytes = (.ok bytes, []) := by
  simp only [Ending.line, cutLine?_of_not_mem h]

theorem line_failure {bytes : List UInt8} (text : String) (h : lineBreak ∉ bytes) :
    (Ending.failure text).line bytes = (.error (.reported text), []) := by
  simp only [Ending.line, cutLine?_of_not_mem h]

/-- What was taken is the first line of the bytes, and what is left holds the bytes after it. -/
def Took (taken : Except ReadFailure (List UInt8) × Source) (bytes : List UInt8) (ending : Ending) : Prop :=
  taken.1 = (ending.line bytes).1 ∧
    ∀ line, taken.1 = .ok line → taken.2.Holds (ending.line bytes).2 ending

theorem collectLine_break {before rest : List UInt8} (collected : List UInt8) (polls : Nat)
    (pending : List Delivery) (h : lineBreak ∉ before) :
    collectLine collected polls (.bytes (before ++ lineBreak :: rest) :: pending) =
      (.ok (collected ++ (before ++ [lineBreak])), ⟨rest, pending, polls + 1⟩) := by
  rw [collectLine]
  · rw [cutLine?_line h]
  · simp

theorem collectLine_no_break {content : List UInt8} (collected : List UInt8) (polls : Nat)
    (pending : List Delivery) (hcontent : content ≠ []) (h : lineBreak ∉ content) :
    collectLine collected polls (.bytes content :: pending) =
      collectLine (collected ++ content) (polls + 1) pending := by
  rw [collectLine]
  · rw [cutLine?_of_not_mem h]
  · exact hcontent

theorem took_collectLine {pending : List Delivery} {later : List UInt8} {ending : Ending}
    (h : Delivers pending later ending) (collected : List UInt8) (polls : Nat)
    (hcollected : lineBreak ∉ collected) :
    Took (collectLine collected polls pending) (collected ++ later) ending := by
  induction h generalizing collected polls with
  | done =>
    rw [collectLine, List.append_nil, Took, line_clean hcollected]
    exact ⟨rfl, fun _ _ => ⟨[], .done, rfl⟩⟩
  | finish hpending _ =>
    rw [collectLine, List.append_nil, Took, line_clean hcollected]
    exact ⟨rfl, fun _ _ => ⟨[], hpending, rfl⟩⟩
  | failure =>
    rw [collectLine, List.append_nil, Took, line_failure _ hcollected]
    refine ⟨rfl, fun line hline => ?_⟩
    cases hline
  | interrupted _ ih =>
    rw [collectLine]
    exact ih collected (polls + 1) hcollected
  | @piece content bytes pending ending hcontent hpending ih =>
    rcases line_cases content with hnone | ⟨before, rest, hbefore, rfl⟩
    · have hboth : lineBreak ∉ collected ++ content := by
        rw [List.mem_append]
        exact fun hmem => hmem.elim hcollected hnone
      rw [collectLine_no_break _ _ _ hcontent hnone, ← List.append_assoc]
      exact ih (collected ++ content) (polls + 1) hboth
    · have hboth : lineBreak ∉ collected ++ before := by
        rw [List.mem_append]
        exact fun hmem => hmem.elim hcollected hbefore
      have hsplit : collected ++ (before ++ lineBreak :: rest ++ bytes) =
          (collected ++ before) ++ lineBreak :: (rest ++ bytes) := by
        simp only [List.append_assoc, List.cons_append]
      rw [collectLine_break _ _ _ hbefore, hsplit, Took, line_of_break ending hboth,
        ← List.append_assoc]
      exact ⟨rfl, fun _ _ => ⟨bytes, hpending, rfl⟩⟩

theorem took_takeLine {source : Source} {bytes : List UInt8} {ending : Ending}
    (h : source.Holds bytes ending) : Took source.takeLine bytes ending := by
  obtain ⟨later, hlater, rfl⟩ := h
  unfold takeLine
  rcases line_cases source.unread with hnone | ⟨before, rest, hbefore, heq⟩
  · rw [cutLine?_of_not_mem hnone]
    exact took_collectLine hlater source.unread source.polls hnone
  · rw [heq, cutLine?_line hbefore, List.append_assoc, List.cons_append, Took,
      line_of_break ending hbefore]
    exact ⟨rfl, fun _ _ => ⟨later, hlater, rfl⟩⟩

/-! ## Taking the characters of lines -/

/-- The characters of a line, which have to be UTF-8. -/
def textOfLine (line : List UInt8) : Except ReadFailure (List Char) :=
  match Utf8.decode line with
  | some text => .ok text
  | none => .error .invalidUtf8

theorem textOfLine_encode (text : List Char) : textOfLine (Utf8.encode text) = .ok text := by
  rw [textOfLine, Utf8.decode_encode]

theorem takeText_eq (source : Source) :
    source.takeText = (source.takeLine.1.bind textOfLine, source.takeLine.2) := by
  unfold takeText textOfLine
  rcases source.takeLine with ⟨failure | line, rest⟩
  · rfl
  · simp only [Except.bind]
    cases Utf8.decode line <;> rfl

theorem takeText_of_holds {source : Source} {bytes : List UInt8} {ending : Ending}
    (h : source.Holds bytes ending) :
    source.takeText.1 = (ending.line bytes).1.bind textOfLine ∧
      ∀ text, source.takeText.1 = .ok text → source.takeText.2.Holds (ending.line bytes).2 ending := by
  obtain ⟨hline, hrest⟩ := took_takeLine h
  rw [takeText_eq, hline]
  refine ⟨rfl, fun text htext => ?_⟩
  cases htaken : (ending.line bytes).1 with
  | ok line => exact hrest line (hline.trans htaken)
  | error failure =>
    rw [htaken] at htext
    cases htext

end Source

end Sexp
