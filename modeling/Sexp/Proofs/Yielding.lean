import Sexp.Proofs.Lookahead
import Sexp.Proofs.ReadAll

/-!
# One after the other, all at once, or just one

The data of a text can be asked for one after the other, all at once, or as the only datum of the text. The three ways
agree (`Datum.entry_points_agree`): reading all at once collects what is yielded up to the first error, and the only
datum is a datum that is yielded with nothing after it. Texts play no part in this, so it is shown for readers of any
source first.
-/

namespace Sexp

namespace Reader

variable {reader rest : Reader} {datum : Datum} {error : Error} {answer : Except Error Datum}
  {answers : List (Except Error Datum)} {token : Token}

/-- Asked for one datum after the other, the reader yields these answers and then nothing. -/
def Yields (reader : Reader) (answers : List (Except Error Datum)) : Prop :=
  (reader.run (List.replicate (answers.length + 1) .yield)).1 =
    answers.map (fun answer => .yielded (some answer)) ++ [.yielded none]

theorem yields_nil : reader.Yields [] ↔ reader.yield.1 = none := by
  show [Answer.yielded reader.yield.1] = [Answer.yielded none] ↔ reader.yield.1 = none
  simp

theorem yields_cons :
    reader.Yields (answer :: answers) ↔ reader.yield.1 = some answer ∧ reader.yield.2.Yields answers := by
  show Answer.yielded reader.yield.1 :: (reader.yield.2.run (List.replicate (answers.length + 1) .yield)).1 =
    .yielded (some answer) :: (answers.map (fun answer => .yielded (some answer)) ++ [.yielded none]) ↔ _
  rw [List.cons.injEq, Answer.yielded.injEq]
  rfl

/-! ## The first answer -/

theorem read?_cases (reader : Reader) :
    (∃ token, reader.lexer.take.1 = .ok (some token) ∧ reader.read? = (reader.read.1.map some, reader.read.2)) ∨
      (∃ rest, reader.lexer.take.1 = .ok none ∧ reader.read? = (.ok none, rest) ∧
        reader.read = (.error (.unexpectedEnd Awaiting.start.context), rest)) ∨
      ∃ error rest, reader.lexer.take.1 = .error error ∧ reader.read? = (.error error, rest) ∧
        reader.read = (.error error, rest) := by
  unfold read? read
  simp only [complete_eq]
  rcases hlook : reader.lexer.look with ⟨failure | (_ | token), looked⟩
  · have htake : reader.lexer.take = (.error failure, looked) := by rw [Lexer.take, hlook]
    rw [htake]
    exact .inr (.inr ⟨failure, _, rfl, rfl, rfl⟩)
  · have htake : reader.lexer.take = (.ok none, looked) := by rw [Lexer.take, hlook]
    rw [htake]
    exact .inr (.inl ⟨_, rfl, rfl, rfl⟩)
  · have hagain := Lexer.take_eq_of_look_eq (Lexer.look_look reader.lexer)
    rw [hlook] at hagain
    refine .inl ⟨token, ?_, ?_⟩
    · rw [← Lexer.fst_look, hlook]
    · simp only [hagain]

section Going

variable (hgoing : reader.stopped = false)

include hgoing

theorem yield_eq_some_ok_iff : reader.yield = (some (.ok datum), rest) ↔ reader.read = (.ok datum, rest) := by
  rw [yield, hgoing]
  rcases read?_cases reader with ⟨_, _, hread?⟩ | ⟨_, _, hread?, hread⟩ | ⟨_, _, _, hread?, hread⟩
  · rw [hread?]
    rcases reader.read with ⟨error | found, left⟩ <;> simp [Except.map]
  · simp [hread?, hread]
  · simp [hread?, hread]

theorem yield_eq_none_iff : reader.yield.1 = none ↔ reader.lexer.take.1 = .ok none := by
  rw [yield, hgoing]
  rcases read?_cases reader with ⟨_, htake, hread?⟩ | ⟨_, htake, hread?, _⟩ | ⟨_, _, htake, hread?, _⟩
  · rw [hread?]
    cases reader.read.1 <;> simp [Except.map, htake]
  · simp [hread?, htake]
  · simp [hread?, htake]

theorem read_of_yield_error (h : reader.yield.1 = some (.error error)) : reader.read.1 = .error error := by
  rw [yield, hgoing] at h
  rcases read?_cases reader with ⟨_, _, hread?⟩ | ⟨_, _, hread?, hread⟩ | ⟨_, _, _, hread?, hread⟩
  · rw [hread?] at h
    cases hanswer : reader.read.1 <;> simp_all [Except.map]
  · simp [hread?] at h
  · simp_all

theorem readRest_eq_of_yield (data : List Datum) :
    (readRest data reader).1 =
      match reader.yield with
      | (some (.ok datum), rest) => (readRest (datum :: data) rest).1
      | (some (.error error), _) => .error error
      | (none, _) => .ok data.reverse := by
  rw [readRest_eq, yield, hgoing]
  rcases reader.read? with ⟨error | (_ | datum), rest⟩ <;> rfl

end Going

theorem yield_of_stopped (h : reader.stopped = true) : reader.yield.1 = none := by
  rw [yield, h]
  rfl

theorem stopped_of_yield (hgoing : reader.stopped = false) (h : reader.yield = (some answer, rest)) :
    (∀ datum, answer = .ok datum → rest.stopped = false) ∧ ∀ error, answer = .error error → rest.stopped = true := by
  constructor
  · rintro datum rfl
    exact (stopped_of_yield_ok h).trans hgoing
  · rintro error rfl
    rw [yield, hgoing] at h
    rcases hread : reader.read? with ⟨failure | (_ | datum), left⟩
    all_goals
      rw [hread] at h
      cases h
    rfl

/-! ## All answers -/

theorem Yields.eq {others : List (Except Error Datum)} (h : reader.Yields answers) (hothers : reader.Yields others) :
    answers = others := by
  induction answers generalizing others reader with
  | nil =>
    cases others with
    | nil => rfl
    | cons other others =>
      have hnone := yields_nil.1 h
      rw [(yields_cons.1 hothers).1] at hnone
      cases hnone
  | cons answer answers ih =>
    obtain ⟨hfirst, hrest⟩ := yields_cons.1 h
    cases others with
    | nil =>
      have hnone := yields_nil.1 hothers
      rw [hfirst] at hnone
      cases hnone
    | cons other others =>
      obtain ⟨hfirst', hrest'⟩ := yields_cons.1 hothers
      cases hfirst.symm.trans hfirst'
      rw [ih hrest hrest']

/-- Reading the data that are left answers those that are yielded, behind those read so far, or the error that is
yielded after them. -/
theorem exists_yields (data : List Datum) (hgoing : reader.stopped = false) :
    ∃ more, ((readRest data reader).1 = .ok (data.reverse ++ more) ∧ reader.Yields (more.map .ok)) ∨
      ∃ error, (readRest data reader).1 = .error error ∧ reader.Yields (more.map .ok ++ [.error error]) := by
  induction hsize : reader.size using Nat.strongRecOn generalizing data reader with
  | _ size ih =>
    subst hsize
    rw [readRest_eq_of_yield hgoing]
    rcases hyield : reader.yield with ⟨_ | (error | datum), rest⟩
    · refine ⟨[], .inl ⟨?_, ?_⟩⟩
      · rw [List.append_nil]
      · exact yields_nil.2 (congrArg Prod.fst hyield)
    · refine ⟨[], .inr ⟨error, rfl, ?_⟩⟩
      apply yields_cons.2
      rw [hyield]
      refine ⟨rfl, yields_nil.2 ?_⟩
      exact yield_of_stopped ((stopped_of_yield hgoing hyield).2 error rfl)
    · have hrest := (stopped_of_yield hgoing hyield).1 datum rfl
      have hfirst : ∀ {answers}, rest.Yields answers → reader.Yields (.ok datum :: answers) := by
        intro answers hanswers
        apply yields_cons.2
        rw [hyield]
        exact ⟨rfl, hanswers⟩
      obtain ⟨more, ⟨hanswer, hmore⟩ | ⟨error, hanswer, hmore⟩⟩ :=
        ih _ (size_yield hyield) (datum :: data) hrest rfl
      · refine ⟨datum :: more, .inl ⟨?_, hfirst hmore⟩⟩
        rw [List.reverse_cons, List.append_assoc, List.singleton_append] at hanswer
        exact hanswer
      · exact ⟨datum :: more, .inr ⟨error, hanswer, hfirst hmore⟩⟩

theorem map_ok_ne_append_error (data more : List Datum) (error : Error) :
    data.map Except.ok ≠ more.map Except.ok ++ [.error error] := by
  intro hsame
  have hmem : (.error error : Except Error Datum) ∈ data.map .ok := by
    rw [hsame]
    exact List.mem_append_right _ List.mem_cons_self
  obtain ⟨_, _, h⟩ := List.mem_map.1 hmem
  cases h

theorem readAll_eq_ok_iff_yields (data : List Datum) (hgoing : reader.stopped = false) :
    reader.readAll.1 = .ok data ↔ reader.Yields (data.map .ok) := by
  obtain ⟨more, ⟨hanswer, hmore⟩ | ⟨error, hanswer, hmore⟩⟩ := exists_yields [] hgoing
  all_goals
    rw [readAll, hanswer]
    constructor
  · rintro ⟨⟩
    exact hmore
  · intro hdata
    have hsame := hmore.eq hdata
    rw [List.map_inj_right fun _ _ => Except.ok.inj] at hsame
    rw [hsame]
    rfl
  · intro h
    cases h
  · intro hdata
    exact absurd (hdata.eq hmore) (map_ok_ne_append_error data more error)

theorem readAll_eq_error_iff_yields (error : Error) (hgoing : reader.stopped = false) :
    reader.readAll.1 = .error error ↔ ∃ data : List Datum, reader.Yields (data.map .ok ++ [.error error]) := by
  obtain ⟨more, ⟨hanswer, hmore⟩ | ⟨other, hanswer, hmore⟩⟩ := exists_yields [] hgoing
  all_goals
    rw [readAll, hanswer]
    constructor
  · intro h
    cases h
  · rintro ⟨data, hdata⟩
    exact absurd (hmore.eq hdata) (map_ok_ne_append_error more data error)
  · rintro ⟨⟩
    exact ⟨more, hmore⟩
  · rintro ⟨data, hdata⟩
    have hlast := List.append_inj_right' (hmore.eq hdata) rfl
    cases hlast
    rfl

/-! ## A sole datum -/

theorem readSole_of_read_error (h : reader.read.1 = .error error) : reader.readSole.1 = .error error := by
  unfold readSole
  rcases hread : reader.read with ⟨failure | found, rest⟩
  all_goals
    rw [hread] at h
    cases h
  rfl

theorem readSole_of_read_ok (h : reader.read = (.ok datum, rest)) :
    reader.readSole.1 = rest.checkEnd.1.map fun _ => datum := by
  rw [readSole, h]

theorem checkEnd_of_token (h : reader.lexer.take.1 = .ok (some token)) :
    reader.checkEnd.1 = .error (Awaiting.misplaced token "end of input") := by
  rw [← Lexer.fst_look] at h
  unfold checkEnd
  rcases hlook : reader.lexer.look with ⟨failure | (_ | first), looked⟩
  all_goals
    rw [hlook] at h
    cases h
  rfl

theorem readSole_eq_ok_iff_yields (datum : Datum) (hgoing : reader.stopped = false) :
    reader.readSole.1 = .ok datum ↔ reader.Yields [.ok datum] := by
  rw [yields_cons, yields_nil]
  rcases hread : reader.read with ⟨error | found, rest⟩
  · rw [readSole_of_read_error (congrArg Prod.fst hread)]
    constructor
    · intro h
      cases h
    · rintro ⟨hyield, _⟩
      have hread' := (yield_eq_some_ok_iff hgoing).1 (Prod.ext hyield rfl)
      cases hread.symm.trans hread'
  · have hyield := (yield_eq_some_ok_iff hgoing).2 hread
    have hrest := (stopped_of_yield hgoing hyield).1 found rfl
    rw [readSole_of_read_ok hread, hyield, yield_eq_none_iff hrest, ← checkEnd_eq_ok_iff_take]
    cases rest.checkEnd.1 with
    | error error =>
      constructor
      · intro h
        cases h
      · rintro ⟨_, h⟩
        cases h
    | ok =>
      constructor
      · rintro ⟨⟩
        exact ⟨rfl, rfl⟩
      · rintro ⟨⟨⟩, _⟩
        rfl

theorem read_of_no_token {text : String} (h : Token.allOfText text = []) :
    (ofText text).read.1 = .error (.unexpectedEnd Awaiting.start.context) := by
  have hclean : (ofText text).lexer.takeAll.2.failure = none := (Lexer.takeAll_of_holds (Source.holds_ofText text)).2
  have hnone := read?_of_nil hclean h
  rcases read?_cases (ofText text) with ⟨_, _, hread?⟩ | ⟨_, _, _, hread⟩ | ⟨_, _, _, hread?, _⟩
  · rw [hread?] at hnone
    cases hanswer : (ofText text).read.1 <;> simp [hanswer, Except.map] at hnone
  · rw [hread]
  · rw [hread?] at hnone
    cases hnone

end Reader

namespace Datum

open Reader (Yields)

/-- The data of a text are those that its reader yields before it yields nothing, and an error is the one that it yields
after some data. The only datum of a text is all of its data. Where there is no such datum, the error is that the text
has ended if it has no token, else the error that is yielded first, and else it blames the token that follows the first
datum, whatever follows that token. -/
theorem entry_points_agree (text : String) :
    (∀ data, allOfText text = .ok data ↔ (Reader.ofText text).Yields (data.map .ok)) ∧
      (∀ error, allOfText text = .error error ↔
        ∃ data : List Datum, (Reader.ofText text).Yields (data.map .ok ++ [.error error])) ∧
      (∀ datum, ofText text = .ok datum ↔ allOfText text = .ok [datum]) ∧
      (Token.allOfText text = [] → ofText text = .error (.unexpectedEnd Awaiting.start.context)) ∧
      (∀ error, (Reader.ofText text).yield.1 = some (.error error) → ofText text = .error error) ∧
      ∀ datum rest token more, (Reader.ofText text).yield = (some (.ok datum), rest) →
        rest.lexer.takeAll.1 = token :: more →
          ofText text = .error (.unexpectedToken token.position "end of input" token.shown) := by
  have hgoing : (Reader.ofText text).stopped = false := rfl
  refine ⟨fun data => Reader.readAll_eq_ok_iff_yields data hgoing,
    fun error => Reader.readAll_eq_error_iff_yields error hgoing, fun datum => ?_, fun hnil => ?_, fun error h => ?_,
    fun datum rest token more h hrest => ?_⟩
  · rw [ofText, allOfText, Reader.readSole_eq_ok_iff_yields datum hgoing]
    exact (Reader.readAll_eq_ok_iff_yields [datum] hgoing).symm
  · exact Reader.readSole_of_read_error (Reader.read_of_no_token hnil)
  · exact Reader.readSole_of_read_error (Reader.read_of_yield_error hgoing h)
  · have hread := (Reader.yield_eq_some_ok_iff hgoing).1 h
    obtain ⟨left, htake, _⟩ := Lexer.take_of_takeAll hrest
    rw [ofText, Reader.readSole_of_read_ok hread, Reader.checkEnd_of_token (congrArg Prod.fst htake)]
    rfl

/-- The parenthesis could not start a second datum, but the first one is complete before it. -/
example : ofText "a )" = .error (.unexpectedToken ⟨1, 3⟩ "end of input" ")") ∧
    allOfText "a )" = .error (.unexpectedToken ⟨1, 3⟩ "an expression" ")") := by
  decide +kernel

end Datum

end Sexp
