import Sexp.Reader

/-!
# Reading by descent

One form is read once more, now by functions that call each other for the forms inside of it and count how many
forms are open. The count stays where a form is left, be it complete or not, so that the next form could find it.
-/

namespace Sexp

/-- A lexer, and how many forms are open. -/
structure Descent where
  lexer : Lexer
  depth : Nat

namespace Descent

/-- What a descent from here comes back with. It puts no token back and leaves as many forms open as it found. -/
structure Return (here : Descent) where
  answer : Except Error Datum
  rest : Descent
  size_le : rest.lexer.size ≤ here.lexer.size
  depth_eq : rest.depth = here.depth

namespace Return

variable {here later : Descent}

def stay (answer : Except Error Datum) : Return here := ⟨answer, here, Nat.le_refl _, rfl⟩

/-- The descent began before this place, in the same form. -/
def since (result : Return later) (hsize : later.lexer.size ≤ here.lexer.size) (hdepth : later.depth = here.depth) :
    Return here :=
  ⟨result.answer, result.rest, Nat.le_trans result.size_le hsize, result.depth_eq.trans hdepth⟩

def map (f : Datum → Datum) (result : Return here) : Return here := { result with answer := result.answer.map f }

/-- Goes on behind a datum. -/
def andThen (result : Return here)
    (go : Datum → (later : Descent) → later.lexer.size ≤ here.lexer.size → Return later) : Return here :=
  match result with
  | ⟨.ok datum, rest, hsize, hdepth⟩ => (go datum rest hsize).since hsize hdepth
  | ⟨.error error, rest, hsize, hdepth⟩ => ⟨.error error, rest, hsize, hdepth⟩

/-- Closes the form that was opened here, complete or not. -/
def leave (result : Return { here with depth := here.depth + 1 }) : Return here where
  answer := result.answer
  rest := { result.rest with depth := result.rest.depth - 1 }
  size_le := result.size_le
  depth_eq := by rw [result.depth_eq, Nat.add_sub_cancel]

end Return

/-! ## One token -/

/-- The next token. The end of the text is an error. -/
def next (context : String) (lexer : Lexer) : Except Error Token × Lexer :=
  match lexer.take with
  | (.ok (some token), rest) => (.ok token, rest)
  | (.ok none, rest) => (.error (.unexpectedEnd context), rest)
  | (.error failure, rest) => (.error failure, rest)

variable {context : String} {lexer rest : Lexer}

theorem size_next {answer : Except Error Token} (h : next context lexer = (answer, rest)) :
    rest.size ≤ lexer.size := by
  have htake := Lexer.size_take lexer
  unfold next at h
  split at h
  all_goals
    rename_i heq
    rw [heq] at htake
    cases h
    exact htake

theorem size_next_lt {token : Token} (h : next context lexer = (.ok token, rest)) : rest.size < lexer.size := by
  unfold next at h
  split at h
  · cases h
    exact Lexer.size_take_lt (by assumption)
  · cases h
  · cases h

/-- Goes on behind the next token. -/
def withNext (context : String) (here : Descent)
    (go : Token → (rest : Lexer) → rest.size < here.lexer.size → Return { here with lexer := rest }) :
    Return here :=
  match h : next context here.lexer with
  | (.ok token, rest) => (go token rest (size_next_lt h)).since (size_next h) rfl
  | (.error error, rest) => ⟨.error error, { here with lexer := rest }, size_next h, rfl⟩

/-! ## One form -/

/-- Opens a form if the limit allows one more. -/
def nested (limit : Nat) (here : Descent) (go : Unit → Return { here with depth := here.depth + 1 }) : Return here :=
  if here.depth < limit then (go ()).leave else .stay (.error (.tooDeep limit))

/-- The end of a list with these items, newest first, and this tail. -/
def closing (found : List Datum) (last : Datum) (here : Descent) : Return here :=
  withNext "expected `)` after dotted tail" here fun token _ _ =>
    if token.kind = .closeParen then .stay (.ok (Datum.chain found.reverse last))
    else .stay (.error (.malformed token.position s!"expected `)` after dotted tail, got `{token.shown}`"))

mutual

/-- The datum that starts with this token. -/
def datum (limit : Nat) (token : Token) (here : Descent) : Return here :=
  match token.kind.quoteName?, token.kind with
  | some name, _ => nested limit here fun _ => operand limit name { here with depth := here.depth + 1 }
  | none, .openParen => nested limit here fun _ => items limit [] { here with depth := here.depth + 1 }
  | none, .string => .stay (.ok (.string token.text))
  | none, .word => .stay (.ok (Datum.ofWord token.text))
  | none, .closeParen => .stay (.error (Awaiting.misplaced token "an expression"))
  | none, _ => .stay (.error (.unexpectedEnd "expected an expression"))
termination_by (here.lexer.size, 1)

/-- What a quote mark that stands for this name is put before. -/
def operand (limit : Nat) (name : String) (here : Descent) : Return here :=
  withNext "expected an expression after quote marker" here fun token rest _ =>
    (datum limit token { here with lexer := rest }).map (Datum.quoted name)
termination_by (here.lexer.size, 0)
decreasing_by exact .left _ _ (by assumption)

/-- The rest of a list, after the items found so far (newest first). -/
def items (limit : Nat) (found : List Datum) (here : Descent) : Return here :=
  withNext "expected `)` to close list" here fun token rest _ =>
    if token.kind = .closeParen then .stay (.ok (Datum.list found.reverse))
    else if token.isDot then tail limit found { here with lexer := rest }
    else
      (datum limit token { here with lexer := rest }).andThen fun item later _ =>
        items limit (item :: found) later
termination_by (here.lexer.size, 0)
decreasing_by
  · exact .left _ _ (by assumption)
  · exact .left _ _ (by assumption)
  · exact .left _ _ (Nat.lt_of_le_of_lt (by assumption) (by assumption))

/-- What follows the dot of a list with these items. -/
def tail (limit : Nat) (found : List Datum) (here : Descent) : Return here :=
  withNext "expected an expression after `.`" here fun token rest _ =>
    (datum limit token { here with lexer := rest }).andThen fun last later _ => closing found last later
termination_by (here.lexer.size, 0)
decreasing_by exact .left _ _ (by assumption)

end

/-- Reads one datum. The count starts anew, whatever it has been left at. -/
def read (limit : Nat) (before : Descent) : Except Error Datum × Descent :=
  let start := { before with depth := 0 }
  let result := withNext "expected an expression" start fun token rest _ =>
    datum limit token { start with lexer := rest }
  (result.answer, result.rest)

end Descent

end Sexp
