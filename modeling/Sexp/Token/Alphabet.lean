/-!
# Characters in tokens

Which characters separate tokens, which make up words, and what follows a backslash in a string literal.
-/

namespace Sexp.Token

/-- Everything up to the plain space separates tokens and is dropped. -/
def isBlank (c : Char) : Bool := c ≤ ' '

/-- The characters that end a word although they are not blank. -/
def isDelimiter (c : Char) : Bool :=
  c = '(' || c = ')' || c = '\'' || c = '`' || c = ',' || c = ';' || c = '"'

/-- The characters that words are made of. -/
def isConstituent (c : Char) : Bool := !isBlank c && !isDelimiter c

/-- An unescaped line break ends a string literal. -/
def isLineEnd (c : Char) : Bool := c = '\n' || c = '\r'

/-- The character that an escaped one stands for. All but the seven named ones stand for themselves. -/
def meaning : Char → Char
  | 'a' => '\x07'
  | 'b' => '\x08'
  | 'f' => '\x0c'
  | 'n' => '\n'
  | 'r' => '\r'
  | 't' => '\t'
  | 'v' => '\x0b'
  | c => c

/-- The value of an octal digit. -/
def octalDigit? (c : Char) : Option Nat :=
  if '0' ≤ c ∧ c ≤ '7' then some (c.toNat - '0'.toNat) else none

/-- How many digits may follow a first one of this value, so that the code stays below 256. -/
def octalDigitsAfter (first : Nat) : Nat := if first ≤ 3 then 2 else 1

/-! ## The classes by their characters -/

variable {c : Char}

theorem isBlank_iff : isBlank c ↔ c.toNat ≤ 0x20 := decide_eq_true_iff

theorem isDelimiter_iff_mem : isDelimiter c ↔ c ∈ ['(', ')', '\'', '`', ',', ';', '"'] := by
  simp only [isDelimiter, Bool.or_eq_true, decide_eq_true_eq, List.mem_cons, List.not_mem_nil, or_false, or_assoc]

theorem isConstituent_iff : isConstituent c ↔ 0x20 < c.toNat ∧ c ∉ ['(', ')', '\'', '`', ',', ';', '"'] := by
  rw [isConstituent, Bool.and_eq_true, Bool.not_eq_true', Bool.not_eq_true', Bool.eq_false_iff, Bool.eq_false_iff,
    Ne, Ne, isBlank_iff, isDelimiter_iff_mem, Nat.not_le]

theorem isLineEnd_iff : isLineEnd c ↔ c = '\n' ∨ c = '\r' := by
  rw [isLineEnd, Bool.or_eq_true, decide_eq_true_eq, decide_eq_true_eq]

theorem octalDigit?_eq_some_iff {digit : Nat} :
    octalDigit? c = some digit ↔ digit < 8 ∧ c = Nat.digitChar digit := by
  have hzero : '0'.toNat = 48 := rfl
  have hseven : '7'.toNat = 55 := rfl
  constructor
  · intro h
    rw [octalDigit?, Option.ite_none_right_eq_some, Option.some.injEq] at h
    obtain ⟨⟨hlow, hhigh⟩, hdigit⟩ := h
    have hlow : '0'.toNat ≤ c.toNat := hlow
    have hhigh : c.toNat ≤ '7'.toNat := hhigh
    refine ⟨by omega, Char.toNat_inj.1 ?_⟩
    rw [Nat.toNat_digitChar_of_lt_ten (by omega)]
    omega
  · rintro ⟨hdigit, rfl⟩
    have hcode := Nat.toNat_digitChar_of_lt_ten (Nat.lt_trans hdigit (by decide))
    have hlow : '0'.toNat ≤ (Nat.digitChar digit).toNat := by omega
    have hhigh : (Nat.digitChar digit).toNat ≤ '7'.toNat := by omega
    rw [octalDigit?, if_pos ⟨hlow, hhigh⟩, hcode, hzero, Nat.add_sub_cancel_left]

end Sexp.Token
