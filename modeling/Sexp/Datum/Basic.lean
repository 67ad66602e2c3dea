/-!
# Data

A datum is the empty list, an atom, a string or a pair. A chain of pairs is a list of items with a tail:
a proper list where the tail is the empty list, a dotted one otherwise.
-/

namespace Sexp

inductive Datum
  /-- The empty list. -/
  | nil
  | atom (name : String)
  | string (value : String)
  | cons (car cdr : Datum)

namespace Datum

instance : Inhabited Datum := ⟨nil⟩

/-- The list of these items with this tail in place of the empty list. -/
def chain (items : List Datum) (tail : Datum) : Datum := items.foldr cons tail

def list (items : List Datum) : Datum := chain items nil

/-- What a quote mark in front of a datum abbreviates. -/
def quoted (name : String) (datum : Datum) : Datum := list [atom name, datum]

/-- The word is `NIL` in some mixture of cases. -/
def isNilWord (word : String) : Bool := word.toList.map Char.toUpper = ['N', 'I', 'L']

theorem eq_or_eq_of_toUpper_eq {c lower upper : Char} (h : c.toUpper = upper)
    (hlower : lower.toNat = upper.toNat + 32) : c = lower ∨ c = upper := by
  unfold Char.toUpper at h
  split at h
  · rename_i hletter
    have hlow : 97 ≤ c.val.toNat := hletter.1
    have hhigh : c.val.toNat ≤ 122 := hletter.2
    -- the distance of the two alphabets is negative and wraps
    have hshift : ('A'.val - 'a'.val).toNat = 4294967264 := rfl
    have hupper : upper.toNat = (c.val + ('A'.val - 'a'.val)).toNat := by rw [← h]; rfl
    refine .inl (Char.toNat_inj.1 ?_)
    show c.val.toNat = lower.toNat
    rw [hlower, hupper, UInt32.toNat_add, hshift]
    omega
  · exact .inr h

theorem isNilWord_iff_mem {word : String} :
    isNilWord word ↔ word ∈ ["nil", "niL", "nIl", "nIL", "Nil", "NiL", "NIl", "NIL"] := by
  constructor
  · intro h
    obtain ⟨n, rest, hword, hn, hrest⟩ := List.map_eq_cons_iff.1 (of_decide_eq_true h)
    obtain ⟨i, rest, rfl, hi, hrest⟩ := List.map_eq_cons_iff.1 hrest
    obtain ⟨l, rest, rfl, hl, hrest⟩ := List.map_eq_cons_iff.1 hrest
    cases List.map_eq_nil_iff.1 hrest
    have hletters : word = String.ofList [n, i, l] := by rw [← hword, String.ofList_toList]
    rw [hletters]
    rcases @eq_or_eq_of_toUpper_eq n 'n' 'N' hn rfl with rfl | rfl
    all_goals rcases @eq_or_eq_of_toUpper_eq i 'i' 'I' hi rfl with rfl | rfl
    all_goals rcases @eq_or_eq_of_toUpper_eq l 'l' 'L' hl rfl with rfl | rfl
    all_goals decide
  · intro h
    simp only [List.mem_cons, List.not_mem_nil, or_false] at h
    rcases h with rfl | rfl | rfl | rfl | rfl | rfl | rfl | rfl <;> decide

/-- The datum that a word stands for. -/
def ofWord (word : String) : Datum := if isNilWord word then nil else atom word

/-! ## Equality -/

/-- Compares two data, one pair after the other along a chain. -/
def equal : Datum → Datum → Bool
  | nil, nil => true
  | atom a, atom b => a == b
  | string a, string b => a == b
  | cons a b, cons c d => a.equal c && b.equal d
  | _, _ => false

instance : BEq Datum := ⟨equal⟩

theorem equal_iff {a b : Datum} : a.equal b = true ↔ a = b := by
  induction a generalizing b with
  | nil => cases b <;> simp [equal]
  | atom name => cases b <;> simp [equal]
  | string value => cases b <;> simp [equal]
  | cons car cdr ihcar ihcdr => cases b <;> simp [equal, ihcar, ihcdr]

instance : LawfulBEq Datum where
  eq_of_beq := equal_iff.1
  rfl := equal_iff.2 rfl

instance : DecidableEq Datum := instDecidableEqOfLawfulBEq

/-! ## Parts -/

def isNil : Datum → Bool
  | nil => true
  | _ => false

def isAtom : Datum → Bool
  | atom _ => true
  | _ => false

def isString : Datum → Bool
  | string _ => true
  | _ => false

def isCons : Datum → Bool
  | cons .. => true
  | _ => false

/-- The empty list or a pair, proper or not. -/
def isList (datum : Datum) : Bool := datum.isNil || datum.isCons

def name? : Datum → Option String
  | atom name => some name
  | _ => none

def value? : Datum → Option String
  | string value => some value
  | _ => none

def uncons? : Datum → Option (Datum × Datum)
  | cons car cdr => some (car, cdr)
  | _ => none

def car? (datum : Datum) : Option Datum := datum.uncons?.map Prod.fst

def cdr? (datum : Datum) : Option Datum := datum.uncons?.map Prod.snd

/-! ## Chains -/

/-- The items of a chain. -/
def items : Datum → List Datum
  | cons car cdr => car :: cdr.items
  | _ => []

/-- What ends a chain, which is never a pair. -/
def tail : Datum → Datum
  | cons _ cdr => cdr.tail
  | datum => datum

/-- Asks a chain for its next item so many times, after the answers so far (newest first). The answers come
with what is left of the chain. -/
def walkOn (answers : List (Option Datum)) : Nat → Datum → List (Option Datum) × Datum
  | 0, rest => (answers.reverse, rest)
  | n + 1, rest =>
    match rest.uncons? with
    | some (car, cdr) => walkOn (some car :: answers) n cdr
    | none => walkOn (none :: answers) n rest

def walk (n : Nat) (datum : Datum) : List (Option Datum) × Datum := walkOn [] n datum

/-- The number of items of a proper list. -/
def length? (datum : Datum) : Option Nat :=
  if datum.tail.isNil then some datum.items.length else none

def isProper (datum : Datum) : Bool := datum.length?.isSome

@[simp] theorem chain_nil (tail : Datum) : chain [] tail = tail := rfl

@[simp] theorem chain_cons (item : Datum) (items : List Datum) (tail : Datum) :
    chain (item :: items) tail = cons item (chain items tail) := rfl

theorem chain_append (first second : List Datum) (tail : Datum) :
    chain (first ++ second) tail = chain first (chain second tail) :=
  List.foldr_append

@[simp] theorem items_chain (items : List Datum) (tail : Datum) :
    (chain items tail).items = items ++ tail.items := by
  induction items with
  | nil => rfl
  | cons item items ih => rw [chain_cons, Datum.items, ih, List.cons_append]

@[simp] theorem tail_chain (items : List Datum) (tail : Datum) :
    (chain items tail).tail = tail.tail := by
  induction items with
  | nil => rfl
  | cons item items ih => rw [chain_cons, Datum.tail, ih]

@[simp] theorem chain_items_tail (datum : Datum) : chain datum.items datum.tail = datum := by
  induction datum with
  | cons car cdr _ ih => rw [Datum.items, Datum.tail, chain_cons, ih]
  | _ => rfl

@[simp] theorem isCons_tail (datum : Datum) : datum.tail.isCons = false := by
  induction datum with
  | cons car cdr _ ih => exact ih
  | _ => rfl

theorem items_eq_nil {datum : Datum} (h : datum.isCons = false) : datum.items = [] := by
  cases datum <;> simp_all [isCons, items]

theorem tail_eq_self {datum : Datum} (h : datum.isCons = false) : datum.tail = datum := by
  cases datum <;> simp_all [isCons, tail]

theorem length?_eq_some_iff {datum : Datum} {n : Nat} :
    datum.length? = some n ↔ datum.tail = nil ∧ datum.items.length = n := by
  unfold length?
  cases datum.tail <;> simp [isNil]

/-! ## Copies -/

theorem sizeOf_lt_of_mem_items {datum item : Datum} (h : item ∈ datum.items) : sizeOf item < sizeOf datum := by
  induction datum with
  | cons car cdr _ ih =>
    rw [cons.sizeOf_spec]
    rcases List.mem_cons.1 h with rfl | hrest
    · omega
    · have := ih hrest
      omega
  | _ => cases h

theorem sizeOf_tail_le (datum : Datum) : sizeOf datum.tail ≤ sizeOf datum := by
  induction datum with
  | cons car cdr _ ih =>
    rw [tail, cons.sizeOf_spec]
    omega
  | _ => exact Nat.le_refl _

/-- Builds the same datum anew, a chain from copies of its items and of its tail. -/
def copy : Datum → Datum
  | nil => nil
  | atom name => atom name
  | string value => string value
  | cons car cdr =>
    chain ((cons car cdr).items.attach.map fun item => copy item.1) (copy (cons car cdr).tail)
termination_by datum => sizeOf datum
decreasing_by
  · exact sizeOf_lt_of_mem_items item.2
  · have := sizeOf_tail_le cdr
    rw [tail, cons.sizeOf_spec]
    omega

end Datum

end Sexp
