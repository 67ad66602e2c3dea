import Mathlib.Logic.Function.Basic
import Sexp.Datum.Inspect

/-!
# Inspection tells any two data apart

No part of an inspection can be mistaken for another: the spelling of a character in quotes shows where it ends, and so do
a quoted text, a leaf and a chain, whatever follows them (`SelfDelimiting`). The inspection on one line and the one over
several lines differ only in what they put between the same labels, texts and brackets, so this is shown once, for
every `Datum.Style` whose chains show their end, and gives both (`Datum.inspection_injective`).
-/

namespace Sexp

/-! ## Writings that show where they end -/

/-- The writing shows where it ends: whatever follows, it can be read in one way only. -/
def SelfDelimiting {α : Type} (write : α → List Char) : Prop :=
  ∀ ⦃a b : α⦄ ⦃r s : List Char⦄, write a ++ r = write b ++ s → a = b ∧ r = s

namespace SelfDelimiting

variable {α : Type} {write : α → List Char}

theorem injective (h : SelfDelimiting write) : Function.Injective write := by
  intro a b hsame
  rw [← List.append_nil (write a), ← List.append_nil (write b)] at hsame
  exact (h hsame).1

theorem flatMap {stop : Char} (h : SelfDelimiting write) (hstop : ∀ a, ∃ c rest, write a = c :: rest ∧ c ≠ stop) :
    SelfDelimiting fun values : List α => values.flatMap write ++ [stop] := by
  intro values others
  induction values generalizing others with
  | nil =>
    intro r s hsame
    cases others with
    | nil => simpa using hsame
    | cons other others =>
      obtain ⟨c, rest, hwrite, hne⟩ := hstop other
      simp only [List.flatMap_nil, List.flatMap_cons, hwrite, List.cons_append, List.nil_append,
        List.cons.injEq] at hsame
      exact absurd hsame.1.symm hne
  | cons value values ih =>
    intro r s hsame
    cases others with
    | nil =>
      obtain ⟨c, rest, hwrite, hne⟩ := hstop value
      simp only [List.flatMap_nil, List.flatMap_cons, hwrite, List.cons_append, List.nil_append,
        List.cons.injEq] at hsame
      exact absurd hsame.1 hne
    | cons other others =>
      simp only [List.flatMap_cons, List.append_assoc] at hsame
      obtain ⟨rfl, htail⟩ := h hsame
      rw [← List.append_assoc, ← List.append_assoc] at htail
      obtain ⟨rfl, hrest⟩ := ih htail
      exact ⟨rfl, hrest⟩

end SelfDelimiting

/-! ## Quoted texts -/

namespace Quoted

theorem digitChar_inj : ∀ m < 16, ∀ n < 16, Nat.digitChar m = Nat.digitChar n → m = n := by decide

theorem toDigits_eq (n : Nat) :
    Nat.toDigits 16 n = (if n < 16 then [] else Nat.toDigits 16 (n / 16)) ++ [Nat.digitChar (n % 16)] := by
  rw [Nat.toDigits_eq_if (by decide)]
  split
  · rename_i h
    rw [Nat.mod_eq_of_lt h, List.nil_append]
  · rfl

theorem toDigits_injective : Function.Injective (Nat.toDigits 16) := by
  intro m
  induction m using Nat.strongRecOn with
  | _ m ih =>
    intro n h
    rw [toDigits_eq m, toDigits_eq n] at h
    obtain ⟨hinit, hlast⟩ := List.append_inj' h rfl
    have hmod : m % 16 = n % 16 :=
      digitChar_inj _ (Nat.mod_lt _ (by decide)) _ (Nat.mod_lt _ (by decide)) (List.singleton_inj.1 hlast)
    split at hinit <;> split at hinit
    · omega
    · exact absurd hinit.symm Nat.toDigits_ne_nil
    · exact absurd hinit Nat.toDigits_ne_nil
    · have hdiv := ih (m / 16) (by omega) hinit
      omega

theorem brace_not_mem_toDigits (n : Nat) : '\x7d' ∉ Nat.toDigits 16 n := by
  induction n using Nat.strongRecOn with
  | _ n ih =>
    rw [toDigits_eq, List.mem_append, List.mem_singleton, not_or]
    constructor
    · split
      · exact List.not_mem_nil
      · exact ih (n / 16) (by omega)
    · exact (Nat.digitChar_ne _ (by decide)).symm

/-- A stop that does not occur before it is found in one way only. -/
theorem eq_of_append_stop {stop : Char} {before before' r s : List Char} (h : stop ∉ before) (h' : stop ∉ before')
    (hsame : before ++ stop :: r = before' ++ stop :: s) : before = before' ∧ r = s := by
  rcases List.append_eq_append_iff.1 hsame with ⟨more, rfl, hmore⟩ | ⟨more, rfl, hmore⟩
  all_goals
    cases more with
    | nil => simpa [eq_comm] using hmore
    | cons c more =>
      obtain ⟨rfl, _⟩ := List.cons.inj hmore
      simp at h h'

theorem selfDelimiting_spellNumber : SelfDelimiting spellNumber := by
  intro c d r s h
  simp only [spellNumber, List.append_assoc, List.cons_append, List.nil_append, List.cons.injEq, true_and] at h
  obtain ⟨hdigits, hrest⟩ := eq_of_append_stop (brace_not_mem_toDigits _) (brace_not_mem_toDigits _) h
  exact ⟨Char.toNat_inj.1 (toDigits_injective hdigits), hrest⟩

/-- The letter that stands for a character behind a backslash. -/
def letter? : Char → Option Char
  | '\x00' => some '0'
  | '\t' => some 't'
  | '\r' => some 'r'
  | '\n' => some 'n'
  | '"' => some '"'
  | '\\' => some '\\'
  | _ => none

/-- The character that such a letter stands for. -/
def ofLetter? : Char → Option Char
  | '0' => some '\x00'
  | 't' => some '\t'
  | 'r' => some '\r'
  | 'n' => some '\n'
  | '"' => some '"'
  | '\\' => some '\\'
  | _ => none

theorem ofLetter?_of_letter? {c x : Char} (h : letter? c = some x) : ofLetter? x = some c := by
  unfold letter? at h
  split at h <;> cases h <;> rfl

theorem spellVisible_cases (unprintable : Char → Bool) (c : Char) :
    (∃ x, letter? c = some x ∧ spellVisible unprintable c = ['\\', x]) ∨
      spellVisible unprintable c = spellNumber c ∨ spellVisible unprintable c = [c] ∧ c ≠ '\\' ∧ c ≠ '"' := by
  unfold spellVisible
  split
  case h_7 hquote hescape =>
    split
    · exact .inr (.inl rfl)
    · exact .inr (.inr ⟨rfl, hescape, hquote⟩)
  all_goals exact .inl ⟨_, rfl, rfl⟩

theorem selfDelimiting_spellVisible (unprintable : Char → Bool) : SelfDelimiting (spellVisible unprintable) := by
  intro c d r s h
  have hu : ∀ {c x}, letter? c = some x → x ≠ 'u' := by
    rintro c x hx rfl
    cases ofLetter?_of_letter? hx
  rcases spellVisible_cases unprintable c with ⟨x, hx, hc⟩ | hc | ⟨hc, hne, _⟩ <;>
    rcases spellVisible_cases unprintable d with ⟨y, hy, hd⟩ | hd | ⟨hd, hne', _⟩ <;>
    rw [hc, hd] at h
  case inl.inl =>
    simp only [List.cons_append, List.nil_append, List.cons.injEq, true_and] at h
    obtain ⟨rfl, hrest⟩ := h
    exact ⟨Option.some.inj ((ofLetter?_of_letter? hx).symm.trans (ofLetter?_of_letter? hy)), hrest⟩
  case inr.inl.inr.inl => exact selfDelimiting_spellNumber h
  case inr.inr.inr.inr => simpa using h
  -- the spellings are of two sorts, and differ in their first or in their second character
  all_goals
    simp only [spellNumber, List.cons_append, List.nil_append, List.cons.injEq] at h
  · exact absurd h.2.1 (hu hx)
  · exact absurd h.1.symm hne'
  · exact absurd h.2.1.symm (hu hy)
  · exact absurd h.1.symm hne'
  · exact absurd h.1 hne
  · exact absurd h.1 hne

theorem selfDelimiting_visible (unprintable : Char → Bool) : SelfDelimiting (visible unprintable) := by
  have hspell : SelfDelimiting fun text : List Char => text.flatMap (spellVisible unprintable) ++ ['"'] := by
    refine (selfDelimiting_spellVisible unprintable).flatMap fun c => ?_
    rcases spellVisible_cases unprintable c with ⟨x, _, hc⟩ | hc | ⟨hc, _, hne⟩
    · exact ⟨'\\', [x], hc, by decide⟩
    · exact ⟨'\\', _, hc, by decide⟩
    · exact ⟨c, [], hc, hne⟩
  intro text other r s h
  simp only [visible, write, List.cons_append, List.cons.injEq, true_and] at h
  obtain ⟨htext, hrest⟩ := hspell h
  exact ⟨String.toList_inj.1 htext, hrest⟩

end Quoted

/-! ## Both inspections at once -/

namespace Datum

/-- What an inspection puts between the labels, texts and brackets, at each level. -/
structure Style where
  /-- Before the text of a leaf. -/
  leafOpen (level : Nat) : List Char
  /-- Behind the text of a leaf. -/
  leafClose (level : Nat) : List Char
  /-- Before the first item of a chain. -/
  first (level : Nat) : List Char
  /-- Before every further item, and before a tail. -/
  further (level : Nat) : List Char
  /-- Behind every item, and behind a tail. -/
  behind : List Char
  /-- Behind the last one. -/
  close (level : Nat) : List Char
  /-- The end of a chain shows. -/
  close_ne_further {level : Nat} {r s : List Char} : close level ++ r ≠ further level ++ s

namespace Style

variable (style : Style) (unprintable : Char → Bool) (level : Nat)

def leaf (label : List Char) (content : String) : List Char :=
  label ++ '(' :: (style.leafOpen level ++ (Quoted.visible unprintable content ++ (style.leafClose level ++ [')'])))

mutual

def write (level : Nat) : Datum → List Char
  | nil => nilLabel
  | atom name => style.leaf unprintable level atomLabel name
  | string value => style.leaf unprintable level stringLabel value
  | cons car cdr => '[' :: (style.first level ++ (write (level + 1) car ++ (style.behind ++ writeRest level cdr)))

/-- What follows an item of a chain and what is behind it. -/
def writeRest (level : Nat) : Datum → List Char
  | nil => style.close level
  | atom name =>
    style.further level ++
      ('.' :: ' ' :: (style.leaf unprintable (level + 1) atomLabel name ++ (style.behind ++ style.close level)))
  | string value =>
    style.further level ++
      ('.' :: ' ' :: (style.leaf unprintable (level + 1) stringLabel value ++ (style.behind ++ style.close level)))
  | cons car cdr => style.further level ++ (write (level + 1) car ++ (style.behind ++ writeRest level cdr))

end

theorem selfDelimiting_leaf (label : List Char) : SelfDelimiting (style.leaf unprintable level label) := by
  intro content other r s h
  simp only [leaf, List.append_assoc, List.cons_append, List.append_cancel_left_eq, List.cons.injEq, true_and] at h
  obtain ⟨rfl, hrest⟩ := Quoted.selfDelimiting_visible unprintable h
  simpa using hrest

/-- The first character tells the sort of the datum. -/
def initial : Datum → Char
  | nil => 'N'
  | atom _ => 'A'
  | string _ => 'S'
  | cons _ _ => '['

theorem write_eq_initial (datum : Datum) : ∃ rest, style.write unprintable level datum = initial datum :: rest := by
  cases datum <;> exact ⟨_, rfl⟩

variable {style unprintable level} {a b : Datum} {r s : List Char}

theorem initial_eq (h : style.write unprintable level a ++ r = style.write unprintable level b ++ s) :
    initial a = initial b := by
  obtain ⟨rest, ha⟩ := write_eq_initial style unprintable level a
  obtain ⟨rest', hb⟩ := write_eq_initial style unprintable level b
  rw [ha, hb] at h
  exact (List.cons.inj h).1

theorem dot_ne_write (datum : Datum) : '.' :: r ≠ style.write unprintable level datum ++ s := by
  obtain ⟨rest, hwrite⟩ := write_eq_initial style unprintable level datum
  rw [hwrite]
  cases datum <;> simp [initial]

theorem writeRest_of_not_isList {datum : Datum} (h : ¬datum.isList) :
    style.writeRest unprintable level datum =
      style.further level ++
        ('.' :: ' ' :: (style.write unprintable (level + 1) datum ++ (style.behind ++ style.close level))) := by
  cases datum with
  | atom name => rfl
  | string value => rfl
  | _ => exact absurd rfl h

theorem eq_of_write_leaf (ha : ¬a.isList)
    (h : style.write unprintable level a ++ r = style.write unprintable level b ++ s) : a = b ∧ r = s := by
  have hinitial := initial_eq h
  cases a with
  | atom name =>
    cases b with
    | atom name' =>
      obtain ⟨rfl, hrest⟩ := style.selfDelimiting_leaf unprintable level atomLabel h
      exact ⟨rfl, hrest⟩
    | _ => simp [initial] at hinitial
  | string value =>
    cases b with
    | string value' =>
      obtain ⟨rfl, hrest⟩ := style.selfDelimiting_leaf unprintable level stringLabel h
      exact ⟨rfl, hrest⟩
    | _ => simp [initial] at hinitial
  | _ => exact absurd rfl ha

theorem eq_of_writeRest_leaf (ha : ¬a.isList)
    (h : style.writeRest unprintable level a ++ r = style.writeRest unprintable level b ++ s) : a = b ∧ r = s := by
  rw [writeRest_of_not_isList ha, List.append_assoc] at h
  by_cases hb : b.isList
  · cases b with
    | nil => exact absurd h.symm style.close_ne_further
    | cons car cdr =>
      rw [writeRest, List.append_assoc] at h
      have hdot := List.append_cancel_left h
      rw [List.append_assoc] at hdot
      exact absurd hdot (dot_ne_write car)
    | _ => cases hb
  · rw [writeRest_of_not_isList hb, List.append_assoc] at h
    simp only [List.cons_append, List.append_assoc, List.append_cancel_left_eq, List.cons.injEq, true_and] at h
    obtain ⟨rfl, hrest⟩ := eq_of_write_leaf ha h
    simpa using hrest

mutual

theorem write_append_inj {a b : Datum} {level : Nat} {r s : List Char}
    (h : style.write unprintable level a ++ r = style.write unprintable level b ++ s) : a = b ∧ r = s := by
  have hinitial := initial_eq h
  cases a with
  | nil =>
    cases b with
    | nil => exact ⟨rfl, List.append_cancel_left h⟩
    | _ => simp [initial] at hinitial
  | atom name => exact eq_of_write_leaf Bool.false_ne_true h
  | string value => exact eq_of_write_leaf Bool.false_ne_true h
  | cons car cdr =>
    cases b with
    | cons car' cdr' =>
      simp only [write, List.cons_append, List.append_assoc, List.cons.injEq, true_and,
        List.append_cancel_left_eq] at h
      obtain ⟨rfl, hbehind⟩ := write_append_inj h
      obtain ⟨rfl, hrest⟩ := writeRest_append_inj (List.append_cancel_left hbehind)
      exact ⟨rfl, hrest⟩
    | _ => simp [initial] at hinitial

theorem writeRest_append_inj {a b : Datum} {level : Nat} {r s : List Char}
    (h : style.writeRest unprintable level a ++ r = style.writeRest unprintable level b ++ s) : a = b ∧ r = s := by
  cases a with
  | nil =>
    cases b with
    | nil => exact ⟨rfl, List.append_cancel_left h⟩
    | _ =>
      simp only [writeRest, List.append_assoc] at h
      exact absurd h style.close_ne_further
  | atom name => exact eq_of_writeRest_leaf Bool.false_ne_true h
  | string value => exact eq_of_writeRest_leaf Bool.false_ne_true h
  | cons car cdr =>
    cases b with
    | nil =>
      simp only [writeRest, List.append_assoc] at h
      exact absurd h.symm style.close_ne_further
    | cons car' cdr' =>
      simp only [writeRest, List.append_assoc, List.append_cancel_left_eq] at h
      obtain ⟨rfl, hbehind⟩ := write_append_inj h
      obtain ⟨rfl, hrest⟩ := writeRest_append_inj (List.append_cancel_left hbehind)
      exact ⟨rfl, hrest⟩
    | atom name => cases (eq_of_writeRest_leaf (a := atom name) Bool.false_ne_true h.symm).1
    | string value => cases (eq_of_writeRest_leaf (a := string value) Bool.false_ne_true h.symm).1

end

theorem write_injective (style : Style) (unprintable : Char → Bool) (level : Nat) :
    Function.Injective (style.write unprintable level) := by
  have h : SelfDelimiting (style.write unprintable level) := fun _ _ _ _ hsame => write_append_inj hsame
  exact h.injective

end Style

/-! ## The two inspections -/

/-- All on one line. -/
def Style.oneLine : Style where
  leafOpen _ := []
  leafClose _ := []
  first _ := []
  further _ := [',', ' ']
  behind := []
  close _ := [']']
  close_ne_further h := by simp at h

theorem indent_succ (level : Nat) : indent (level + 1) = indent level ++ [' ', ' ', ' ', ' '] := by
  unfold indent
  rw [Nat.mul_succ]
  exact List.replicate_append_replicate.symm

/-- Every item and every text of a leaf on a line of its own. -/
def Style.ownLines : Style where
  leafOpen level := '\n' :: indent (level + 1)
  leafClose level := [',', '\n'] ++ indent level
  first level := '\n' :: indent (level + 1)
  further level := indent (level + 1)
  behind := [',', '\n']
  close level := indent level ++ [']']
  close_ne_further h := by simp [indent_succ] at h

theorem inspect_eq_write (unprintable : Char → Bool) (datum : Datum) (level : Nat) :
    datum.inspectWith unprintable = Style.oneLine.write unprintable level datum ∧
      datum.inspectRest unprintable = Style.oneLine.writeRest unprintable level datum := by
  induction datum generalizing level with
  | nil => exact ⟨rfl, rfl⟩
  | atom name => simp [inspectWith, inspectRest, inspectLeaf, Style.write, Style.writeRest, Style.leaf, Style.oneLine]
  | string value =>
    simp [inspectWith, inspectRest, inspectLeaf, Style.write, Style.writeRest, Style.leaf, Style.oneLine]
  | cons car cdr ihcar ihcdr =>
    simp [inspectWith, inspectRest, Style.write, Style.writeRest, Style.oneLine, ihcar (level + 1), ihcdr level]

theorem layout_eq_write (unprintable : Char → Bool) (datum : Datum) (level : Nat) :
    datum.layoutWith unprintable level = Style.ownLines.write unprintable level datum ∧
      datum.layoutRest unprintable level = Style.ownLines.writeRest unprintable level datum := by
  induction datum generalizing level with
  | nil => exact ⟨rfl, rfl⟩
  | atom name =>
    simp [layoutWith, layoutRest, layoutLeaf, entry, Style.write, Style.writeRest, Style.leaf, Style.ownLines]
  | string value =>
    simp [layoutWith, layoutRest, layoutLeaf, entry, Style.write, Style.writeRest, Style.leaf, Style.ownLines]
  | cons car cdr ihcar ihcdr =>
    simp [layoutWith, layoutRest, Style.write, Style.writeRest, Style.ownLines, ihcar (level + 1), ihcdr level, entry]

/-- Whichever characters are escaped, different data have different inspections, on one line as well as over several
lines. -/
theorem inspection_injective (unprintable : Char → Bool) :
    Function.Injective (inspectWith unprintable) ∧ Function.Injective (layoutWith unprintable 0) := by
  constructor
  · intro a b h
    rw [(inspect_eq_write unprintable a 0).1, (inspect_eq_write unprintable b 0).1] at h
    exact Style.write_injective Style.oneLine unprintable 0 h
  · intro a b h
    rw [(layout_eq_write unprintable a 0).1, (layout_eq_write unprintable b 0).1] at h
    exact Style.write_injective Style.ownLines unprintable 0 h

/-- An item that looks like a tail. -/
example : (list [atom "a", atom ". b"]).inspectWith (fun _ => false) ≠
    (chain [atom "a"] (atom "b")).inspectWith fun _ => false := by
  decide

end Datum

end Sexp
