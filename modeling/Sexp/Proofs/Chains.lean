import Sexp.Datum.Basic

/-!
# A datum is one chain

Every datum is the chain of its items with its tail, and of no other items with no other tail that is not a pair.
Walking through a datum answers these items one after the other and then nothing, and keeps what is behind them
(`Datum.walk_eq`). So what is computed item by item is right for the whole tree: the number of items, a copy and
equality (`Datum.chain_decomposition`).
-/

namespace Sexp.Datum

variable {datum tail : Datum} {items : List Datum}

/-! ## Items and tail -/

theorem chain_eq_iff :
    chain items tail = datum ∧ tail.isCons = false ↔ items = datum.items ∧ tail = datum.tail := by
  constructor
  · rintro ⟨rfl, htail⟩
    rw [items_chain, tail_chain, items_eq_nil htail, tail_eq_self htail, List.append_nil]
    exact ⟨rfl, rfl⟩
  · rintro ⟨rfl, rfl⟩
    exact ⟨chain_items_tail datum, isCons_tail datum⟩

theorem length?_eq_some_iff_list {n : Nat} :
    datum.length? = some n ↔ ∃ items, items.length = n ∧ datum = list items := by
  rw [length?_eq_some_iff]
  constructor
  · rintro ⟨htail, hlength⟩
    refine ⟨datum.items, hlength, ?_⟩
    rw [list, ← htail, chain_items_tail]
  · rintro ⟨items, hlength, rfl⟩
    rw [list, tail_chain, items_chain]
    simpa [Datum.tail, Datum.items] using hlength

/-! ## Walking -/

theorem walkOn_eq (answers : List (Option Datum)) (n : Nat) (datum : Datum) :
    walkOn answers n datum =
      (answers.reverse ++ (List.range n).map (datum.items[·]?), chain (datum.items.drop n) datum.tail) := by
  induction n generalizing answers datum with
  | zero => simp [walkOn]
  | succ n ih =>
    cases huncons : datum.uncons? with
    | none =>
      -- the tail has been reached, and every further answer is the same
      have hitems : datum.items = [] := by cases datum <;> first | rfl | cases huncons
      simp [walkOn, huncons, ih, hitems, List.range_succ_eq_map, Function.comp_def]
    | some pair =>
      obtain ⟨car, cdr⟩ := pair
      obtain rfl : datum = cons car cdr := by cases datum <;> simp_all [uncons?]
      simp [walkOn, huncons, ih, Datum.items, Datum.tail, List.range_succ_eq_map, Function.comp_def]

theorem walk_eq (n : Nat) (datum : Datum) :
    datum.walk n = ((List.range n).map (datum.items[·]?), chain (datum.items.drop n) datum.tail) :=
  walkOn_eq [] n datum

/-! ## Copies -/

theorem copy_eq (datum : Datum) : datum.copy = datum := by
  fun_induction copy datum with
  | case1 => rfl
  | case2 => rfl
  | case3 => rfl
  | case4 car cdr ihitem ihtail =>
    have hitems : ((cons car cdr).items.attach.map fun item => copy item.1) = (cons car cdr).items := by
      calc
        _ = (cons car cdr).items.attach.map Subtype.val := List.map_congr_left fun item _ => ihitem item
        _ = (cons car cdr).items := List.attach_map_subtype_val _
    rw [hitems, ihtail, chain_items_tail]

/-! ## The whole tree -/

/-- Every datum is the chain of its items with a tail that is no pair, and it is no other such chain. Walking answers
just these items and then nothing, and what is left is the rest of the chain, in the end the tail. A chain of two runs of
items is the chain of the first one whose tail is the chain of the second one, the items are counted exactly for proper
lists, a copy is the same datum, and two data are equal exactly if they are the same. -/
theorem chain_decomposition :
    (∀ datum : Datum,
      (∀ n, datum.walk n = ((List.range n).map (datum.items[·]?), chain (datum.items.drop n) datum.tail)) ∧
        ∀ items tail, chain items tail = datum ∧ tail.isCons = false ↔ items = datum.items ∧ tail = datum.tail) ∧
      (∀ first second tail, chain (first ++ second) tail = chain first (chain second tail)) ∧
      (∀ (datum : Datum) (n : Nat), datum.length? = some n ↔ ∃ items, items.length = n ∧ datum = list items) ∧
      (∀ datum : Datum, datum.copy = datum) ∧
      ∀ a b : Datum, a.equal b = true ↔ a = b := by
  refine ⟨fun datum => ⟨fun n => walk_eq n datum, fun items tail => chain_eq_iff⟩, chain_append, ?_, copy_eq, ?_⟩
  · intro datum n
    exact length?_eq_some_iff_list
  · intro a b
    exact equal_iff

/-- The atom and the string with the same text are different tails, and a walk past the end keeps the tail. -/
example : (chain [nil, atom "a"] (string "b")).walk 3 = ([some nil, some (atom "a"), none], string "b") ∧
    chain [nil] (string "b") ≠ chain [nil] (atom "b") := by
  decide

end Sexp.Datum
