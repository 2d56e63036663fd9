import Mathlib.Data.List.Basic

/-!
# Pages of a list behind an offset

* `page`, `next` — the items a page has, and the offset of the one behind it;
* `walk` — the pages of a server, each asked for with the cursor of the one before;
* `walk_eq_drop` — a server that answers every offset a walk reaches with its page lists the whole list once.
-/

set_option autoImplicit false

namespace Pages

variable {α κ : Type*}

/-- The items behind an offset, as many as the limit allows. -/
def page (xs : List α) (limit : Option Nat) (offset : Nat) : List α :=
  match limit with
  | none => xs.drop offset
  | some n => (xs.drop offset).take n

/-- The offset behind a page, where items remain. -/
def next (xs : List α) (limit : Option Nat) (offset : Nat) : Option Nat :=
  match limit with
  | none => none
  | some n => if offset + n < xs.length then some (offset + n) else none

/-- An offset a walk comes to: the first, or one a whole page behind another. -/
def Reached (xs : List α) (limit : Option Nat) (offset : Nat) : Prop :=
  offset = 0 ∨ offset < xs.length ∧ ∀ n, limit = some n → n ≤ offset

/-- The items of a server's pages, from a cursor on; `none` when a page is missing or `fuel` of them are not enough. -/
def walk (request : κ → Option (List α × Option κ)) : Nat → κ → Option (List α)
  | 0, _ => none
  | fuel + 1, cursor =>
    match request cursor with
    | none => none
    | some (items, none) => some items
    | some (items, some cursor) => (walk request fuel cursor).map (items ++ ·)

variable {xs : List α} {limit : Option Nat} {offset m : Nat}

theorem page_map {β : Type*} (f : α → β) : page (xs.map f) limit offset = (page xs limit offset).map f := by
  cases limit <;> simp [page, List.map_drop, List.map_take]

theorem next_eq_some : next xs limit offset = some m ↔ ∃ n, limit = some n ∧ offset + n < xs.length ∧ m = offset + n := by
  cases limit with
  | none => simp [next]
  | some n =>
    unfold next
    dsimp only
    split_ifs with h
    · simp [h, eq_comm]
    · simp [h]

theorem next_map {β : Type*} (f : α → β) : next (xs.map f) limit offset = next xs limit offset := by
  cases limit <;> simp [next]

/-- There is a next page exactly when items remain behind this one. -/
theorem next_isSome_iff : (next xs limit offset).isSome ↔ xs.drop (offset + (page xs limit offset).length) ≠ [] := by
  rw [ne_eq, List.drop_eq_nil_iff]
  cases limit with
  | none =>
    simp only [next, page, Option.isSome_none, Bool.false_eq_true, List.length_drop, false_iff]
    omega
  | some n =>
    simp only [next, page, List.length_take, List.length_drop]
    split_ifs with h
    · simp only [Option.isSome_some, true_iff]
      omega
    · simp only [Option.isSome_none, Bool.false_eq_true, false_iff]
      omega

/-- What remains behind a page is what the next one starts with. -/
theorem page_append_drop (h : next xs limit offset = some m) : page xs limit offset ++ xs.drop m = xs.drop offset := by
  obtain ⟨n, rfl, -, rfl⟩ := next_eq_some.mp h
  rw [← List.drop_drop]
  exact List.take_append_drop n (xs.drop offset)

/-- The last page has all that remains. -/
theorem page_of_next_eq_none (h : next xs limit offset = none) : page xs limit offset = xs.drop offset := by
  cases limit with
  | none => rfl
  | some n =>
    unfold next at h
    dsimp only at h
    split_ifs at h with hlt
    refine List.take_of_length_le ?_
    rw [List.length_drop]
    omega

theorem Reached.of_next (h : next xs limit offset = some m) : Reached xs limit m := by
  obtain ⟨n, rfl, hlt, rfl⟩ := next_eq_some.mp h
  refine .inr ⟨hlt, fun n' hn => ?_⟩
  cases hn
  omega

/-- **A walk ends with every item listed once**, in the order of the list: the offsets of a positive limit grow. -/
theorem walk_eq_drop (request : κ → Option (List α × Option κ)) (cursorOf : Nat → κ)
    (hlimit : ∀ n, limit = some n → 0 < n)
    (hrequest : ∀ offset, Reached xs limit offset →
      request (cursorOf offset) = some (page xs limit offset, (next xs limit offset).map cursorOf)) :
    ∀ fuel offset, Reached xs limit offset → xs.length < offset + fuel →
      walk request fuel (cursorOf offset) = some (xs.drop offset)
  | 0, offset, hreached, hfuel => by
    rcases hreached with rfl | ⟨hlt, -⟩ <;> omega
  | fuel + 1, offset, hreached, hfuel => by
    unfold walk
    rw [hrequest offset hreached]
    cases hnext : next xs limit offset with
    | none => exact congrArg some (page_of_next_eq_none hnext)
    | some m =>
      obtain ⟨n, hn, -, hm⟩ := next_eq_some.mp hnext
      have hpos := hlimit n hn
      have hrest := walk_eq_drop request cursorOf hlimit hrequest fuel m (.of_next hnext) (by omega)
      show (walk request fuel (cursorOf m)).map (page xs limit offset ++ ·) = _
      rw [hrest]
      exact congrArg some (page_append_drop hnext)

end Pages
