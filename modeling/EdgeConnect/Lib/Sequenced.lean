import Mathlib.Data.List.Basic
import Mathlib.Data.List.Range

/-!
# Consuming a numbered stream in order

A consumer that has taken every item up to a number meets numbered items one after the other: it takes
the next number, passes an item it has had by, and stops at the first item past the next number.

* `Walk seq k steps m` — from `k` to `m` through `steps`, each item with whether it was taken;
* `AtGap seq m rest` — the rest is empty or starts past `m + 1`;
* `InOrder`, `Walk.reaches` — a stream that offers each number up to `n` before any greater one is
  walked to `n` at least.
-/

set_option autoImplicit false

namespace Sequenced

variable {α : Type*} (seq : α → Nat)

/-- The walk of a consumer, with `true` for an item taken and `false` for one passed by. -/
inductive Walk : Nat → List (α × Bool) → Nat → Prop where
  | nil (k : Nat) : Walk k [] k
  | take {k : Nat} {a : α} {steps : List (α × Bool)} {m : Nat} (hseq : seq a = k + 1)
      (hrest : Walk (k + 1) steps m) : Walk k ((a, true) :: steps) m
  | skip {k : Nat} {a : α} {steps : List (α × Bool)} {m : Nat} (hseq : seq a ≤ k)
      (hrest : Walk k steps m) : Walk k ((a, false) :: steps) m

/-- The items a walk took. -/
def taken (steps : List (α × Bool)) : List α := (steps.filter fun s => s.2).map Prod.fst

/-- What is left is nothing, or starts with a forward gap. -/
def AtGap (m : Nat) (rest : List α) : Prop := ∀ a ∈ rest.head?, m + 1 < seq a

/-- Each number after `k` up to `n` is offered before any greater one. -/
def InOrder (items : List α) (k n : Nat) : Prop :=
  ∀ j, k < j → j ≤ n → ∃ u a v, items = u ++ a :: v ∧ seq a = j ∧ ∀ x ∈ u, seq x ≤ j

@[simp] theorem taken_nil : taken ([] : List (α × Bool)) = [] := rfl

@[simp] theorem taken_cons_true (a : α) (steps : List (α × Bool)) :
    taken ((a, true) :: steps) = a :: taken steps := rfl

@[simp] theorem taken_cons_false (a : α) (steps : List (α × Bool)) :
    taken ((a, false) :: steps) = taken steps := rfl

variable {seq} {k m : Nat} {steps : List (α × Bool)}

theorem Walk.le (h : Walk seq k steps m) : k ≤ m := by
  induction h with
  | nil => exact le_refl _
  | take _ _ ih => omega
  | skip _ _ ih => exact ih

/-- A walk meets no number past its end. -/
theorem Walk.seq_le (h : Walk seq k steps m) : ∀ s ∈ steps, seq s.1 ≤ m := by
  induction h with
  | nil => simp
  | take hseq hrest ih =>
    intro s hs
    rcases List.mem_cons.mp hs with rfl | hs
    · have := hrest.le
      simp only
      omega
    · exact ih s hs
  | skip hseq hrest ih =>
    intro s hs
    rcases List.mem_cons.mp hs with rfl | hs
    · exact le_trans hseq hrest.le
    · exact ih s hs

/-- Two cuts of one list: either is before the other, or they are the same. -/
theorem cut_cases {u v u' v' : List α} {a a' : α} (h : u ++ a :: v = u' ++ a' :: v') :
    (∃ c, u' = u ++ a :: c ∧ v = c ++ a' :: v') ∨ (u' = u ∧ a' = a) ∨ ∃ c, u = u' ++ a' :: c := by
  rcases List.append_eq_append_iff.mp h with ⟨c, hu, hc⟩ | ⟨c, hu, hc⟩
  · cases c with
    | nil =>
      rw [List.nil_append, List.cons.injEq] at hc
      exact Or.inr (Or.inl ⟨by simpa using hu, hc.1.symm⟩)
    | cons x c =>
      rw [List.cons_append, List.cons.injEq] at hc
      exact Or.inl ⟨c, by rw [hu, hc.1], hc.2⟩
  · cases c with
    | nil =>
      rw [List.nil_append, List.cons.injEq] at hc
      exact Or.inr (Or.inl ⟨by simpa using hu.symm, hc.1⟩)
    | cons x c =>
      rw [List.cons_append, List.cons.injEq] at hc
      exact Or.inr (Or.inr ⟨c, by rw [hu, hc.1]⟩)

/-- **What is offered in order is reached.** -/
theorem Walk.reaches {rest : List α} (h : Walk seq k steps m) (hgap : AtGap seq m rest) {n : Nat}
    (hin : InOrder seq (steps.map Prod.fst ++ rest) k n) : n ≤ m := by
  by_contra hlt
  obtain ⟨u, a, v, hsplit, hseq, hu⟩ := hin (m + 1) (by have := h.le; omega) (by omega)
  -- the item numbered `m + 1` is not in the walk, and what follows the walk starts past it
  have hwalked : a ∉ steps.map Prod.fst := by
    intro ha
    obtain ⟨s, hs, rfl⟩ := List.mem_map.mp ha
    have := h.seq_le s hs
    omega
  cases rest with
  | nil =>
    rw [List.append_nil] at hsplit
    exact hwalked (by rw [hsplit]; simp)
  | cons x xs =>
    have hx : m + 1 < seq x := hgap x rfl
    rcases cut_cases hsplit with ⟨c, hc, -⟩ | ⟨-, rfl⟩ | ⟨c, hc⟩
    · have := hu x (by rw [hc]; simp)
      omega
    · omega
    · exact hwalked (by rw [hc]; simp)

end Sequenced
