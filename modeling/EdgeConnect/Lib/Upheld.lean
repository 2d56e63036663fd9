import Mathlib.Data.List.Basic
import Mathlib.Data.List.Infix

/-!
# What a log leaves standing

* `latest f l` — what the last entry of the log that says anything says; `latest_append`, `latest_snoc`;
* `Stands made undone l` — an entry made something of the log before it, and none after it undid that; `stands_snoc`.
-/

set_option autoImplicit false

namespace Upheld

variable {α β : Type*} {f : α → Option β} {made : List α → α → Prop} {undone : α → Prop} {l l' : List α} {x : α}

/-- What the last entry that says anything says. -/
def latest (f : α → Option β) (l : List α) : Option β := (l.filterMap f).getLast?

theorem latest_append : latest f (l ++ l') = (latest f l').or (latest f l) := by
  unfold latest
  rw [List.filterMap_append, List.getLast?_append]

theorem latest_snoc : latest f (l ++ [x]) = (f x).or (latest f l) := by
  rw [latest_append]
  unfold latest
  cases h : f x with
  | none => simp [h]
  | some y => simp [h]

/-- What an entry made of the log before it, and none after it undid. -/
def Stands (made : List α → α → Prop) (undone : α → Prop) (l : List α) : Prop :=
  ∃ a x b, l = a ++ x :: b ∧ made a x ∧ ∀ y ∈ b, ¬ undone y

theorem not_stands_nil : ¬ Stands made undone [] := by
  rintro ⟨a, x, b, h, -⟩
  exact List.append_ne_nil_of_right_ne_nil a (List.cons_ne_nil x b) h.symm

/-- The last entry makes it, or leaves it standing. -/
theorem stands_snoc (h : Stands made undone (l ++ [x])) : made l x ∨ (Stands made undone l ∧ ¬ undone x) := by
  obtain ⟨a, y, b, hsplit, hmade, hkept⟩ := h
  rcases List.eq_nil_or_concat b with rfl | ⟨b, z, rfl⟩
  · obtain ⟨rfl, hlast⟩ := List.append_inj' hsplit rfl
    rw [List.singleton_inj.mp hlast]
    exact .inl hmade
  · rw [List.concat_eq_append, ← List.cons_append, ← List.append_assoc] at hsplit
    obtain ⟨rfl, hlast⟩ := List.append_inj' hsplit rfl
    rw [List.singleton_inj.mp hlast]
    rw [List.concat_eq_append] at hkept
    exact .inr ⟨⟨a, y, b, rfl, hmade, fun w hw => hkept w (List.mem_append_left _ hw)⟩,
      hkept z (List.mem_append_right _ (List.mem_singleton_self z))⟩

end Upheld
