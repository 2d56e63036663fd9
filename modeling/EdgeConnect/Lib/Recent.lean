import Mathlib.Data.List.DropRight
import Mathlib.Data.List.Nodup

/-!
# A bounded memory of the values noted last

A memory keeps the values that were noted last, up to its capacity, oldest first; a value is noted when it is not kept.

* `h.rtake cap` — the memory that a history `h` of notes leaves; `rtake_note` — how a note changes it;
* `Fresh` — every value of a history was noted when it was not kept;
* `Fresh.spaced` — between two notes of a value, as many other values were noted as the memory keeps.
-/

set_option autoImplicit false

namespace Recent

variable {α : Type*} {cap : ℕ} {h h₁ h₂ : List α} {x : α}

theorem rtake_append_of_le (hle : cap ≤ h₂.length) : (h₁ ++ h₂).rtake cap = h₂.rtake cap := by
  unfold List.rtake
  rw [List.length_append, List.drop_append, List.drop_eq_nil_of_le (by omega), List.nil_append]
  congr 1
  omega

theorem rtake_of_le (hle : h.length ≤ cap) : h.rtake cap = h := by
  unfold List.rtake
  rw [Nat.sub_eq_zero_of_le hle, List.drop_zero]

theorem suffix_rtake_append (hle : h₂.length ≤ cap) : h₂ <:+ (h₁ ++ h₂).rtake cap := by
  unfold List.rtake
  rw [List.length_append, List.drop_append, show h₁.length + h₂.length - cap - h₁.length = 0 by omega, List.drop_zero]
  exact List.suffix_append _ _

theorem length_rtake_le : (h.rtake cap).length ≤ cap := by
  unfold List.rtake
  rw [List.length_drop]
  omega

theorem mem_of_mem_rtake (hx : x ∈ h.rtake cap) : x ∈ h := List.mem_of_mem_drop hx

/-- A note joins the memory, and past the capacity the oldest value leaves. -/
theorem rtake_note : (h.rtake cap ++ [x]).rtake cap = (h ++ [x]).rtake cap := by
  by_cases hle : cap ≤ h.length
  · have hlen : (h.rtake cap).length = cap := by
      unfold List.rtake
      rw [List.length_drop]
      omega
    cases cap with
    | zero => rw [List.rtake_zero, List.rtake_zero]
    | succ n =>
      rw [List.rtake_concat_succ, List.rtake_concat_succ]
      congr 1
      have hsplit : h = h.take (h.length - (n + 1)) ++ h.rtake (n + 1) := (List.take_append_drop _ h).symm
      conv_rhs => rw [hsplit]
      exact (rtake_append_of_le (by omega)).symm
  · rw [rtake_of_le (Nat.le_of_lt (Nat.not_le.mp hle))]

/-- Every value was noted when it was not kept. -/
def Fresh (cap : ℕ) (h : List α) : Prop := ∀ h₁ x h₂, h = h₁ ++ x :: h₂ → x ∉ h₁.rtake cap

theorem Fresh.nil : Fresh cap ([] : List α) := by
  intro h₁ x h₂ heq
  cases h₁ <;> cases heq

theorem Fresh.left (hf : Fresh cap (h₁ ++ h₂)) : Fresh cap h₁ := by
  rintro u x v rfl
  exact hf u x (v ++ h₂) (by simp)

theorem Fresh.note (hf : Fresh cap h) (hx : x ∉ h.rtake cap) : Fresh cap (h ++ [x]) := by
  intro u y v heq
  rcases List.eq_nil_or_concat v with rfl | ⟨v, z, rfl⟩
  · obtain ⟨rfl, hxy⟩ := List.append_inj' heq rfl
    cases hxy
    exact hx
  · rw [List.concat_eq_append, ← List.cons_append, ← List.append_assoc] at heq
    exact hf u y v (List.append_inj' heq rfl).1

/-- The memory keeps no value twice. -/
theorem Fresh.nodup (hf : Fresh cap h) : (h.rtake cap).Nodup := by
  induction h using List.reverseRecOn with
  | nil => simp
  | append_singleton h x ih =>
    have hx : x ∉ h.rtake cap := hf h x [] rfl
    rw [← rtake_note]
    refine List.Nodup.sublist (List.drop_sublist _ _) ?_
    exact List.nodup_append'.mpr ⟨ih hf.left, List.nodup_singleton x, List.disjoint_singleton.mpr hx⟩

/-- **Between two notes of a value**, as many others were noted as the memory keeps. -/
theorem Fresh.spaced {h₃ : List α} (hf : Fresh cap (h₁ ++ x :: (h₂ ++ x :: h₃))) (hx : x ∉ h₂) :
    ∃ others : List α, others.Nodup ∧ others.length = cap ∧ others.Sublist h₂ ∧ x ∉ others := by
  have hsplit : h₁ ++ x :: (h₂ ++ x :: h₃) = (h₁ ++ x :: h₂) ++ x :: h₃ := by simp
  rw [hsplit] at hf
  have hout := hf _ x h₃ rfl
  -- a shorter gap would leave the first note of `x` in the memory
  have hle : cap ≤ h₂.length := by
    by_contra hlt
    have hsuffix : x :: h₂ <:+ (h₁ ++ x :: h₂).rtake cap := suffix_rtake_append (Nat.not_le.mp hlt)
    exact hout (hsuffix.subset List.mem_cons_self)
  have hkept : (h₁ ++ x :: h₂).rtake cap = h₂.rtake cap := by
    rw [show h₁ ++ x :: h₂ = (h₁ ++ [x]) ++ h₂ by simp, rtake_append_of_le hle]
  refine ⟨h₂.rtake cap, hkept ▸ hf.left.nodup, ?_, List.drop_sublist _ _, fun hmem => hx (mem_of_mem_rtake hmem)⟩
  unfold List.rtake
  rw [List.length_drop]
  omega

end Recent
