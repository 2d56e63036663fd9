import Mathlib.Data.List.Basic
import Mathlib.Data.List.Nodup
import Mathlib.Order.Monotone.Defs

/-!
# Framed groups over a lossy ordered stream

A sender frames groups of rows, one group at a time: a first piece that names the group, its rows, which do not, and a
last piece that names it again.

* `Piece`, `Group`, `stream` — what is sent;
* `rows_between` — of what arrives in order, with any pieces lost, the rows between the first and the last piece of a
  group are rows of the group;
* `Gathered` — what is said of the rows since the first piece of a group; `Gathered.own` — when its last piece comes,
  they are the group's;
* `Orderly` — several lanes, each with subjects of its own; `hear` — what arrives on them.
-/

set_option autoImplicit false

namespace Framed

variable {K R : Type*}

inductive Piece (K R : Type*) where
  | first (key : K)
  | row (r : R)
  | last (key : K)
  deriving DecidableEq, Repr

structure Group (K R : Type*) where
  key : K
  rows : List R

namespace Group

def pieces (g : Group K R) : List (Piece K R) := .first g.key :: (g.rows.map .row ++ [.last g.key])

theorem mem_pieces {g : Group K R} {x : Piece K R} :
    x ∈ g.pieces ↔ x = .first g.key ∨ (∃ r ∈ g.rows, x = .row r) ∨ x = .last g.key := by
  unfold pieces
  simp [eq_comm]

end Group

/-- The pieces of a list of groups, one group after the other. -/
def stream (gs : List (Group K R)) : List (Piece K R) := gs.flatMap Group.pieces

theorem key_of_first_mem {gs : List (Group K R)} {key : K} (h : .first key ∈ stream gs) : ∃ g ∈ gs, g.key = key := by
  obtain ⟨g, hg, hx⟩ := List.mem_flatMap.mp h
  rcases Group.mem_pieces.mp hx with hx | ⟨_, _, hx⟩ | hx
  · exact ⟨g, hg, (Piece.first.inj hx).symm⟩
  · cases hx
  · cases hx

theorem key_of_last_mem {gs : List (Group K R)} {key : K} (h : .last key ∈ stream gs) : ∃ g ∈ gs, g.key = key := by
  obtain ⟨g, hg, hx⟩ := List.mem_flatMap.mp h
  rcases Group.mem_pieces.mp hx with hx | ⟨_, _, hx⟩ | hx
  · cases hx
  · cases hx
  · exact ⟨g, hg, (Piece.last.inj hx).symm⟩

/-- Of a sublist of three parts, what stands between a member that is not of the first part and an end that is not of
the third is of the middle part. -/
theorem mem_middle {α : Type*} {before middle behind u v : List α} {b e : α}
    (h : (u ++ b :: (v ++ [e])).Sublist (before ++ (middle ++ behind))) (hb : b ∉ before) (he : e ∉ behind) :
    ∀ x ∈ v, x ∈ middle := by
  obtain ⟨l₁, l, heq, h₁, hl⟩ := List.sublist_append_iff.mp h
  obtain ⟨l₂, l₃, rfl, h₂, h₃⟩ := List.sublist_append_iff.mp hl
  -- the first part ends before `b`
  obtain ⟨w, hw⟩ : ∃ w, l₂ ++ l₃ = w ++ b :: (v ++ [e]) := by
    rcases List.append_eq_append_iff.mp heq with ⟨w, rfl, hw⟩ | ⟨w, rfl, hw⟩
    · cases w with
      | nil => exact ⟨[], hw.symm⟩
      | cons b' w =>
        rw [List.cons_append, List.cons.injEq] at hw
        exact absurd (h₁.subset (by simp [hw.1])) hb
    · exact ⟨w, hw⟩
  -- the third part is empty, since it would end in `e`
  have hnil : l₃ = [] := by
    rcases List.eq_nil_or_concat l₃ with hnil | ⟨l, x, rfl⟩
    · exact hnil
    · rw [List.concat_eq_append, ← List.append_assoc, show w ++ b :: (v ++ [e]) = (w ++ b :: v) ++ [e] by simp] at hw
      have hlast := (List.append_inj' hw rfl).2
      rw [List.cons.injEq] at hlast
      exact absurd (h₃.subset (by simp [hlast.1])) he
  rw [hnil, List.append_nil] at hw
  intro x hx
  refine h₂.subset ?_
  rw [hw]
  simp [hx]

/-- **The rows between.**  Where no two groups have the same name, the rows that arrive between the first and the last
piece of a name are rows of its group. -/
theorem rows_between {gs : List (Group K R)} (hkeys : (gs.map Group.key).Nodup) {u v : List (Piece K R)} {key : K}
    (h : (u ++ Piece.first key :: (v ++ [Piece.last key])).Sublist (stream gs)) :
    ∃ g ∈ gs, g.key = key ∧ ∀ r, .row r ∈ v → r ∈ g.rows := by
  obtain ⟨g, hg, hkey⟩ := key_of_first_mem (h.subset (a := .first key) (by simp))
  obtain ⟨before, behind, rfl⟩ := List.append_of_mem hg
  have hbefore : Piece.first key ∉ stream before := by
    intro hmem
    obtain ⟨g', hg', hkey'⟩ := key_of_first_mem hmem
    rw [List.map_append, List.nodup_append] at hkeys
    exact hkeys.2.2 g'.key (List.mem_map_of_mem hg') g.key (by simp) (hkey'.trans hkey.symm)
  have hbehind : Piece.last key ∉ stream behind := by
    intro hmem
    obtain ⟨g', hg', hkey'⟩ := key_of_last_mem hmem
    rw [List.map_append, List.map_cons, List.nodup_append, List.nodup_cons] at hkeys
    exact hkeys.2.1.1 (List.mem_map.mpr ⟨g', hg', hkey'.trans hkey.symm⟩)
  have hstream : stream (before ++ g :: behind) = stream before ++ (g.pieces ++ stream behind) := by
    unfold stream
    rw [List.flatMap_append, List.flatMap_cons]
  rw [hstream] at h
  refine ⟨g, hg, hkey, fun r hr => ?_⟩
  rcases Group.mem_pieces.mp (mem_middle h hbefore hbehind _ hr) with hx | ⟨r', hr', hx⟩ | hx
  · cases hx
  · cases hx
    exact hr'
  · cases hx

/-! ## What is gathered -/

/-- What `Q` says of the rows that came since the first piece of a name. -/
def Gathered (hist : List (Piece K R)) (key : K) (Q : (R → Prop) → Prop) : Prop :=
  ∃ before since, hist = before ++ .first key :: since ∧ Q fun r => .row r ∈ since

namespace Gathered

variable {hist : List (Piece K R)} {key : K} {Q Q' : (R → Prop) → Prop}

theorem imp (h : Gathered hist key Q) (himp : ∀ rows, Q rows → Q' rows) : Gathered hist key Q' := by
  obtain ⟨before, since, heq, hrows⟩ := h
  exact ⟨before, since, heq, himp _ hrows⟩

theorem begun (past : List (Piece K R)) (h : Q fun _ => False) : Gathered (past ++ [.first key]) key Q :=
  ⟨past, [], rfl, by simpa using h⟩

theorem extend (hmono : Monotone Q) (h : Gathered hist key Q) (new : List (Piece K R)) :
    Gathered (hist ++ new) key Q := by
  obtain ⟨before, since, rfl, hrows⟩ := h
  refine ⟨before, since ++ new, by simp, hmono (fun r hr => ?_) hrows⟩
  exact List.mem_append_left _ hr

/-- The row that came last came since. -/
theorem row {past : List (Piece K R)} {r : R} (h : Gathered (past ++ [.row r]) key Q)
    (hstep : ∀ rows, rows r → Q rows → Q' rows) : Gathered (past ++ [.row r]) key Q' := by
  obtain ⟨before, since, heq, hrows⟩ := h
  refine ⟨before, since, heq, hstep _ ?_ hrows⟩
  rcases List.eq_nil_or_concat since with rfl | ⟨since, x, rfl⟩
  · cases List.append_inj_right' heq rfl
  · rw [List.concat_eq_append, ← List.cons_append, ← List.append_assoc] at heq
    have hx : [Piece.row r] = [x] := List.append_inj_right' heq rfl
    rw [List.concat_eq_append, ← List.singleton_inj.mp hx]
    simp

theorem first_mem (h : Gathered hist key Q) : .first key ∈ hist := by
  obtain ⟨before, since, rfl, -⟩ := h
  simp

/-- **What is gathered when the last piece comes is of the group.** -/
theorem own {gs : List (Group K R)} (hkeys : (gs.map Group.key).Nodup) (hmono : Monotone Q) (h : Gathered hist key Q)
    (hsent : (hist ++ [Piece.last key]).Sublist (stream gs)) : ∃ g ∈ gs, g.key = key ∧ Q (· ∈ g.rows) := by
  obtain ⟨before, since, rfl, hrows⟩ := h
  rw [List.append_assoc, List.cons_append] at hsent
  obtain ⟨g, hg, hkey, hmem⟩ := rows_between hkeys hsent
  exact ⟨g, hg, hkey, hmono hmem hrows⟩

end Gathered

/-! ## Lanes -/

/-- The groups of each lane are about subjects of its own, and those of a subject have rising numbers. -/
structure Orderly {C X : Type*} (groups : C → List (Group (X × ℕ) R)) : Prop where
  rising : ∀ c, (groups c).Pairwise fun g g' => g.key.1 = g'.key.1 → g.key.2 < g'.key.2
  own : ∀ c c' g g', g ∈ groups c → g' ∈ groups c' → g.key.1 = g'.key.1 → c = c'

theorem Orderly.nodup {C X : Type*} {groups : C → List (Group (X × ℕ) R)} (h : Orderly groups) (c : C) :
    ((groups c).map Group.key).Nodup := by
  refine List.pairwise_map.mpr ((h.rising c).imp fun {g g'} hrise heq => ?_)
  exact absurd (hrise (congrArg Prod.fst heq)) (by rw [congrArg Prod.snd heq]; exact Nat.lt_irrefl _)

section Hearing

variable {C α : Type*} (hist : C → List α) (on : C → Prop) [DecidablePred on]

/-- What has arrived on each lane, once more has on some. -/
def hear (new : List α) (c : C) : List α := hist c ++ if on c then new else []

theorem hear_append (new new' : List α) : hear hist on (new ++ new') = hear (hear hist on new) on new' := by
  funext c
  unfold hear
  split
  · rw [List.append_assoc]
  · simp

end Hearing

end Framed
