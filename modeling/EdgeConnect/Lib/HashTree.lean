import Mathlib.Algebra.Group.Nat.Defs
import Mathlib.Data.List.Induction
import Mathlib.Tactic.Common

/-!
# Hash trees over truncated digests

A hash tree is kept as the strings that are hashed, level by level: `pair a b` is the string a node hashes
for two truncated digests, and an odd last node is joined with itself.

* `level`, `siblings` — the levels of the tree over some leaf strings, and a leaf's path to the root;
* `climb` — the string a proof ends in, `trail` every string it hashes on the way;
* `climb_siblings` — a leaf's own path ends in the root's string;
* `leaf_of_climb` — whatever ends in a digest that agrees with the root's, truncated, starts at one of the
  tree's leaves, or two distinct strings collide on the truncation.
-/

set_option autoImplicit false

namespace HashTree

variable {S D E : Type*} (H : S → D) (trunc : D → E) (pair : E → E → S)

/-- The truncated digest of a string. -/
def mark (s : S) : E := trunc (H s)

/-- The string of the node over two others. -/
def join (s t : S) : S := pair (mark H trunc s) (mark H trunc t)

/-- One level up: neighbours are joined, an odd last one with itself. -/
def levelUp : List S → List S
  | s :: t :: rest => join H trunc pair s t :: levelUp rest
  | [s] => [join H trunc pair s s]
  | [] => []

/-- The level `d` of the tree over `ss`. -/
def level (ss : List S) : Nat → List S
  | 0 => ss
  | d + 1 => level (levelUp H trunc pair ss) d

/-- The neighbour a node is joined with: itself when it is an odd last one. -/
def sibling (ss : List S) (i : Nat) : Option S :=
  if i % 2 = 0 then ss[i + 1]?.or ss[i]? else ss[i - 1]?

/-- The truncated digests a leaf needs to reach level `d`. -/
def siblings (ss : List S) (i : Nat) : Nat → List E
  | 0 => []
  | d + 1 => ((sibling ss i).map (mark H trunc)).toList ++ siblings (levelUp H trunc pair ss) (i / 2) d

/-- The string of the node over a string and its sibling, on the side the index says. -/
def joinAt (i : Nat) (s : S) (e : E) : S :=
  if i % 2 = 0 then pair (mark H trunc s) e else pair e (mark H trunc s)

/-- The string a proof ends in. -/
def climb (i : Nat) (s : S) : List E → S
  | [] => s
  | e :: es => climb (i / 2) (joinAt H trunc pair i s e) es

/-- Every string a proof hashes. -/
def trail (i : Nat) (s : S) : List E → List S
  | [] => [s]
  | e :: es => s :: trail (i / 2) (joinAt H trunc pair i s e) es

/-! ## A leaf's own path -/

variable {H trunc pair} {ss : List S} {i d : Nat} {s : S}

theorem levelUp_length : ∀ ss : List S, (levelUp H trunc pair ss).length = (ss.length + 1) / 2
  | s :: t :: rest => by
    rw [levelUp, List.length_cons, levelUp_length rest, List.length_cons, List.length_cons]
    omega
  | [s] => by simp [levelUp]
  | [] => by simp [levelUp]

theorem sibling_isSome (hi : i < ss.length) : ∃ t, sibling ss i = some t := by
  unfold sibling
  split
  · cases h : ss[i + 1]? with
    | some t => exact ⟨t, rfl⟩
    | none => exact ⟨ss[i], by rw [List.getElem?_eq_getElem hi]; rfl⟩
  · exact ⟨ss[i - 1], List.getElem?_eq_getElem (by omega)⟩

theorem sibling_cons (s t : S) (rest : List S) (i : Nat) :
    sibling (s :: t :: rest) (i + 2) = sibling rest i := by
  unfold sibling
  have hmod : (i + 2) % 2 = i % 2 := by omega
  rw [hmod]
  split
  · rfl
  · rename_i hodd
    have hsub : i + 2 - 1 = (i - 1) + 2 := by omega
    rw [hsub]
    rfl

/-- The parent of a node is joined from it and its sibling. -/
theorem levelUp_parent : ∀ {ss : List S} {i : Nat} {s t : S}, ss[i]? = some s → sibling ss i = some t →
    (levelUp H trunc pair ss)[i / 2]? = some (joinAt H trunc pair i s (mark H trunc t))
  | [], _, _, _, hs, _ => by cases hs
  | [x], 0, _, _, hs, ht => by
    cases hs
    cases ht
    rfl
  | [x], i + 1, _, _, hs, _ => by cases hs
  | x :: y :: rest, 0, _, _, hs, ht => by
    cases hs
    cases ht
    rfl
  | x :: y :: rest, 1, _, _, hs, ht => by
    cases hs
    cases ht
    rfl
  | x :: y :: rest, i + 2, s, t, hs, ht => by
    rw [sibling_cons] at ht
    have hup : (levelUp H trunc pair rest)[i / 2]? = some (joinAt H trunc pair i s (mark H trunc t)) :=
      levelUp_parent hs ht
    have hdiv : (i + 2) / 2 = i / 2 + 1 := by omega
    have hmod : (i + 2) % 2 = i % 2 := by omega
    rw [hdiv]
    refine Eq.trans (b := (levelUp H trunc pair rest)[i / 2]?) rfl ?_
    rw [hup]
    unfold joinAt
    rw [hmod]

/-- **A leaf's own path ends at the node above it.** -/
theorem climb_siblings : ∀ (d : Nat) {ss : List S} {i : Nat} {s r : S}, ss[i]? = some s →
    level H trunc pair ss d = [r] → climb H trunc pair i s (siblings H trunc pair ss i d) = r ∧ i / 2 ^ d = 0
  | 0, ss, i, s, r, hs, hr => by
    obtain rfl : ss = [r] := hr
    cases i with
    | zero =>
      cases hs
      exact ⟨rfl, rfl⟩
    | succ i => cases hs
  | d + 1, ss, i, s, r, hs, hr => by
    have hi : i < ss.length := (List.getElem?_eq_some_iff.mp hs).1
    obtain ⟨t, ht⟩ := sibling_isSome hi
    obtain ⟨hclimb, hdiv⟩ := climb_siblings d (levelUp_parent hs ht) hr
    refine ⟨?_, ?_⟩
    · rw [siblings, ht]
      exact hclimb
    · rw [Nat.pow_succ, Nat.mul_comm, ← Nat.div_div_eq_div_mul]
      exact hdiv

theorem siblings_length (hi : i < ss.length) (d : Nat) : (siblings H trunc pair ss i d).length = d := by
  induction d generalizing ss i with
  | zero => rfl
  | succ d ih =>
    obtain ⟨t, ht⟩ := sibling_isSome hi
    have hup : i / 2 < (levelUp H trunc pair ss).length := by
      rw [levelUp_length]
      omega
    rw [siblings, ht, List.length_append, ih hup]
    exact Nat.add_comm 1 d

/-! ## Any proof -/

theorem climb_snoc (i : Nat) (s : S) (es : List E) (e : E) :
    climb H trunc pair i s (es ++ [e]) =
      joinAt H trunc pair (i / 2 ^ es.length) (climb H trunc pair i s es) e := by
  induction es generalizing i s with
  | nil =>
    show joinAt H trunc pair i s e = joinAt H trunc pair (i / 2 ^ 0) s e
    rw [Nat.pow_zero, Nat.div_one]
  | cons x es ih =>
    rw [List.cons_append, climb, ih, climb, List.length_cons, Nat.pow_succ, Nat.mul_comm,
      ← Nat.div_div_eq_div_mul]

theorem trail_snoc (i : Nat) (s : S) (es : List E) (e : E) :
    trail H trunc pair i s (es ++ [e]) =
      trail H trunc pair i s es ++ [climb H trunc pair i s (es ++ [e])] := by
  induction es generalizing i s with
  | nil => rfl
  | cons x es ih =>
    rw [List.cons_append, trail, ih, trail, List.cons_append]
    rfl

theorem climb_mem_trail (i : Nat) (s : S) (es : List E) :
    climb H trunc pair i s es ∈ trail H trunc pair i s es := by
  induction es generalizing i s with
  | nil => exact List.mem_singleton_self s
  | cons x es ih => exact List.mem_cons_of_mem _ (ih _ _)

/-- A string of a level above the leaves joins two strings of the level below. -/
theorem mem_levelUp : ∀ {ss : List S} {x : S}, x ∈ levelUp H trunc pair ss →
    ∃ u ∈ ss, ∃ v ∈ ss, x = join H trunc pair u v
  | s :: t :: rest, x, hx => by
    rcases List.mem_cons.mp hx with rfl | hx
    · exact ⟨s, List.mem_cons_self, t, List.mem_cons_of_mem _ List.mem_cons_self, rfl⟩
    · obtain ⟨u, hu, v, hv, hx⟩ := mem_levelUp hx
      exact ⟨u, List.mem_cons_of_mem _ (List.mem_cons_of_mem _ hu), v,
        List.mem_cons_of_mem _ (List.mem_cons_of_mem _ hv), hx⟩
  | [s], x, hx => by
    rw [List.mem_singleton.mp hx]
    exact ⟨s, List.mem_singleton_self s, s, List.mem_singleton_self s, rfl⟩
  | [], x, hx => by cases hx

theorem level_succ (ss : List S) (d : Nat) :
    level H trunc pair ss (d + 1) = levelUp H trunc pair (level H trunc pair ss d) := by
  induction d generalizing ss with
  | zero => rfl
  | succ d ih => exact ih (levelUp H trunc pair ss)

/-- Every string of a tree of depth `d`. -/
def Hashed (H : S → D) (trunc : D → E) (pair : E → E → S) (ss : List S) (d : Nat) (x : S) : Prop :=
  ∃ k ≤ d, x ∈ level H trunc pair ss k

/-- **Whatever ends in the tree starts at a leaf of it**, or two distinct strings collide. -/
theorem leaf_of_climb (hpair : ∀ a b a' b', pair a b = pair a' b' → a = a' ∧ b = b')
    (hleaf : ∀ x ∈ ss, ∀ a b, x ≠ pair a b) (hs : ∀ a b, s ≠ pair a b) (i : Nat) (es : List E) {k : Nat} {x : S}
    (hk : k ≤ d) (hx : x ∈ level H trunc pair ss k)
    (hagree : mark H trunc x = mark H trunc (climb H trunc pair i s es)) :
    s ∈ ss ∨ ∃ x y, Hashed H trunc pair ss d x ∧ y ∈ trail H trunc pair i s es ∧ x ≠ y ∧
      mark H trunc x = mark H trunc y := by
  -- downwards from the end of the proof: while the strings are equal, so are those they join
  induction es using List.reverseRecOn generalizing k x with
  | nil =>
    by_cases heq : x = s
    · cases k with
      | zero => exact Or.inl (heq ▸ hx)
      | succ k =>
        rw [level_succ] at hx
        obtain ⟨u, -, v, -, hjoin⟩ := mem_levelUp hx
        exact absurd (heq.symm.trans hjoin) (hs _ _)
    · exact Or.inr ⟨x, s, ⟨k, hk, hx⟩, List.mem_singleton_self s, heq, hagree⟩
  | append_singleton es e ih =>
    by_cases heq : x = climb H trunc pair i s (es ++ [e])
    · rw [climb_snoc] at heq
      have hdown : s ∈ ss ∨ ∃ x y, Hashed H trunc pair ss d x ∧ y ∈ trail H trunc pair i s es ∧ x ≠ y ∧
          mark H trunc x = mark H trunc y := by
        cases k with
        | zero =>
          unfold joinAt at heq
          split at heq
          · exact absurd heq (hleaf x hx _ _)
          · exact absurd heq (hleaf x hx _ _)
        | succ k =>
          rw [level_succ] at hx
          obtain ⟨u, hu, v, hv, rfl⟩ := mem_levelUp hx
          unfold join joinAt at heq
          split at heq
          · exact ih (Nat.le_of_succ_le hk) hu (hpair _ _ _ _ heq).1
          · exact ih (Nat.le_of_succ_le hk) hv (hpair _ _ _ _ heq).2
      rcases hdown with hmem | ⟨x, y, hx, hy, hne, hxy⟩
      · exact Or.inl hmem
      · refine Or.inr ⟨x, y, hx, ?_, hne, hxy⟩
        rw [trail_snoc]
        exact List.mem_append_left _ hy
    · exact Or.inr ⟨x, _, ⟨k, hk, hx⟩, climb_mem_trail i s _, heq, hagree⟩

end HashTree
