import Mathlib.Data.List.Induction
import Mathlib.Order.Defs.Unbundled

/-!
# Merging neighbours of one key

A list is read from its front, each element merged into the group opened last while it has that group's key, and
opening a new one otherwise.

* `Grouping` — how a group is opened and widened, and the key it keeps;
* `fold` — the groups of a list, the newest first; `classOf` — the elements of one key merged in their order;
* `mem_fold`, `fold_pairwise` — where the keys only move one way, the groups are the classes, each once, in key order;
* `upTo` — the same reading stopped before a group too many; `upTo_eq_take`.
-/

set_option autoImplicit false

namespace Runs

/-- How elements are merged into groups: a group keeps the key of the element that opened it. -/
structure Grouping (ι κ γ : Type*) where
  key : ι → κ
  keyOf : γ → κ
  first : ι → γ
  more : γ → ι → γ
  keyOf_first : ∀ i, keyOf (first i) = key i
  keyOf_more : ∀ g i, keyOf (more g i) = keyOf g

namespace Grouping

variable {ι κ γ : Type*} [DecidableEq κ] (G : Grouping ι κ γ)

/-- Read one element; the newest group stands first. -/
def push (gs : List γ) (i : ι) : List γ :=
  match gs with
  | g :: rest => if G.keyOf g = G.key i then G.more g i :: rest else G.first i :: g :: rest
  | [] => [G.first i]

/-- The groups of a list, the newest first. -/
def fold (is : List ι) : List γ := is.foldl G.push []

/-- The elements of one key, merged in their order. -/
def classOf (k : κ) (is : List ι) : Option γ :=
  match is.filter fun i => G.key i = k with
  | [] => none
  | i :: rest => some (rest.foldl G.more (G.first i))

theorem push_nil (i : ι) : G.push [] i = [G.first i] := rfl

theorem push_cons (g : γ) (rest : List γ) (i : ι) :
    G.push (g :: rest) i =
      if G.keyOf g = G.key i then G.more g i :: rest else G.first i :: g :: rest := rfl

theorem fold_snoc (is : List ι) (i : ι) : G.fold (is ++ [i]) = G.push (G.fold is) i := by
  unfold fold
  rw [List.foldl_append]
  rfl

theorem classOf_snoc_ne {is : List ι} {i : ι} {k : κ} (h : G.key i ≠ k) : G.classOf k (is ++ [i]) = G.classOf k is := by
  unfold classOf
  rw [List.filter_append, List.filter_cons_of_neg (by simpa using h), List.filter_nil, List.append_nil]

theorem classOf_snoc_self (is : List ι) (i : ι) :
    G.classOf (G.key i) (is ++ [i]) =
      match G.classOf (G.key i) is with
      | none => some (G.first i)
      | some g => some (G.more g i) := by
  unfold classOf
  rw [List.filter_append, List.filter_cons_of_pos (by simp), List.filter_nil]
  cases is.filter fun j => G.key j = G.key i with
  | nil => rfl
  | cons j rest => simp [List.foldl_append]

theorem classOf_eq_none {k : κ} {is : List ι} : G.classOf k is = none ↔ ∀ i ∈ is, G.key i ≠ k := by
  unfold classOf
  cases h : is.filter fun i => G.key i = k with
  | nil =>
    simp only [true_iff]
    intro i hi hk
    exact List.filter_eq_nil_iff.mp h i hi (by simpa using hk)
  | cons i rest =>
    simp only [reduceCtorEq, false_iff, not_forall]
    have hi : i ∈ is.filter fun i => G.key i = k := h ▸ List.mem_cons_self
    rw [List.mem_filter] at hi
    exact ⟨i, hi.1, fun hne => hne (by simpa using hi.2)⟩

omit [DecidableEq κ] in
theorem foldl_more_keyOf (rest : List ι) : ∀ g, G.keyOf (rest.foldl G.more g) = G.keyOf g := by
  induction rest with
  | nil => intro g; rfl
  | cons i rest ih => intro g; rw [List.foldl_cons, ih, G.keyOf_more]

theorem classOf_keyOf {k : κ} {is : List ι} {g : γ} (h : G.classOf k is = some g) : G.keyOf g = k := by
  unfold classOf at h
  cases hf : is.filter fun i => G.key i = k with
  | nil => rw [hf] at h; cases h
  | cons i rest =>
    rw [hf] at h
    cases h
    have hi : i ∈ is.filter fun i => G.key i = k := hf ▸ List.mem_cons_self
    rw [foldl_more_keyOf, G.keyOf_first]
    simpa using (List.mem_filter.mp hi).2

section Order

variable {r : κ → κ → Prop}

/-- The keys of a list only move one way. -/
def Moves (r : κ → κ → Prop) (is : List ι) : Prop := is.Pairwise fun i j => G.key i = G.key j ∨ r (G.key i) (G.key j)

/-- The groups of a list whose keys only move one way: each class once, the newest first, and that one holds the last
element. -/
structure Grouped (r : κ → κ → Prop) (is : List ι) (gs : List γ) : Prop where
  order : gs.Pairwise fun g h => r (G.keyOf h) (G.keyOf g)
  mem : ∀ g, g ∈ gs ↔ G.classOf (G.keyOf g) is = some g
  newest : gs.head?.map G.keyOf = is.getLast?.map G.key

theorem grouped_nil : G.Grouped r [] [] where
  order := List.Pairwise.nil
  mem := by intro g; simp [classOf]
  newest := rfl

theorem Grouped.push [IsStrictOrder κ r] {is : List ι} {gs : List γ} {i : ι} (h : G.Grouped r is gs)
    (hm : G.Moves r (is ++ [i])) : G.Grouped r (is ++ [i]) (G.push gs i) := by
  have hlast : ∀ j ∈ is, G.key j = G.key i ∨ r (G.key j) (G.key i) := by
    intro j hj
    exact (List.pairwise_append.mp hm).2.2 j hj i List.mem_cons_self
  have hkeys : ∀ g ∈ gs, G.keyOf g = G.key i ∨ r (G.keyOf g) (G.key i) := by
    intro g hg
    have hclass := (h.mem g).mp hg
    by_contra hne
    have hnone : G.classOf (G.keyOf g) is = none := by
      rw [classOf_eq_none]
      intro j hj hk
      rw [← hk] at hne
      exact hne (hlast j hj)
    rw [hnone] at hclass
    cases hclass
  have hfresh : G.classOf (G.key i) is = none →
      G.Grouped r (is ++ [i]) (G.first i :: gs) := by
    intro hnone
    refine ⟨List.pairwise_cons.mpr ⟨?_, h.order⟩, ?_, by simp [G.keyOf_first]⟩
    · intro g hg
      rw [G.keyOf_first]
      rcases hkeys g hg with he | hr
      · have hclass := (h.mem g).mp hg
        rw [he, hnone] at hclass
        cases hclass
      · exact hr
    · intro g
      by_cases hk : G.key i = G.keyOf g
      · rw [← hk, classOf_snoc_self, hnone, List.mem_cons]
        constructor
        · rintro (rfl | hg)
          · rfl
          · have hclass := (h.mem g).mp hg
            rw [← hk, hnone] at hclass
            cases hclass
        · intro he
          exact .inl (Option.some.inj he).symm
      · rw [classOf_snoc_ne G hk, ← h.mem g, List.mem_cons]
        refine or_iff_right ?_
        rintro rfl
        exact hk (G.keyOf_first i).symm
  unfold Grouping.push
  cases gs with
  | nil =>
    refine hfresh ?_
    have hempty : is = [] := by
      have hn := h.newest
      cases hl : is.getLast? with
      | none => exact List.getLast?_eq_none_iff.mp hl
      | some j => rw [hl] at hn; cases hn
    rw [hempty]
    rfl
  | cons g rest =>
    simp only
    split
    · rename_i hk
      have hg : G.classOf (G.key i) is = some g := by
        rw [← hk]
        exact (h.mem g).mp List.mem_cons_self
      have hrest : ∀ g' ∈ rest, G.keyOf g' ≠ G.keyOf g := by
        intro g' hg' he
        have hr := List.rel_of_pairwise_cons h.order hg'
        rw [he] at hr
        exact irrefl_of r _ hr
      refine ⟨?_, ?_, by simp [G.keyOf_more, hk]⟩
      · have ho := List.pairwise_cons.mp h.order
        refine List.pairwise_cons.mpr ⟨fun g' hg' => ?_, ho.2⟩
        rw [G.keyOf_more]
        exact ho.1 g' hg'
      · intro g'
        by_cases hk' : G.key i = G.keyOf g'
        · rw [← hk', classOf_snoc_self, hg, List.mem_cons]
          constructor
          · rintro (rfl | hg')
            · rfl
            · exact (hrest g' hg' (hk'.symm.trans hk.symm)).elim
          · intro he
            exact .inl (Option.some.inj he).symm
        · rw [classOf_snoc_ne G hk', ← h.mem g', List.mem_cons, List.mem_cons]
          constructor
          · rintro (rfl | hg')
            · exact (hk' (by rw [G.keyOf_more, hk])).elim
            · exact .inr hg'
          · rintro (rfl | hg')
            · exact (hk' hk.symm).elim
            · exact .inr hg'
    · rename_i hk
      refine hfresh ?_
      rw [classOf_eq_none]
      intro j hj hkj
      -- the newest group has the last key, which lies at or past every other
      obtain ⟨l, hl⟩ : ∃ l, is.getLast? = some l := by
        cases hl : is.getLast? with
        | none => rw [List.getLast?_eq_none_iff.mp hl] at hj; cases hj
        | some l => exact ⟨l, rfl⟩
      have hgl : G.keyOf g = G.key l := by
        have hn := h.newest
        rw [hl] at hn
        exact Option.some.inj hn
      obtain ⟨js, rfl⟩ := List.getLast?_eq_some_iff.mp hl
      have hlr : r (G.key l) (G.key i) := by
        rcases hlast l (by simp) with he | hr
        · exact (hk (hgl.trans he)).elim
        · exact hr
      rcases List.mem_append.mp hj with hj | hj
      · have hm' := (List.pairwise_append.mp (List.pairwise_append.mp hm).1).2.2 j hj l List.mem_cons_self
        rcases hm' with he | hr
        · rw [← he, hkj] at hlr
          exact irrefl_of r _ hlr
        · rw [hkj] at hr
          exact irrefl_of r _ (trans_of r hr hlr)
      · cases List.mem_singleton.mp hj
        rw [hkj] at hlr
        exact irrefl_of r _ hlr

/-- **The groups are the classes.** -/
theorem grouped_fold [IsStrictOrder κ r] (is : List ι) (hm : G.Moves r is) : G.Grouped r is (G.fold is) := by
  induction is using List.reverseRecOn with
  | nil => exact G.grouped_nil
  | append_singleton is i ih =>
    rw [fold_snoc]
    exact (ih (List.pairwise_append.mp hm).1).push G hm

end Order

/-! ## Stopping early -/

/-- Read elements until one would open a group past the first `n`. -/
def upTo (n : Nat) : List γ → List ι → List γ
  | gs, [] => gs
  | gs, i :: is =>
    match gs with
    | g :: rest =>
      if G.keyOf g = G.key i then upTo n (G.more g i :: rest) is
      else if gs.length = n then gs
      else upTo n (G.first i :: gs) is
    | [] => if n = 0 then [] else upTo n [G.first i] is

/-- Reading on touches the newest group only. -/
theorem foldl_push_append (is : List ι) :
    ∀ (g : γ) (gs : List γ), ∃ top, is.foldl G.push (g :: gs) = top ++ gs := by
  induction is with
  | nil => intro g gs; exact ⟨[g], rfl⟩
  | cons i is ih =>
    intro g gs
    rw [List.foldl_cons, push_cons]
    split
    · exact ih _ gs
    · obtain ⟨top, h⟩ := ih (G.first i) (g :: gs)
      exact ⟨top ++ [g], by rw [h]; simp⟩

/-- **Stopping early** leaves the oldest `n` groups of the whole reading. -/
theorem upTo_eq_take (n : Nat) :
    ∀ (is : List ι) (gs : List γ), gs.length ≤ n →
      (G.upTo n gs is).reverse = (is.foldl G.push gs).reverse.take n
  | [], gs, h => by
    rw [upTo, List.foldl_nil, List.take_of_length_le (by simpa using h)]
  | i :: is, [], h => by
    rw [upTo, List.foldl_cons, push_nil]
    split
    · rename_i hn
      simp [hn]
    · exact upTo_eq_take n is [G.first i] (by simp; omega)
  | i :: is, g :: rest, h => by
    rw [upTo, List.foldl_cons, push_cons]
    split
    · exact upTo_eq_take n is _ h
    · split
      · rename_i hlen
        obtain ⟨top, htop⟩ := G.foldl_push_append is (G.first i) (g :: rest)
        rw [htop, List.reverse_append, List.take_left' (by simpa using hlen)]
      · rename_i hlen
        exact upTo_eq_take n is _ (by simp only [List.length_cons] at h hlen ⊢; omega)

end Grouping

end Runs
