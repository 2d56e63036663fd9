import EdgeConnect.Lib.Machine
import Mathlib.Data.List.Nodup
import Mathlib.Algebra.Group.Nat.Even

/-!
# Pairing arrivals first in, first out

Arrivals of several kinds come from several sources; each takes the first one waiting that is of its kind and from another
source, or waits itself.  An arrival also has an occurrence: its number among those of its kind from its source.

* `offer`, `pool` — one arrival, and what waits after some;
* `members_perm` — what waits and what was paired are the arrivals, each once;
* `Dangling` — the last arrival of an occurrence that came an odd number of times;
* `Level` — as long as occurrences were paired with themselves, what waits is what dangles;
* `paired_iff_inOrder` — every arrival is paired with its own occurrence exactly when all come in turn, as those of two
  sources do (`inOrder_of_two`).
-/

set_option autoImplicit false

namespace Pairing

variable {α κ P : Type*} [DecidableEq κ] [DecidableEq P]

/-- How arrivals are told apart. -/
structure Marks (α κ P : Type*) where
  kind : α → κ
  source : α → P
  occurrence : α → ℕ

variable (k : Marks α κ P)

/-- Whether the waiting arrival `b` may pair with `a`. -/
def Marks.mates (a b : α) : Bool := k.kind b = k.kind a && !decide (k.source b = k.source a)

/-- One arrival. -/
def offer (q : List α) (a : α) : List α × Option α :=
  match q.find? (k.mates a) with
  | some b => (q.eraseP (k.mates a), some b)
  | none => (q ++ [a], none)

def machine : Machine (List α) α (Option α) := ⟨offer k⟩

/-- What waits after some arrivals. -/
def pool (u : List α) : List α := (machine k).exec [] u

/-- The arrival that `a` is paired with after the arrivals `u`. -/
def partner (u : List α) (a : α) : Option α := (offer k (pool k u) a).2

/-- The arrivals of a history that were paired. -/
def members (t : List (α × Option α)) : List α := t.flatMap fun e => e.2.elim [] fun b => [b, e.1]

variable {k} {u q : List α} {a b : α}

theorem mates_iff : k.mates a b = true ↔ k.kind b = k.kind a ∧ k.source b ≠ k.source a := by
  unfold Marks.mates
  simp

theorem pool_snoc (u : List α) (a : α) : pool k (u ++ [a]) = (offer k (pool k u) a).1 := by
  unfold pool
  rw [Machine.exec_append]
  rfl

/-- **What waits and what was paired are the arrivals.** -/
theorem members_perm (u : List α) : (pool k u ++ members ((machine k).trace [] u)).Perm u := by
  induction u using List.reverseRecOn with
  | nil => exact List.Perm.refl _
  | append_singleton u a ih =>
    rw [pool_snoc, Machine.trace_append]
    have hmembers : ∀ o, members ((machine k).trace [] u ++ [(a, o)]) =
        members ((machine k).trace [] u) ++ o.elim [] fun b => [b, a] := by
      intro o
      unfold members
      rw [List.flatMap_append, List.flatMap_singleton]
    show ((offer k (pool k u) a).1 ++ members ((machine k).trace [] u ++ [(a, (offer k (pool k u) a).2)])).Perm _
    rw [hmembers]
    unfold offer
    cases hfind : (pool k u).find? (k.mates a) with
    | none =>
      show (pool k u ++ [a] ++ (members ((machine k).trace [] u) ++ [])).Perm _
      rw [List.append_nil, List.append_assoc]
      exact (List.perm_append_comm.append_left _).trans (by rw [← List.append_assoc]; exact ih.append_right [a])
    | some b =>
      obtain ⟨hb, l, r, hq, hl⟩ := List.find?_eq_some_iff_append.mp hfind
      have herase : (pool k u).eraseP (k.mates a) = l ++ r := by
        rw [hq, List.eraseP_append_right _ fun x hx => by simpa using hl x hx, List.eraseP_cons_of_pos hb]
      show ((pool k u).eraseP (k.mates a) ++ (members ((machine k).trace [] u) ++ [b, a])).Perm _
      rw [herase]
      rw [hq] at ih
      -- `b` moves from the pool to the pairs
      have hmove : (l ++ r ++ (members ((machine k).trace [] u) ++ [b])).Perm u := by
        refine List.Perm.trans ?_ ih
        rw [← List.append_assoc]
        refine List.perm_append_comm.trans ?_
        rw [List.append_assoc l (b :: r), List.append_assoc l r]
        exact List.Perm.symm List.perm_middle
      have hend := hmove.append_right [a]
      simpa [List.append_assoc] using hend

/-! ## Occurrences -/

variable (k)

/-- The arrivals of `a`'s own occurrence. -/
def copies (u : List α) (a : α) : List α :=
  u.filter fun b => k.kind b = k.kind a && decide (k.occurrence b = k.occurrence a)

/-- The number of arrivals of `a`'s kind from its source. -/
def fellows (u : List α) (a : α) : ℕ := u.countP fun b => k.kind b = k.kind a && decide (k.source b = k.source a)

/-- Every arrival is numbered among those of its kind from its source. -/
def Numbered (us : List α) : Prop := ∀ u a v, us = u ++ a :: v → k.occurrence a = fellows k u a

/-- The last arrival of an occurrence that came an odd number of times. -/
def Dangling (u : List α) (b : α) : Prop := (copies k u b).length % 2 = 1 ∧ (copies k u b).getLast? = some b

/-- Whatever dangles of the arrival's kind comes from its own source, or the first such occurrence is its own. -/
def InTurn (u : List α) (a : α) : Prop :=
  (∀ b, Dangling k u b → k.kind b = k.kind a → k.source b = k.source a) ∨
    ∃ b, Dangling k u b ∧ k.kind b = k.kind a ∧ k.occurrence b = k.occurrence a ∧
      ∀ c, Dangling k u c → k.kind c = k.kind a → k.occurrence b ≤ k.occurrence c

variable {k}

theorem Numbered.left {us v : List α} (h : Numbered k (us ++ v)) : Numbered k us := by
  rintro u a w rfl
  exact h u a (w ++ v) (by simp)

theorem Numbered.lt (hnum : Numbered k u) (hb : b ∈ u) : k.occurrence b < fellows k u b := by
  obtain ⟨v, w, rfl⟩ := List.append_of_mem hb
  rw [hnum v b w rfl]
  unfold fellows
  rw [List.countP_append, List.countP_cons]
  simp

/-- The arrivals so far are told apart, and what waits is what dangles. -/
structure Level (k : Marks α κ P) (u : List α) : Prop where
  /-- what waits of one kind comes from one source -/
  uniform : ∀ b ∈ pool k u, ∀ c ∈ pool k u, k.kind b = k.kind c → k.source b = k.source c
  /-- and stands in the order of its occurrences -/
  sorted : (pool k u).Pairwise fun b c => k.kind b = k.kind c → k.occurrence b < k.occurrence c
  dangling : ∀ b, Dangling k u b ↔ b ∈ pool k u

theorem Level.nil : Level k ([] : List α) := by
  refine ⟨nofun, List.Pairwise.nil, fun b => ?_⟩
  constructor
  · rintro ⟨hodd, -⟩
    cases hodd
  · nofun

theorem mem_of_mem_pool (h : b ∈ pool k u) : b ∈ u := (members_perm u).subset (List.mem_append_left _ h)

/-- What one arrival does. -/
theorem offer_cases (u : List α) (a : α) :
    (partner k u a = none ∧ pool k (u ++ [a]) = pool k u ++ [a] ∧
        ∀ b ∈ pool k u, k.kind b = k.kind a → k.source b = k.source a) ∨
      ∃ b l r, partner k u a = some b ∧ pool k u = l ++ b :: r ∧ pool k (u ++ [a]) = l ++ r ∧
        k.kind b = k.kind a ∧ k.source b ≠ k.source a ∧ ∀ c ∈ l, k.kind c = k.kind a → k.source c = k.source a := by
  rw [pool_snoc]
  unfold partner offer
  cases hfind : (pool k u).find? (k.mates a) with
  | none =>
    refine .inl ⟨rfl, rfl, fun b hb hkind => ?_⟩
    by_contra hsource
    exact absurd (mates_iff.mpr ⟨hkind, hsource⟩) (List.find?_eq_none.mp hfind b hb)
  | some b =>
    obtain ⟨hb, l, r, hq, hl⟩ := List.find?_eq_some_iff_append.mp hfind
    obtain ⟨hkind, hsource⟩ := mates_iff.mp hb
    refine .inr ⟨b, l, r, rfl, hq, ?_, hkind, hsource, fun c hc hkind' => ?_⟩
    · show (pool k u).eraseP (k.mates a) = l ++ r
      rw [hq, List.eraseP_append_right _ fun x hx => by simpa using hl x hx, List.eraseP_cons_of_pos hb]
    · by_contra hsource'
      have := hl c hc
      rw [mates_iff.mpr ⟨hkind', hsource'⟩] at this
      cases this

omit [DecidableEq P] in
theorem copies_snoc (u : List α) (a b : α) :
    copies k (u ++ [a]) b =
      copies k u b ++ if k.kind a = k.kind b ∧ k.occurrence a = k.occurrence b then [a] else [] := by
  unfold copies
  rw [List.filter_append, List.filter_singleton]
  congr 1
  by_cases h : k.kind a = k.kind b ∧ k.occurrence a = k.occurrence b
  · simp [h.1, h.2]
  · rw [if_neg h]
    have : (decide (k.kind a = k.kind b) && decide (k.occurrence a = k.occurrence b)) = false := by
      simpa using fun hkind hocc => h ⟨hkind, hocc⟩
    rw [this]
    rfl

omit [DecidableEq P] in
theorem copies_congr {c : α} (hkind : k.kind b = k.kind c) (hocc : k.occurrence b = k.occurrence c) :
    copies k u b = copies k u c := by
  unfold copies
  rw [hkind, hocc]

theorem fellows_congr {c : α} (hkind : k.kind b = k.kind c) (hsource : k.source b = k.source c) :
    fellows k u b = fellows k u c := by
  unfold fellows
  rw [hkind, hsource]

omit [DecidableEq P] in
/-- An occurrence that came an odd number of times dangles. -/
theorem exists_dangling (hodd : (copies k u a).length % 2 = 1) :
    ∃ b, Dangling k u b ∧ k.kind b = k.kind a ∧ k.occurrence b = k.occurrence a := by
  have hne : copies k u a ≠ [] := by
    intro hnil
    rw [hnil] at hodd
    cases hodd
  obtain ⟨b, hlast⟩ : ∃ b, (copies k u a).getLast? = some b := ⟨_, List.getLast?_eq_some_getLast hne⟩
  have hb := (List.mem_filter.mp (List.mem_of_getLast? hlast)).2
  simp only [Bool.and_eq_true, decide_eq_true_eq] at hb
  have hcopies := copies_congr (u := u) hb.1 hb.2
  exact ⟨b, ⟨by rw [hcopies]; exact hodd, by rw [hcopies]; exact hlast⟩, hb.1, hb.2⟩

/-- An occurrence that came an odd number of times is waiting. -/
theorem Level.waiting (h : Level k u) (hodd : (copies k u a).length % 2 = 1) :
    ∃ b ∈ pool k u, k.kind b = k.kind a ∧ k.occurrence b = k.occurrence a := by
  obtain ⟨b, hb, hkind, hocc⟩ := exists_dangling hodd
  exact ⟨b, (h.dangling b).mp hb, hkind, hocc⟩

/-- An arrival takes its own occurrence exactly when it comes in turn. -/
theorem Level.paired_iff (h : Level k u) (a : α) :
    InTurn k u a ↔ ∀ b, partner k u a = some b → k.occurrence b = k.occurrence a := by
  rcases offer_cases (k := k) u a with ⟨hnone, -, hown⟩ | ⟨b, l, r, hsome, hq, -, hkind, hsource, hbefore⟩
  · refine ⟨fun _ b hb => ?_, fun _ => .inl fun b hb => hown b ((h.dangling b).mp hb)⟩
    rw [hnone] at hb
    cases hb
  · have hmem : b ∈ pool k u := hq ▸ List.mem_append_right _ List.mem_cons_self
    -- nothing of its kind waits before `b`: it would come from `b`'s source, and `a` would have taken it
    have hfirst : ∀ c ∈ pool k u, k.kind c = k.kind a → k.occurrence b ≤ k.occurrence c := by
      intro c hc hkc
      have hsame : k.source c = k.source b := h.uniform c hc b hmem (hkc.trans hkind.symm)
      rw [hq, List.mem_append, List.mem_cons] at hc
      rcases hc with hl | rfl | hr
      · exact absurd (hsame.symm.trans (hbefore c hl hkc)) hsource
      · exact Nat.le_refl _
      · have hsorted := h.sorted
        rw [hq, List.pairwise_append] at hsorted
        exact Nat.le_of_lt ((List.pairwise_cons.mp hsorted.2.1).1 c hr (hkind.trans hkc.symm))
    rw [hsome]
    constructor
    · rintro (hown | ⟨c, hc, hkc, hocc, hleast⟩) b' hb'
      · exact absurd (hown b ((h.dangling b).mpr hmem) hkind) hsource
      · cases hb'
        have hle := hleast b ((h.dangling b).mpr hmem) hkind
        have hge := hfirst c ((h.dangling c).mp hc) hkc
        omega
    · intro hocc
      refine .inr ⟨b, (h.dangling b).mpr hmem, hkind, hocc b rfl, fun c hc hkc => ?_⟩
      exact hfirst c ((h.dangling c).mp hc) hkc

omit [DecidableEq P] in
/-- The dangling arrivals after one more, outside its own occurrence and in it. -/
theorem dangling_snoc_of_ne (hne : ¬ (k.kind a = k.kind b ∧ k.occurrence a = k.occurrence b)) :
    Dangling k (u ++ [a]) b ↔ Dangling k u b := by
  unfold Dangling
  rw [copies_snoc, if_neg hne, List.append_nil]

omit [DecidableEq P] in
theorem dangling_snoc (hkind : k.kind a = k.kind b) (hocc : k.occurrence a = k.occurrence b) :
    Dangling k (u ++ [a]) b ↔ (copies k u a).length % 2 = 0 ∧ b = a := by
  unfold Dangling
  rw [copies_snoc, if_pos ⟨hkind, hocc⟩, copies_congr hkind.symm hocc.symm, List.length_append, List.getLast?_append]
  simp only [List.length_singleton, List.getLast?_singleton, Option.some_or, Option.some.injEq]
  constructor
  · rintro ⟨hodd, rfl⟩
    exact ⟨by omega, rfl⟩
  · rintro ⟨heven, rfl⟩
    exact ⟨by omega, rfl⟩

/-- **One arrival** that is not paired with another occurrence. -/
theorem Level.step (h : Level k u) (hnum : Numbered k (u ++ [a]))
    (hown : ∀ b, partner k u a = some b → k.occurrence b = k.occurrence a) : Level k (u ++ [a]) := by
  rcases offer_cases (k := k) u a with ⟨-, hpool, hsource⟩ | ⟨b, l, r, hsome, hq, hpool, hkind, hsource, -⟩
  · -- `a` waits: it is the next occurrence of a source of which everything waiting comes
    have hbelow : ∀ b ∈ pool k u, k.kind b = k.kind a → k.occurrence b < k.occurrence a := by
      intro b hb hkind
      rw [hnum u a [] rfl, ← fellows_congr hkind (hsource b hb hkind)]
      exact hnum.left.lt (mem_of_mem_pool hb)
    refine ⟨?_, ?_, fun b => ?_⟩
    · rw [hpool]
      intro b hb c hc hkind
      rw [List.mem_append, List.mem_singleton] at hb hc
      rcases hb with hb | rfl <;> rcases hc with hc | rfl
      · exact h.uniform b hb c hc hkind
      · exact hsource b hb hkind
      · exact (hsource c hc hkind.symm).symm
      · rfl
    · rw [hpool, List.pairwise_append]
      refine ⟨h.sorted, List.pairwise_singleton _ _, fun b hb c hc hkind => ?_⟩
      cases List.mem_singleton.mp hc
      exact hbelow b hb hkind
    · rw [hpool, List.mem_append, List.mem_singleton]
      by_cases hsame : k.kind a = k.kind b ∧ k.occurrence a = k.occurrence b
      · rw [dangling_snoc hsame.1 hsame.2]
        have heven : (copies k u a).length % 2 = 0 := by
          by_contra hodd
          obtain ⟨c, hc, hkc, hocc⟩ := h.waiting (a := a) (by omega)
          have := hbelow c hc hkc
          omega
        constructor
        · exact fun hb => .inr hb.2
        · rintro (hb | hb)
          · have := hbelow b hb hsame.1.symm
            omega
          · exact ⟨heven, hb⟩
      · rw [dangling_snoc_of_ne hsame, h.dangling]
        constructor
        · exact .inl
        · rintro (hb | rfl)
          · exact hb
          · exact absurd ⟨rfl, rfl⟩ hsame
  · -- `a` takes `b`, of its own occurrence
    have hocc := hown b hsome
    have hmem : b ∈ pool k u := hq ▸ List.mem_append_right _ List.mem_cons_self
    have hsub : (pool k (u ++ [a])).Sublist (pool k u) := by
      rw [hpool, hq]
      exact (List.sublist_cons_self b r).append_left l
    have hout : ∀ c ∈ pool k (u ++ [a]), k.kind c = k.kind b → k.occurrence c ≠ k.occurrence b := by
      intro c hc hkc heq
      have hsorted := h.sorted
      rw [hq, List.pairwise_append, List.pairwise_cons] at hsorted
      rw [hpool] at hc
      rcases List.mem_append.mp hc with hl | hr
      · exact Nat.ne_of_lt (hsorted.2.2 c hl b List.mem_cons_self hkc) heq
      · exact Nat.ne_of_lt (hsorted.2.1.1 c hr hkc.symm) heq.symm
    refine ⟨fun c hc d hd => h.uniform c (hsub.subset hc) d (hsub.subset hd), h.sorted.sublist hsub, fun c => ?_⟩
    by_cases hsame : k.kind a = k.kind c ∧ k.occurrence a = k.occurrence c
    · rw [dangling_snoc hsame.1 hsame.2]
      have hodd := ((h.dangling b).mpr hmem).1
      rw [copies_congr hkind hocc] at hodd
      constructor
      · rintro ⟨heven, -⟩
        omega
      · intro hc
        exact absurd (hsame.2.symm.trans hocc.symm) (hout c hc (hsame.1.symm.trans hkind.symm))
    · rw [dangling_snoc_of_ne hsame, h.dangling, hq, hpool]
      simp only [List.mem_append, List.mem_cons]
      constructor
      · rintro (hl | rfl | hr)
        · exact .inl hl
        · exact absurd ⟨hkind.symm, hocc.symm⟩ hsame
        · exact .inr hr
      · rintro (hl | hr)
        · exact .inl hl
        · exact .inr (.inr hr)

/-! ## Runs -/

/-- Every arrival is paired with its own occurrence, if with any. -/
def Paired (k : Marks α κ P) (us : List α) : Prop :=
  ∀ u a v, us = u ++ a :: v → ∀ b, partner k u a = some b → k.occurrence b = k.occurrence a

/-- Every arrival comes in turn. -/
def InOrder (k : Marks α κ P) (us : List α) : Prop := ∀ u a v, us = u ++ a :: v → InTurn k u a

theorem Paired.left {us v : List α} (h : Paired k (us ++ v)) : Paired k us := by
  rintro u a w rfl
  exact h u a (w ++ v) (by simp)

theorem level_of_paired {us : List α} (hnum : Numbered k us) (h : Paired k us) : Level k us := by
  induction us using List.reverseRecOn with
  | nil => exact .nil
  | append_singleton us a ih => exact (ih hnum.left h.left).step hnum (h us a [] rfl)

omit [DecidableEq P] in
theorem InOrder.left {us v : List α} (h : InOrder k (us ++ v)) : InOrder k us := by
  rintro u a w rfl
  exact h u a (w ++ v) (by simp)

theorem level_of_inOrder {us : List α} (hnum : Numbered k us) (h : InOrder k us) : Level k us := by
  induction us using List.reverseRecOn with
  | nil => exact .nil
  | append_singleton us a ih =>
    have hlevel := ih hnum.left h.left
    exact hlevel.step hnum ((hlevel.paired_iff a).mp (h us a [] rfl))

/-- **Occurrences are paired with themselves exactly when they come in order.** -/
theorem paired_iff_inOrder {us : List α} (hnum : Numbered k us) : Paired k us ↔ InOrder k us := by
  constructor
  · rintro h u a v rfl
    exact ((level_of_paired hnum.left h.left).paired_iff a).mpr (h u a v rfl)
  · rintro h u a v rfl
    exact ((level_of_inOrder hnum.left h.left).paired_iff a).mp (h u a v rfl)

/-- No arrival is paired twice. -/
theorem pairs_disjoint {us u v w : List α} {a a' b b' : α} (hnodup : us.Nodup) (hus : us = u ++ a :: (v ++ a' :: w))
    (hb : partner k u a = some b) (hb' : partner k (u ++ a :: v) a' = some b') : b ≠ b' ∧ b ≠ a' ∧ a ≠ b' := by
  have hperm := members_perm (k := k) us
  have hmembers : (members ((machine k).trace [] us)).Nodup :=
    ((List.Perm.nodup_iff hperm).mpr hnodup).sublist (List.sublist_append_right _ _)
  have htrace : (machine k).trace [] us = (machine k).trace [] u ++ (a, partner k u a) ::
      ((machine k).trace (pool k (u ++ [a])) v ++ (a', partner k (u ++ a :: v) a') ::
        (machine k).trace (pool k (u ++ a :: v ++ [a'])) w) := by
    have hpool : ∀ (x : List α) (y : α), (offer k (pool k x) y).1 = pool k (x ++ [y]) := fun x y => (pool_snoc x y).symm
    rw [hus, Machine.trace_append]
    show _ ++ (a, (offer k (pool k u) a).2) :: (machine k).trace (offer k (pool k u) a).1 (v ++ a' :: w) = _
    rw [hpool, Machine.trace_append]
    have hexec : (machine k).exec (pool k (u ++ [a])) v = pool k (u ++ a :: v) := by
      unfold pool
      rw [← Machine.exec_append]
      simp
    rw [hexec]
    show _ ++ _ :: (_ ++ (a', (offer k (pool k (u ++ a :: v)) a').2) ::
      (machine k).trace (offer k (pool k (u ++ a :: v)) a').1 w) = _
    rw [hpool]
    rfl
  rw [htrace, hb, hb'] at hmembers
  unfold members at hmembers
  simp only [List.flatMap_append, List.flatMap_cons, Option.elim_some, List.append_assoc, List.cons_append,
    List.nil_append] at hmembers
  have hpart := (List.nodup_append'.mp hmembers).2.1
  rw [List.nodup_cons, List.nodup_cons] at hpart
  obtain ⟨hbout, haout, -⟩ := hpart
  simp only [List.mem_cons, List.mem_append, not_or] at hbout haout
  exact ⟨hbout.2.2.1, hbout.2.2.2.1, haout.2.1⟩

/-! ## Arrivals that always come in order -/

omit [DecidableEq P] in
theorem Dangling.mem (h : Dangling k u b) : b ∈ u := (List.mem_filter.mp (List.mem_of_getLast? h.2)).1

/-- The arrivals of one source have the occurrences below their number, each once. -/
theorem countP_occurrence (hnum : Numbered k u) (x : κ) (p : P) (n : ℕ) :
    u.countP (fun b => decide (k.kind b = x) && decide (k.source b = p) && decide (k.occurrence b = n)) =
      if n < u.countP (fun b => decide (k.kind b = x) && decide (k.source b = p)) then 1 else 0 := by
  induction u using List.reverseRecOn with
  | nil => rfl
  | append_singleton u a ih =>
    have hocc : k.kind a = x → k.source a = p →
        k.occurrence a = u.countP fun b => decide (k.kind b = x) && decide (k.source b = p) := by
      rintro rfl rfl
      exact hnum u a [] rfl
    rw [List.countP_append, List.countP_append, ih hnum.left, List.countP_singleton, List.countP_singleton]
    by_cases hmine : k.kind a = x ∧ k.source a = p
    · rw [hocc hmine.1 hmine.2, decide_eq_true hmine.1, decide_eq_true hmine.2]
      simp only [Bool.and_self, Bool.true_and, decide_eq_true_eq, if_true]
      split_ifs <;> omega
    · have hout : (decide (k.kind a = x) && decide (k.source a = p)) = false := by simpa using hmine
      rw [hout, Bool.false_and]
      simp

theorem countP_add {f g h : α → Bool} : ∀ {u : List α}, (∀ c ∈ u, (f c).toNat = (g c).toNat + (h c).toNat) →
    u.countP f = u.countP g + u.countP h
  | [], _ => rfl
  | c :: u, hc => by
    have hhead := hc c List.mem_cons_self
    have htail := countP_add fun d hd => hc d (List.mem_cons_of_mem c hd)
    rw [List.countP_cons, List.countP_cons, List.countP_cons, htail]
    cases hf : f c <;> cases hg : g c <;> cases hh : h c <;> simp_all <;> omega

/-- **Arrivals of two sources come in order.** -/
theorem inOrder_of_two {us : List α} (hnum : Numbered k us)
    (htwo : ∀ a ∈ us, ∀ b ∈ us, ∀ c ∈ us, k.kind a = k.kind b → k.kind b = k.kind c →
      k.source a = k.source b ∨ k.source b = k.source c ∨ k.source a = k.source c) : InOrder k us := by
  rintro u a v rfl
  by_cases hown : ∀ b, Dangling k u b → k.kind b = k.kind a → k.source b = k.source a
  · exact .inl hown
  · push Not at hown
    obtain ⟨d, hd, hkind, hsource⟩ := hown
    have hnumu := hnum.left
    -- every occurrence is counted once for each of the two sources that came so far
    have hcount : ∀ b, k.kind b = k.kind a → (copies k u b).length =
        (if k.occurrence b < fellows k u a then 1 else 0) + if k.occurrence b < fellows k u d then 1 else 0 := by
      intro b hb
      unfold copies fellows
      rw [← List.countP_eq_length_filter, hb, hkind, ← countP_occurrence hnumu, ← countP_occurrence hnumu]
      refine countP_add fun c hc => ?_
      by_cases hkc : k.kind c = k.kind a
      · have hone := htwo c (List.mem_append_left _ hc) a (by simp) d (List.mem_append_left _ hd.mem) hkc hkind.symm
        by_cases ha : k.source c = k.source a
        · have hnd : k.source c ≠ k.source d := fun heq => hsource (heq.symm.trans ha)
          simp [hkc, ha, hsource.symm]
        · have hcd : k.source c = k.source d := by
            rcases hone with h | h | h
            · exact absurd h ha
            · exact absurd h.symm hsource
            · exact h
          simp [hkc, hcd, hsource]
      · simp [hkc]
    have hnext : k.occurrence a = fellows k u a := hnum u a v rfl
    have hlate : fellows k u a ≤ k.occurrence d ∧ k.occurrence d < fellows k u d := by
      have hlt := hnumu.lt hd.mem
      have := hcount d hkind
      have hodd := hd.1
      split_ifs at this <;> omega
    obtain ⟨b, hb, hkb, hocc⟩ := exists_dangling (k := k) (u := u) (a := a) (by
      rw [hcount a rfl, hnext, if_neg (Nat.lt_irrefl _), if_pos (by omega)])
    refine .inr ⟨b, hb, hkb, hocc, fun c hc hkc => ?_⟩
    have := hcount c hkc
    have hodd := hc.1
    rw [hocc, hnext]
    split_ifs at this <;> omega

end Pairing
