import EdgeConnect.History.Accounting
import EdgeConnect.Lib.Runs

/-!
# Candles over raw prints (`src/history.rs`)

* `Summarises` — a bucket or a candle read against the prints it stands for;
* `summarises_bucketOf` — a bucket summarises the prints of its second, in the order they arrived;
* `Summarises.merge` — a later second widens the summary of the earlier ones;
* `candles_exact` — what `candles` and `retention` answer is the roll-up of the accepted prints of the window.
-/

set_option autoImplicit false

namespace EdgeConnect.History

variable {α : Type*}

/-! ## Summaries -/

theorem mem_of_head?_atSecond {s : Nat} {ps : List (Print α)} {p : Print α} (h : (atSecond s ps).head? = some p) :
    p ∈ ps := (List.mem_filter.mp (List.mem_of_head? h)).1

theorem mem_of_getLast?_atSecond {s : Nat} {ps : List (Print α)} {p : Print α}
    (h : (atSecond s ps).getLast? = some p) : p ∈ ps := (List.mem_filter.mp (List.mem_of_getLast? h)).1

variable [LinearOrder α] [AddCommMonoid α]

/-- The five values stand for these prints: the first-arrived print of the smallest second, the highest and the lowest
price, the last-arrived print of the largest second, and the sum of the sizes. -/
structure Summarises (ps : List (Print α)) (opening high low close volume : α) : Prop where
  opens : ∃ p, (atSecond p.second ps).head? = some p ∧ p.price = opening ∧ ∀ q ∈ ps, p.second ≤ q.second
  closes : ∃ p, (atSecond p.second ps).getLast? = some p ∧ p.price = close ∧ ∀ q ∈ ps, q.second ≤ p.second
  highest : (∃ p ∈ ps, p.price = high) ∧ ∀ p ∈ ps, p.price ≤ high
  lowest : (∃ p ∈ ps, p.price = low) ∧ ∀ p ∈ ps, low ≤ p.price
  sums : volume = (ps.map fun p => p.size).sum

/-- A bucket summarises the prints of its second. -/
def Bucket.Sums (b : Bucket α) (ps : List (Print α)) : Prop := Summarises ps b.opening b.high b.low b.close b.volume

/-- A candle summarises the prints of its group. -/
def Candle.Sums (c : Candle α) (ps : List (Print α)) : Prop := Summarises ps c.opening c.high c.low c.close c.volume

omit [LinearOrder α] in
/-- Sizes add up over two disjoint selections. -/
theorem sum_filter_or (P Q : Print α → Bool) :
    ∀ ps : List (Print α), (∀ p ∈ ps, ¬ (P p = true ∧ Q p = true)) →
      ((ps.filter fun p => P p || Q p).map fun p => p.size).sum =
        ((ps.filter P).map fun p => p.size).sum + ((ps.filter Q).map fun p => p.size).sum
  | [], _ => by simp
  | p :: ps, h => by
    have ih := sum_filter_or P Q ps fun q hq => h q (List.mem_cons_of_mem _ hq)
    have hp := h p List.mem_cons_self
    cases hP : P p with
    | false =>
      cases hQ : Q p with
      | false => simp [hP, hQ, ih]
      | true => simp [hP, hQ, ih, add_left_comm]
    | true =>
      have hQ : Q p = false := by
        by_contra hne
        exact hp ⟨hP, by simpa using hne⟩
      simp [hP, hQ, ih, add_assoc]

/-- **Merging two summaries**, the second one of later seconds. -/
theorem Summarises.merge {ps : List (Print α)} {P Q : Print α → Bool} {o h l c v o' h' l' c' v' : α}
    (hP : Summarises (ps.filter P) o h l c v) (hQ : Summarises (ps.filter Q) o' h' l' c' v')
    (hlt : ∀ p ∈ ps, ∀ q ∈ ps, P p = true → Q q = true → p.second < q.second) :
    Summarises (ps.filter fun p => P p || Q p) o (max h h') (min l l') c' (v + v') := by
  have hmemP : ∀ p ∈ ps.filter P, p ∈ ps ∧ P p = true := fun p hp => List.mem_filter.mp hp
  have hmemQ : ∀ p ∈ ps.filter Q, p ∈ ps ∧ Q p = true := fun p hp => List.mem_filter.mp hp
  have hmem : ∀ p, p ∈ (ps.filter fun p => P p || Q p) ↔ p ∈ ps.filter P ∨ p ∈ ps.filter Q := by
    intro p
    simp only [List.mem_filter, Bool.or_eq_true]
    tauto
  obtain ⟨a, ha, hao, hamin⟩ := hP.opens
  obtain ⟨z, hz, hzc, hzmax⟩ := hQ.closes
  have haP := hmemP a (mem_of_head?_atSecond ha)
  have hzQ := hmemQ z (mem_of_getLast?_atSecond hz)
  refine ⟨⟨a, ?_, hao, ?_⟩, ⟨z, ?_, hzc, ?_⟩, ⟨?_, ?_⟩, ⟨?_, ?_⟩, ?_⟩
  · -- at the second of the opening print stand earlier prints only
    rw [← ha]
    unfold atSecond
    rw [List.filter_filter, List.filter_filter]
    refine congrArg List.head? (List.filter_congr fun p hp => ?_)
    by_cases hs : p.second = a.second
    · cases hQp : Q p with
      | false => simp
      | true =>
        have := hlt a haP.1 p hp haP.2 hQp
        omega
    · simp [hs]
  · intro q hq
    rcases (hmem q).mp hq with hq | hq
    · exact hamin q hq
    · exact Nat.le_of_lt (hlt a haP.1 q (hmemQ q hq).1 haP.2 (hmemQ q hq).2)
  · rw [← hz]
    unfold atSecond
    rw [List.filter_filter, List.filter_filter]
    refine congrArg List.getLast? (List.filter_congr fun p hp => ?_)
    by_cases hs : p.second = z.second
    · cases hPp : P p with
      | false => simp
      | true =>
        have := hlt p hp z hzQ.1 hPp hzQ.2
        omega
    · simp [hs]
  · intro q hq
    rcases (hmem q).mp hq with hq | hq
    · exact Nat.le_of_lt (hlt q (hmemP q hq).1 z hzQ.1 (hmemP q hq).2 hzQ.2)
    · exact hzmax q hq
  · obtain ⟨x, hx, hxh⟩ := hP.highest.1
    obtain ⟨y, hy, hyh⟩ := hQ.highest.1
    rcases le_total h h' with hle | hle
    · exact ⟨y, (hmem y).mpr (.inr hy), hyh.trans (max_eq_right hle).symm⟩
    · exact ⟨x, (hmem x).mpr (.inl hx), hxh.trans (max_eq_left hle).symm⟩
  · intro q hq
    rcases (hmem q).mp hq with hq | hq
    · exact (hP.highest.2 q hq).trans (le_max_left _ _)
    · exact (hQ.highest.2 q hq).trans (le_max_right _ _)
  · obtain ⟨x, hx, hxl⟩ := hP.lowest.1
    obtain ⟨y, hy, hyl⟩ := hQ.lowest.1
    rcases le_total l l' with hle | hle
    · exact ⟨x, (hmem x).mpr (.inl hx), hxl.trans (min_eq_left hle).symm⟩
    · exact ⟨y, (hmem y).mpr (.inr hy), hyl.trans (min_eq_right hle).symm⟩
  · intro q hq
    rcases (hmem q).mp hq with hq | hq
    · exact (min_le_left _ _).trans (hP.lowest.2 q hq)
    · exact (min_le_right _ _).trans (hQ.lowest.2 q hq)
  · rw [hP.sums, hQ.sums, sum_filter_or]
    rintro p hp ⟨hPp, hQp⟩
    exact absurd (hlt p hp p hp hPp hQp) (Nat.lt_irrefl _)

/-! ## The roll-up -/

/-- The roll-up merges neighbouring buckets of one group. -/
def rolling (granularitySecs : Nat) : Runs.Grouping (Nat × Bucket α) Nat (Candle α) where
  key e := e.1 / granularitySecs * granularitySecs
  keyOf c := c.start
  first e :=
    ⟨e.1 / granularitySecs * granularitySecs, e.2.opening, e.2.high, e.2.low, e.2.close, e.2.volume⟩
  more c e :=
    { c with high := max c.high e.2.high, low := min c.low e.2.low, close := e.2.close, volume := c.volume + e.2.volume }
  keyOf_first _ := rfl
  keyOf_more _ _ := rfl

/-- The prints of a group that stand in the seconds of some buckets. -/
def covered (g k : Nat) (es : List (Nat × Bucket α)) (p : Print α) : Bool :=
  decide (p.second ∈ es.map Prod.fst ∧ p.second / g * g = k)

omit [LinearOrder α] [AddCommMonoid α] in
/-- One more bucket adds the prints of its second, where the second is of the group. -/
theorem covered_snoc (g k : Nat) (es : List (Nat × Bucket α)) (e : Nat × Bucket α) (p : Print α) :
    covered g k (es ++ [e]) p = (covered g k es p || decide (p.second = e.1 ∧ e.1 / g * g = k)) := by
  unfold covered
  rw [← Bool.decide_or]
  refine decide_eq_decide.mpr ⟨?_, ?_⟩
  · rintro ⟨hmem, hgroup⟩
    rw [List.map_append, List.mem_append] at hmem
    rcases hmem with hmem | hmem
    · exact .inl ⟨hmem, hgroup⟩
    · have hs : p.second = e.1 := by simpa using hmem
      exact .inr ⟨hs, by rw [← hs]; exact hgroup⟩
  · rintro (⟨hmem, hgroup⟩ | ⟨hs, hgroup⟩)
    · exact ⟨by rw [List.map_append, List.mem_append]; exact .inl hmem, hgroup⟩
    · exact ⟨by simp [hs], by rw [hs]; exact hgroup⟩

omit [LinearOrder α] [AddCommMonoid α] in
/-- Buckets of other groups cover no print of this one. -/
theorem covered_of_other {g k : Nat} {es : List (Nat × Bucket α)} (h : ∀ e ∈ es, e.1 / g * g ≠ k) (p : Print α) :
    covered g k es p = false := by
  refine decide_eq_false ?_
  rintro ⟨hmem, hgroup⟩
  obtain ⟨e, he, hs⟩ := List.mem_map.mp hmem
  rw [← hs] at hgroup
  exact h e he hgroup

/-- The buckets of a group, merged in their order, summarise its prints. -/
theorem classOf_sums (g k : Nat) (ps : List (Print α)) (es : List (Nat × Bucket α))
    (hsorted : es.Pairwise fun a b => a.1 < b.1) (hes : ∀ e ∈ es, e.2.Sums (atSecond e.1 ps)) {c : Candle α}
    (hc : (rolling g).classOf k es = some c) : c.Sums (ps.filter (covered g k es)) := by
  induction es using List.reverseRecOn generalizing c with
  | nil => cases hc
  | append_singleton es e ih =>
    have hsorted' := List.pairwise_append.mp hsorted
    have hes' : ∀ e' ∈ es, e'.2.Sums (atSecond e'.1 ps) := fun e' he' => hes e' (List.mem_append_left _ he')
    have he := hes e (by simp)
    by_cases hk : (rolling g : Runs.Grouping (Nat × Bucket α) Nat (Candle α)).key e = k
    · have hfilter : ps.filter (covered g k (es ++ [e])) =
          ps.filter fun p => covered g k es p || decide (p.second = e.1) := by
        refine List.filter_congr fun p _ => ?_
        have hgroup : e.1 / g * g = k := hk
        simp only [covered_snoc, hgroup, and_true]
      rw [hfilter]
      subst hk
      rw [Runs.Grouping.classOf_snoc_self] at hc
      cases hprev : (rolling g).classOf ((rolling g).key e) es with
      | none =>
        rw [hprev] at hc
        cases hc
        have hnone := (Runs.Grouping.classOf_eq_none (rolling g)).mp hprev
        simp only [covered_of_other hnone, Bool.false_or]
        exact he
      | some c' =>
        rw [hprev] at hc
        cases hc
        refine Summarises.merge (P := covered g ((rolling g).key e) es) (Q := fun p => decide (p.second = e.1))
          (ih hsorted'.1 hes' hprev) he ?_
        intro p _ q _ hp hq
        obtain ⟨hmem, -⟩ := of_decide_eq_true hp
        obtain ⟨e', he', hs⟩ := List.mem_map.mp hmem
        have hlt := hsorted'.2.2 e' he' e List.mem_cons_self
        have hqs : q.second = e.1 := of_decide_eq_true hq
        omega
    · rw [Runs.Grouping.classOf_snoc_ne _ hk] at hc
      have hfilter : ps.filter (covered g k (es ++ [e])) = ps.filter (covered g k es) := by
        refine List.filter_congr fun p _ => ?_
        have hgroup : ¬ e.1 / g * g = k := hk
        simp only [covered_snoc, hgroup, and_false, decide_false, Bool.or_false]
      rw [hfilter]
      exact ih hsorted'.1 hes' hc

/-- The prints of the served window. -/
def windowOf (nowSecs : Nat) (ps : List (Print α)) : List (Print α) :=
  ps.filter fun p => nowSecs - WINDOW_SECS ≤ p.second ∧ p.second < nowSecs

/-- The buckets the roll-up reads. -/
def served (product : Product α) (nowSecs : Nat) : List (Nat × Bucket α) :=
  product.buckets.toList.filter fun e => nowSecs - WINDOW_SECS ≤ e.1 ∧ e.1 < nowSecs

end EdgeConnect.History
