import EdgeConnect.History.Store
import Mathlib.Order.Interval.Finset.Nat

/-!
# The accounting of the history (`src/history.rs`)

* `Ledger` — the prints a store has accepted since each product was last created, and the order in which the products
  accepted them;
* `Accounted` — the running total, the caps, the window, the rings and the recency of a store, read against its ledger;
* `Sheds` — an eviction takes products touched before all that stay;
* `accounted_ingest`, `accounted_forget` — every call answers and keeps the accounts;
* `history_accounting` — they hold in every reachable store.
-/

set_option autoImplicit false

namespace EdgeConnect.History

variable {α : Type*}

/-! ## The loops -/

/-- Popping from the front of the map removes what starts below the floor. -/
theorem popBelow_spec (floor : Nat) :
    ∀ (starts : List Nat) (buckets : FinMap Nat (Bucket α)), starts.Pairwise (· < ·) →
      (∀ k ∈ starts, k ∈ buckets.keys) → (∀ k ∈ buckets.keys, k ∈ starts ∨ floor ≤ k) →
      (∀ k, (popBelow floor starts buckets).1.get k = if floor ≤ k then buckets.get k else none) ∧
        (popBelow floor starts buckets).1.size + (popBelow floor starts buckets).2 = buckets.size
  | [], buckets, _, _, hkeys => by
    refine ⟨fun k => ?_, rfl⟩
    unfold popBelow
    split
    · rfl
    · rename_i hk
      refine FinMap.notMem_keys_iff.mp fun hmem => ?_
      rcases hkeys k hmem with h | h
      · cases h
      · exact hk h
  | start :: rest, buckets, hsorted, hmem, hkeys => by
    obtain ⟨hlt, hrest⟩ := List.pairwise_cons.mp hsorted
    unfold popBelow
    split
    · rename_i hge
      refine ⟨fun k => ?_, rfl⟩
      split
      · rfl
      · rename_i hk
        refine FinMap.notMem_keys_iff.mp fun hmem' => ?_
        rcases hkeys k hmem' with h | h
        · rcases List.mem_cons.mp h with rfl | h
          · exact hk hge
          · exact hk (Nat.le_trans hge (Nat.le_of_lt (hlt k h)))
        · exact hk h
    · rename_i hlow
      have ih := popBelow_spec floor rest (buckets.erase start) hrest ?_ ?_
      · refine ⟨fun k => ?_, ?_⟩
        · rw [ih.1 k, FinMap.get_erase]
          split
          · rename_i hk
            rw [if_neg (by rintro rfl; exact hlow hk)]
          · rfl
        · have hpos : 0 < buckets.size := Finset.card_pos.mpr ⟨start, hmem start List.mem_cons_self⟩
          have hsize := buckets.size_erase start
          rw [if_pos (FinMap.contains_eq_true.mpr (FinMap.mem_keys_iff.mp (hmem start List.mem_cons_self)))] at hsize
          have := ih.2
          simp only
          omega
      · intro k hk
        exact Finset.mem_erase.mpr ⟨Nat.ne_of_gt (hlt k hk), hmem k (List.mem_cons_of_mem _ hk)⟩
      · intro k hk
        obtain ⟨hne, hk⟩ := Finset.mem_erase.mp hk
        rcases hkeys k hk with h | h
        · exact .inl ((List.mem_cons.mp h).resolve_left hne)
        · exact .inr h

/-- The ring keeps its last prints. -/
theorem trimRing_eq (ring : List (Print α)) : trimRing ring = ring.rtake TRADE_RING := by
  induction ring with
  | nil => simp [trimRing, List.rtake]
  | cons p ring ih =>
    unfold trimRing
    split
    · rename_i h
      have hlen : (p :: ring).length - TRADE_RING = (ring.length - TRADE_RING) + 1 := by
        rw [List.length_cons] at h ⊢
        omega
      rw [ih]
      unfold List.rtake
      rw [hlen, List.drop_succ_cons]
    · rename_i h
      exact (Recent.rtake_of_le (Nat.not_lt.mp h)).symm

namespace Store

/-- The running total is the sum of the products' bucket counts. -/
def Balanced (s : Store α) : Prop := s.bucketsTotal = s.products.sumVals fun _ p => p.buckets.size

/-- An eviction: what goes was touched before all that stays, and nothing else of a product changes. -/
structure Sheds (s s' : Store α) : Prop where
  sub : ∀ k p, s'.products.get k = some p → s.products.get k = some p
  order : ∀ k p, s.products.get k = some p → s'.products.get k = none →
    ∀ k' p', s'.products.get k' = some p' → p.lastTouch < p'.lastTouch
  size : s'.products.size ≤ s.products.size
  clock : s'.touchClock = s.touchClock
  lateDrops : s'.lateDrops = s.lateDrops

theorem Sheds.refl (s : Store α) : Sheds s s where
  sub _ _ h := h
  order _ _ h h' := by rw [h] at h'; cases h'
  size := le_rfl
  clock := rfl
  lateDrops := rfl

theorem Sheds.trans {s s' s'' : Store α} (h : Sheds s s') (h' : Sheds s' s'') : Sheds s s'' where
  sub k p hp := h.sub k p (h'.sub k p hp)
  order k p hp hnone k' p' hp' := by
    cases hs : s'.products.get k with
    | none => exact h.order k p hp hs k' p' (h'.sub k' p' hp')
    | some q =>
      cases (h.sub k q hs).symm.trans hp
      exact h'.order k p hs hnone k' p' hp'
  size := h'.size.trans h.size
  clock := h'.clock.trans h.clock
  lateDrops := h'.lateDrops.trans h.lateDrops

/-- No two products were touched last by the same print. -/
def Distinct (s : Store α) : Prop :=
  ∀ k p k' p', s.products.get k = some p → s.products.get k' = some p' → p.lastTouch = p'.lastTouch → k = k'

theorem Sheds.distinct {s s' : Store α} (h : Sheds s s') (hd : Distinct s) : Distinct s' :=
  fun k p k' p' hp hp' he => hd k p k' p' (h.sub k p hp) (h.sub k' p' hp') he

end Store

/-! ## What prints leave of a product -/

/-- The latest bucket second of a list of prints. -/
def newestOf (ps : List (Print α)) : Option Nat :=
  ps.foldl (fun n p => some (n.elim p.second fun n => max n p.second)) none

theorem newestOf_snoc (ps : List (Print α)) (p : Print α) :
    newestOf (ps ++ [p]) = some ((newestOf ps).elim p.second fun n => max n p.second) := by
  unfold newestOf
  rw [List.foldl_append]
  rfl

theorem newestOf_spec (ps : List (Print α)) :
    (newestOf ps = none ↔ ps = []) ∧
      ∀ n, newestOf ps = some n → (∃ p ∈ ps, p.second = n) ∧ ∀ p ∈ ps, p.second ≤ n := by
  induction ps using List.reverseRecOn with
  | nil => simp [newestOf]
  | append_singleton ps p ih =>
    rw [newestOf_snoc]
    refine ⟨by simp, ?_⟩
    rintro n hn
    cases hn
    cases hps : newestOf ps with
    | none =>
      rw [ih.1.mp hps]
      simp
    | some m =>
      obtain ⟨⟨q, hq, hqm⟩, hle⟩ := ih.2 m hps
      simp only [Option.elim_some, List.mem_append, List.mem_singleton]
      constructor
      · rcases Nat.le_total m p.second with h | h
        · exact ⟨p, .inr rfl, (Nat.max_eq_right h).symm⟩
        · exact ⟨q, .inl hq, hqm.trans (Nat.max_eq_left h).symm⟩
      · rintro x (hx | rfl)
        · exact (hle x hx).trans (Nat.le_max_left _ _)
        · exact Nat.le_max_right _ _

section Values

variable [LinearOrder α] [AddCommMonoid α]

/-- The bucket that prints of one second leave. -/
def bucketOf : List (Print α) → Option (Bucket α)
  | [] => none
  | p :: rest => some (rest.foldl Bucket.widen (.openedBy p))

theorem bucketOf_snoc (ps : List (Print α)) (p : Print α) :
    bucketOf (ps ++ [p]) =
      some (match bucketOf ps with
        | some b => b.widen p
        | none => .openedBy p) := by
  cases ps with
  | nil => rfl
  | cons q rest => simp [bucketOf, List.foldl_append]

/-- The prints of one second, in the order they arrived. -/
def atSecond (s : Nat) (ps : List (Print α)) : List (Print α) := ps.filter fun p => p.second = s

/-- A product is what a list of prints leaves: the high-water mark, the buckets of the window below it, the last
prints. -/
structure Product.Holds (product : Product α) (ps : List (Print α)) : Prop where
  newest : product.newestSeen = newestOf ps
  buckets : ∀ s, product.buckets.get s =
    if (newestOf ps).getD 0 ≤ s + WINDOW_SECS then bucketOf (atSecond s ps) else none
  ring : product.ring = ps.rtake TRADE_RING

/-- Recording a print that is not late: the product is what one more print leaves, and its bucket count moves by the
buckets opened and popped. -/
theorem Product.record_spec {product : Product α} {ps : List (Print α)} (h : product.Holds ps) {print : Print α}
    (hlate : (newestOf ps).getD 0 ≤ print.second + WINDOW_SECS) :
    (product.record print).1.Holds (ps ++ [print]) ∧
      (product.record print).1.lastTouch = product.lastTouch ∧
      (product.record print).1.buckets.size + (product.record print).2.2 =
        product.buckets.size + if (product.record print).2.1 then 1 else 0 := by
  set newest := product.newestSeen.elim print.second fun n => max n print.second with hnewest
  set bucket : Bucket α :=
    match product.buckets.get print.second with
    | some b => b.widen print
    | none => .openedBy print with hbucket
  set opened := product.buckets.insert print.second bucket with hopened
  have hpop := popBelow_spec (newest - WINDOW_SECS) (opened.keys.sort (· ≤ ·)) opened
    (Finset.sortedLT_sort _).pairwise (fun k hk => (Finset.mem_sort _).mp hk)
    (fun k hk => .inl ((Finset.mem_sort _).mpr hk))
  have hrec : product.record print =
      ({ product with
          buckets := (popBelow (newest - WINDOW_SECS) (opened.keys.sort (· ≤ ·)) opened).1
          newestSeen := some newest
          ring := trimRing (product.ring ++ [print]) },
        !product.buckets.contains print.second,
        (popBelow (newest - WINDOW_SECS) (opened.keys.sort (· ≤ ·)) opened).2) := rfl
  have hnew : newestOf (ps ++ [print]) = some newest := by
    rw [newestOf_snoc, hnewest, h.newest]
  have hle : (newestOf ps).getD 0 ≤ newest := by
    rw [hnewest, h.newest]
    cases newestOf ps with
    | none => exact Nat.zero_le _
    | some n => exact Nat.le_max_left _ _
  rw [hrec]
  refine ⟨⟨hnew.symm, fun s => ?_, ?_⟩, rfl, ?_⟩
  · rw [hpop.1 s, hnew, Option.getD_some, hopened, FinMap.get_insert]
    by_cases hwin : newest ≤ s + WINDOW_SECS
    · rw [if_pos (Nat.sub_le_iff_le_add.mpr hwin), if_pos hwin]
      split
      · rename_i hs
        subst hs
        have hself : atSecond print.second (ps ++ [print]) = atSecond print.second ps ++ [print] := by
          simp [atSecond]
        rw [hself, bucketOf_snoc, hbucket, h.buckets, if_pos hlate]
      · rename_i hs
        have hother : atSecond s (ps ++ [print]) = atSecond s ps := by
          simp [atSecond, Ne.symm hs]
        rw [hother, h.buckets, if_pos (hle.trans hwin)]
    · rw [if_neg (fun hfloor => hwin (Nat.sub_le_iff_le_add.mp hfloor)), if_neg hwin]
  · rw [trimRing_eq, h.ring, Recent.rtake_note]
  · have hsize := product.buckets.size_insert print.second bucket
    have hpopped := hpop.2
    rw [← hopened] at hsize
    simp only
    cases hc : product.buckets.contains print.second with
    | true =>
      rw [hc, if_pos rfl] at hsize
      simp only [Bool.not_true, Bool.false_eq_true, if_false]
      omega
    | false =>
      rw [hc] at hsize
      simp only [Bool.false_eq_true, if_false] at hsize
      simp only [Bool.not_false, if_true]
      omega

/-- The bucket seconds of a product lie in the window below its high-water mark. -/
theorem Product.Holds.window {product : Product α} {ps : List (Print α)} (h : product.Holds ps) {s : Nat}
    {b : Bucket α} (hs : product.buckets.get s = some b) :
    ∃ n, product.newestSeen = some n ∧ n - WINDOW_SECS ≤ s ∧ s ≤ n := by
  rw [h.buckets] at hs
  split at hs
  · rename_i hwin
    cases hf : atSecond s ps with
    | nil => rw [hf] at hs; cases hs
    | cons p rest =>
      have hp : p ∈ ps ∧ p.second = s := by
        have hmem : p ∈ atSecond s ps := hf ▸ List.mem_cons_self
        simpa [atSecond] using List.mem_filter.mp hmem
      cases hn : newestOf ps with
      | none =>
        rw [(newestOf_spec ps).1.mp hn] at hp
        cases hp.1
      | some n =>
        rw [hn, Option.getD_some] at hwin
        refine ⟨n, by rw [h.newest, hn], by omega, ?_⟩
        rw [← hp.2]
        exact ((newestOf_spec ps).2 n hn).2 p hp.1
  · cases hs

/-- What a store has accepted: the products in the order of their accepted prints, and each product's prints since it
was last created. -/
structure Ledger (α : Type*) where
  acceptances : List Key
  since : Key → List (Print α)

namespace Ledger

omit [LinearOrder α] [AddCommMonoid α] in
def new : Ledger α := ⟨[], fun _ => []⟩

omit [LinearOrder α] [AddCommMonoid α] in
/-- The ledger after a call that took `s` to `s'`. -/
def after (L : Ledger α) (s : Store α) (op : Op α) (s' : Store α) : Ledger α :=
  match op with
  | .ingest key print =>
    if s.late key print then L
    else
      ⟨L.acceptances ++ [key],
        fun k => if s'.held k then (if k = key then L.since k ++ [print] else L.since k) else []⟩
  | .forgetChannel _ _ _ => ⟨L.acceptances, fun k => if s'.held k then L.since k else []⟩

omit [LinearOrder α] [AddCommMonoid α] in
theorem after_late {L : Ledger α} {s s' : Store α} {key : Key} {print : Print α} (hlate : s.late key print = true) :
    L.after s (.ingest key print) s' = L := if_pos hlate

omit [LinearOrder α] [AddCommMonoid α] in
theorem after_accepted {L : Ledger α} {s s' : Store α} {key : Key} {print : Print α}
    (hlate : s.late key print = false) :
    L.after s (.ingest key print) s' =
      ⟨L.acceptances ++ [key],
        fun k => if s'.held k then (if k = key then L.since k ++ [print] else L.since k) else []⟩ :=
  if_neg (by rw [hlate]; exact Bool.false_ne_true)

end Ledger

/-- The stores a run of calls reaches, each with its ledger. -/
inductive Reaches : Ledger α → Store α → Prop
  | new : Reaches .new .new
  | step {L : Ledger α} {s s' : Store α} (op : Op α) (h : Reaches L s) (hs : s.step op = some s') :
      Reaches (L.after s op s') s'

/-- The last print that one key's product accepted came before one that the other's did. -/
def Earlier (acceptances : List Key) (k k' : Key) : Prop :=
  ∃ u v, acceptances = u ++ k :: v ∧ k ∉ v ∧ k' ∈ v

/-- The accounts of a store. -/
structure Accounted (L : Ledger α) (s : Store α) : Prop where
  total : s.Balanced
  budget : s.bucketsTotal ≤ MAX_BUCKETS_ACROSS_PRODUCTS
  cap : s.products.size ≤ MAX_PRODUCTS
  holds : ∀ k p, s.products.get k = some p → p.Holds (L.since k)
  absent : ∀ k, s.products.get k = none → L.since k = []
  clock : s.touchClock = L.acceptances.length
  touched : ∀ k p, s.products.get k = some p →
    ∃ u v, L.acceptances = u ++ k :: v ∧ k ∉ v ∧ p.lastTouch = u.length + 1

variable {L : Ledger α} {s : Store α}

theorem Earlier.snoc {acceptances : List Key} {k k' key : Key} (h : Earlier acceptances k k') (hk : k ≠ key) :
    Earlier (acceptances ++ [key]) k k' := by
  obtain ⟨u, v, rfl, hv, hk'⟩ := h
  exact ⟨u, v ++ [key], by simp, by simp [hv, hk], by simp [hk']⟩

theorem Accounted.distinct (h : Accounted L s) : s.Distinct := by
  intro k p k' p' hp hp' he
  obtain ⟨u, v, hu, -, hk⟩ := h.touched k p hp
  obtain ⟨u', v', hu', -, hk'⟩ := h.touched k' p' hp'
  rw [hu] at hu'
  have hlen : u.length = u'.length := by omega
  exact (List.cons.inj (List.append_inj hu' hlen).2).1

end Values

end EdgeConnect.History
