import EdgeConnect.Ingest.AuthorityRuns

/-!
# The eviction of markets

`market_mut` makes room for a new market by popping a queue with the markets in the order they were inserted in, and
`forget_market` leaves the queue as it is.

* `step_moved` — what a call does to the tracked markets and to the queue;
* `Timed` — the authority with the time at which each market last became tracked; `Stamped` — what the queue says of
  these times;
* `evicts_least_recent_iff` — the runs in which an eviction takes the market that was inserted least recently.
-/

set_option autoImplicit false

namespace EdgeConnect.Authority

open Arbiter

namespace StickyAuthority

variable {s s' s'' : StickyAuthority} {key : BookKey}

/-! ## The tracked markets and their queue -/

/-- The entries to pop for one more to fit. -/
def surplus (order : List BookKey) : Nat := order.length + 1 - MAX_TRACKED_MARKETS

theorem evictOldest_eq : ∀ (order : List BookKey) (markets : FinMap BookKey MarketState),
    (evictOldest markets order).1.keys = markets.keys \ (order.take (surplus order)).toFinset ∧
      (evictOldest markets order).2 = order.drop (surplus order)
  | [], markets => by
    unfold evictOldest
    simp
  | old :: rest, markets => by
    unfold evictOldest
    split
    · rename_i hfull
      have hsurplus : surplus (old :: rest) = surplus rest + 1 := by
        unfold surplus
        rw [List.length_cons] at hfull ⊢
        omega
      obtain ⟨hkeys, horder⟩ := evictOldest_eq rest (markets.erase old)
      rw [hkeys, horder, hsurplus, List.take_succ_cons, List.drop_succ_cons, FinMap.keys_erase, List.toFinset_cons,
        Finset.sdiff_insert, Finset.erase_sdiff_comm]
      exact ⟨rfl, rfl⟩
    · rename_i hroom
      have hsurplus : surplus (old :: rest) = 0 := by
        unfold surplus
        omega
      rw [hsurplus]
      simp

/-- Market `key` is written: in place, or after what is popped to make room for it. -/
inductive Touched (key : BookKey) (s s' : StickyAuthority) : Prop
  | kept (hkeys : s'.markets.keys = s.markets.keys) (horder : s'.marketOrder = s.marketOrder)
  | tracked (hnew : key ∉ s.markets.keys)
      (hkeys : s'.markets.keys =
        insert key (s.markets.keys \ (s.marketOrder.take (surplus s.marketOrder)).toFinset))
      (horder : s'.marketOrder = s.marketOrder.drop (surplus s.marketOrder) ++ [key])

theorem Touched.refl (key : BookKey) (s : StickyAuthority) : Touched key s s := .kept rfl rfl

theorem Touched.of_roster (h : Touched key s s') (hkeys : s''.markets.keys = s'.markets.keys)
    (horder : s''.marketOrder = s'.marketOrder) : Touched key s s'' := by
  cases h with
  | kept hkeys' horder' => exact .kept (hkeys.trans hkeys') (horder.trans horder')
  | tracked hnew hkeys' horder' => exact .tracked hnew (hkeys.trans hkeys') (horder.trans horder')

theorem updateMarket_touched (s : StickyAuthority) (key : BookKey) (f : MarketState → MarketState) :
    Touched key s (s.updateMarket key f) := by
  unfold updateMarket
  by_cases hc : s.markets.contains key = true
  · rw [if_pos hc]
    exact .kept (FinMap.keys_insert_of_contains hc _) rfl
  · rw [if_neg hc]
    obtain ⟨hkeys, horder⟩ := evictOldest_eq s.marketOrder s.markets
    refine .tracked ?_ ?_ ?_
    · rw [FinMap.notMem_keys_iff]
      exact FinMap.contains_eq_false.mp (Bool.not_eq_true _ ▸ hc)
    · simp only [FinMap.keys_insert, hkeys]
    · simp only [horder]

/-- A second write to a market is in place. -/
theorem Touched.updateMarket (h : Touched key s s') (f : MarketState → MarketState) :
    Touched key s (s'.updateMarket key f) := by
  have hagain := updateMarket_touched s' key f
  cases h with
  | kept hkeys horder =>
    cases hagain with
    | kept hkeys' horder' => exact .kept (hkeys'.trans hkeys) (horder'.trans horder)
    | tracked hnew hkeys' horder' =>
      rw [hkeys] at hnew
      rw [hkeys, horder] at hkeys'
      rw [horder] at horder'
      exact .tracked hnew hkeys' horder'
  | tracked hnew hkeys horder =>
    cases hagain with
    | kept hkeys' horder' => exact .tracked hnew (hkeys'.trans hkeys) (horder'.trans horder)
    | tracked hnew' => exact absurd (hkeys ▸ Finset.mem_insert_self _ _) hnew'

/-- The tracked markets and their queue are the same. -/
def SameRoster (s s' : StickyAuthority) : Prop := s'.markets = s.markets ∧ s'.marketOrder = s.marketOrder

theorem pathOrdinal_roster (s : StickyAuthority) (scope : ScopeKey) (publisher : Transport) :
    SameRoster s (s.pathOrdinal scope publisher).1 := by
  obtain ⟨_, he, -⟩ | ⟨_, he, -⟩ | ⟨he, -⟩ := pathOrdinal_cases s scope publisher
  all_goals rw [he]; exact ⟨rfl, rfl⟩

theorem insert_touched {k : BookKey} {m m' : MarketState} (key : BookKey) (hm : s.markets.get k = some m) :
    Touched key s { s with markets := s.markets.insert k m' } :=
  .kept (FinMap.keys_insert_of_contains (FinMap.contains_eq_true.mpr ⟨m, hm⟩) m') rfl

theorem Touched.storeHold (h : Touched key s s') (stored next : Option RevertHold) :
    Touched key s (s'.storeHold key stored next) := by
  unfold StickyAuthority.storeHold
  split
  · exact h.updateMarket _
  · exact h

theorem Touched.refreshHold (h : Touched key s s') (publisher : Transport) (now : Nat) :
    Touched key s (s'.refreshHold key publisher now) := by
  unfold StickyAuthority.refreshHold
  split
  · exact h
  · simp only
    split
    · exact h
    · split
      · split
        · exact h.storeHold _ _
        · exact h.storeHold _ _
      · refine Touched.storeHold ?_ _ _
        exact h.of_roster rfl rfl

theorem admitBatch_touched (s : StickyAuthority) (key : BookKey) (publisher : Transport) (now : Nat) :
    Touched key s (s.admitBatch key publisher now).1 := by
  obtain ⟨hmarkets, horder⟩ := pathOrdinal_roster s (scopeOf key) publisher
  have hasked : Touched key s (s.asked key publisher) := .kept (congrArg FinMap.keys hmarkets) horder
  have hnoted : ∀ v, Touched key s (s.noted key publisher now v) := fun v => hasked.of_roster rfl rfl
  have hadmission := admitBatch_admission s key publisher now
  generalize s.admitBatch key publisher now = x at hadmission
  cases hadmission with
  | ineligible hp => exact hasked
  | first label hp hv f hf =>
    refine Touched.updateMarket ?_ f
    exact hasked.of_roster rfl rfl
  | refused label hp v hv hs => exact (hnoted v).refreshHold publisher now
  | served label hp v hv hs f hf openedTick =>
    exact ((hnoted v).refreshHold publisher now).updateMarket f

theorem setHealth_touched (s : StickyAuthority) (key : BookKey) (publisher : Transport) (healthy : Bool) :
    Touched key s (s.setHealth key publisher healthy) := by
  obtain ⟨hmarkets, horder⟩ := pathOrdinal_roster s (scopeOf key) publisher
  have hasked : Touched key s (s.pathOrdinal (scopeOf key) publisher).1 := .kept (congrArg FinMap.keys hmarkets) horder
  unfold setHealth
  split
  · rename_i s₁ heq
    rw [heq] at hasked
    exact hasked
  · rename_i s₁ label heq
    rw [heq] at hasked
    split
    · split
      · exact hasked.updateMarket _
      · exact hasked
    · exact hasked.updateMarket _

theorem observeMatchedLead_roster (s : StickyAuthority) (scope : ScopeKey) (path : Transport) (leadNs : Int) :
    SameRoster s (s.observeMatchedLead scope path leadNs) := by
  have hord := pathOrdinal_roster s scope path
  unfold observeMatchedLead
  split
  · rename_i s₁ heq
    rw [heq] at hord
    exact hord
  · rename_i s₁ label heq
    rw [heq] at hord
    split
    · exact hord
    · split
      · exact hord
      · exact hord

theorem transferScopeTo_roster (s : StickyAuthority) (scope : ScopeKey) (path : Transport) (atNs : Nat) :
    SameRoster s (s.transferScopeTo scope path atNs) := by
  unfold transferScopeTo
  split
  · exact ⟨rfl, rfl⟩
  · exact ⟨rfl, rfl⟩

/-- What a call does: it writes one market, or forgets one, or neither. -/
inductive Moved (s : StickyAuthority) (c : Call) (s' : StickyAuthority) : Prop
  | same (h : SameRoster s s')
  | touched (key : BookKey) (h : Touched key s s')
  | forgot (key : BookKey) (hc : c = .forgetMarket key) (hkeys : s'.markets.keys = s.markets.keys.erase key)
      (horder : s'.marketOrder = s.marketOrder)

/-- **One call.** -/
theorem step_moved (s : StickyAuthority) (c : Call) : Moved s c (step s c).1 := by
  cases c with
  | admitBatch key publisher arrivalNs => exact .touched key (admitBatch_touched s key publisher arrivalNs)
  | admitSynthesized key publisher => exact .same ⟨rfl, rfl⟩
  | setHealth key publisher healthy => exact .touched key (setHealth_touched s key publisher healthy)
  | noteRebaselinePoint key publisher =>
    refine .touched key ?_
    show Touched key s (s.noteRebaselinePoint key publisher)
    unfold noteRebaselinePoint
    split
    · exact .refl key s
    · rename_i m hm
      exact insert_touched key hm
  | transferScopeTo scope path atNs => exact .same (transferScopeTo_roster s scope path atNs)
  | observeMatchedLead scope path leadNs => exact .same (observeMatchedLead_roster s scope path leadNs)
  | closeWindow iter nowNs => exact .same ⟨rfl, rfl⟩
  | dropHold key =>
    refine .touched key ?_
    show Touched key s (s.dropHold key)
    unfold dropHold
    split
    · exact .refl key s
    · rename_i m hm
      exact insert_touched key hm
  | forgetMarket key => exact .forgot key rfl (FinMap.keys_erase _ _) rfl
  | setConfig cfg => exact .same ⟨rfl, rfl⟩

/-! ## The times of insertion -/

/-- The authority after some calls, their number, and the call at which each market last became tracked. -/
structure Timed where
  authority : StickyAuthority
  now : Nat
  since : BookKey → Nat

/-- A market that was not tracked becomes tracked. -/
def Starts (s : StickyAuthority) (c : Call) (key : BookKey) : Prop :=
  s.markets.contains key = false ∧ (step s c).1.markets.contains key = true

instance (s : StickyAuthority) (c : Call) (key : BookKey) : Decidable (Starts s c key) :=
  inferInstanceAs (Decidable (_ ∧ _))

namespace Timed

def new (cfg : AuthorityConfig) : Timed := ⟨.new cfg, 0, fun _ => 0⟩

def after (t : Timed) (c : Call) : Timed where
  authority := (step t.authority c).1
  now := t.now + 1
  since key := if Starts t.authority c key then t.now + 1 else t.since key

end Timed

def timed (cfg : AuthorityConfig) (calls : List Call) : Timed := calls.foldl Timed.after (.new cfg)

theorem timed_snoc (cfg : AuthorityConfig) (u : List Call) (c : Call) :
    timed cfg (u ++ [c]) = (timed cfg u).after c := by
  unfold timed
  rw [List.foldl_append]
  rfl

/-- The clock only watches. -/
theorem timed_authority (cfg : AuthorityConfig) (calls : List Call) :
    (timed cfg calls).authority = machine.exec (.new cfg) calls := by
  induction calls using List.reverseRecOn with
  | nil => rfl
  | append_singleton u c ih =>
    rw [timed_snoc, Machine.exec_append]
    show (step (timed cfg u).authority c).1 = (step (machine.exec (.new cfg) u) c).1
    rw [ih]

/-- The queue is within its cap, its entries are in the order they were put in, and a tracked market has an entry of
the time it was last inserted at. -/
structure Stamped (t : Timed) (marks : List (BookKey × Nat)) : Prop where
  short : t.authority.marketOrder.length ≤ MAX_TRACKED_MARKETS
  order : marks.map Prod.fst = t.authority.marketOrder
  sorted : marks.Pairwise fun m m' => m.2 < m'.2
  past : ∀ m ∈ marks, m.2 ≤ t.now
  entry : ∀ k ∈ t.authority.markets.keys, (k, t.since k) ∈ marks

theorem starts_iff {c : Call} : Starts s c key ↔ key ∉ s.markets.keys ∧ key ∈ (step s c).1.markets.keys := by
  unfold Starts
  rw [FinMap.contains_eq_false, ← FinMap.notMem_keys_iff, FinMap.contains_eq_true, ← FinMap.mem_keys_iff]

theorem since_of_tracked (t : Timed) (c : Call) {k : BookKey} (h : k ∈ t.authority.markets.keys) :
    (t.after c).since k = t.since k := if_neg fun hstarts => (starts_iff.mp hstarts).1 h

/-- An entry whose market is not among the first `n` of the queue is not among the first `n`. -/
theorem mem_drop_of_notMem {marks : List (BookKey × Nat)} {m : BookKey × Nat} {n : Nat} (h : m ∈ marks)
    (hout : m.1 ∉ (marks.map Prod.fst).take n) : m ∈ marks.drop n := by
  rw [← List.take_append_drop n marks, List.mem_append] at h
  refine h.resolve_left fun hin => hout ?_
  rw [← List.map_take]
  exact List.mem_map_of_mem hin

/-- **One call** keeps the queue stamped. -/
theorem Stamped.after {t : Timed} {marks : List (BookKey × Nat)} (h : Stamped t marks) (c : Call) :
    ∃ marks', Stamped (t.after c) marks' := by
  have hsame : ∀ k ∈ t.authority.markets.keys, (k, (t.after c).since k) ∈ marks := by
    intro k hk
    rw [since_of_tracked t c hk]
    exact h.entry k hk
  have hpast : ∀ m ∈ marks, m.2 ≤ (t.after c).now := fun m hm => (h.past m hm).trans (Nat.le_succ _)
  cases step_moved t.authority c with
  | same hroster =>
    obtain ⟨hmarkets, horder⟩ := hroster
    refine ⟨marks, horder ▸ h.short, h.order.trans horder.symm, h.sorted, hpast, fun k hk => hsame k ?_⟩
    exact (congrArg FinMap.keys hmarkets) ▸ hk
  | forgot key hc hkeys horder =>
    refine ⟨marks, horder ▸ h.short, h.order.trans horder.symm, h.sorted, hpast, fun k hk => hsame k ?_⟩
    have hk : k ∈ (step t.authority c).1.markets.keys := hk
    rw [hkeys] at hk
    exact Finset.mem_of_mem_erase hk
  | touched key htouched =>
    cases htouched with
    | kept hkeys horder =>
      refine ⟨marks, horder ▸ h.short, h.order.trans horder.symm, h.sorted, hpast, fun k hk => hsame k ?_⟩
      exact hkeys ▸ hk
    | tracked hnew hkeys horder =>
      have hshort := h.short
      have hsurplus : surplus t.authority.marketOrder = t.authority.marketOrder.length + 1 - MAX_TRACKED_MARKETS := rfl
      generalize surplus t.authority.marketOrder = n at hkeys horder hsurplus
      refine ⟨marks.drop n ++ [(key, t.now + 1)], ?_, ?_, ?_, ?_, ?_⟩
      · show (step t.authority c).1.marketOrder.length ≤ _
        rw [horder, List.length_append, List.length_drop, List.length_singleton]
        have hcap : 0 < MAX_TRACKED_MARKETS := by decide
        omega
      · show _ = (step t.authority c).1.marketOrder
        rw [horder, ← h.order, List.map_append, List.map_drop]
        rfl
      · refine List.pairwise_append.mpr ⟨h.sorted.sublist (List.drop_sublist n marks), List.pairwise_singleton _ _, ?_⟩
        intro m hm m' hm'
        rw [List.mem_singleton.mp hm']
        exact Nat.lt_succ_of_le (h.past m (List.mem_of_mem_drop hm))
      · intro m hm
        rcases List.mem_append.mp hm with hm | hm
        · exact hpast m (List.mem_of_mem_drop hm)
        · rw [List.mem_singleton.mp hm]
          exact Nat.le_refl _
      · intro k hk
        have hin : k ∈ (step t.authority c).1.markets.keys := hk
        rw [hkeys, Finset.mem_insert, Finset.mem_sdiff, List.mem_toFinset] at hin
        rcases hin with rfl | ⟨hold, hstay⟩
        · have hstarts : Starts t.authority c k := starts_iff.mpr ⟨hnew, hkeys ▸ Finset.mem_insert_self _ _⟩
          refine List.mem_append_right _ (List.mem_singleton.mpr ?_)
          show (k, if Starts t.authority c k then t.now + 1 else t.since k) = _
          rw [if_pos hstarts]
        · refine List.mem_append_left _ (mem_drop_of_notMem (hsame k hold) ?_)
          rw [h.order]
          exact hstay

/-- **Every run** leaves the queue stamped. -/
theorem stamped_run (cfg : AuthorityConfig) (calls : List Call) : ∃ marks, Stamped (timed cfg calls) marks := by
  induction calls using List.reverseRecOn with
  | nil => exact ⟨[], Nat.zero_le _, rfl, List.Pairwise.nil, nofun, fun k hk => absurd hk (Finset.notMem_empty k)⟩
  | append_singleton u c ih =>
    obtain ⟨marks, h⟩ := ih
    rw [timed_snoc]
    exact h.after c

/-! ## What an eviction takes -/

/-- A tracked market is dropped by a call that does not forget it. -/
structure Evicts (s : StickyAuthority) (c : Call) (old : BookKey) : Prop where
  tracked : old ∈ s.markets.keys
  gone : old ∉ (step s c).1.markets.keys
  kept : c ≠ .forgetMarket old

/-- A market that becomes tracked has the front of the queue popped for it. -/
def Pops (s : StickyAuthority) (c : Call) (old : BookKey) (rest : List BookKey) : Prop :=
  s.marketOrder = old :: rest ∧ ∃ key, Starts s c key ∧ (step s c).1.marketOrder = rest ++ [key]

/-- **Least recently inserted.**  The tracked markets are bounded, an evicted market was inserted no later than any
that stays, and popping an entry that a later insertion of its market has made stale changes nothing. -/
structure EvictsLeastRecent (cfg : AuthorityConfig) (calls : List Call) : Prop where
  bounded : ∀ u v, calls = u ++ v → (timed cfg u).authority.markets.size ≤ MAX_TRACKED_MARKETS
  oldest : ∀ u c v, calls = u ++ c :: v → ∀ old, Evicts (timed cfg u).authority c old →
    ∀ k ∈ (timed cfg u).authority.markets.keys, k ∈ (timed cfg (u ++ [c])).authority.markets.keys →
      (timed cfg u).since old ≤ (timed cfg u).since k
  stale : ∀ u c v, calls = u ++ c :: v → ∀ old rest, Pops (timed cfg u).authority c old rest → old ∈ rest →
    old ∈ (timed cfg u).authority.markets.keys → old ∈ (timed cfg (u ++ [c])).authority.markets.keys

/-- The full queue of a call that starts to track a market does not begin with an entry that its tracked market has
another of. -/
def FrontIsLast (s : StickyAuthority) (c : Call) : Prop :=
  ∀ key old rest, Starts s c key → MAX_TRACKED_MARKETS ≤ s.marketOrder.length → s.marketOrder = old :: rest →
    old ∈ s.markets.keys → old ∉ rest

theorem Stamped.bounded {t : Timed} {marks : List (BookKey × Nat)} (h : Stamped t marks) :
    t.authority.markets.size ≤ MAX_TRACKED_MARKETS := by
  have hsub : t.authority.markets.keys ⊆ t.authority.marketOrder.toFinset := by
    intro k hk
    rw [List.mem_toFinset, ← h.order]
    exact List.mem_map_of_mem (h.entry k hk)
  exact ((Finset.card_le_card hsub).trans (List.toFinset_card_le _)).trans h.short

/-- A market becomes tracked only in the place of what is popped for it. -/
theorem Starts.tracked {c : Call} (h : Starts s c key) :
    (step s c).1.markets.keys = insert key (s.markets.keys \ (s.marketOrder.take (surplus s.marketOrder)).toFinset) ∧
      (step s c).1.marketOrder = s.marketOrder.drop (surplus s.marketOrder) ++ [key] := by
  obtain ⟨hnew, hin⟩ := starts_iff.mp h
  cases step_moved s c with
  | same hroster =>
    rw [congrArg FinMap.keys hroster.1] at hin
    exact absurd hin hnew
  | forgot _ _ hkeys _ =>
    rw [hkeys] at hin
    exact absurd (Finset.mem_of_mem_erase hin) hnew
  | touched key' htouched =>
    cases htouched with
    | kept hkeys _ =>
      rw [hkeys] at hin
      exact absurd hin hnew
    | tracked _ hkeys horder =>
      rw [hkeys, Finset.mem_insert] at hin
      rcases hin with rfl | hold
      · exact ⟨hkeys, horder⟩
      · exact absurd (Finset.mem_sdiff.mp hold).1 hnew

/-- A call that starts to track a market at a full queue drops the market of the front entry, and no other. -/
theorem pops_of_full {t : Timed} {marks : List (BookKey × Nat)} (h : Stamped t marks) {c : Call} {old : BookKey}
    {rest : List BookKey} (hstarts : Starts t.authority c key)
    (hfull : MAX_TRACKED_MARKETS ≤ t.authority.marketOrder.length) (horder : t.authority.marketOrder = old :: rest) :
    Pops t.authority c old rest ∧ (step t.authority c).1.markets.keys = insert key (t.authority.markets.keys.erase old) := by
  have hshort := h.short
  have hsurplus : surplus t.authority.marketOrder = 1 := by
    unfold surplus
    omega
  obtain ⟨hkeys, hqueue⟩ := hstarts.tracked
  rw [hsurplus, horder] at hkeys hqueue
  refine ⟨⟨horder, key, hstarts, hqueue⟩, ?_⟩
  rw [hkeys]
  simp only [List.take_succ_cons, List.take_zero, List.toFinset_cons, List.toFinset_nil, insert_empty_eq,
    Finset.sdiff_singleton_eq_erase]

/-- What is popped is popped off a full queue. -/
theorem full_of_pops {c : Call} {old : BookKey} {rest : List BookKey} (h : Pops s c old rest) :
    MAX_TRACKED_MARKETS ≤ s.marketOrder.length := by
  obtain ⟨horder, key, hstarts, hrest⟩ := h
  obtain ⟨-, hqueue⟩ := hstarts.tracked
  by_contra hroom
  have hsurplus : surplus s.marketOrder = 0 := by
    unfold surplus
    omega
  have hlength := congrArg List.length (hqueue.symm.trans hrest)
  rw [hsurplus, List.drop_zero, horder] at hlength
  simp at hlength

/-- An evicted market had the front entry of a full queue. -/
theorem Evicts.front {t : Timed} {marks : List (BookKey × Nat)} (h : Stamped t marks) {c : Call} {old : BookKey}
    (hevicts : Evicts t.authority c old) :
    ∃ key rest, Starts t.authority c key ∧ MAX_TRACKED_MARKETS ≤ t.authority.marketOrder.length ∧
      t.authority.marketOrder = old :: rest := by
  have hshort := h.short
  have hgone := hevicts.gone
  cases step_moved t.authority c with
  | same hroster =>
    rw [congrArg FinMap.keys hroster.1] at hgone
    exact absurd hevicts.tracked hgone
  | forgot key hc hkeys _ =>
    rw [hkeys] at hgone
    refine absurd (Finset.mem_erase.mpr ⟨fun heq => hevicts.kept ?_, hevicts.tracked⟩) hgone
    rw [hc, heq]
  | touched key htouched =>
    cases htouched with
    | kept hkeys _ =>
      rw [hkeys] at hgone
      exact absurd hevicts.tracked hgone
    | tracked hnew hkeys horder =>
      have hstarts : Starts t.authority c key := starts_iff.mpr ⟨hnew, hkeys ▸ Finset.mem_insert_self _ _⟩
      rw [hkeys, Finset.mem_insert, Finset.mem_sdiff, List.mem_toFinset, not_or, not_and, not_not] at hgone
      have hfront := hgone.2 hevicts.tracked
      have hfull : MAX_TRACKED_MARKETS ≤ t.authority.marketOrder.length := by
        by_contra hroom
        have hsurplus : surplus t.authority.marketOrder = 0 := by
          unfold surplus
          omega
        rw [hsurplus, List.take_zero] at hfront
        cases hfront
      have hsurplus : surplus t.authority.marketOrder = 1 := by
        unfold surplus
        omega
      rw [hsurplus] at hfront
      cases hqueue : t.authority.marketOrder with
      | nil =>
        rw [hqueue] at hfront
        cases hfront
      | cons front rest =>
        rw [hqueue, List.take_succ_cons, List.take_zero, List.mem_singleton] at hfront
        rw [hqueue] at hfull
        exact ⟨key, rest, hstarts, hfull, by rw [hfront]⟩

/-- The front entry of a market that has no other is its last insertion, before every other market's. -/
theorem Stamped.front_oldest {t : Timed} {marks : List (BookKey × Nat)} (h : Stamped t marks) {old k : BookKey}
    {rest : List BookKey} (horder : t.authority.marketOrder = old :: rest) (hlast : old ∉ rest)
    (hold : old ∈ t.authority.markets.keys) (hk : k ∈ t.authority.markets.keys) (hne : k ≠ old) :
    t.since old ≤ t.since k := by
  have hfst := h.order
  have hsorted := h.sorted
  have hentry := h.entry old hold
  have hlater := h.entry k hk
  cases marks with
  | nil => cases hentry
  | cons front marks =>
    rw [horder, List.map_cons, List.cons.injEq] at hfst
    obtain ⟨hfront, hrest⟩ := hfst
    have hsince : front.2 = t.since old := by
      rcases List.mem_cons.mp hentry with heq | hin
      · rw [← heq]
      · exact absurd (hrest ▸ List.mem_map_of_mem hin) hlast
    rcases List.mem_cons.mp hlater with heq | hin
    · exact absurd (by rw [← hfront, ← heq]) hne
    · rw [← hsince]
      exact ((List.pairwise_cons.mp hsorted).1 _ hin).le

/-- **When the least recently inserted market goes.**  In a run the evictions take the market that was inserted least
recently, and stale entries pop without effect, exactly if no call that starts to track a market finds at the front of
a full queue an entry that its tracked market has another of. -/
theorem evicts_least_recent_iff (cfg : AuthorityConfig) (calls : List Call) :
    EvictsLeastRecent cfg calls ↔
      ∀ u c v, calls = u ++ c :: v → FrontIsLast (timed cfg u).authority c := by
  constructor
  · intro hevicts u c v heq key old rest hstarts hfull horder hold hin
    obtain ⟨marks, hstamped⟩ := stamped_run cfg u
    obtain ⟨hpops, hgone⟩ := pops_of_full hstamped hstarts hfull horder
    have hstill := hevicts.stale u c v heq old rest hpops hin hold
    rw [timed_snoc] at hstill
    have hstill : old ∈ (step (timed cfg u).authority c).1.markets.keys := hstill
    rw [hgone, Finset.mem_insert, Finset.mem_erase] at hstill
    rcases hstill with rfl | hother
    · exact (starts_iff.mp hstarts).1 hold
    · exact hother.1 rfl
  · intro hfront
    refine ⟨fun u v heq => ?_, fun u c v heq old hevicts k hk hstays => ?_,
      fun u c v heq old rest hpops hin hold => ?_⟩
    · obtain ⟨marks, hstamped⟩ := stamped_run cfg u
      exact hstamped.bounded
    · obtain ⟨marks, hstamped⟩ := stamped_run cfg u
      obtain ⟨key, rest, hstarts, hfull, horder⟩ := hevicts.front hstamped
      have hlast := hfront u c v heq key old rest hstarts hfull horder hevicts.tracked
      rw [timed_snoc] at hstays
      refine hstamped.front_oldest horder hlast hevicts.tracked hk fun hsame => hevicts.gone ?_
      rw [← hsame]
      exact hstays
    · have hfull := full_of_pops hpops
      obtain ⟨horder, key, hstarts, -⟩ := hpops
      exact absurd hin (hfront u c v heq key old rest hstarts hfull horder hold)

/-! ## A stale entry that drops a live market -/

/-- A market of one scope, and the report of a gap on it. -/
def market (i : Nat) : BookKey := ⟨⟨1, "S"⟩, "", 0, i⟩

def gap (key : BookKey) : Call := .setHealth key .publicWs false

theorem gap_keeps (key k : BookKey) : gap key ≠ .forgetMarket k := nofun

/-- Two markets are tracked, and the first again after it was forgotten. -/
def reinserted : List Call := [gap (market 0), gap (market 1), .forgetMarket (market 0), gap (market 0)]

/-- As many further markets as the queue takes, then one more. -/
def crowded : List Call := reinserted ++ ((List.range (MAX_TRACKED_MARKETS - 3)).map fun i => gap (market (i + 2)))

/-- The path of the reports has a label. -/
def Labels (s : StickyAuthority) : Prop := s.pathLabel ⟨⟨1, "S"⟩, ""⟩ .publicWs = some 0

theorem pathOrdinal_of_labels (h : Labels s) : s.pathOrdinal ⟨⟨1, "S"⟩, ""⟩ .publicWs = (s, some 0) := by
  unfold Labels pathLabel at h
  unfold pathOrdinal
  cases hpaths : s.ordinals.get ⟨⟨1, "S"⟩, ""⟩ with
  | none =>
    rw [hpaths] at h
    cases h
  | some paths =>
    rw [hpaths] at h
    have hlabel : paths.get .publicWs = some 0 := h
    simp only [Option.getD_some]
    rw [hlabel]

/-- A gap on a market that is not tracked tracks it. -/
theorem gap_starts (h : Labels s) {i : Nat} (hnew : market i ∉ s.markets.keys) :
    Starts s (gap (market i)) (market i) ∧ Labels (step s (gap (market i))).1 := by
  have hstep : ∃ f, (step s (gap (market i))).1 = s.updateMarket (market i) f := by
    show ∃ f, s.setHealth (market i) .publicWs false = s.updateMarket (market i) f
    unfold setHealth
    rw [show scopeOf (market i) = ⟨⟨1, "S"⟩, ""⟩ from rfl, pathOrdinal_of_labels h]
    simp only [Bool.false_eq_true, if_false]
    exact ⟨_, rfl⟩
  obtain ⟨f, hstep⟩ := hstep
  rw [hstep]
  refine ⟨starts_iff.mpr ⟨hnew, ?_⟩, ?_⟩
  · rw [hstep]
    exact FinMap.mem_keys_iff.mpr ⟨_, (get_updateMarket s (market i) f).1⟩
  · unfold Labels pathLabel
    rw [(updateMarket_scoped s (market i) f).ordinals]
    exact h

/-- Gaps on further markets, as long as there is room. -/
theorem gaps_track : ∀ (is : List Nat) (t : Timed), Labels t.authority → is.Nodup →
    (∀ i ∈ is, market i ∉ t.authority.markets.keys) → t.authority.marketOrder.length + is.length ≤ MAX_TRACKED_MARKETS →
    let t' := (is.map fun i => gap (market i)).foldl Timed.after t
    Labels t'.authority ∧ t'.authority.marketOrder = t.authority.marketOrder ++ is.map market ∧
      t'.authority.markets.keys = t.authority.markets.keys ∪ (is.map market).toFinset ∧
      ∀ k ∈ t.authority.markets.keys, t'.since k = t.since k
  | [], t, h, _, _, _ => ⟨h, (List.append_nil _).symm, (Finset.union_empty _).symm, fun _ _ => rfl⟩
  | i :: is, t, h, hnodup, hfresh, hroom => by
    obtain ⟨hi, his⟩ := List.nodup_cons.mp hnodup
    obtain ⟨hstarts, hlabels⟩ := gap_starts h (hfresh i List.mem_cons_self)
    obtain ⟨hkeys, horder⟩ := hstarts.tracked
    rw [List.length_cons] at hroom
    have hsurplus : surplus t.authority.marketOrder = 0 := by
      unfold surplus
      omega
    rw [hsurplus, List.take_zero, List.toFinset_nil, Finset.sdiff_empty] at hkeys
    rw [hsurplus, List.drop_zero] at horder
    have hrest := gaps_track is (t.after (gap (market i))) hlabels his (fun j hj hin => by
      have hin : market j ∈ (step t.authority (gap (market i))).1.markets.keys := hin
      rw [hkeys, Finset.mem_insert] at hin
      rcases hin with heq | hold
      · exact hi ((show j = i from congrArg BookKey.instrumentId heq) ▸ hj)
      · exact hfresh j (List.mem_cons_of_mem i hj) hold) (by
      show (step t.authority (gap (market i))).1.marketOrder.length + _ ≤ _
      rw [horder, List.length_append, List.length_singleton]
      omega)
    obtain ⟨hlabels', horder', hkeys', hsince⟩ := hrest
    refine ⟨hlabels', ?_, ?_, fun k hk => ?_⟩
    · refine horder'.trans ?_
      show (step t.authority (gap (market i))).1.marketOrder ++ _ = _
      rw [horder, List.append_assoc]
      rfl
    · refine hkeys'.trans ?_
      show (step t.authority (gap (market i))).1.markets.keys ∪ _ = _
      rw [hkeys, List.map_cons, List.toFinset_cons, Finset.insert_union, Finset.union_insert]
    · have htracked : k ∈ (t.after (gap (market i))).authority.markets.keys := by
        show k ∈ (step t.authority (gap (market i))).1.markets.keys
        rw [hkeys]
        exact Finset.mem_insert_of_mem hk
      exact (hsince k htracked).trans (since_of_tracked t _ hk)

theorem reinserted_since : (timed .DEFAULT reinserted).since (market 0) = 4 ∧ (timed .DEFAULT reinserted).since (market 1) = 2 := by
  decide +kernel

theorem reinserted_roster : Labels (timed .DEFAULT reinserted).authority ∧
    (timed .DEFAULT reinserted).authority.marketOrder = [market 0, market 1, market 0] ∧
    (timed .DEFAULT reinserted).authority.markets.keys = {market 0, market 1} := by
  unfold Labels
  decide +kernel

theorem market_injective {i j : Nat} (h : market i = market j) : i = j := congrArg BookKey.instrumentId h

/-- The further markets fit, and leave the two where they were. -/
theorem crowded_roster {t : Timed} (ht : timed .DEFAULT crowded = t) :
    Labels t.authority ∧
      t.authority.marketOrder = market 0 :: market 1 :: market 0 ::
        ((List.range (MAX_TRACKED_MARKETS - 3)).map fun i => market (i + 2)) ∧
      t.authority.markets.keys =
        {market 0, market 1} ∪ ((List.range (MAX_TRACKED_MARKETS - 3)).map fun i => market (i + 2)).toFinset ∧
      t.since (market 0) = 4 ∧ t.since (market 1) = 2 := by
  obtain ⟨hlabels, horder, hkeys⟩ := reinserted_roster
  obtain ⟨hfirst, hsecond⟩ := reinserted_since
  have hcap : 3 ≤ MAX_TRACKED_MARKETS := by decide
  have hfill := gaps_track ((List.range (MAX_TRACKED_MARKETS - 3)).map fun i => i + 2) (timed .DEFAULT reinserted) hlabels
    (List.nodup_range.map fun i j heq => Nat.add_right_cancel heq)
    (fun i hi hin => by
      obtain ⟨j, -, rfl⟩ := List.mem_map.mp hi
      rw [hkeys, Finset.mem_insert, Finset.mem_singleton] at hin
      rcases hin with heq | heq
      · have := market_injective heq
        omega
      · have := market_injective heq
        omega)
    (by
      rw [horder, List.length_map, List.length_range]
      simp only [List.length_cons, List.length_nil]
      omega)
  have hcrowded : (((List.range (MAX_TRACKED_MARKETS - 3)).map fun i => i + 2).map fun i => gap (market i)).foldl Timed.after
      (timed .DEFAULT reinserted) = t := by
    rw [List.map_map, ← ht]
    exact List.foldl_append.symm
  rw [hcrowded] at hfill
  obtain ⟨hlabels', horder', hkeys', hsince⟩ := hfill
  have hmap : ∀ is : List Nat, (is.map fun i => i + 2).map market = is.map fun i => market (i + 2) :=
    fun _ => List.map_map
  rw [hmap, horder, List.cons_append, List.cons_append, List.cons_append, List.nil_append] at horder'
  rw [hmap, hkeys] at hkeys'
  rw [hkeys] at hsince
  refine ⟨hlabels', horder', hkeys', ?_, ?_⟩
  · rw [hsince _ (Finset.mem_insert_self _ _), hfirst]
  · rw [hsince _ (Finset.mem_insert_of_mem (Finset.mem_singleton_self _)), hsecond]

/-- **A stale entry drops a live market.**  The front entry of the full queue is of the first insertion of a market that
was forgotten and inserted again: the next market drops it, and one that was inserted before it stays. -/
theorem stale_entry_drops : ¬ EvictsLeastRecent .DEFAULT (crowded ++ [gap (market MAX_TRACKED_MARKETS)]) := by
  intro hclaim
  have hcap : 3 ≤ MAX_TRACKED_MARKETS := by decide
  obtain ⟨marks, hstamped⟩ := stamped_run .DEFAULT crowded
  obtain ⟨t, ht⟩ : ∃ t, timed .DEFAULT crowded = t := ⟨_, rfl⟩
  obtain ⟨hlabels, horder, hkeys, hsince, hsince'⟩ := crowded_roster ht
  rw [ht] at hstamped
  have hnew : market MAX_TRACKED_MARKETS ∉ t.authority.markets.keys := by
    rw [hkeys, Finset.mem_union, Finset.mem_insert, Finset.mem_singleton, List.mem_toFinset, List.mem_map]
    rintro ((heq | heq) | ⟨i, hi, heq⟩)
    · have := market_injective heq
      omega
    · have := market_injective heq
      omega
    · have := market_injective heq
      have := List.mem_range.mp hi
      omega
  have hfull : MAX_TRACKED_MARKETS ≤ t.authority.marketOrder.length := by
    rw [horder, List.length_cons, List.length_cons, List.length_cons, List.length_map, List.length_range]
    omega
  obtain ⟨hstarts, -⟩ := gap_starts hlabels hnew
  obtain ⟨-, hafter⟩ := pops_of_full hstamped hstarts hfull horder
  have hfirst : market 0 ∈ t.authority.markets.keys := by
    rw [hkeys]
    exact Finset.mem_union_left _ (Finset.mem_insert_self _ _)
  have hsecond : market 1 ∈ t.authority.markets.keys := by
    rw [hkeys]
    exact Finset.mem_union_left _ (Finset.mem_insert_of_mem (Finset.mem_singleton_self _))
  have hevicts : Evicts t.authority (gap (market MAX_TRACKED_MARKETS)) (market 0) := by
    refine ⟨hfirst, ?_, gap_keeps _ _⟩
    rw [hafter, Finset.mem_insert, Finset.mem_erase]
    rintro (heq | ⟨hne, -⟩)
    · have := market_injective heq
      omega
    · exact hne rfl
  have hstays : market 1 ∈ (step t.authority (gap (market MAX_TRACKED_MARKETS))).1.markets.keys := by
    rw [hafter]
    refine Finset.mem_insert_of_mem (Finset.mem_erase.mpr ⟨fun heq => ?_, hsecond⟩)
    have := market_injective heq
    omega
  have holdest := hclaim.oldest crowded (gap (market MAX_TRACKED_MARKETS)) [] rfl
  rw [timed_snoc, ht] at holdest
  have hle := holdest (market 0) hevicts (market 1) hsecond hstays
  omega

end StickyAuthority

end EdgeConnect.Authority
