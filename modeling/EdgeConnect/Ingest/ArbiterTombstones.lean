import EdgeConnect.Ingest.ArbiterResurrection
import EdgeConnect.Ingest.MarketTombstones

/-!
# The budget of removed orders over all markets (`GuardBudget` in `src/ingest/arbiter.rs`)

The process holds one budget of removed orders, shared by every market's race state.

* `Balanced` — the budget is the sum over the markets, each of which is accounted; it is kept by dropping race states
  (`Balanced.drops`) and by a market's moves (`Balanced.settle`), which is all that a call does;
* `Tallied` — a balanced arbiter, and what the moves of any market make of it;
* `tombstones_are_accounted` — after any calls, the arbiter is tallied.
-/

set_option autoImplicit false

namespace EdgeConnect.Arbiter

open MarketEvents

/-- The budget is the sum of the removed orders over all markets, and the accounting of each is exact. -/
structure Balanced (a : Arbiter) : Prop where
  held : a.guard.held = a.bookEvents.sumVals fun _ e => e.nDead
  accounted : ∀ key e, a.bookEvents.get key = some e → e.Accounted

/-- **The tombstones are accounted.**  Besides the balance, whatever moves a market's race state makes next, each leaves
its accounting exact and covered, and moves the budget by exactly what it moves the market. -/
structure Tallied (a : Arbiter) : Prop extends Balanced a where
  moves : ∀ key p q, Moves (a.eventsOf key, a.guard) p → Move p q → Solvent p ∧ Solvent q ∧ Paid p q

variable {a a' : Arbiter}

/-! ## Dropping race states -/

theorem Balanced.of_eq (h : Balanced a) (hevents : a'.bookEvents = a.bookEvents) (hguard : a'.guard = a.guard) :
    Balanced a' := by
  refine ⟨?_, ?_⟩
  · rw [hevents, hguard]
    exact h.held
  · rw [hevents]
    exact h.accounted

/-- The sum covers each market. -/
theorem Balanced.covered (h : Balanced a) (key : BookKey) : (a.eventsOf key).nDead ≤ a.guard.held := by
  have hsum := FinMap.sumVals_erase a.bookEvents (fun _ e => e.nDead) key
  rw [h.held, ← hsum]
  unfold eventsOf
  cases a.bookEvents.get key with
  | none => exact Nat.zero_le _
  | some e => exact Nat.le_add_left _ _

theorem Balanced.dropBookEvents (h : Balanced a) (key : BookKey) : Balanced (a.dropBookEvents key) := by
  unfold Arbiter.dropBookEvents
  split
  · exact h
  · rename_i e he
    have hsum := FinMap.sumVals_erase a.bookEvents (fun _ e => e.nDead) key
    rw [he] at hsum
    refine ⟨?_, fun k e' he' => ?_⟩
    · show a.guard.held - e.nDead = (a.bookEvents.erase key).sumVals fun _ e => e.nDead
      rw [h.held, ← hsum]
      exact Nat.add_sub_cancel _ _
    · have he'' : (a.bookEvents.erase key).get k = some e' := he'
      rw [FinMap.get_erase] at he''
      split at he''
      · cases he''
      · exact h.accounted k e' he''

theorem Balanced.drops (h : Balanced a) (hdrops : Drops a a') : Balanced a' :=
  hdrops.rule (P := Balanced) (fun _ _ hevents hguard ha => ha.of_eq hevents hguard)
    (fun _ key ha => ha.dropBookEvents key) h

/-! ## The moves of one market -/

theorem Balanced.solvent (h : Balanced a) (key : BookKey) : Solvent (a.eventsOf key, a.guard) := by
  refine ⟨?_, h.covered key⟩
  show (a.eventsOf key).Accounted
  unfold eventsOf
  cases hget : a.bookEvents.get key with
  | none => exact accounted_default
  | some e => exact h.accounted key e hget

/-- What one market's moves take from the budget, they add to its share of the sum. -/
theorem Balanced.settle (h : Balanced a) {key : BookKey} {q : MarketEvents × GuardBudget}
    (hmoves : Moves (a.eventsOf key, a.guard) q) (hevents : a'.bookEvents = a.bookEvents.insert key q.1)
    (hguard : a'.guard = q.2) : Balanced a' := by
  have hq := Moves.solvent hmoves (h.solvent key)
  have hpaid : q.2.held + (a.eventsOf key).nDead = a.guard.held + q.1.nDead := Moves.paid hmoves (h.solvent key)
  have hsum := FinMap.sumVals_insert a.bookEvents (fun _ e => e.nDead) key q.1
  have hshare : (a.bookEvents.get key).elim 0 (fun e => e.nDead) = (a.eventsOf key).nDead := by
    unfold eventsOf
    cases a.bookEvents.get key <;> rfl
  rw [hshare, ← h.held] at hsum
  refine ⟨?_, fun k e he => ?_⟩
  · rw [hevents, hguard]
    omega
  · rw [hevents, FinMap.get_insert] at he
    split at he
    · cases he
      exact hq.accounted
    · exact h.accounted k e he

theorem Balanced.tallied (h : Balanced a) : Tallied a where
  toBalanced := h
  moves key p q hmoves hmove := by
    have hp := Moves.solvent hmoves (h.solvent key)
    exact ⟨hp, hmove.solvent hp, hmove.paid hp⟩

/-! ## The order-level race -/

theorem Balanced.rebaselineEvents (h : Balanced a) (key : BookKey) (changes : List BookChange) (seedTs : Nat) :
    Balanced (a.rebaselineEvents key changes seedTs) :=
  h.settle (rebaselined_moves (a.eventsOf key) changes seedTs a.guard) rfl rfl

theorem Balanced.dischargeForced (h : Balanced a) (key : BookKey) (b : NormalizedBook) (wall : Nat) :
    Balanced (a.dischargeForced key b wall).1 := by
  unfold Arbiter.dischargeForced
  simp only
  split
  · exact h.rebaselineEvents key _ _
  · exact (h.drops (Drops.applyBookReplay key a (clearOnly b wall))).rebaselineEvents key [] (a.channelNewest key)

theorem Balanced.serveFlagged (h : Balanced a) (key : BookKey) (o : Offer) : Balanced (a.serveFlagged key o).1 := by
  unfold Arbiter.serveFlagged
  split
  · unfold serveForcedRebaseline
    split
    · exact h.dischargeForced key o.b o.wall
    · simp only
      split
      · exact h.of_eq rfl rfl
      · rename_i m _ _
        have hset : Balanced (a.setMarket key { m with rebaseline := false, withheld := 0, rebaselinedNs := o.now }) :=
          h.of_eq rfl rfl
        exact hset.dischargeForced key o.b o.wall
  · exact h

theorem raceChanges_moves (publisher : Transport) (arrivalNs stamp window : Nat) : ∀ (changes : List BookChange)
    (e : MarketEvents) (budget : GuardBudget), Moves (e, budget)
      ((raceChanges publisher arrivalNs stamp window changes e budget).1,
        (raceChanges publisher arrivalNs stamp window changes e budget).2.1)
  | [], _, _ => .refl
  | c :: cs, e, budget => by
    unfold raceChanges
    split
    · exact raceChanges_moves publisher arrivalNs stamp window cs e budget
    · have hfirst := admitEvent_moves e (orderEvent c) publisher arrivalNs stamp window budget
      generalize e.admitEvent (orderEvent c) publisher arrivalNs stamp window budget = r at hfirst ⊢
      obtain ⟨e₁, budget₁, verdict⟩ := r
      exact hfirst.trans (raceChanges_moves publisher arrivalNs stamp window cs e₁ budget₁)

theorem Balanced.raceAccepted (h : Balanced a) (key : BookKey) (b : NormalizedBook) (publisher : Transport) (now : Nat)
    (j : Judged) : Balanced (a.raceAccepted key b publisher now j).1 := by
  have hforget := forgetExpired_moves (a.eventsOf key) j.frontier a.guard
  have hrace := raceChanges_moves publisher b.recvTsNs j.stamp a.bookDedupWindowNs b.changes
    ((a.eventsOf key).forgetExpired j.frontier a.guard).1 ((a.eventsOf key).forgetExpired j.frontier a.guard).2
  have hmoves : Moves (a.eventsOf key, a.guard)
      ((a.raceEvents key b publisher j).1, (a.raceEvents key b publisher j).2.1) := hforget.trans hrace
  unfold Arbiter.raceAccepted
  generalize a.raceEvents key b publisher j = r at hmoves ⊢
  obtain ⟨e, guard, kept⟩ := r
  have hsettled : Balanced { a with bookEvents := a.bookEvents.insert key { e with forced := none }, guard } :=
    h.settle (hmoves.tail (.force e guard none)) rfl rfl
  exact hsettled.drops (Drops.publishKept key _ b publisher now e.forced.isSome kept)

theorem Balanced.refuseAncient (h : Balanced a) (key : BookKey) (frontier : Option Nat) :
    Balanced (a.refuseAncient key frontier) := by
  unfold Arbiter.refuseAncient
  split
  · exact h
  · rename_i e he
    have hevents : a.eventsOf key = e := by unfold eventsOf; rw [he]; rfl
    have hmoves := forgetExpired_moves e frontier a.guard
    rw [← hevents] at hmoves ⊢
    exact h.settle hmoves rfl rfl

theorem Balanced.raceBatch (h : Balanced a) (key : BookKey) (b : NormalizedBook) (publisher : Transport)
    (now wall : Nat) : Balanced (a.raceBatch key b publisher now wall).1 := by
  have hclock := h.drops (Drops.clockFor a (channelKey key))
  unfold Arbiter.raceBatch
  generalize a.clockFor (channelKey key) = r at hclock ⊢
  obtain ⟨a₁, clock⟩ := r
  simp only at hclock ⊢
  have hstamped : ∀ clocks, Balanced { a₁ with channelClocks := clocks } := fun _ => hclock.of_eq rfl rfl
  split
  · exact (hstamped _).refuseAncient key _
  · exact (hstamped _).raceAccepted key b publisher now _

theorem shedLoop_moves : ∀ (n : Nat) (e : MarketEvents) (budget : GuardBudget),
    Moves (e, budget) (shedLoop n e budget)
  | 0, _, _ => .refl
  | n + 1, e, budget => by
    have hfirst := forgetOldestRemoved_moves budget e.dead e rfl
    unfold shedLoop
    split
    · generalize e.forgetOldestRemoved budget = r at hfirst ⊢
      obtain ⟨e₁, budget₁, went⟩ := r
      cases went with
      | true => exact hfirst.trans (shedLoop_moves n e₁ budget₁)
      | false => exact hfirst
    · exact .refl

/-- The recount finds what the running total held. -/
theorem Balanced.recount (h : Balanced a) :
    (if a.guard.resyncedWhileOver then a.guard else ⟨a.bookEvents.sumVals fun _ e => e.nDead, true⟩ : GuardBudget).held =
      a.guard.held := by
  split
  · rfl
  · exact h.held.symm

theorem Balanced.shedOverBudget (h : Balanced a) (key : BookKey) : Balanced (a.shedOverBudget key) := by
  have hrecount := h.recount
  unfold Arbiter.shedOverBudget
  split
  · simp only
    generalize (if a.guard.resyncedWhileOver then a.guard
      else ⟨a.bookEvents.sumVals fun _ e => e.nDead, true⟩ : GuardBudget) = guard at hrecount ⊢
    have hcounted : Balanced { a with guard } := ⟨hrecount.trans h.held, h.accounted⟩
    split
    · exact hcounted
    · rename_i e he
      have hevents : Arbiter.eventsOf { a with guard } key = e := by unfold eventsOf; rw [he]; rfl
      have hmoves := shedLoop_moves (e.dead.length + 1) e guard
      rw [← hevents] at hmoves ⊢
      exact hcounted.settle hmoves rfl rfl
  · exact ⟨h.held, h.accounted⟩

theorem Balanced.emitOrderLevelBook (h : Balanced a) (key : BookKey) (b : NormalizedBook) (publisher : Transport)
    (now wall : Nat) : Balanced (a.emitOrderLevelBook key b publisher now wall).1 := by
  cases hclear : clearLed b with
  | true =>
    unfold Arbiter.emitOrderLevelBook
    rw [if_pos hclear]
    split
    · exact h
    · exact (h.rebaselineEvents key b.changes (a.channelNewest key)).drops (Drops.clearLed key a b publisher now)
  | false =>
    have heq := emitOrderLevelBook_eq a key ⟨b, publisher, now, wall⟩ hclear
    have hserved := h.serveFlagged key ⟨b, publisher, now, wall⟩
    simp only at heq
    rw [heq]
    split
    · exact (hserved.raceBatch key b publisher now wall).shedOverBudget key
    · exact hserved

/-! ## Calls -/

theorem Balanced.step (h : Balanced a) (c : Call) : Balanced (Arbiter.step a c).1 := by
  cases c with
  | emit b publisher category synthesized now wall =>
    have hjoined : Balanced (a.joined (keyOf b category) publisher) := h.of_eq rfl rfl
    show Balanced (a.emitScoped b publisher category synthesized now wall).1
    rw [emitScoped_eq]
    split
    · split
      · exact hjoined.emitOrderLevelBook _ b publisher now wall
      · exact hjoined.drops (Drops.emitServed _ _ b publisher synthesized wall)
    · exact hjoined
  | setBookHealth key publisher healthy => exact h.of_eq rfl rfl
  | setBookSynced key publisher synced => exact h.drops (Drops.setBookSynced key a publisher synced)
  | observeMatchedLead scope path leadNs => exact h.of_eq rfl rfl
  | closeAuthorityWindows iter wall => exact h.of_eq rfl rfl
  | resetBookForMarket key => exact h.drops (Drops.resetBooksForMarkets [key] a)
  | resetBookEventsForMarket key => exact h.dropBookEvents key
  | resetBookSessionForMarket key now => exact h.drops (Drops.resetBookSessionForMarket key a now)
  | forgetChannelBooks venue category channel => exact h.drops (.after (Drops.resetBooksForMarkets _ a) rfl rfl)
  | forgetPublisherBooks category publisher => exact h.of_eq rfl rfl

theorem balanced_new (modes : FinMap String ArbitrationMode) (sharedSlots : FinMap String (Finset String))
    (cfg : Authority.AuthorityConfig) (dedupWindowNs : Nat) (guardCfg : BookGuardConfig) (wired : Bool) :
    Balanced (new modes sharedSlots cfg dedupWindowNs guardCfg wired) := ⟨rfl, nofun⟩

/-- **Tombstone accounting is exact.**  After any calls the budget is the sum of the removed orders over all markets,
and the counters, queues, owners and dedup window of each market are those of the state they mirror; no move of a
market, at whatever point of its next ones, releases more than the budget holds. -/
theorem tombstones_are_accounted (modes : FinMap String ArbitrationMode)
    (sharedSlots : FinMap String (Finset String)) (cfg : Authority.AuthorityConfig) (dedupWindowNs : Nat)
    (guardCfg : BookGuardConfig) (wired : Bool) (calls : List Call) :
    Tallied (machine.exec (new modes sharedSlots cfg dedupWindowNs guardCfg wired) calls) := by
  have hstep : ∀ (a : Arbiter) (c : Call), Balanced a → Balanced (machine.step a c).1 := fun _ c ha => ha.step c
  exact (Machine.invariant_rule hstep calls _
    (balanced_new modes sharedSlots cfg dedupWindowNs guardCfg wired)).tallied

end EdgeConnect.Arbiter
