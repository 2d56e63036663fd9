import EdgeConnect.Ingest.ArbiterDrops
import EdgeConnect.Ingest.ArbiterView

/-!
# A removed order does not come back (`Arbiter::emit_order_level_book` in `src/ingest/arbiter.rs`)

A market holds an order it has published as removed until the channel's frontier passes the stamp of the removal, and
refuses every batch that the frontier has passed.

* `judgement` — the clock's judgement of a batch that is raced; `heldWhenRaced` — whether an order is still held as
  removed once that batch has forgotten what it may;
* `EventsFade` — everything but its own race leaves a market's race state alone or drops it;
* `raceChanges_held`, `raceChanges_removes` — a batch spares an order that is held as removed, and records the one it
  removes;
* `Undisturbed` — a call that drops no race state of the market, names the order in no re-baseline, and forgets
  nothing for want of room;
* `removed_order_stays_removed` — after the removal that recorded an order, no batch judged at an earlier stamp
  publishes it again, and none at all while it is held.
-/

set_option autoImplicit false

namespace EdgeConnect.Arbiter

open Authority

/-! ## The parts of a call -/

/-- A batch as it is offered to a market's race. -/
structure Offer where
  b : NormalizedBook
  publisher : Transport
  now : Nat
  wall : Nat

/-- What a flagged market makes of a batch before the race; the flag says whether the batch goes on. -/
def serveFlagged (a : Arbiter) (key : BookKey) (o : Offer) : Arbiter × List NormalizedBook × Bool :=
  if (a.bookMarkets.get key).any (·.rebaseline) then a.serveForcedRebaseline key o.b o.now o.wall
  else (a, [], true)

/-- How the channel's clock judges a batch, if it is raced. -/
def judgement (a : Arbiter) (key : BookKey) (o : Offer) : Option Judged :=
  if clearLed o.b = false ∧ (a.serveFlagged key o).2.2 = true then
    some (judgeStamp ((a.serveFlagged key o).1.clockFor (channelKey key)).2 o.b o.now o.wall
      ((a.serveFlagged key o).1.clockFor (channelKey key)).1.bookGuard)
  else none

/-- The re-baselines that a batch makes the race broadcast: the batch itself, or a forced one. -/
def rebaselines (a : Arbiter) (key : BookKey) (o : Offer) : List NormalizedBook :=
  if clearLed o.b then (a.emitOrderLevelBook key o.b o.publisher o.now o.wall).2 else (a.serveFlagged key o).2.1

/-- The race state of a market, as its next batch finds it. -/
def eventsOf (a : Arbiter) (key : BookKey) : MarketEvents := (a.bookEvents.get key).getD .default

/-- The race state that a batch is raced on. -/
def eventsWhenRaced (a : Arbiter) (key : BookKey) (o : Offer) (j : Judged) : MarketEvents :=
  (((a.serveFlagged key o).1.eventsOf key).forgetExpired j.frontier (a.serveFlagged key o).1.guard).1

/-- The race of a batch, after what a flagged market made of it. -/
def raced (a : Arbiter) (key : BookKey) (o : Offer) : Arbiter × List NormalizedBook :=
  (a.serveFlagged key o).1.raceBatch key o.b o.publisher o.now o.wall

/-- `shed_over_budget` reaches `forget_oldest_removed`. -/
def Sheds (a : Arbiter) (key : BookKey) : Prop :=
  a.guard.isOver = true ∧
    (if a.guard.resyncedWhileOver then a.guard
      else ⟨a.bookEvents.sumVals fun _ e => e.nDead, true⟩ : GuardBudget).isOver = true ∧
    (a.bookEvents.get key).isSome = true

/-- Whether the scope of a market has room for a path. -/
def eligible (a : Arbiter) (key : BookKey) (publisher : Transport) : Bool :=
  (a.books.pathOrdinal (scopeOf key) publisher).2.isSome

/-- The arbiter once it knows a path. -/
def joined (a : Arbiter) (key : BookKey) (publisher : Transport) : Arbiter :=
  { a with books := (a.books.pathOrdinal (scopeOf key) publisher).1 }

theorem emitScoped_eq (a : Arbiter) (b : NormalizedBook) (publisher : Transport) (category : String)
    (synthesized : Bool) (now wall : Nat) :
    a.emitScoped b publisher category synthesized now wall =
      if a.eligible (keyOf b category) publisher then
        if (a.joined (keyOf b category) publisher).orderLevelRoute (keyOf b category) b then
          (a.joined (keyOf b category) publisher).emitOrderLevelBook (keyOf b category) b publisher now wall
        else (a.joined (keyOf b category) publisher).emitServed (keyOf b category) b publisher synthesized wall
      else (a.joined (keyOf b category) publisher, []) := by
  unfold emitScoped eligible joined
  simp only
  generalize a.books.pathOrdinal (scopeOf (keyOf b category)) publisher = r
  obtain ⟨books, label⟩ := r
  cases label <;> rfl

/-- A batch that is not a re-baseline is served, raced and shed. -/
theorem emitOrderLevelBook_eq (a : Arbiter) (key : BookKey) (o : Offer) (h : clearLed o.b = false) :
    a.emitOrderLevelBook key o.b o.publisher o.now o.wall =
      if (a.serveFlagged key o).2.2 then
        ((a.raced key o).1.shedOverBudget key, (a.serveFlagged key o).2.1 ++ (a.raced key o).2)
      else ((a.serveFlagged key o).1, (a.serveFlagged key o).2.1) := by
  unfold emitOrderLevelBook serveFlagged
  rw [h]
  rfl

/-! ## A market's race state outside its own race -/

/-- A market's race state is left alone or dropped. -/
def EventsFade (k : BookKey) (a a' : Arbiter) : Prop :=
  a'.bookEvents.get k = a.bookEvents.get k ∨ a'.bookEvents.get k = none

section Fade

variable {a a' a'' : Arbiter} {k key : BookKey}

theorem EventsFade.refl (k : BookKey) (a : Arbiter) : EventsFade k a a := .inl rfl

theorem EventsFade.of_eq (h : a'.bookEvents = a.bookEvents) : EventsFade k a a' := by
  unfold EventsFade
  rw [h]
  exact .inl rfl

theorem EventsFade.trans (h : EventsFade k a a') (h' : EventsFade k a' a'') : EventsFade k a a'' := by
  rcases h' with h' | h'
  · rw [EventsFade, h']
    exact h
  · exact .inr h'

/-- A race state that is there afterwards was left alone. -/
theorem EventsFade.kept (h : EventsFade k a a') (hkept : (a'.bookEvents.get k).isSome = true) :
    a'.bookEvents.get k = a.bookEvents.get k := by
  rcases h with h | h
  · exact h
  · rw [h] at hkept
    cases hkept

/-- What drops race states leaves a market's alone or drops it. -/
theorem EventsFade.of_drops (h : Drops a a') : EventsFade k a a' := by
  refine h.rule (P := fun a' => EventsFade k a a') (fun _ _ hevents _ hf => hf.trans (.of_eq hevents))
    (fun a' key hf => hf.trans ?_) (.refl k a)
  unfold Arbiter.dropBookEvents
  split
  · exact .refl k a'
  · by_cases hk : k = key
    · subst hk
      exact .inr (FinMap.get_erase_self _ _)
    · exact .inl (FinMap.get_erase_of_ne _ hk)

theorem bookEvents_applyBookReplay (a : Arbiter) (key : BookKey) (b : NormalizedBook) :
    (a.applyBookReplay key b).bookEvents = a.bookEvents := by
  unfold applyBookReplay
  split
  · rfl
  · split <;> rfl

end Fade

/-! ## The race of another market -/

section Elsewhere

variable {k key : BookKey} (hk : k ≠ key)
include hk

theorem rebaselineEvents_ne (a : Arbiter) (changes : List BookChange) (seedTs : Nat) :
    (a.rebaselineEvents key changes seedTs).bookEvents.get k = a.bookEvents.get k := FinMap.get_insert_of_ne _ _ hk

theorem EventsFade.clearLedRebaseline (a : Arbiter) (b : NormalizedBook) (publisher : Transport) (now : Nat) :
    EventsFade k a (a.clearLedRebaseline key b publisher now).1 :=
  .trans (.inl (rebaselineEvents_ne hk a _ _)) (.of_drops (Drops.clearLed key a b publisher now))

theorem dischargeForced_ne (a : Arbiter) (b : NormalizedBook) (wall : Nat) :
    (a.dischargeForced key b wall).1.bookEvents.get k = a.bookEvents.get k := by
  unfold dischargeForced
  simp only
  split
  · exact rebaselineEvents_ne hk a _ _
  · rw [rebaselineEvents_ne hk, bookEvents_applyBookReplay]

theorem serveForcedRebaseline_ne (a : Arbiter) (b : NormalizedBook) (now wall : Nat) :
    (a.serveForcedRebaseline key b now wall).1.bookEvents.get k = a.bookEvents.get k := by
  unfold serveForcedRebaseline
  split
  · exact dischargeForced_ne hk a b wall
  · simp only
    split
    · rfl
    · exact dischargeForced_ne hk _ b wall

theorem shedOverBudget_ne (a : Arbiter) : (a.shedOverBudget key).bookEvents.get k = a.bookEvents.get k := by
  unfold shedOverBudget
  split
  · simp only
    split
    · rfl
    · exact FinMap.get_insert_of_ne _ _ hk
  · rfl

theorem refuseAncient_ne (a : Arbiter) (frontier : Option Nat) :
    (a.refuseAncient key frontier).bookEvents.get k = a.bookEvents.get k := by
  unfold refuseAncient
  split
  · rfl
  · exact FinMap.get_insert_of_ne _ _ hk

theorem EventsFade.raceBatch (a : Arbiter) (b : NormalizedBook) (publisher : Transport) (now wall : Nat) :
    EventsFade k a (a.raceBatch key b publisher now wall).1 := by
  have hclock : (a.clockFor (channelKey key)).1.bookEvents = a.bookEvents := by
    unfold clockFor
    split <;> rfl
  unfold Arbiter.raceBatch
  generalize a.clockFor (channelKey key) = r at hclock
  obtain ⟨a₁, clock⟩ := r
  simp only at hclock ⊢
  generalize judgeStamp clock b now wall a₁.bookGuard = j
  have hsame : EventsFade k a { a₁ with channelClocks := a₁.channelClocks.insert (channelKey key) j.clock } :=
    .of_eq hclock
  generalize ({ a₁ with channelClocks := a₁.channelClocks.insert (channelKey key) j.clock } : Arbiter) = a₂ at hsame ⊢
  split
  · exact hsame.trans (.inl (refuseAncient_ne hk a₂ j.frontier))
  · unfold Arbiter.raceAccepted
    generalize a₂.raceEvents key b publisher j = raced
    obtain ⟨e, guard, kept⟩ := raced
    refine hsame.trans (.trans (.inl ?_) (.of_drops (Drops.publishKept key _ b publisher now e.forced.isSome kept)))
    exact FinMap.get_insert_of_ne _ _ hk

theorem EventsFade.emitOrderLevelBook (a : Arbiter) (b : NormalizedBook) (publisher : Transport) (now wall : Nat) :
    EventsFade k a (a.emitOrderLevelBook key b publisher now wall).1 := by
  cases hclear : clearLed b with
  | true =>
    unfold Arbiter.emitOrderLevelBook
    rw [if_pos hclear]
    split
    · exact .refl k a
    · exact EventsFade.clearLedRebaseline hk a b publisher now
  | false =>
    have hserve : EventsFade k a (a.serveFlagged key ⟨b, publisher, now, wall⟩).1 := by
      unfold serveFlagged
      split
      · exact .inl (serveForcedRebaseline_ne hk a b now wall)
      · exact .refl k a
    have heq := emitOrderLevelBook_eq a key ⟨b, publisher, now, wall⟩ hclear
    simp only at heq
    rw [heq]
    split
    · refine hserve.trans ((EventsFade.raceBatch hk _ b publisher now wall).trans (.inl ?_))
      exact shedOverBudget_ne hk _
    · exact hserve

end Elsewhere

/-- **A call that emits no batch for a market leaves its race state alone, or drops it.** -/
theorem EventsFade.step {k : BookKey} (a : Arbiter) {c : Call} (hc : c.market ≠ some k) :
    EventsFade k a (Arbiter.step a c).1 := by
  cases c with
  | emit b publisher category synthesized now wall =>
    have hk : k ≠ keyOf b category := fun h => hc (congrArg some h.symm)
    show EventsFade k a (a.emitScoped b publisher category synthesized now wall).1
    rw [emitScoped_eq]
    split
    · split
      · exact EventsFade.emitOrderLevelBook hk (a.joined (keyOf b category) publisher) b publisher now wall
      · exact .of_drops (.before
          (Drops.emitServed _ (a.joined (keyOf b category) publisher) b publisher synthesized wall) rfl rfl)
    · exact .refl k a
  | setBookHealth key publisher healthy => exact .refl k a
  | setBookSynced key publisher synced => exact .of_drops (Drops.setBookSynced key a publisher synced)
  | observeMatchedLead scope path leadNs => exact .refl k a
  | closeAuthorityWindows iter wall => exact .refl k a
  | resetBookForMarket key => exact .of_drops (Drops.resetBooksForMarkets [key] a)
  | resetBookEventsForMarket key => exact .of_drops (.drop key a)
  | resetBookSessionForMarket key now => exact .of_drops (Drops.resetBookSessionForMarket key a now)
  | forgetChannelBooks venue category channel => exact .of_drops (.after (Drops.resetBooksForMarkets _ a) rfl rfl)
  | forgetPublisherBooks category publisher => exact .refl k a

/-! ## One batch and one order -/

/-- Every change of an order among some is a removal. -/
def Spares (x : Nat) (changes : List BookChange) : Prop := ∀ c ∈ changes, c.orderId = x → c.size.eq F64.zero = true

section Race

variable {x : Nat} {e : MarketEvents} {s : Slot}

theorem not_isLive_of_removed (hs : e.slot x = some s) (hrem : s.removed = true) : e.isLive x = false := by
  unfold MarketEvents.isLive
  rw [hs]
  show (!s.removed) = false
  rw [hrem]
  rfl

/-- An order that is held as removed stays so whatever is admitted, and only its removal is delivered again. -/
theorem admitEvent_held (hs : e.slot x = some s) (hrem : s.removed = true) (budget : GuardBudget) (ev : OrderEvent)
    (publisher : Transport) (arrivalNs stamp window : Nat) :
    (e.admitEvent ev publisher arrivalNs stamp window budget).1.slot x = some s ∧
      ((e.admitEvent ev publisher arrivalNs stamp window budget).2.2 = .deliver → ev.orderId = x →
        ev.size.eq F64.zero = true) := by
  obtain ⟨hrefused, hdelivered, hother⟩ := e.admitEvent_slot budget (x := x) ev publisher arrivalNs stamp window
  by_cases hx : ev.orderId = x
  · rw [hx] at hrefused hdelivered
    by_cases hv : (e.admitEvent ev publisher arrivalNs stamp window budget).2.2 = .deliver
    · rcases hdelivered hv with ⟨s', hs', -, hzero, hafter⟩ | ⟨hlive, -, -⟩ | ⟨hnew, -, -⟩ |
        ⟨s', hs', hlive, -, -, -, -⟩ | ⟨s', hs', hlive, -, -, -, -, -⟩
      · exact ⟨hafter.trans hs, fun _ _ => hzero⟩
      · rw [hlive s hs] at hrem
        cases hrem
      · rw [hs] at hnew
        cases hnew
      · rw [hs] at hs'
        cases hs'
        rw [hrem] at hlive
        cases hlive
      · rw [hs] at hs'
        cases hs'
        rw [hrem] at hlive
        cases hlive
    · exact ⟨(hrefused hv).trans hs, fun h => absurd h hv⟩
  · refine ⟨?_, fun _ h => absurd h hx⟩
    rcases hother (Ne.symm hx) with h | ⟨-, hlive⟩
    · exact h.trans hs
    · rw [not_isLive_of_removed hs hrem] at hlive
      cases hlive

/-- **A batch spares an order that is held as removed.** -/
theorem raceChanges_held (hx : x ≠ 0) (publisher : Transport) (arrivalNs stamp window : Nat) :
    ∀ (changes : List BookChange) (e : MarketEvents) (budget : GuardBudget), e.slot x = some s → s.removed = true →
      (raceChanges publisher arrivalNs stamp window changes e budget).1.slot x = some s ∧
        Spares x (raceChanges publisher arrivalNs stamp window changes e budget).2.2
  | [], _, _, hs, _ => ⟨hs, nofun⟩
  | c :: cs, e, budget, hs, hrem => by
    unfold raceChanges
    split
    · rename_i hc
      obtain ⟨hslot, hspares⟩ := raceChanges_held hx publisher arrivalNs stamp window cs e budget hs hrem
      refine ⟨hslot, fun c' hc' hid => ?_⟩
      rcases List.mem_cons.mp hc' with rfl | hc'
      · exact absurd (hid ▸ hc) hx
      · exact hspares c' hc' hid
    · have hadmit := admitEvent_held hs hrem budget (orderEvent c) publisher arrivalNs stamp window
      generalize e.admitEvent (orderEvent c) publisher arrivalNs stamp window budget = r at hadmit ⊢
      obtain ⟨e₁, budget₁, verdict⟩ := r
      obtain ⟨hs₁, hzero⟩ := hadmit
      obtain ⟨hslot, hspares⟩ := raceChanges_held hx publisher arrivalNs stamp window cs e₁ budget₁ hs₁ hrem
      refine ⟨hslot, fun c' hc' hid => ?_⟩
      simp only at hc'
      split at hc'
      · rename_i hv
        rcases List.mem_cons.mp hc' with rfl | hc'
        · exact hzero hv hid
        · exact hspares c' hc' hid
      · exact hspares c' hc' hid

/-- A change of an order that is not held as removed leaves it so, unless it is delivered as its removal. -/
theorem admitEvent_fresh (hfresh : e.isRemoved x = false) (budget : GuardBudget) (ev : OrderEvent)
    (publisher : Transport) (arrivalNs stamp window : Nat) :
    (e.admitEvent ev publisher arrivalNs stamp window budget).1.isRemoved x = false ∧
        ((e.admitEvent ev publisher arrivalNs stamp window budget).2.2 = .deliver → ev.orderId = x →
          ev.size.eq F64.zero = false) ∨
      (e.admitEvent ev publisher arrivalNs stamp window budget).1.slot x = some ⟨stamp, F64.zero, none⟩ := by
  obtain ⟨hrefused, hdelivered, hother⟩ := e.admitEvent_slot budget (x := x) ev publisher arrivalNs stamp window
  have hsame : ∀ {e' : MarketEvents}, e'.slot x = e.slot x → e'.isRemoved x = false := by
    intro e' h
    unfold MarketEvents.isRemoved at hfresh ⊢
    rw [h]
    exact hfresh
  have hsome : ∀ {e' : MarketEvents} {s : Slot}, e'.slot x = some s → s.removed = false → e'.isRemoved x = false := by
    intro e' s h hs
    unfold MarketEvents.isRemoved
    rw [h]
    exact hs
  have hnone : ∀ {e' : MarketEvents}, e'.slot x = none → e'.isRemoved x = false := by
    intro e' h
    unfold MarketEvents.isRemoved
    rw [h]
    rfl
  by_cases hx : ev.orderId = x
  · rw [hx] at hrefused hdelivered
    by_cases hv : (e.admitEvent ev publisher arrivalNs stamp window budget).2.2 = .deliver
    · rcases hdelivered hv with ⟨s', hs', hrem, -, -⟩ | ⟨-, -, hafter⟩ | ⟨-, hsize, hafter⟩ |
        ⟨s', hs', -, hsize, -, -, hafter⟩ | ⟨s', hs', hlive, hsize, -, -, -, hafter⟩
      · unfold MarketEvents.isRemoved at hfresh
        rw [hs'] at hfresh
        exact absurd hrem (by rw [show s'.removed = false from hfresh]; exact Bool.false_ne_true)
      · exact .inr hafter
      · rcases hafter with hafter | hafter
        · exact .inl ⟨hsome hafter hsize, fun _ _ => hsize⟩
        · exact .inl ⟨hnone hafter, fun _ _ => hsize⟩
      · exact .inl ⟨hsome hafter hsize, fun _ _ => hsize⟩
      · exact .inl ⟨hsome hafter hlive, fun _ _ => hsize⟩
    · exact .inl ⟨hsame (hrefused hv), fun h => absurd h hv⟩
  · refine .inl ⟨?_, fun _ h => absurd h hx⟩
    rcases hother (Ne.symm hx) with h | ⟨h, -⟩
    · exact hsame h
    · exact hnone h

/-- **The removal that a batch publishes of an order it did not hold as removed is recorded at the batch's stamp.** -/
theorem raceChanges_removes (hx : x ≠ 0) (publisher : Transport) (arrivalNs stamp window : Nat) :
    ∀ (changes : List BookChange) (e : MarketEvents) (budget : GuardBudget), e.isRemoved x = false →
      (∃ c ∈ (raceChanges publisher arrivalNs stamp window changes e budget).2.2,
        c.orderId = x ∧ c.size.eq F64.zero = true) →
      (raceChanges publisher arrivalNs stamp window changes e budget).1.slot x = some ⟨stamp, F64.zero, none⟩
  | [], _, _, _, ⟨_, hc, _⟩ => by cases hc
  | c :: cs, e, budget, hfresh, hout => by
    unfold raceChanges at hout ⊢
    split at hout
    · rename_i hc
      rw [if_pos hc]
      obtain ⟨c', hc', hid, hzero⟩ := hout
      rcases List.mem_cons.mp hc' with rfl | hc'
      · exact absurd (hid ▸ hc) hx
      · exact raceChanges_removes hx publisher arrivalNs stamp window cs e budget hfresh ⟨c', hc', hid, hzero⟩
    · rename_i hc
      rw [if_neg hc]
      have hadmit := admitEvent_fresh hfresh budget (orderEvent c) publisher arrivalNs stamp window
      generalize e.admitEvent (orderEvent c) publisher arrivalNs stamp window budget = r at hadmit hout ⊢
      obtain ⟨e₁, budget₁, verdict⟩ := r
      simp only at hadmit hout ⊢
      rcases hadmit with ⟨hfresh₁, hsize⟩ | hslot
      · refine raceChanges_removes hx publisher arrivalNs stamp window cs e₁ budget₁ hfresh₁ ?_
        obtain ⟨c', hc', hid, hzero⟩ := hout
        split at hc'
        · rename_i hv
          rcases List.mem_cons.mp hc' with rfl | hc'
          · rw [show c'.size.eq F64.zero = false from hsize hv hid] at hzero
            cases hzero
          · exact ⟨c', hc', hid, hzero⟩
        · exact ⟨c', hc', hid, hzero⟩
      · exact (raceChanges_held hx publisher arrivalNs stamp window cs e₁ budget₁ hslot rfl).1

end Race

/-! ## One batch of a market -/

/-- An order's entry is left alone, or evicted as a live one. -/
def Idle (x : Nat) (e e' : MarketEvents) : Prop := e'.slot x = e.slot x ∨ e'.slot x = none ∧ e.isLive x = true

/-- The messages name no change of an order. -/
def Unnamed (x : Nat) (out : List NormalizedBook) : Prop := ∀ msg ∈ out, ∀ c ∈ msg.changes, c.orderId ≠ x

section Batch

variable {x : Nat} {a : Arbiter} {key : BookKey} {o : Offer} {j : Judged}

theorem Idle.refl (x : Nat) (e : MarketEvents) : Idle x e e := .inl rfl

/-- A re-baseline that names no change of an order leaves its entry alone. -/
theorem rebaselineEvents_idle (a : Arbiter) (key : BookKey) {changes : List BookChange}
    (hunnamed : ∀ c ∈ changes, c.orderId ≠ x) (seedTs : Nat) :
    Idle x (a.eventsOf key) ((a.rebaselineEvents key changes seedTs).eventsOf key) := by
  have hget : (a.rebaselineEvents key changes seedTs).eventsOf key =
      ((a.eventsOf key).rebaselined changes seedTs a.guard).1 := by
    unfold eventsOf
    show ((a.bookEvents.insert key _).get key).getD _ = _
    rw [FinMap.get_insert_self]
    rfl
  rw [hget]
  rcases MarketEvents.seed_slot (x := x) seedTs changes
    { a.eventsOf key with seen := ∅, order := [], forced := none } a.guard with h | ⟨h, hlive | ⟨c, hc, hid, -⟩⟩ |
      ⟨c, hc, hid, -, -⟩
  · exact .inl h
  · exact .inr ⟨h, hlive⟩
  · exact absurd hid (hunnamed c hc)
  · exact absurd hid (hunnamed c hc)

theorem dischargeForced_idle {b : NormalizedBook} {wall : Nat} (h : Unnamed x (a.dischargeForced key b wall).2) :
    Idle x (a.eventsOf key) ((a.dischargeForced key b wall).1.eventsOf key) := by
  unfold dischargeForced at h ⊢
  simp only at h ⊢
  split at h
  · rename_i full hfull
    exact rebaselineEvents_idle _ _ (h full (List.mem_singleton.mpr rfl)) _
  · have hsame : (a.applyBookReplay key (clearOnly b wall)).eventsOf key = a.eventsOf key := by
      unfold eventsOf
      rw [bookEvents_applyBookReplay]
    rw [← hsame]
    exact rebaselineEvents_idle _ _ (fun c hc => by cases hc) _

theorem serveFlagged_idle (h : Unnamed x (a.serveFlagged key o).2.1) :
    Idle x (a.eventsOf key) ((a.serveFlagged key o).1.eventsOf key) := by
  unfold serveFlagged at h ⊢
  split at h
  · rename_i hflag
    rw [if_pos hflag]
    unfold serveForcedRebaseline at h ⊢
    split at h
    · exact dischargeForced_idle h
    · rename_i m hm
      simp only at h ⊢
      split at h
      · rename_i hwait
        rw [if_pos hwait]
        exact .refl x _
      · rename_i hwait
        rw [if_neg hwait]
        have hd := dischargeForced_idle (x := x)
          (a := a.setMarket key { m with rebaseline := false, withheld := 0, rebaselinedNs := o.now }) h
        exact hd
  · rename_i hflag
    rw [if_neg hflag]
    exact .refl x _

/-- What the channel's clock leaves of the arbiter. -/
theorem clockFor_same (a : Arbiter) (ck : ChannelKey) : (a.clockFor ck).1.bookEvents = a.bookEvents ∧
    (a.clockFor ck).1.guard = a.guard ∧ (a.clockFor ck).1.bookDedupWindowNs = a.bookDedupWindowNs := by
  unfold clockFor
  split
  · exact ⟨rfl, rfl, rfl⟩
  · exact ⟨rfl, rfl, rfl⟩

/-- A batch that removes nothing for want of room. -/
theorem shedOverBudget_unshed (h : ¬ Sheds a key) : (a.shedOverBudget key).bookEvents.get key = a.bookEvents.get key := by
  unfold Sheds at h
  unfold shedOverBudget
  split
  · rename_i hover
    simp only
    split
    · rfl
    · rename_i e he
      have hroom : (if a.guard.resyncedWhileOver then a.guard
          else ⟨a.bookEvents.sumVals fun _ e => e.nDead, true⟩ : GuardBudget).isOver = false := by
        rw [← Bool.not_eq_true]
        exact fun hfull => h ⟨hover, hfull, by rw [he]; rfl⟩
      unfold shedLoop
      rw [if_neg (by rw [hroom]; exact Bool.false_ne_true)]
      show (a.bookEvents.insert key e).get key = _
      rw [FinMap.get_insert_self, he]
  · rfl

/-- A refused batch forgets what the frontier has passed. -/
theorem eventsOf_refuseAncient {frontier : Option Nat}
    (hkept : ((a.refuseAncient key frontier).bookEvents.get key).isSome = true) :
    (a.refuseAncient key frontier).eventsOf key = ((a.eventsOf key).forgetExpired frontier a.guard).1 := by
  unfold refuseAncient at hkept ⊢
  split at hkept
  · rename_i h
    rw [h] at hkept
    cases hkept
  · rename_i e h
    unfold eventsOf
    show ((a.bookEvents.insert key _).get key).getD _ = _
    rw [FinMap.get_insert_self, h]
    rfl

/-- What survives the race is all that a batch publishes. -/
theorem publishKept_changes {b : NormalizedBook} {publisher : Transport} {now : Nat} {forced : Bool}
    {kept : List BookChange} {msg : NormalizedBook} (h : msg ∈ (a.publishKept key b publisher now forced kept).2) :
    msg.changes = kept := by
  unfold publishKept at h
  simp only at h
  split at h
  · cases h
  · rw [List.mem_singleton.mp h]

/-- An accepted batch leaves the market the race state it was raced to. -/
theorem eventsOf_raceAccepted
    (hkept : ((a.raceAccepted key o.b o.publisher o.now j).1.bookEvents.get key).isSome = true) :
    ((a.raceAccepted key o.b o.publisher o.now j).1.eventsOf key).slot x =
        (a.raceEvents key o.b o.publisher j).1.slot x ∧
      ∀ msg ∈ (a.raceAccepted key o.b o.publisher o.now j).2,
        msg.changes = (a.raceEvents key o.b o.publisher j).2.2 := by
  unfold raceAccepted at hkept ⊢
  generalize a.raceEvents key o.b o.publisher j = raced at hkept ⊢
  obtain ⟨e, guard, kept⟩ := raced
  simp only at hkept ⊢
  refine ⟨?_, fun msg hmsg => publishKept_changes hmsg⟩
  have hget := (EventsFade.of_drops (Drops.publishKept key
    { a with bookEvents := a.bookEvents.insert key { e with forced := none }, guard := guard }
    o.b o.publisher o.now e.forced.isSome kept)).kept hkept
  unfold eventsOf
  rw [hget]
  show (((a.bookEvents.insert key _).get key).getD _).slot x = _
  rw [FinMap.get_insert_self]
  rfl

/-- The race of a batch from a given race state. -/
def racedFrom (e : MarketEvents × GuardBudget) (o : Offer) (stamp window : Nat) :
    MarketEvents × GuardBudget × List BookChange :=
  raceChanges o.publisher o.b.recvTsNs stamp window o.b.changes e.1 e.2

/-- **The race of one batch**: past the frontier it publishes nothing; else it is raced on what the frontier leaves, and
publishes what survives. -/
theorem raceBatch_spec (x : Nat)
    (hj : judgeStamp (a.clockFor (channelKey key)).2 o.b o.now o.wall (a.clockFor (channelKey key)).1.bookGuard = j)
    (hkept : ((a.raceBatch key o.b o.publisher o.now o.wall).1.bookEvents.get key).isSome = true) :
    (pastFrontier j.frontier j.stamp = true ∧ (a.raceBatch key o.b o.publisher o.now o.wall).2 = [] ∧
      ((a.raceBatch key o.b o.publisher o.now o.wall).1.eventsOf key).slot x =
        ((a.eventsOf key).forgetExpired j.frontier a.guard).1.slot x) ∨
    (pastFrontier j.frontier j.stamp = false ∧
      ((a.raceBatch key o.b o.publisher o.now o.wall).1.eventsOf key).slot x =
        (racedFrom ((a.eventsOf key).forgetExpired j.frontier a.guard) o j.stamp a.bookDedupWindowNs).1.slot x ∧
      ∀ msg ∈ (a.raceBatch key o.b o.publisher o.now o.wall).2, msg.changes =
        (racedFrom ((a.eventsOf key).forgetExpired j.frontier a.guard) o j.stamp a.bookDedupWindowNs).2.2) := by
  obtain ⟨hevents, hguard, hwindow⟩ := clockFor_same a (channelKey key)
  unfold raceBatch at hkept ⊢
  generalize a.clockFor (channelKey key) = r at hj hevents hguard hwindow hkept ⊢
  obtain ⟨a₁, clock⟩ := r
  simp only at hj hevents hguard hwindow hkept ⊢
  rw [hj] at hkept ⊢
  have heventsOf : a₁.eventsOf key = a.eventsOf key := by
    unfold eventsOf
    rw [hevents]
  rw [← heventsOf, ← hguard, ← hwindow]
  by_cases hpast : pastFrontier j.frontier j.stamp = true
  · rw [if_pos hpast] at hkept ⊢
    refine .inl ⟨hpast, rfl, ?_⟩
    rw [eventsOf_refuseAncient hkept]
    rfl
  · rw [if_neg hpast] at hkept ⊢
    exact .inr ⟨Bool.not_eq_true _ ▸ hpast, eventsOf_raceAccepted hkept⟩

/-- An idle entry stays so while the race state is there. -/
theorem Idle.fade {a₁ a₂ : Arbiter} {e : MarketEvents} (h : Idle x e (a₁.eventsOf key)) (hf : EventsFade key a₁ a₂)
    (hkept : (a₂.bookEvents.get key).isSome = true) : Idle x e (a₂.eventsOf key) := by
  unfold eventsOf at h ⊢
  rw [hf.kept hkept]
  exact h

/-- A re-baseline that names no change of an order leaves its entry alone, whether it goes out or a peer keeps it in. -/
theorem clearLed_spec (hclear : clearLed o.b = true) (hunnamed : Unnamed x (a.rebaselines key o))
    (hkept : ((a.emitOrderLevelBook key o.b o.publisher o.now o.wall).1.bookEvents.get key).isSome = true) :
    Idle x (a.eventsOf key) ((a.emitOrderLevelBook key o.b o.publisher o.now o.wall).1.eventsOf key) := by
  unfold rebaselines at hunnamed
  rw [if_pos hclear] at hunnamed
  unfold emitOrderLevelBook at hunnamed hkept ⊢
  rw [if_pos hclear] at hunnamed hkept ⊢
  split at hunnamed
  · rename_i hpeer
    rw [if_pos hpeer]
    exact .refl x _
  · rename_i hpeer
    rw [if_neg hpeer] at hkept ⊢
    have hidle := rebaselineEvents_idle a key (hunnamed o.b (List.mem_singleton.mpr rfl))
      (a.channelNewest key)
    exact hidle.fade (.of_drops (Drops.clearLed key a o.b o.publisher o.now)) hkept

/-- What the race of a batch makes of the race state that its frontier leaves. -/
def raceOutcome (a : Arbiter) (key : BookKey) (o : Offer) (j : Judged) :
    MarketEvents × GuardBudget × List BookChange :=
  racedFrom (((a.serveFlagged key o).1.eventsOf key).forgetExpired j.frontier (a.serveFlagged key o).1.guard) o j.stamp
    (a.serveFlagged key o).1.bookDedupWindowNs

theorem judgement_some (h : a.judgement key o = some j) : clearLed o.b = false ∧ (a.serveFlagged key o).2.2 = true ∧
    judgeStamp ((a.serveFlagged key o).1.clockFor (channelKey key)).2 o.b o.now o.wall
      ((a.serveFlagged key o).1.clockFor (channelKey key)).1.bookGuard = j := by
  unfold judgement at h
  split at h
  · rename_i hgo
    exact ⟨hgo.1, hgo.2, Option.some.inj h⟩
  · cases h

/-- **A batch that is judged**: past the frontier it publishes nothing; else it is raced. -/
theorem judged_spec (x : Nat) (hj : a.judgement key o = some j) (hunshed : ¬ Sheds (a.raced key o).1 key)
    (hkept : ((a.emitOrderLevelBook key o.b o.publisher o.now o.wall).1.bookEvents.get key).isSome = true) :
    (pastFrontier j.frontier j.stamp = true ∧ (a.raced key o).2 = [] ∧
      ((a.emitOrderLevelBook key o.b o.publisher o.now o.wall).1.eventsOf key).slot x =
        (a.eventsWhenRaced key o j).slot x) ∨
    (pastFrontier j.frontier j.stamp = false ∧
      ((a.emitOrderLevelBook key o.b o.publisher o.now o.wall).1.eventsOf key).slot x =
        (a.raceOutcome key o j).1.slot x ∧
      ∀ msg ∈ (a.raced key o).2, msg.changes = (a.raceOutcome key o j).2.2) := by
  obtain ⟨hclear, hgo, hjudge⟩ := judgement_some hj
  rw [emitOrderLevelBook_eq _ _ _ hclear, if_pos hgo] at hkept ⊢
  have hget := shedOverBudget_unshed hunshed
  have hsame : ((a.raced key o).1.shedOverBudget key).eventsOf key = (a.raced key o).1.eventsOf key := by
    unfold eventsOf
    rw [hget]
  rw [hget] at hkept
  simp only [hsame]
  exact raceBatch_spec x hjudge hkept

/-- A batch that is not judged leaves an order's entry alone, if it names no change of it. -/
theorem unjudged_spec (hj : a.judgement key o = none) (hunnamed : Unnamed x (a.rebaselines key o))
    (hkept : ((a.emitOrderLevelBook key o.b o.publisher o.now o.wall).1.bookEvents.get key).isSome = true) :
    Idle x (a.eventsOf key) ((a.emitOrderLevelBook key o.b o.publisher o.now o.wall).1.eventsOf key) ∧
      Unnamed x (a.emitOrderLevelBook key o.b o.publisher o.now o.wall).2 := by
  cases hclear : clearLed o.b with
  | true =>
    refine ⟨clearLed_spec hclear hunnamed hkept, ?_⟩
    unfold rebaselines at hunnamed
    rw [if_pos hclear] at hunnamed
    exact hunnamed
  | false =>
    have hstay : ¬ (a.serveFlagged key o).2.2 = true := by
      intro hgo
      unfold judgement at hj
      rw [if_pos ⟨hclear, hgo⟩] at hj
      cases hj
    unfold rebaselines at hunnamed
    rw [hclear, if_neg Bool.false_ne_true] at hunnamed
    rw [emitOrderLevelBook_eq _ _ _ hclear, if_neg hstay]
    exact ⟨serveFlagged_idle hunnamed, hunnamed⟩

/-- What a judged batch broadcasts: its re-baselines, and what it publishes. -/
theorem judged_out (hj : a.judgement key o = some j) :
    (a.emitOrderLevelBook key o.b o.publisher o.now o.wall).2 = a.rebaselines key o ++ (a.raced key o).2 := by
  obtain ⟨hclear, hgo, -⟩ := judgement_some hj
  unfold rebaselines
  rw [emitOrderLevelBook_eq _ _ _ hclear, if_pos hgo, hclear, if_neg Bool.false_ne_true]

/-- What a judged batch does to the entry before its race. -/
theorem judged_idle (hj : a.judgement key o = some j) (hunnamed : Unnamed x (a.rebaselines key o)) :
    Idle x (a.eventsOf key) ((a.serveFlagged key o).1.eventsOf key) := by
  obtain ⟨hclear, -, -⟩ := judgement_some hj
  unfold rebaselines at hunnamed
  rw [hclear, if_neg Bool.false_ne_true] at hunnamed
  exact serveFlagged_idle hunnamed

end Batch

/-! ## Runs -/

/-- The batch that a call offers to a market, from a path that the scope has room for. -/
def Call.offer (k : BookKey) (a : Arbiter) : Call → Option Offer
  | .emit b publisher category _ now wall =>
    if keyOf b category = k ∧ a.eligible k publisher = true then some ⟨b, publisher, now, wall⟩ else none
  | _ => none

/-- How the batch of a call is judged, if it is raced. -/
def Call.judged (k : BookKey) (a : Arbiter) (c : Call) : Option Judged :=
  (c.offer k a).bind fun o => (a.joined k o.publisher).judgement k o

/-- The frontiers that a market's batches are judged against, in order. -/
def frontiers (k : BookKey) : Arbiter → List Call → List (Option Nat)
  | _, [] => []
  | a, c :: cs => ((c.judged k a).map (·.frontier)).toList ++ frontiers k (Arbiter.step a c).1 cs

/-- A frontier is not below another. -/
def NotBelow (f g : Option Nat) : Prop := ∀ t, f = some t → ∃ u, g = some u ∧ t ≤ u

/-- A call after which the market's race state is still there, and whose batch, if it offers one, is an order-level one
that names the order in no re-baseline and forgets nothing for want of room. -/
structure Undisturbed (k : BookKey) (x : Nat) (a : Arbiter) (c : Call) : Prop where
  kept : ((Arbiter.step a c).1.bookEvents.get k).isSome = true
  routed : ∀ o, c.offer k a = some o → (a.joined k o.publisher).orderLevelRoute k o.b = true
  unnamed : ∀ o, c.offer k a = some o → Unnamed x ((a.joined k o.publisher).rebaselines k o)
  unshed : ∀ o, c.offer k a = some o → ((a.joined k o.publisher).judgement k o).isSome = true →
    ¬ Sheds ((a.joined k o.publisher).raced k o).1 k

/-- A call whose batch, judged as `j`, publishes the removal of an order. -/
structure Removes (k : BookKey) (x : Nat) (a : Arbiter) (c : Call) (o : Offer) (j : Judged) : Prop where
  offered : c.offer k a = some o
  routed : (a.joined k o.publisher).orderLevelRoute k o.b = true
  judged : (a.joined k o.publisher).judgement k o = some j
  published : ∃ msg ∈ ((a.joined k o.publisher).raced k o).2, ∃ ch ∈ msg.changes,
    ch.orderId = x ∧ ch.size.eq F64.zero = true
  unshed : ¬ Sheds ((a.joined k o.publisher).raced k o).1 k
  kept : ((Arbiter.step a c).1.bookEvents.get k).isSome = true

/-- What a batch judged before `r`, or raced while the order is held as removed, publishes of the order is its removal. -/
def SparesBelow (k : BookKey) (x r : Nat) (a : Arbiter) (c : Call) : Prop :=
  ∀ o, c.offer k a = some o →
    (∀ j, (a.joined k o.publisher).judgement k o = some j →
      j.stamp < r ∨ ((a.joined k o.publisher).eventsWhenRaced k o j).isRemoved x = true) →
    ∀ msg ∈ (Arbiter.step a c).2, Spares x msg.changes

/-- An order's removal is recorded at `r`, or the frontier has passed `r` for good. -/
def Guarded (k : BookKey) (x r : Nat) (a : Arbiter) (later : List (Option Nat)) : Prop :=
  (a.eventsOf k).slot x = some ⟨r, F64.zero, none⟩ ∨ ∃ f, r < f ∧ ∀ g ∈ later, ∃ u, g = some u ∧ f ≤ u

section Runs

variable {k : BookKey} {x r : Nat} {a : Arbiter} {c : Call} {o : Offer} {j : Judged}

/-- A call that offers a market nothing leaves its race state alone, or drops it. -/
theorem step_unoffered (h : c.offer k a = none) : EventsFade k a (Arbiter.step a c).1 := by
  by_cases hm : c.market = some k
  · cases c with
    | emit b publisher category synthesized now wall =>
      have hkey : keyOf b category = k := Option.some.inj hm
      have hfull : ¬ a.eligible (keyOf b category) publisher = true := by
        intro hroom
        rw [hkey] at hroom
        simp only [Call.offer] at h
        rw [if_pos ⟨hkey, hroom⟩] at h
        cases h
      show EventsFade k a (a.emitScoped b publisher category synthesized now wall).1
      rw [emitScoped_eq, if_neg hfull]
      exact .of_eq rfl
    | _ => cases hm
  · exact EventsFade.step a hm

/-- A call that offers a market an order-level batch races it. -/
theorem step_offered (h : c.offer k a = some o) (hroute : (a.joined k o.publisher).orderLevelRoute k o.b = true) :
    Arbiter.step a c = (a.joined k o.publisher).emitOrderLevelBook k o.b o.publisher o.now o.wall := by
  cases c with
  | emit b publisher category synthesized now wall =>
    simp only [Call.offer] at h
    split at h
    · rename_i hgo
      obtain ⟨rfl, hroom⟩ := hgo
      cases h
      show a.emitScoped b publisher category synthesized now wall = _
      rw [emitScoped_eq, if_pos hroom, if_pos hroute]
    · cases h
  | _ => cases h

/-- An order held as removed survives what is idle. -/
theorem Idle.held {e e' : MarketEvents} {s : Slot} (h : Idle x e e') (hs : e.slot x = some s)
    (hrem : s.removed = true) : e'.slot x = some s := by
  rcases h with h | ⟨-, hlive⟩
  · exact h.trans hs
  · rw [not_isLive_of_removed hs hrem] at hlive
    cases hlive

theorem Unnamed.spares {out : List NormalizedBook} (h : Unnamed x out) : ∀ msg ∈ out, Spares x msg.changes :=
  fun msg hmsg c hc hid => absurd hid (h msg hmsg c hc)

/-- A batch that the frontier accepts is judged no earlier than it. -/
theorem le_stamp {f : Nat} (hpast : pastFrontier j.frontier j.stamp = false) (hf : j.frontier = some f) :
    f ≤ j.stamp := by
  unfold pastFrontier at hpast
  rw [hf] at hpast
  exact Nat.le_of_not_lt (of_decide_eq_false hpast)

/-- A batch that is raced while an order is held as removed spares it. -/
theorem raceOutcome_held (hx : x ≠ 0) {s : Slot} (hs : (a.eventsWhenRaced k o j).slot x = some s)
    (hrem : s.removed = true) :
    (a.raceOutcome k o j).1.slot x = some s ∧ Spares x (a.raceOutcome k o j).2.2 :=
  raceChanges_held hx o.publisher o.b.recvTsNs j.stamp _ o.b.changes _ _ hs hrem

theorem slot_of_isRemoved {e : MarketEvents} (h : e.isRemoved x = true) :
    ∃ s, e.slot x = some s ∧ s.removed = true := by
  unfold MarketEvents.isRemoved at h
  cases hs : e.slot x with
  | none =>
    rw [hs] at h
    cases h
  | some s =>
    rw [hs] at h
    exact ⟨s, rfl, h⟩

/-- A batch's frontier leaves an order's removal alone, or has passed it. -/
theorem eventsWhenRaced_held (hj : a.judgement k o = some j) (hunnamed : Unnamed x (a.rebaselines k o))
    (hheld : (a.eventsOf k).slot x = some ⟨r, F64.zero, none⟩) :
    (a.eventsWhenRaced k o j).slot x = some ⟨r, F64.zero, none⟩ ∨ ∃ f, j.frontier = some f ∧ r < f := by
  have hserved := (judged_idle hj hunnamed).held hheld rfl
  rcases ((a.serveFlagged k o).1.eventsOf k).forgetExpired_slot (a.serveFlagged k o).1.guard (x := x) j.frontier
    with h | ⟨-, s, f, hs, -, hf, hlt⟩
  · exact .inl (h.trans hserved)
  · rw [hserved] at hs
    cases hs
    exact .inr ⟨f, hf, hlt⟩

/-- **A judged batch spares a removal that its frontier has not passed, and one that is held.** -/
theorem judged_spares (hx : x ≠ 0) (hj : a.judgement k o = some j) (hunnamed : Unnamed x (a.rebaselines k o))
    (hunshed : ¬ Sheds (a.raced k o).1 k)
    (hkept : ((a.emitOrderLevelBook k o.b o.publisher o.now o.wall).1.bookEvents.get k).isSome = true)
    (hguard : (a.eventsWhenRaced k o j).slot x = some ⟨r, F64.zero, none⟩ ∨ ∃ f, j.frontier = some f ∧ r < f)
    (hlow : j.stamp < r ∨ (a.eventsWhenRaced k o j).isRemoved x = true) :
    ∀ msg ∈ (a.emitOrderLevelBook k o.b o.publisher o.now o.wall).2, Spares x msg.changes := by
  intro msg hmsg
  rw [judged_out hj] at hmsg
  rcases List.mem_append.mp hmsg with hmsg | hmsg
  · exact hunnamed.spares msg hmsg
  · rcases judged_spec x hj hunshed hkept with ⟨-, hnone, -⟩ | ⟨hpast, -, hchanges⟩
    · rw [hnone] at hmsg
      cases hmsg
    · rw [hchanges msg hmsg]
      rcases hlow with hlow | hrem
      · rcases hguard with hs | ⟨f, hf, hr⟩
        · exact (raceOutcome_held hx hs rfl).2
        · have hle := le_stamp hpast hf
          omega
      · obtain ⟨s, hs, hrem⟩ := slot_of_isRemoved hrem
        exact (raceOutcome_held hx hs hrem).2

/-- A judged batch keeps a removal that its frontier has not passed. -/
theorem judged_held (hx : x ≠ 0) (hj : a.judgement k o = some j) (hunshed : ¬ Sheds (a.raced k o).1 k)
    (hkept : ((a.emitOrderLevelBook k o.b o.publisher o.now o.wall).1.bookEvents.get k).isSome = true)
    (hs : (a.eventsWhenRaced k o j).slot x = some ⟨r, F64.zero, none⟩) :
    ((a.emitOrderLevelBook k o.b o.publisher o.now o.wall).1.eventsOf k).slot x = some ⟨r, F64.zero, none⟩ := by
  rcases judged_spec x hj hunshed hkept with ⟨-, -, hafter⟩ | ⟨-, hafter, -⟩
  · exact hafter.trans hs
  · exact hafter.trans (raceOutcome_held hx hs rfl).1

/-- **A call keeps an order's removal guarded, and publishes nothing else of it at an earlier stamp.** -/
theorem Guarded.step (hx : x ≠ 0) {cs : List Call} (h : Guarded k x r a (frontiers k a (c :: cs)))
    (hu : Undisturbed k x a c) (hmono : (frontiers k a (c :: cs)).Pairwise NotBelow) :
    Guarded k x r (Arbiter.step a c).1 (frontiers k (Arbiter.step a c).1 cs) ∧ SparesBelow k x r a c := by
  have htail : ∀ {F : Nat}, (∀ g ∈ frontiers k a (c :: cs), ∃ u, g = some u ∧ F ≤ u) →
      ∀ g ∈ frontiers k (Arbiter.step a c).1 cs, ∃ u, g = some u ∧ F ≤ u :=
    fun hF g hg => hF g (List.mem_append_right _ hg)
  cases hoffer : c.offer k a with
  | none =>
    refine ⟨?_, fun o ho => by rw [hoffer] at ho; cases ho⟩
    rcases h with h | ⟨F, hr, hF⟩
    · refine .inl ?_
      unfold eventsOf at h ⊢
      rw [(step_unoffered hoffer).kept hu.kept]
      exact h
    · exact .inr ⟨F, hr, htail hF⟩
  | some o =>
    have hstep := step_offered hoffer (hu.routed o hoffer)
    have hunnamed := hu.unnamed o hoffer
    have hkept := hu.kept
    have hout : ∀ {o' : Offer}, c.offer k a = some o' → o' = o := fun h => Option.some.inj (h.symm.trans hoffer)
    rw [hstep] at hkept
    have hjoined : (a.joined k o.publisher).eventsOf k = a.eventsOf k := rfl
    cases hj : (a.joined k o.publisher).judgement k o with
    | none =>
      obtain ⟨hidle, hnone⟩ := unjudged_spec hj hunnamed hkept
      refine ⟨?_, ?_⟩
      · rcases h with h | ⟨F, hr, hF⟩
        · rw [hstep]
          exact .inl (hidle.held h rfl)
        · exact .inr ⟨F, hr, htail hF⟩
      · intro o' ho' _ msg hmsg
        rw [hstep] at hmsg
        exact hnone.spares msg hmsg
    | some j =>
      have hfs : frontiers k a (c :: cs) = j.frontier :: frontiers k (Arbiter.step a c).1 cs := by
        show ((c.judged k a).map (·.frontier)).toList ++ _ = _
        unfold Call.judged
        rw [hoffer]
        show (((a.joined k o.publisher).judgement k o).map (·.frontier)).toList ++ _ = _
        rw [hj]
        rfl
      have hunshed := hu.unshed o hoffer (by rw [hj]; rfl)
      have hguard : ((a.joined k o.publisher).eventsWhenRaced k o j).slot x = some ⟨r, F64.zero, none⟩ ∨
          ∃ f, j.frontier = some f ∧ r < f := by
        rcases h with h | ⟨F, hr, hF⟩
        · exact eventsWhenRaced_held hj hunnamed h
        · rw [hfs] at hF
          obtain ⟨u, hu, hle⟩ := hF _ List.mem_cons_self
          exact .inr ⟨u, hu, lt_of_lt_of_le hr hle⟩
      refine ⟨?_, ?_⟩
      · rcases hguard with hs | ⟨f, hf, hr⟩
        · rw [hstep]
          exact .inl (judged_held hx hj hunshed hkept hs)
        · rw [hfs] at hmono
          exact .inr ⟨f, hr, fun g hg => List.rel_of_pairwise_cons hmono hg f hf⟩
      · intro o' ho' hlow msg hmsg
        cases hout ho'
        rw [hstep] at hmsg
        exact judged_spares hx hj hunnamed hunshed hkept hguard (hlow j hj) msg hmsg

theorem Guarded.run (hx : x ≠ 0) : ∀ (calls : List Call) (a : Arbiter), Guarded k x r a (frontiers k a calls) →
    machine.Along (Undisturbed k x) a calls → (frontiers k a calls).Pairwise NotBelow →
    machine.Along (SparesBelow k x r) a calls
  | [], _, _, _, _ => trivial
  | c :: cs, a, h, hu, hmono => by
    obtain ⟨hguard, hspares⟩ := h.step hx hu.1 hmono
    exact ⟨hspares, Guarded.run hx cs _ hguard hu.2 (List.pairwise_append.mp hmono).2.1⟩

/-- The removal of an order that was not held as removed is recorded at its stamp. -/
theorem Removes.recorded (hx : x ≠ 0) (h : Removes k x a c o j)
    (hfirst : ((a.joined k o.publisher).eventsWhenRaced k o j).isRemoved x = false) :
    ((Arbiter.step a c).1.eventsOf k).slot x = some ⟨j.stamp, F64.zero, none⟩ := by
  have hkept := h.kept
  rw [step_offered h.offered h.routed] at hkept ⊢
  obtain ⟨msg, hmsg, ch, hch, hid, hzero⟩ := h.published
  rcases judged_spec x h.judged h.unshed hkept with ⟨-, hnone, -⟩ | ⟨-, hafter, hchanges⟩
  · rw [hnone] at hmsg
    cases hmsg
  · rw [hchanges msg hmsg] at hch
    rw [hafter]
    exact raceChanges_removes hx o.publisher o.b.recvTsNs j.stamp _ o.b.changes _ _ hfirst ⟨ch, hch, hid, hzero⟩

end Runs

/-- **A removed order does not come back.**  After the removal that recorded an order, while the market's race state is
there, no re-baseline names the order, nothing is forgotten for want of room and the frontier never decreases, no batch
judged at an earlier stamp publishes a change of the order but its removal, and no batch at all does while the order is
held as removed. -/
theorem removed_order_stays_removed (k : BookKey) (x : Nat) (hx : x ≠ 0) (a : Arbiter) (c : Call) (o : Offer)
    (j : Judged) (hremoves : Removes k x a c o j)
    (hfirst : ((a.joined k o.publisher).eventsWhenRaced k o j).isRemoved x = false) (calls : List Call)
    (hundisturbed : machine.Along (Undisturbed k x) (Arbiter.step a c).1 calls)
    (hfrontier : (frontiers k (Arbiter.step a c).1 calls).Pairwise NotBelow) :
    machine.Along (SparesBelow k x j.stamp) (Arbiter.step a c).1 calls :=
  Guarded.run hx calls _ (.inl (hremoves.recorded hx hfirst)) hundisturbed hfrontier

/-! ## A removal that is repeated -/

/-- A call that offers a market nothing but an order-level batch that is raced at once. -/
theorem Undisturbed.of_plain {k : BookKey} {x : Nat} {a : Arbiter} {c : Call} {o : Offer} (hoffer : c.offer k a = some o)
    (hroute : (a.joined k o.publisher).orderLevelRoute k o.b = true)
    (hplain : (a.joined k o.publisher).rebaselines k o = [])
    (hroom : ((a.joined k o.publisher).raced k o).1.guard.isOver = false)
    (hkept : ((Arbiter.step a c).1.bookEvents.get k).isSome = true) : Undisturbed k x a c where
  kept := hkept
  routed o' ho' := by
    rw [hoffer] at ho'
    cases ho'
    exact hroute
  unnamed o' ho' := by
    rw [hoffer] at ho'
    cases ho'
    rw [hplain]
    exact nofun
  unshed o' ho' _ := by
    rw [hoffer] at ho'
    cases ho'
    intro h
    rw [h.1] at hroom
    cases hroom

def oneLot : F64 := ⟨0x3FF0000000000000⟩

/-- A change of an order of one market, at a price that only tells its copies apart. -/
def orderChange (id : Nat) (price size : F64) : BookChange := ⟨.update, .bid, price, size, id⟩

def ordersBatch (changes : List BookChange) (sourceTsNs : Nat) : NormalizedBook :=
  ⟨"V", "V", 1, "S", 0, 7, "c", true, changes, none, false, true, sourceTsNs, 0, 0, 0⟩

def ordersKey : BookKey := keyOf (ordersBatch [] 0) "c"

def ordersOffer (changes : List BookChange) (sourceTsNs : Nat) : Offer :=
  ⟨ordersBatch changes sourceTsNs, .edge 1, 0, 100000000000⟩

def offerOrders (changes : List BookChange) (sourceTsNs : Nat) : Call :=
  .emit (ordersBatch changes sourceTsNs) (.edge 1) "c" false 0 100000000000

/-- An arbiter whose channel has seen an order of a newer stamp. -/
def seenNewer : Arbiter :=
  (Arbiter.step (.new ∅ ∅ .DEFAULT 0 .DEFAULT true) (offerOrders [orderChange 2 oneLot oneLot] 100000000000)).1

/-- An order is removed at a frontier of 70 s. -/
def removal : Call := offerOrders [orderChange 1 oneLot F64.zero] 70000000000

/-- The removal is repeated 5 s later, as a change at another price. -/
def repeatedRemoval : Call := offerOrders [orderChange 1 F64.zero F64.zero] 75000000000

/-- Another order takes the frontier to 74 s, and a copy of the removed one is offered there. -/
def laterOrders : List Call :=
  [offerOrders [orderChange 3 oneLot oneLot] 104000000000, offerOrders [orderChange 1 oneLot oneLot] 74000000000]

def removedOnce : Arbiter := (Arbiter.step seenNewer removal).1

def removedTwice : Arbiter := (Arbiter.step removedOnce repeatedRemoval).1

theorem along_laterOrders : machine.Along (Undisturbed ordersKey 1) removedTwice laterOrders :=
  ⟨.of_plain (o := ordersOffer [orderChange 3 oneLot oneLot] 104000000000) rfl rfl rfl rfl rfl,
    .of_plain (o := ordersOffer [orderChange 1 oneLot oneLot] 74000000000) rfl rfl rfl rfl rfl, trivial⟩

theorem frontiers_laterOrders : frontiers ordersKey removedTwice laterOrders = [some 74000000000, some 74000000000] := rfl

theorem frontiers_removedOnce : frontiers ordersKey removedOnce (repeatedRemoval :: laterOrders) =
    [some 70000000000, some 74000000000, some 74000000000] := rfl

theorem notBelow_some {t u : Nat} (h : t ≤ u) : NotBelow (some t) (some u) := fun _ ht => by
  cases ht
  exact ⟨u, rfl, h⟩

/-- The removal that recorded the order guards it through its repetition and what follows. -/
theorem removed_order_stays_removed_laterOrders :
    machine.Along (SparesBelow ordersKey 1 70000000000) removedOnce (repeatedRemoval :: laterOrders) := by
  have hremoves : Removes ordersKey 1 seenNewer removal (ordersOffer [orderChange 1 oneLot F64.zero] 70000000000)
      ⟨⟨some 100000000000, 0, none, some 70000000000⟩, some 70000000000, 70000000000⟩ :=
    { offered := rfl
      routed := rfl
      judged := rfl
      published := ⟨_, List.mem_singleton.mpr rfl, _, List.mem_singleton.mpr rfl, rfl, rfl⟩
      unshed := fun h => Bool.false_ne_true h.1
      kept := rfl }
  refine removed_order_stays_removed ordersKey 1 one_ne_zero seenNewer removal _ _ hremoves rfl
    (repeatedRemoval :: laterOrders) ?_ ?_
  · exact ⟨.of_plain (o := ordersOffer [orderChange 1 F64.zero F64.zero] 75000000000) rfl rfl rfl rfl rfl,
      along_laterOrders⟩
  · show (frontiers ordersKey removedOnce (repeatedRemoval :: laterOrders)).Pairwise NotBelow
    rw [frontiers_removedOnce]
    refine .cons ?_ (.cons ?_ (.cons nofun .nil))
    · intro g hg
      simp only [List.mem_cons, List.not_mem_nil, or_false, or_self] at hg
      rw [hg]
      exact notBelow_some (by decide)
    · intro g hg
      rw [List.mem_singleton.mp hg]
      exact notBelow_some (le_refl _)

/-- A removal that is only repeated is not recorded at its own stamp: once the frontier has passed the recorded one, a
copy of the order from before the repetition goes out. -/
theorem removed_order_stays_removed_repeatedRemoval :
    ¬ ∀ (k : BookKey) (x : Nat) (a : Arbiter) (c : Call) (o : Offer) (j : Judged), x ≠ 0 → Removes k x a c o j →
      ∀ calls : List Call, machine.Along (Undisturbed k x) (Arbiter.step a c).1 calls →
        (frontiers k (Arbiter.step a c).1 calls).Pairwise NotBelow →
        machine.Along (SparesBelow k x j.stamp) (Arbiter.step a c).1 calls := by
  intro h
  have hremoves : Removes ordersKey 1 removedOnce repeatedRemoval
      (ordersOffer [orderChange 1 F64.zero F64.zero] 75000000000)
      ⟨⟨some 100000000000, 0, none, some 75000000000⟩, some 70000000000, 75000000000⟩ :=
    { offered := rfl
      routed := rfl
      judged := rfl
      published := ⟨_, List.mem_singleton.mpr rfl, _, List.mem_singleton.mpr rfl, rfl, rfl⟩
      unshed := fun h => Bool.false_ne_true h.1
      kept := rfl }
  have hmono : (frontiers ordersKey removedTwice laterOrders).Pairwise NotBelow := by
    rw [frontiers_laterOrders]
    refine .cons ?_ (.cons nofun .nil)
    intro g hg
    rw [List.mem_singleton.mp hg]
    exact notBelow_some (le_refl _)
  obtain ⟨-, hspares, -⟩ := h ordersKey 1 removedOnce repeatedRemoval _ _ one_ne_zero hremoves laterOrders
    along_laterOrders hmono
  have hzero := hspares (ordersOffer [orderChange 1 oneLot oneLot] 74000000000) rfl ?_ _ (List.mem_singleton.mpr rfl)
    (orderChange 1 oneLot oneLot) (List.mem_singleton.mpr rfl) rfl
  · cases hzero
  · intro j hj
    cases hj
    exact .inl (by decide)

end EdgeConnect.Arbiter
