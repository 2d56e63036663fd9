import EdgeConnect.Ingest.Arbiter

/-!
# What the gate does to race states outside the race (`Arbiter::drop_book_events` in `src/ingest/arbiter.rs`)

Apart from a race, a call may only drop the race states of markets, each paying its tombstones back to the budget.

* `Drops` — the race states and the budget after some drops, with its rule;
* one lemma for each operation that races nothing, up to the single-path gate (`Drops.emitServed`) and the broadcast of
  what a race kept (`Drops.publishKept`).
-/

set_option autoImplicit false

namespace EdgeConnect.Arbiter

open Authority

/-- The race states and the budget of an arbiter are those of another after some drops. -/
inductive Drops : Arbiter → Arbiter → Prop
  | same {a a' : Arbiter} (hevents : a'.bookEvents = a.bookEvents) (hguard : a'.guard = a.guard) : Drops a a'
  | drop (key : BookKey) (a : Arbiter) : Drops a (a.dropBookEvents key)
  | trans {a a' a'' : Arbiter} (h : Drops a a') (h' : Drops a' a'') : Drops a a''

namespace Drops

variable {a a' : Arbiter} (key : BookKey)

/-- What dropping one race state preserves of the race states and the budget, some drops preserve. -/
theorem rule {P : Arbiter → Prop}
    (hsame : ∀ a a' : Arbiter, a'.bookEvents = a.bookEvents → a'.guard = a.guard → P a → P a')
    (hdrop : ∀ (a : Arbiter) (key : BookKey), P a → P (a.dropBookEvents key)) (h : Drops a a') (ha : P a) : P a' := by
  induction h with
  | same hevents hguard => exact hsame _ _ hevents hguard ha
  | drop key a => exact hdrop a key ha
  | trans _ _ ih ih' => exact ih' (ih ha)

theorem refl (a : Arbiter) : Drops a a := .same rfl rfl

/-- What else an operation changes before the drops, they do not see. -/
theorem before {a'' : Arbiter} (h : Drops a' a'') (hevents : a'.bookEvents = a.bookEvents)
    (hguard : a'.guard = a.guard) : Drops a a'' := (Drops.same hevents hguard).trans h

theorem after {a'' : Arbiter} (h : Drops a a') (hevents : a''.bookEvents = a'.bookEvents)
    (hguard : a''.guard = a'.guard) : Drops a a'' := h.trans (.same hevents hguard)

theorem dropMarketState (a : Arbiter) : Drops a (a.dropMarketState key) := by
  have h := Drops.drop key { a with bookMarkets := a.bookMarkets.erase key, bookSync := a.bookSync.erase key }
  exact .after (.before h rfl rfl) rfl rfl

theorem evictMarkets : ∀ (order : List BookKey) (a : Arbiter), Drops a (Arbiter.evictMarkets order a)
  | [], _ => .same rfl rfl
  | old :: rest, a => by
    unfold Arbiter.evictMarkets
    split
    · exact (dropMarketState old a).trans (evictMarkets rest _)
    · exact .same rfl rfl

theorem ensureMarket (a : Arbiter) : Drops a (a.ensureMarket key) := by
  unfold Arbiter.ensureMarket
  split
  · exact .refl a
  · exact (evictMarkets a.bookOrder a).after rfl rfl

theorem resetBooksForMarkets (keys : List BookKey) (a : Arbiter) : Drops a (a.resetBooksForMarkets keys) := by
  have hfold : ∀ (keys : List BookKey) (a : Arbiter), Drops a (keys.foldl Arbiter.dropMarketState a) := by
    intro keys
    induction keys with
    | nil => exact .refl
    | cons key keys ih => exact fun a => (dropMarketState key a).trans (ih _)
  exact (hfold keys a).after rfl rfl

theorem resetBookSessionForMarket (a : Arbiter) (now : Nat) : Drops a (a.resetBookSessionForMarket key now) := by
  unfold Arbiter.resetBookSessionForMarket
  simp only
  split
  · exact .drop key a
  · exact (Drops.drop key a).after rfl rfl

theorem setBookSynced (a : Arbiter) (publisher : Transport) (synced : Bool) :
    Drops a (a.setBookSynced key publisher synced) := by
  unfold Arbiter.setBookSynced
  split
  · exact .same rfl rfl
  · rename_i books label _
    exact .after (.before (ensureMarket key { a with books }) rfl rfl) rfl rfl

theorem applyBookReplay (a : Arbiter) (b : NormalizedBook) : Drops a (a.applyBookReplay key b) := by
  unfold Arbiter.applyBookReplay
  split
  · exact .refl a
  · split
    · exact .same rfl rfl
    · exact .refl a

theorem monotonicSlot (a : Arbiter) (batchId : Option Nat) : Drops a (a.monotonicSlot key batchId).1 := by
  unfold Arbiter.monotonicSlot
  split
  · exact .refl a
  · exact .refl a
  · split
    · exact .refl a
    · exact .same rfl rfl

theorem forceRebaseline (a : Arbiter) : Drops a (a.forceRebaseline key) := by
  unfold Arbiter.forceRebaseline
  split
  · exact .refl a
  · split
    · exact .refl a
    · exact .same rfl rfl

theorem rebaselineNow (a : Arbiter) (b : NormalizedBook) (publisher : Transport) (wall : Nat) :
    Drops a (a.rebaselineNow key b publisher wall).1 := by
  have hbook : Drops a (a.rebaselineBook key publisher wall).1 := by
    unfold rebaselineBook
    split
    · exact .refl a
    · exact .same rfl rfl
  unfold Arbiter.rebaselineNow
  split
  · rename_i a₁ full heq
    rw [heq] at hbook
    exact hbook.trans (monotonicSlot key a₁ _)
  · rename_i a₁ heq
    rw [heq] at hbook
    exact hbook.trans ((monotonicSlot key a₁ _).trans (monotonicSlot key _ _))

theorem publishSteady (a : Arbiter) (b : NormalizedBook) : Drops a (a.publishSteady key b).1 :=
  (applyBookReplay key a b).trans (monotonicSlot key _ _)

theorem publishAdmitted (a : Arbiter) (b : NormalizedBook) (publisher : Transport) (moved : Bool) (wall : Nat) :
    Drops a (a.publishAdmitted key b publisher moved wall).1 := by
  unfold Arbiter.publishAdmitted
  split
  · exact publishSteady key a b
  · split
    · split
      · exact .same rfl rfl
      · exact (rebaselineNow key _ b publisher wall).before rfl rfl
    · exact publishSteady key a b

theorem accumulateBook (a : Arbiter) (publisher : Transport) (b : NormalizedBook) :
    Drops a (a.accumulateBook key publisher b) := by
  have h := ensureMarket key a
  unfold Arbiter.accumulateBook
  simp only
  split
  · exact h
  · exact h.after rfl rfl

/-- The single-path gate races nothing. -/
theorem emitServed (a : Arbiter) (b : NormalizedBook) (publisher : Transport) (synthesized : Bool) (wall : Nat) :
    Drops a (a.emitServed key b publisher synthesized wall).1 := by
  have hensure := ensureMarket key a
  unfold Arbiter.emitServed
  simp only
  generalize a.ensureMarket key = a₁ at hensure ⊢
  generalize judgeBatch (a₁.noteBatch key b publisher synthesized) key b publisher synthesized = judged
  obtain ⟨books', decision⟩ := judged
  have hbooks : Drops a { a₁ with books := books' } := hensure.after rfl rfl
  have hacc := hbooks.trans (accumulateBook key { a₁ with books := books' } publisher b)
  simp only
  generalize ({ a₁ with books := books' } : Arbiter).accumulateBook key publisher b = a₂ at hacc ⊢
  split
  · exact hacc.trans (publishAdmitted key a₂ b publisher _ wall)
  · split
    · exact hacc.trans (forceRebaseline key a₂)
    · exact hacc

theorem noteBookDelivery (a : Arbiter) (b : NormalizedBook) (publisher : Transport) (now : Nat) :
    Drops a (a.noteBookDelivery key b publisher now) := by
  have h := ensureMarket key a
  unfold Arbiter.noteBookDelivery
  simp only
  split
  · split
    · exact h.after rfl rfl
    · exact h.after rfl rfl
  · exact h.after rfl rfl

/-- Broadcasting a batch of the race races nothing. -/
theorem delivered (a : Arbiter) (b b' : NormalizedBook) (publisher : Transport) (now : Nat) :
    Drops a ((a.noteBookDelivery key b publisher now).publishBook key b').1 :=
  (noteBookDelivery key a b publisher now).trans ((ensureMarket key _).trans (applyBookReplay key _ b'))

theorem publishKept (a : Arbiter) (b : NormalizedBook) (publisher : Transport) (now : Nat) (forced : Bool)
    (kept : List BookChange) : Drops a (a.publishKept key b publisher now forced kept).1 := by
  have hforce : Drops a (if forced then a.forceRebaseline key else a) := by
    split
    · exact forceRebaseline key a
    · exact .refl a
  unfold Arbiter.publishKept
  simp only
  generalize (if forced then a.forceRebaseline key else a) = a₁ at hforce ⊢
  split
  · exact hforce
  · exact hforce.trans (delivered key a₁ b _ publisher now)

/-- A producer's re-baseline goes out once the race state is pointed at it. -/
theorem clearLed (a : Arbiter) (b : NormalizedBook) (publisher : Transport) (now : Nat) :
    Drops (a.rebaselineEvents key b.changes (a.channelNewest key)) (a.clearLedRebaseline key b publisher now).1 := by
  unfold Arbiter.clearLedRebaseline
  simp only
  generalize a.rebaselineEvents key b.changes (a.channelNewest key) = a₁
  split
  · exact delivered key a₁ b b publisher now
  · rename_i m _
    exact (delivered key (a₁.setMarket key { m with rebaseline := false, withheld := 0 }) b b publisher now).before
      rfl rfl

theorem clockFor (a : Arbiter) (ck : ChannelKey) : Drops a (a.clockFor ck).1 := by
  unfold Arbiter.clockFor
  split
  · exact .refl a
  · exact .same rfl rfl

end Drops

end EdgeConnect.Arbiter
