import Mathlib.Logic.Relation
import EdgeConnect.Ingest.MarketEvents
import EdgeConnect.Lib.Census
import EdgeConnect.Lib.Fifo

/-!
# The accounting of one market's removed orders (`MarketEvents` in `src/ingest/arbiter.rs`)

A market mirrors by hand what its map of slots holds: two counters, two lazily cleaned queues, the queue of the dedup
window, and its share of the process-wide budget.

* `Accounted` — the mirrors are exact;
* `Move` — the single changes a market's operations are made of, each with at most one release of the budget;
* `Solvent` — an accounted market whose removed orders the budget covers; `Move.solvent`, `Move.paid` — a move keeps it
  so, and moves the budget by exactly what it moves the market;
* `judge_moves`, `admitEvent_moves`, `forgetExpired_moves`, `forgetOldestRemoved_moves`, `rebaselined_moves` — the
  operations are runs of moves.
-/

set_option autoImplicit false

namespace EdgeConnect.Arbiter.MarketEvents

/-! ## The mirrors -/

/-- The counters and the queues are those of the slots, and a removed slot has no owner. -/
structure Counted (e : MarketEvents) : Prop where
  live : Census e.resting (fun s => !s.removed) e.nLive e.live
  dead : Census e.resting Slot.removed e.nDead e.dead
  disowned : ∀ id s, e.slot id = some s → s.removed = true → s.owner = none

/-- The dedup window and its queue hold the same events, each once, within the cap. -/
structure Windowed (e : MarketEvents) : Prop where
  listed : Lists e.order e.seen.keys
  bounded : e.order.length ≤ MAX_SEEN_ORDER_EVENTS

/-- **The accounting of a market is exact**, and its live floors are within their cap. -/
structure Accounted (e : MarketEvents) : Prop extends Counted e, Windowed e where
  capped : e.nLive ≤ MAX_GUARDED_ORDERS

theorem accounted_default : Accounted default where
  live := Census.empty []
  dead := Census.empty []
  disowned := nofun
  listed := .nil
  bounded := Nat.zero_le _
  capped := Nat.zero_le _

variable {e : MarketEvents} {budget : GuardBudget} {id : Nat}

/-- The window sees nothing of the slots. -/
theorem Windowed.of_eq {e' : MarketEvents} (h : Windowed e) (hseen : e'.seen = e.seen) (horder : e'.order = e.order) :
    Windowed e' := by
  refine ⟨?_, ?_⟩
  · rw [hseen, horder]
    exact h.listed
  · rw [horder]
    exact h.bounded

theorem not_removed_of_live (h : e.isLive id = true) : e.isRemoved id = false := by
  unfold isLive at h
  unfold isRemoved
  cases hs : e.slot id with
  | none => rfl
  | some s =>
    rw [hs] at h
    simpa using h

theorem not_live_of_removed (h : e.isRemoved id = true) : e.isLive id = false := by
  cases hlive : e.isLive id with
  | false => rfl
  | true => rw [not_removed_of_live hlive] at h; cases h

theorem not_held_of_none (h : e.slot id = none) : e.isLive id = false ∧ e.isRemoved id = false := by
  unfold isLive isRemoved
  rw [h]
  exact ⟨rfl, rfl⟩

/-- A slot that goes away leaves the others their owners. -/
theorem Counted.disowned_erase (h : Counted e) (id : Nat) :
    ∀ x s, (e.resting.erase id).get x = some s → s.removed = true → s.owner = none := by
  intro x s hs
  rw [FinMap.get_erase] at hs
  split at hs
  · cases hs
  · exact h.disowned x s hs

theorem Counted.disowned_insert (h : Counted e) (id : Nat) {s : Slot} (hs : s.removed = true → s.owner = none) :
    ∀ x s', (e.resting.insert id s).get x = some s' → s'.removed = true → s'.owner = none := by
  intro x s' hs'
  rw [FinMap.get_insert] at hs'
  split at hs'
  · cases hs'
    exact hs
  · exact h.disowned x s' hs'

/-! ## The bounds -/

theorem Counted.compact (h : Counted e) : Counted e.compact := by
  refine ⟨?_, ?_, h.disowned⟩
  · show Census e.resting _ e.nLive (if _ then _ else _)
    split
    · exact h.live.clean
    · exact h.live
  · show Census e.resting _ e.nDead (if _ then _ else _)
    split
    · exact h.dead.clean
    · exact h.dead

/-- The loop evicts live floors until they are within the cap: an empty queue has none to evict, and none are left. -/
theorem boundLiveLoop_counted : ∀ (queue : List Nat) (e : MarketEvents), Counted { e with live := queue } →
    Counted (e.boundLiveLoop queue) ∧ (e.boundLiveLoop queue).nLive ≤ MAX_GUARDED_ORDERS
  | [], e, h => by
    refine ⟨h, ?_⟩
    have hnone : e.nLive = 0 := h.live.nil
    show e.nLive ≤ _
    omega
  | id :: rest, e, h => by
    unfold boundLiveLoop
    split
    · split
      · rename_i hlive
        refine boundLiveLoop_counted rest { e with resting := e.resting.erase id, nLive := e.nLive - 1 } ⟨?_, ?_, ?_⟩
        · exact h.live.pop hlive
        · exact h.dead.erase (not_removed_of_live hlive)
        · exact h.disowned_erase id
      · rename_i hstale
        exact boundLiveLoop_counted rest e
          ⟨h.live.skip ((Bool.not_eq_true _).mp hstale), h.dead, h.disowned⟩
    · rename_i hroom
      exact ⟨h, Nat.le_of_not_gt hroom⟩

theorem boundLiveLoop_frame : ∀ (queue : List Nat) (e : MarketEvents), (e.boundLiveLoop queue).nDead = e.nDead ∧
    (e.boundLiveLoop queue).seen = e.seen ∧ (e.boundLiveLoop queue).order = e.order
  | [], _ => ⟨rfl, rfl, rfl⟩
  | id :: rest, e => by
    unfold boundLiveLoop
    split
    · split
      · exact boundLiveLoop_frame rest { e with resting := e.resting.erase id, nLive := e.nLive - 1 }
      · exact boundLiveLoop_frame rest e
    · exact ⟨rfl, rfl, rfl⟩

theorem boundLive_frame (e : MarketEvents) :
    e.boundLive.nDead = e.nDead ∧ e.boundLive.seen = e.seen ∧ e.boundLive.order = e.order :=
  boundLiveLoop_frame e.live e

/-- Bounding the live floors restores the cap. -/
theorem boundLive_accounted (h : Counted e) (hw : Windowed e) : Accounted e.boundLive := by
  obtain ⟨hcounted, hcapped⟩ := boundLiveLoop_counted e.live e h
  obtain ⟨-, hseen, horder⟩ := boundLive_frame e
  exact { hcounted.compact, hw.of_eq hseen horder with capped := hcapped }

/-! ## The single changes -/

/-- An operation moved the budget by what it moved the market: no release ran past what was held. -/
def Paid (p q : MarketEvents × GuardBudget) : Prop := q.2.held + p.1.nDead = p.2.held + q.1.nDead

/-- A tracked order is inserted as a live one, queued unless it was live already, and then the live floors are bounded. -/
theorem trackFloor_inserted (h : Accounted e) (budget : GuardBudget) (id : Nat) {size : F64} (by' : Option Transport)
    (lastTs : Nat) (hsize : size.eq F64.zero = false) :
    ∃ e₁, (e.trackFloor id size by' lastTs budget).1 = e₁.boundLive ∧ Counted e₁ ∧ Windowed e₁ ∧
      e₁.resting = e.resting.insert id ⟨lastTs, size, by'⟩ ∧ e₁.dead = e.dead ∧
        (e.isLive id = true ∧ e₁.live = e.live ∨ e.isLive id = false ∧ e₁.live = e.live ++ [id]) := by
  have hlive : (!(⟨lastTs, size, by'⟩ : Slot).removed) = true := by rw [Slot.removed, hsize]; rfl
  have howner := h.disowned_insert id (s := ⟨lastTs, size, by'⟩) fun hrem => by
    rw [Slot.removed, hsize] at hrem
    cases hrem
  unfold trackFloor
  simp only
  split
  · rename_i hnone
    obtain ⟨hl, hr⟩ := not_held_of_none hnone
    exact ⟨_, rfl, ⟨h.live.add hl hlive, h.dead.pass hr hsize, howner⟩, ⟨h.listed, h.bounded⟩, rfl, rfl,
      Or.inr ⟨hl, rfl⟩⟩
  · rename_i prior hprior
    split
    · rename_i hrem
      have hr : e.isRemoved id = true := by unfold isRemoved; rw [hprior]; exact hrem
      have hl := not_live_of_removed hr
      exact ⟨_, rfl, ⟨h.live.add hl hlive, h.dead.leave hr hsize, howner⟩, ⟨h.listed, h.bounded⟩, rfl, rfl,
        Or.inr ⟨hl, rfl⟩⟩
    · rename_i hrem
      have hl : e.isLive id = true := by unfold isLive; rw [hprior]; simpa using hrem
      exact ⟨_, rfl, ⟨h.live.keep hl hlive, h.dead.pass (not_removed_of_live hl) hsize, howner⟩,
        ⟨h.listed, h.bounded⟩, rfl, rfl, Or.inl ⟨hl, rfl⟩⟩

theorem trackFloor_accounted (h : Accounted e) (budget : GuardBudget) (id : Nat) {size : F64} (by' : Option Transport)
    (lastTs : Nat) (hsize : size.eq F64.zero = false) : Accounted (e.trackFloor id size by' lastTs budget).1 := by
  obtain ⟨e₁, heq, hcounted, hwindowed, -⟩ := trackFloor_inserted h budget id by' lastTs hsize
  rw [heq]
  exact boundLive_accounted hcounted hwindowed

/-- Tracking an order releases it from the budget when it was held as removed. -/
theorem trackFloor_paid (h : Accounted e) (hcover : e.nDead ≤ budget.held) (id : Nat) (size : F64)
    (by' : Option Transport) (lastTs : Nat) : Paid (e, budget) (e.trackFloor id size by' lastTs budget) := by
  unfold Paid trackFloor
  simp only
  split
  · rw [(boundLive_frame _).1]
  · rename_i prior hprior
    split
    · rename_i hrem
      rw [(boundLive_frame _).1]
      have hpos : 0 < e.nDead := h.dead.pos hprior hrem
      show budget.held - 1 + e.nDead = budget.held + (e.nDead - 1)
      omega
    · rw [(boundLive_frame _).1]

theorem removeOrder_accounted (h : Accounted e) (budget : GuardBudget) (id lastTs : Nat) :
    Accounted (e.removeOrder id lastTs budget).1 := by
  unfold removeOrder
  split
  · exact h
  · rename_i hrem
    rw [Bool.not_eq_true] at hrem
    have hless : (if e.isLive id then e.nLive - 1 else e.nLive) ≤ e.nLive := by split <;> omega
    refine { live := ?_, dead := h.dead.add hrem rfl, disowned := h.disowned_insert id fun _ => rfl,
             listed := h.listed, bounded := h.bounded, capped := hless.trans h.capped }
    show Census _ _ (if e.isLive id then _ else _) _
    cases hlive : e.isLive id with
    | true => exact h.live.leave hlive rfl
    | false => exact h.live.pass hlive rfl

theorem removeOrder_paid (e : MarketEvents) (budget : GuardBudget) (id lastTs : Nat) :
    Paid (e, budget) (e.removeOrder id lastTs budget) := by
  unfold Paid removeOrder
  split
  · rfl
  · show budget.held + 1 + e.nDead = budget.held + (e.nDead + 1)
    omega

theorem trimSeen_windowed : ∀ (order : List OrderEvent) (seen : FinMap OrderEvent (Transport × Nat)),
    Lists order seen.keys → Lists (trimSeen seen order).2 (trimSeen seen order).1.keys ∧
      (trimSeen seen order).2.length ≤ MAX_SEEN_ORDER_EVENTS
  | [], _, h => ⟨h, Nat.zero_le _⟩
  | old :: rest, seen, h => by
    unfold trimSeen
    split
    · refine trimSeen_windowed rest (seen.erase old) ?_
      rw [FinMap.keys_erase]
      exact h.pop
    · rename_i hroom
      exact ⟨h, Nat.le_of_not_gt hroom⟩

theorem noteSeen_windowed (h : Windowed e) {ev : OrderEvent} (hnew : e.seen.contains ev = false)
    (publisher : Transport) (arrivalNs : Nat) : Windowed (e.noteSeen ev publisher arrivalNs) := by
  have hout : ev ∉ e.seen.keys := FinMap.notMem_keys_iff.mpr (FinMap.contains_eq_false.mp hnew)
  have hlists : Lists (e.order ++ [ev]) (e.seen.insert ev (publisher, arrivalNs)).keys := by
    rw [FinMap.keys_insert]
    exact h.listed.push hout
  obtain ⟨hlisted, hbounded⟩ := trimSeen_windowed _ _ hlists
  exact ⟨hlisted, hbounded⟩

/-- Every queued event is in the window, so none is skipped as stale. -/
theorem expireLoop_windowed (now windowNs : Nat) : ∀ (order : List OrderEvent)
    (seen : FinMap OrderEvent (Transport × Nat)), Lists order seen.keys →
    Lists (expireLoop now windowNs seen order).2 (expireLoop now windowNs seen order).1.keys ∧
      (expireLoop now windowNs seen order).2.length ≤ order.length
  | [], _, h => ⟨h, Nat.le_refl _⟩
  | oldest :: rest, seen, h => by
    obtain ⟨v, hv⟩ := FinMap.mem_keys_iff.mp ((h.mem oldest).mp List.mem_cons_self)
    unfold expireLoop
    rw [hv]
    simp only
    split
    · exact ⟨h, Nat.le_refl _⟩
    · have hpop : Lists rest (seen.erase oldest).keys := by
        rw [FinMap.keys_erase]
        exact h.pop
      obtain ⟨hlisted, hless⟩ := expireLoop_windowed now windowNs rest (seen.erase oldest) hpop
      exact ⟨hlisted, hless.trans (Nat.le_succ _)⟩

theorem expire_windowed (h : Windowed e) (now windowNs : Nat) : Windowed (e.expire now windowNs) := by
  obtain ⟨hlisted, hless⟩ := expireLoop_windowed now windowNs e.order e.seen h.listed
  exact ⟨hlisted, hless.trans h.bounded⟩

/-- One change of a market's race state and of the budget, with at most one release. -/
inductive Move : MarketEvents × GuardBudget → MarketEvents × GuardBudget → Prop
  | track (e : MarketEvents) (budget : GuardBudget) (id : Nat) (size : F64) (by' : Option Transport) (lastTs : Nat)
      (hsize : size.eq F64.zero = false) : Move (e, budget) (e.trackFloor id size by' lastTs budget)
  | remove (e : MarketEvents) (budget : GuardBudget) (id lastTs : Nat) :
      Move (e, budget) (e.removeOrder id lastTs budget)
  | touch (e : MarketEvents) (budget : GuardBudget) (id : Nat) (s : Slot) (hlive : e.isLive id = true)
      (hs : s.removed = false) : Move (e, budget) ({ e with resting := e.resting.insert id s }, budget)
  | force (e : MarketEvents) (budget : GuardBudget) (forced : Option ForcedReason) :
      Move (e, budget) ({ e with forced }, budget)
  | expire (e : MarketEvents) (budget : GuardBudget) (now windowNs : Nat) :
      Move (e, budget) (e.expire now windowNs, budget)
  | note (e : MarketEvents) (budget : GuardBudget) (ev : OrderEvent) (publisher : Transport) (arrivalNs : Nat)
      (hnew : e.seen.contains ev = false) : Move (e, budget) (e.noteSeen ev publisher arrivalNs, budget)
  | clear (e : MarketEvents) (budget : GuardBudget) : Move (e, budget) ({ e with seen := ∅, order := [] }, budget)
  | skip (e : MarketEvents) (budget : GuardBudget) (id : Nat) (rest : List Nat) (hdead : e.dead = id :: rest)
      (hstale : e.isRemoved id = false) : Move (e, budget) ({ e with dead := rest }, budget)
  | forget (e : MarketEvents) (budget : GuardBudget) (id : Nat) (rest : List Nat) (hdead : e.dead = id :: rest)
      (hgone : e.isRemoved id = true) :
      Move (e, budget)
        ({ e with resting := e.resting.erase id, nDead := e.nDead - 1, dead := rest }, budget.release 1)
  | compact (e : MarketEvents) (budget : GuardBudget) : Move (e, budget) (e.compact, budget)

/-- A run of such changes. -/
abbrev Moves := Relation.ReflTransGen Move

/-- An accounted market, whose removed orders the budget covers. -/
structure Solvent (p : MarketEvents × GuardBudget) : Prop where
  accounted : Accounted p.1
  covered : p.1.nDead ≤ p.2.held

theorem forget_accounted (h : Accounted e) {rest : List Nat} (hdead : e.dead = id :: rest)
    (hgone : e.isRemoved id = true) :
    Accounted { e with resting := e.resting.erase id, nDead := e.nDead - 1, dead := rest } where
  live := h.live.erase (not_live_of_removed hgone)
  dead := (hdead ▸ h.dead : Census e.resting Slot.removed e.nDead (id :: rest)).pop hgone
  disowned := h.disowned_erase id
  listed := h.listed
  bounded := h.bounded
  capped := h.capped

theorem Move.accounted {p q : MarketEvents × GuardBudget} (h : Move p q) (hp : Accounted p.1) : Accounted q.1 := by
  cases h with
  | track e budget id size by' lastTs hsize => exact trackFloor_accounted hp budget id by' lastTs hsize
  | remove e budget id lastTs => exact removeOrder_accounted hp budget id lastTs
  | touch e budget id s hlive hs =>
    have hfree := hp.disowned_insert id (s := s) fun hrem => by rw [hs] at hrem; cases hrem
    exact { hp with
            live := hp.live.keep hlive (by rw [hs]; rfl)
            dead := hp.dead.pass (not_removed_of_live hlive) hs
            disowned := hfree }
  | force e budget forced => exact { hp with }
  | expire e budget now windowNs => exact { expire_windowed hp.toWindowed now windowNs, hp with }
  | note e budget ev publisher arrivalNs hnew =>
    exact { noteSeen_windowed hp.toWindowed hnew publisher arrivalNs, hp with }
  | clear e budget => exact { hp with listed := .nil, bounded := Nat.zero_le _ }
  | skip e budget id rest hdead hstale =>
    have hdead' : Census e.resting Slot.removed e.nDead (id :: rest) := hdead ▸ hp.dead
    exact { hp with dead := hdead'.skip hstale }
  | forget e budget id rest hdead hgone => exact forget_accounted hp hdead hgone
  | compact e budget => exact { hp.compact, hp with }

/-- **A move pays for what it does**: the budget moves by exactly what the market's removed orders do. -/
theorem Move.paid {p q : MarketEvents × GuardBudget} (h : Move p q) (hp : Solvent p) : Paid p q := by
  cases h with
  | track e budget id size by' lastTs => exact trackFloor_paid hp.accounted hp.covered id size by' lastTs
  | remove e budget id lastTs => exact removeOrder_paid e budget id lastTs
  | forget e budget id rest hdead hgone =>
    obtain ⟨s, hs, hrem⟩ := (Option.any_eq_true _ _).mp hgone
    have hpos : 0 < e.nDead := hp.accounted.dead.pos hs hrem
    have hcover : e.nDead ≤ budget.held := hp.covered
    show budget.held - 1 + e.nDead = budget.held + (e.nDead - 1)
    omega
  | _ => rfl

theorem Move.solvent {p q : MarketEvents × GuardBudget} (h : Move p q) (hp : Solvent p) : Solvent q := by
  have hpaid : q.2.held + p.1.nDead = p.2.held + q.1.nDead := h.paid hp
  have hcover := hp.covered
  exact ⟨h.accounted hp.accounted, by omega⟩

theorem Moves.solvent {p q : MarketEvents × GuardBudget} (h : Moves p q) (hp : Solvent p) : Solvent q := by
  induction h with
  | refl => exact hp
  | tail _ hmove ih => exact hmove.solvent ih

/-- **A run of moves pays for what it does.** -/
theorem Moves.paid {p q : MarketEvents × GuardBudget} (h : Moves p q) (hp : Solvent p) : Paid p q := by
  induction h with
  | refl => rfl
  | @tail q r hmoves hmove ih =>
    have hstep : r.2.held + q.1.nDead = q.2.held + r.1.nDead := hmove.paid (Moves.solvent hmoves hp)
    have hrun : q.2.held + p.1.nDead = p.2.held + q.1.nDead := ih
    show r.2.held + p.1.nDead = p.2.held + r.1.nDead
    omega

/-! ## The operations are runs of moves -/

theorem judge_seen (e : MarketEvents) (ev : OrderEvent) (publisher : Transport) (sourceTs : Nat)
    (budget : GuardBudget) : (e.judge ev publisher sourceTs budget).1.seen = e.seen := by
  have hremove : (e.removeOrder ev.orderId sourceTs budget).1.seen = e.seen := by
    unfold removeOrder
    split <;> rfl
  have htrack : (e.trackFloor ev.orderId ev.size (some publisher) sourceTs budget).1.seen = e.seen := by
    unfold trackFloor
    simp only
    split
    · exact (boundLive_frame _).2.1
    · split <;> exact (boundLive_frame _).2.1
  unfold judge
  split
  · simp only
    split
    · exact hremove
    · exact htrack
  · split
    · split <;> rfl
    · split
      · rfl
      · split
        · exact hremove
        · split <;> rfl

/-- A slot that is shrunk, or only re-stamped, stays live. -/
theorem judge_moves (e : MarketEvents) (ev : OrderEvent) (publisher : Transport) (sourceTs : Nat)
    (budget : GuardBudget) : Moves (e, budget)
      ((e.judge ev publisher sourceTs budget).1, (e.judge ev publisher sourceTs budget).2.1) := by
  unfold judge
  split
  · simp only
    split
    · exact .single (.remove e budget ev.orderId sourceTs)
    · rename_i hsize
      exact .single (.track e budget ev.orderId ev.size (some publisher) sourceTs ((Bool.not_eq_true _).mp hsize))
  · rename_i s hs
    split
    · split <;> exact .refl
    · rename_i hrem
      split
      · exact .refl
      · split
        · exact .single (.remove e budget ev.orderId sourceTs)
        · rename_i hsize
          split
          · exact .single (.force e budget _)
          · have hlive : e.isLive ev.orderId = true := by unfold isLive; rw [hs]; simpa using hrem
            refine .single (.touch e budget ev.orderId _ hlive ?_)
            rw [Bool.not_eq_true] at hrem hsize
            simp only [Slot.removed] at hrem ⊢
            split
            · exact hsize
            · exact hrem

theorem admitEvent_moves (e : MarketEvents) (ev : OrderEvent) (publisher : Transport)
    (arrivalNs sourceTs windowNs : Nat) (budget : GuardBudget) : Moves (e, budget)
      ((e.admitEvent ev publisher arrivalNs sourceTs windowNs budget).1,
        (e.admitEvent ev publisher arrivalNs sourceTs windowNs budget).2.1) := by
  have hexpire : Moves (e, budget) (e.expire arrivalNs windowNs, budget) :=
    .single (.expire e budget arrivalNs windowNs)
  unfold admitEvent
  simp only
  generalize e.expire arrivalNs windowNs = e₁ at hexpire ⊢
  split
  · exact hexpire
  · rename_i hnew
    have hjudge := judge_moves e₁ ev publisher sourceTs budget
    have hseen := judge_seen e₁ ev publisher sourceTs budget
    split
    · rename_i e₂ budget₂ hdeliver
      rw [hdeliver] at hjudge hseen
      refine (hexpire.trans hjudge).tail (.note e₂ budget₂ ev publisher arrivalNs ?_)
      rw [hseen]
      exact (Bool.not_eq_true _).mp hnew
    · exact hexpire.trans hjudge

theorem forgetLoop_moves (frontier : Nat) : ∀ (n : Nat) (e : MarketEvents) (budget : GuardBudget),
    Moves (e, budget) (forgetLoop frontier n e budget)
  | 0, _, _ => .refl
  | n + 1, e, budget => by
    unfold forgetLoop
    split
    · exact .refl
    · rename_i id rest hdead
      split
      · rename_i hnone
        exact .head (.skip e budget id rest hdead (not_held_of_none hnone).2) (forgetLoop_moves frontier n _ budget)
      · rename_i s hs
        have hremoved : e.isRemoved id = s.removed := by unfold isRemoved; rw [hs]; rfl
        split
        · rename_i hrem
          split
          · exact .refl
          · exact .head (.forget e budget id rest hdead (hremoved.trans hrem)) (forgetLoop_moves frontier n _ _)
        · rename_i hlive
          exact .head (.skip e budget id rest hdead (hremoved.trans ((Bool.not_eq_true _).mp hlive)))
            (forgetLoop_moves frontier n _ budget)

theorem forgetExpired_moves (e : MarketEvents) (frontier : Option Nat) (budget : GuardBudget) :
    Moves (e, budget) (e.forgetExpired frontier budget) := by
  unfold forgetExpired
  split
  · exact .refl
  · rename_i f
    exact (forgetLoop_moves f MAX_FORGOTTEN_PER_BATCH e budget).tail (.compact _ _)

/-- Popping skips the stale entries ahead of the oldest removed order. -/
theorem forgetOldestRemoved_moves (budget : GuardBudget) : ∀ (queue : List Nat) (e : MarketEvents), e.dead = queue →
    Moves (e, budget) ((e.forgetOldestRemoved budget).1, (e.forgetOldestRemoved budget).2.1)
  | [], e, hdead => by
    have hsame : { e with dead := [] } = e := by rw [← hdead]
    unfold forgetOldestRemoved
    rw [hdead]
    exact hsame ▸ .refl
  | id :: rest, e, hdead => by
    cases hgone : e.isRemoved id with
    | true =>
      unfold forgetOldestRemoved
      rw [hdead, pop, if_pos hgone]
      exact .single (.forget e budget id rest hdead hgone)
    | false =>
      have hskip : e.forgetOldestRemoved budget =
          ({ e with dead := rest } : MarketEvents).forgetOldestRemoved budget := by
        unfold forgetOldestRemoved
        rw [hdead, pop, if_neg (by rw [hgone]; exact Bool.false_ne_true)]
        rfl
      rw [hskip]
      exact .head (.skip e budget id rest hdead hgone)
        (forgetOldestRemoved_moves budget rest { e with dead := rest } rfl)

theorem seed_moves (seedTs : Nat) : ∀ (changes : List BookChange) (e : MarketEvents) (budget : GuardBudget),
    Moves (e, budget) (seed seedTs changes e budget)
  | [], _, _ => .refl
  | c :: cs, e, budget => by
    unfold seed
    split
    · rename_i hc
      exact .head (.track e budget c.orderId c.size none seedTs hc.2) (seed_moves seedTs cs _ _)
    · exact seed_moves seedTs cs e budget

theorem rebaselined_moves (e : MarketEvents) (changes : List BookChange) (seedTs : Nat) (budget : GuardBudget) :
    Moves (e, budget) (e.rebaselined changes seedTs budget) :=
  .head (.clear e budget) (.head (.force _ budget none) (seed_moves seedTs changes _ budget))

end EdgeConnect.Arbiter.MarketEvents
