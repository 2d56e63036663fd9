import EdgeConnect.Ingest.MarketTombstones
import EdgeConnect.Lib.Machine

/-!
# The length of one market's queues (`MarketEvents::compact` in `src/ingest/arbiter.rs`)

A queue is cleaned lazily: `compact` drops the entries whose slot does not match the queue, and keeps each one that
does.

* `market` — the calls on one market; a step answers with the states right after each `track_floor` and
  `forget_expired` inside it;
* `Proportional` — the queues are within twice what they order, or twice the cap;
* `QueuesOnce` — a call queues no order that still has an entry in the queue it goes to;
* `queues_are_proportional` — so they are, in every run whose calls all meet `QueuesOnce`;
* `requeued_order_outgrows` — an order that is removed and seeded again, over and over, leaves an entry each time.
-/

set_option autoImplicit false

namespace EdgeConnect.Arbiter.MarketEvents

/-! ## The calls -/

inductive Call where
  | admitEvent (ev : OrderEvent) (publisher : Transport) (arrivalNs sourceTs windowNs : Nat)
  | rebaselined (changes : List BookChange) (seedTs : Nat)
  | forgetExpired (frontier : Option Nat)
  | forgetOldestRemoved

/-- The market after a call. -/
def after (e : MarketEvents) (budget : GuardBudget) : Call → MarketEvents
  | .admitEvent ev publisher arrivalNs sourceTs windowNs =>
    (e.admitEvent ev publisher arrivalNs sourceTs windowNs budget).1
  | .rebaselined changes seedTs => (e.rebaselined changes seedTs budget).1
  | .forgetExpired frontier => (e.forgetExpired frontier budget).1
  | .forgetOldestRemoved => (e.forgetOldestRemoved budget).1

/-- The states after each `track_floor` of the seeding loop. -/
def seedStates (seedTs : Nat) : List BookChange → MarketEvents → GuardBudget → List MarketEvents
  | [], _, _ => []
  | c :: cs, e, budget =>
    if c.orderId ≠ 0 ∧ c.size.eq F64.zero = false then
      let (e, budget) := e.trackFloor c.orderId c.size none seedTs budget
      e :: seedStates seedTs cs e budget
    else seedStates seedTs cs e budget

/-- The state after the `track_floor` of an admission, if it makes one. -/
def admitStates (e : MarketEvents) (ev : OrderEvent) (publisher : Transport) (sourceTs : Nat) (budget : GuardBudget) :
    List MarketEvents :=
  if e.seen.contains ev ∨ e.slot ev.orderId ≠ none ∨ ev.size.eq F64.zero then []
  else [(e.trackFloor ev.orderId ev.size (some publisher) sourceTs budget).1]

/-- The states right after each `track_floor` and `forget_expired` of a call. -/
def checkpoints (e : MarketEvents) (budget : GuardBudget) : Call → List MarketEvents
  | .admitEvent ev publisher arrivalNs sourceTs windowNs =>
    (e.expire arrivalNs windowNs).admitStates ev publisher sourceTs budget
  | .rebaselined changes seedTs => seedStates seedTs changes { e with seen := ∅, order := [], forced := none } budget
  | .forgetExpired frontier => [(e.forgetExpired frontier budget).1]
  | .forgetOldestRemoved => []

/-- One market under its calls, each with what the process-wide budget is at that time. -/
def market : Machine MarketEvents (Call × GuardBudget) (List MarketEvents) :=
  ⟨fun e c => (e.after c.2 c.1, e.checkpoints c.2 c.1)⟩

/-- The queues are within twice what they order, or twice the cap. -/
structure Proportional (e : MarketEvents) : Prop where
  live : e.live.length ≤ 2 * MAX_GUARDED_ORDERS
  dead : e.dead.length ≤ 2 * max e.nDead MAX_GUARDED_ORDERS

/-- A call queues no order that still has an entry in the queue it goes to, and returns early only from a
`forget_expired` that finds nothing to compact in the dead queue. -/
def QueuesOnce (e : MarketEvents) : Call × GuardBudget → Prop
  | (.admitEvent ev _ arrivalNs _ windowNs, _) =>
    (e.expire arrivalNs windowNs).seen.contains ev = false →
      (e.slot ev.orderId = none → ev.size.eq F64.zero = false → ev.orderId ∉ e.live) ∧
        (e.isRemoved ev.orderId = false → ev.size.eq F64.zero = true → ev.orderId ∉ e.dead)
  | (.rebaselined changes _, _) =>
    ∀ c ∈ changes, c.orderId ≠ 0 → c.size.eq F64.zero = false → e.isLive c.orderId = true ∨ c.orderId ∉ e.live
  | (.forgetExpired none, _) => e.dead.length ≤ 2 * max e.nDead MAX_GUARDED_ORDERS
  | (.forgetExpired (some _), _) => True
  | (.forgetOldestRemoved, _) => True

/-! ## Queues without repetition -/

/-- The accounting is exact, the queues name an order once, and the live queue is within its bound. -/
structure Queued (e : MarketEvents) : Prop extends Accounted e where
  liveOnce : e.live.Nodup
  deadOnce : e.dead.Nodup
  liveLength : e.live.length ≤ 2 * MAX_GUARDED_ORDERS

theorem queued_default : Queued default :=
  { accounted_default with liveOnce := List.nodup_nil, deadOnce := List.nodup_nil, liveLength := Nat.zero_le _ }

variable {e : MarketEvents} {budget : GuardBudget} {id : Nat}

/-- Evicting from the front leaves the orders still queued as they were. -/
theorem boundLiveLoop_live : ∀ (queue : List Nat) (e : MarketEvents), queue.Nodup →
    (e.boundLiveLoop queue).live <:+ queue ∧
      (∀ x ∈ (e.boundLiveLoop queue).live, (e.boundLiveLoop queue).slot x = e.slot x) ∧
        (e.boundLiveLoop queue).dead = e.dead
  | [], _, _ => ⟨List.suffix_refl _, fun x hx => (by cases hx), rfl⟩
  | id :: rest, e, hnodup => by
    obtain ⟨hout, hnodup⟩ := List.nodup_cons.mp hnodup
    unfold boundLiveLoop
    split
    · split
      · obtain ⟨hsuffix, hslot, hdead⟩ :=
          boundLiveLoop_live rest { e with resting := e.resting.erase id, nLive := e.nLive - 1 } hnodup
        refine ⟨hsuffix.trans (List.suffix_cons id rest), fun x hx => ?_, hdead⟩
        have hne : x ≠ id := by
          rintro rfl
          exact hout (hsuffix.subset hx)
        exact (hslot x hx).trans (FinMap.get_erase_of_ne _ hne)
      · obtain ⟨hsuffix, hslot, hdead⟩ := boundLiveLoop_live rest e hnodup
        exact ⟨hsuffix.trans (List.suffix_cons id rest), hslot, hdead⟩
    · exact ⟨List.suffix_refl _, fun x _ => rfl, rfl⟩

theorem compact_live (e : MarketEvents) : e.compact.live.Sublist e.live := by
  show (if _ then _ else _ : List Nat).Sublist _
  split
  · exact List.filter_sublist
  · exact .refl _

theorem compact_dead (e : MarketEvents) : e.compact.dead.Sublist e.dead := by
  show (if _ then _ else _ : List Nat).Sublist _
  split
  · exact List.filter_sublist
  · exact .refl _

/-- **Compaction bounds queues that name an order once**: what it keeps of one is counted. -/
theorem compact_proportional (h : Counted e) (hcapped : e.nLive ≤ MAX_GUARDED_ORDERS) (hlive : e.live.Nodup)
    (hdead : e.dead.Nodup) : Proportional e.compact := by
  constructor
  · show (if _ then _ else _ : List Nat).length ≤ _
    split
    · have hle := h.live.length_le (hlive.filter e.isLive) fun x hx => (List.mem_filter.mp hx).2
      omega
    · omega
  · show (if _ then _ else _ : List Nat).length ≤ 2 * max e.nDead MAX_GUARDED_ORDERS
    split
    · have hle := h.dead.length_le (hdead.filter e.isRemoved) fun x hx => (List.mem_filter.mp hx).2
      omega
    · omega

/-- Bounding the live floors restores every bound, and leaves the orders still queued as they were. -/
theorem boundLive_queued (h : Counted e) (hw : Windowed e) (hlive : e.live.Nodup) (hdead : e.dead.Nodup) :
    Queued e.boundLive ∧ Proportional e.boundLive ∧
      ∀ x ∈ e.boundLive.live, x ∈ e.live ∧ e.boundLive.slot x = e.slot x := by
  obtain ⟨hsuffix, hslot, hsame⟩ := boundLiveLoop_live e.live e hlive
  obtain ⟨hcounted, hcapped⟩ := boundLiveLoop_counted e.live e h
  have hliveOnce : (e.boundLiveLoop e.live).live.Nodup := hlive.sublist hsuffix.sublist
  have hdeadOnce : (e.boundLiveLoop e.live).dead.Nodup := hsame ▸ hdead
  have hproportional := compact_proportional hcounted hcapped hliveOnce hdeadOnce
  refine ⟨{ boundLive_accounted h hw with
    liveOnce := hliveOnce.sublist (compact_live _), deadOnce := hdeadOnce.sublist (compact_dead _),
    liveLength := hproportional.live }, hproportional, fun x hx => ?_⟩
  have hx' := (compact_live _).subset hx
  exact ⟨hsuffix.subset hx', hslot x hx'⟩

/-- The stale entries of the live queue are among those of an earlier state. -/
def NoStaler (e e' : MarketEvents) : Prop := ∀ x ∈ e'.live, e'.isLive x = false → x ∈ e.live ∧ e.isLive x = false

theorem isLive_of_slot {e e' : MarketEvents} {x : Nat} (h : e'.slot x = e.slot x) : e'.isLive x = e.isLive x := by
  unfold isLive
  rw [h]

/-- **Tracking an order that is live, or out of the live queue,** restores every bound. -/
theorem trackFloor_queued (h : Queued e) (budget : GuardBudget) {size : F64} (by' : Option Transport) (lastTs : Nat)
    (hsize : size.eq F64.zero = false) (hfresh : e.isLive id = true ∨ id ∉ e.live) :
    Queued (e.trackFloor id size by' lastTs budget).1 ∧ Proportional (e.trackFloor id size by' lastTs budget).1 ∧
      NoStaler e (e.trackFloor id size by' lastTs budget).1 := by
  obtain ⟨e₁, heq, hcounted, hwindowed, hresting, hdead, hlive⟩ :=
    trackFloor_inserted h.toAccounted budget id by' lastTs hsize
  rw [heq]
  have honce : e₁.live.Nodup ∧ ∀ x ∈ e₁.live, x ≠ id → x ∈ e.live := by
    rcases hlive with ⟨-, hlive⟩ | ⟨hnew, hlive⟩
    · rw [hlive]
      exact ⟨h.liveOnce, fun x hx _ => hx⟩
    · have hout := hfresh.resolve_left (by rw [hnew]; exact Bool.false_ne_true)
      rw [hlive]
      refine ⟨List.nodup_append.mpr ⟨h.liveOnce, List.nodup_singleton id, ?_⟩, ?_⟩
      · rintro x hx y hy rfl
        exact hout (List.mem_singleton.mp hy ▸ hx)
      · exact fun x hx hne => (List.mem_append.mp hx).resolve_right fun hx => hne (List.mem_singleton.mp hx)
  obtain ⟨hqueued, hproportional, hkept⟩ := boundLive_queued hcounted hwindowed honce.1 (hdead ▸ h.deadOnce)
  refine ⟨hqueued, hproportional, fun x hx hstale => ?_⟩
  obtain ⟨hmem, hslot⟩ := hkept x hx
  rw [isLive_of_slot hslot] at hstale
  by_cases hxid : x = id
  · subst hxid
    have hslot₁ : e₁.slot x = some ⟨lastTs, size, by'⟩ := by
      unfold slot
      rw [hresting, FinMap.get_insert_self]
    unfold isLive at hstale
    rw [hslot₁, Option.any_some, Slot.removed, hsize] at hstale
    cases hstale
  · have hslot₁ : e₁.slot x = e.slot x := by
      unfold slot
      rw [hresting, FinMap.get_insert_of_ne _ _ hxid]
    rw [isLive_of_slot hslot₁] at hstale
    exact ⟨honce.2 x hmem hxid, hstale⟩

/-! ## The calls keep it -/

theorem Moves.accounted {p q : MarketEvents × GuardBudget} (h : Moves p q) (hp : Accounted p.1) : Accounted q.1 := by
  induction h with
  | refl => exact hp
  | tail _ hmove ih => exact hmove.accounted ih

/-- An accounted market whose queues are no longer than they were. -/
theorem Queued.shrink {e' : MarketEvents} (h : Queued e) (haccounted : Accounted e') (hlive : e'.live.Sublist e.live)
    (hdead : e'.dead.Sublist e.dead) : Queued e' :=
  { haccounted with
    liveOnce := h.liveOnce.sublist hlive, deadOnce := h.deadOnce.sublist hdead,
    liveLength := hlive.length_le.trans h.liveLength }

/-- Seeding orders that are live, or out of the live queue. -/
theorem seed_queued (seedTs : Nat) : ∀ (cs : List BookChange) (e : MarketEvents) (budget : GuardBudget), Queued e →
    (∀ c ∈ cs, c.orderId ≠ 0 → c.size.eq F64.zero = false → e.isLive c.orderId = true ∨ c.orderId ∉ e.live) →
    Queued (seed seedTs cs e budget).1 ∧ ∀ s ∈ seedStates seedTs cs e budget, Proportional s
  | [], _, _, h, _ => ⟨h, fun s hs => (by cases hs)⟩
  | c :: cs, e, budget, h, hfresh => by
    obtain ⟨hc, hcs⟩ := List.forall_mem_cons.mp hfresh
    unfold seed seedStates
    split
    · rename_i hnamed
      obtain ⟨hqueued, hproportional, hstale⟩ :=
        trackFloor_queued h budget none seedTs hnamed.2 (hc hnamed.1 hnamed.2)
      have hnext := seed_queued seedTs cs (e.trackFloor c.orderId c.size none seedTs budget).1
        (e.trackFloor c.orderId c.size none seedTs budget).2 hqueued fun d hd hid hsize => by
          rw [or_iff_not_imp_left, Bool.not_eq_true]
          intro hlive hmem
          obtain ⟨hmem, hlive⟩ := hstale d.orderId hmem hlive
          rcases hcs d hd hid hsize with hlive' | hout
          · rw [hlive] at hlive'
            cases hlive'
          · exact hout hmem
      exact ⟨hnext.1, List.forall_mem_cons.mpr ⟨hproportional, hnext.2⟩⟩
    · exact seed_queued seedTs cs e budget h hcs

theorem removeOrder_queues (e : MarketEvents) (budget : GuardBudget) (id lastTs : Nat) :
    (e.removeOrder id lastTs budget).1.live = e.live ∧ ((e.removeOrder id lastTs budget).1.dead = e.dead ∨
      e.isRemoved id = false ∧ (e.removeOrder id lastTs budget).1.dead = e.dead ++ [id]) := by
  unfold removeOrder
  split
  · exact ⟨rfl, Or.inl rfl⟩
  · rename_i hrem
    exact ⟨rfl, Or.inr ⟨(Bool.not_eq_true _).mp hrem, rfl⟩⟩

/-- A judgement tracks its order, or leaves the live queue alone and at most queues a removal. -/
theorem judge_queues (e : MarketEvents) (ev : OrderEvent) (publisher : Transport) (sourceTs : Nat)
    (budget : GuardBudget) :
    (e.slot ev.orderId = none ∧ ev.size.eq F64.zero = false ∧ (e.judge ev publisher sourceTs budget).1 =
      (e.trackFloor ev.orderId ev.size (some publisher) sourceTs budget).1) ∨
    ((e.slot ev.orderId ≠ none ∨ ev.size.eq F64.zero = true) ∧ (e.judge ev publisher sourceTs budget).1.live = e.live ∧
      ((e.judge ev publisher sourceTs budget).1.dead = e.dead ∨ ev.size.eq F64.zero = true ∧
        e.isRemoved ev.orderId = false ∧ (e.judge ev publisher sourceTs budget).1.dead = e.dead ++ [ev.orderId])) := by
  obtain ⟨hlive, hdead⟩ := removeOrder_queues e budget ev.orderId sourceTs
  unfold judge
  split
  · rename_i hslot
    by_cases hzero : ev.size.eq F64.zero = true
    · simp only [hzero, if_true]
      exact Or.inr ⟨Or.inr trivial, hlive, hdead.imp_right fun h => ⟨trivial, h⟩⟩
    · rw [Bool.not_eq_true] at hzero
      simp only [hzero, Bool.false_eq_true, if_false]
      exact Or.inl ⟨hslot, trivial, trivial⟩
  · rename_i slot hslot
    right
    refine ⟨Or.inl (by rw [hslot]; exact Option.some_ne_none slot), ?_⟩
    split
    · split <;> exact ⟨rfl, Or.inl rfl⟩
    · split
      · exact ⟨rfl, Or.inl rfl⟩
      · split
        · rename_i hzero
          exact ⟨hlive, hdead.imp_right fun h => ⟨hzero, h⟩⟩
        · split
          · exact ⟨rfl, Or.inl rfl⟩
          · exact ⟨rfl, Or.inl rfl⟩

/-- An admission that is no duplicate queues what its judgement does. -/
theorem admitEvent_queues (e : MarketEvents) (ev : OrderEvent) (publisher : Transport)
    (arrivalNs sourceTs windowNs : Nat) (budget : GuardBudget) :
    ((e.expire arrivalNs windowNs).seen.contains ev = true ∧
      (e.admitEvent ev publisher arrivalNs sourceTs windowNs budget).1 = e.expire arrivalNs windowNs) ∨
    ((e.expire arrivalNs windowNs).seen.contains ev = false ∧
      (e.admitEvent ev publisher arrivalNs sourceTs windowNs budget).1.live =
        ((e.expire arrivalNs windowNs).judge ev publisher sourceTs budget).1.live ∧
      (e.admitEvent ev publisher arrivalNs sourceTs windowNs budget).1.dead =
        ((e.expire arrivalNs windowNs).judge ev publisher sourceTs budget).1.dead) := by
  unfold admitEvent
  dsimp only
  generalize e.expire arrivalNs windowNs = e₁
  split
  · rename_i hseen
    exact Or.inl ⟨hseen, rfl⟩
  · rename_i hnew
    refine Or.inr ⟨(Bool.not_eq_true _).mp hnew, ?_⟩
    split
    · rename_i e₂ budget₂ hdeliver
      rw [hdeliver]
      exact ⟨rfl, rfl⟩
    · exact ⟨rfl, rfl⟩

/-- A queued market whose removal of an order is queued behind the others. -/
theorem Queued.bury {e' : MarketEvents} (h : Queued e) (haccounted : Accounted e') (hlive : e'.live = e.live)
    (hdead : e'.dead = e.dead ++ [id]) (hout : id ∉ e.dead) : Queued e' := by
  have honce : e'.dead.Nodup := by
    rw [hdead]
    refine List.nodup_append.mpr ⟨h.deadOnce, List.nodup_singleton id, ?_⟩
    rintro x hx y hy rfl
    exact hout (List.mem_singleton.mp hy ▸ hx)
  exact { haccounted with liveOnce := hlive ▸ h.liveOnce, deadOnce := honce, liveLength := hlive ▸ h.liveLength }

theorem admit_queued (h : Queued e) (budget : GuardBudget) (ev : OrderEvent) (publisher : Transport)
    (arrivalNs sourceTs windowNs : Nat)
    (hok : e.QueuesOnce (.admitEvent ev publisher arrivalNs sourceTs windowNs, budget)) :
    Queued (e.admitEvent ev publisher arrivalNs sourceTs windowNs budget).1 ∧
      ∀ s ∈ (e.expire arrivalNs windowNs).admitStates ev publisher sourceTs budget, Proportional s := by
  have haccounted : Accounted (e.admitEvent ev publisher arrivalNs sourceTs windowNs budget).1 :=
    Moves.accounted (admitEvent_moves e ev publisher arrivalNs sourceTs windowNs budget) h.toAccounted
  have hexpired : Queued (e.expire arrivalNs windowNs) :=
    { h with toWindowed := expire_windowed h.toWindowed arrivalNs windowNs }
  unfold admitStates
  rcases admitEvent_queues e ev publisher arrivalNs sourceTs windowNs budget with ⟨hseen, heq⟩ | ⟨hnew, hlive, hdead⟩
  · rw [if_pos (Or.inl hseen), heq]
    exact ⟨hexpired, fun s hs => (by cases hs)⟩
  · obtain ⟨hadd, hremove⟩ := hok hnew
    rcases (e.expire arrivalNs windowNs).judge_queues ev publisher sourceTs budget with
      ⟨hslot, hsize, hjudge⟩ | ⟨hnot, hlive', hdead'⟩
    · have hnone : ¬ ((e.expire arrivalNs windowNs).seen.contains ev = true ∨
          (e.expire arrivalNs windowNs).slot ev.orderId ≠ none ∨ ev.size.eq F64.zero = true) := by
        rw [hnew, hsize, hslot]
        simp
      obtain ⟨hqueued, hproportional, -⟩ :=
        trackFloor_queued hexpired budget (some publisher) sourceTs hsize (Or.inr (hadd hslot hsize))
      rw [if_neg hnone]
      rw [hjudge] at hlive hdead
      refine ⟨hqueued.shrink haccounted (hlive ▸ .refl _) (hdead ▸ .refl _), ?_⟩
      exact fun s hs => List.mem_singleton.mp hs ▸ hproportional
    · rw [if_pos (Or.inr hnot)]
      rw [hlive'] at hlive
      refine ⟨?_, fun s hs => (by cases hs)⟩
      rcases hdead' with hsame | ⟨hzero, hgone, hpush⟩
      · rw [hsame] at hdead
        exact h.shrink haccounted (hlive ▸ .refl _) (hdead ▸ .refl _)
      · rw [hpush] at hdead
        exact h.bury haccounted hlive hdead (hremove hgone hzero)

theorem forgetLoop_queues (frontier : Nat) : ∀ (n : Nat) (e : MarketEvents) (budget : GuardBudget),
    (forgetLoop frontier n e budget).1.live = e.live ∧ (forgetLoop frontier n e budget).1.dead <:+ e.dead
  | 0, _, _ => ⟨rfl, List.suffix_refl _⟩
  | n + 1, e, budget => by
    unfold forgetLoop
    split
    · exact ⟨rfl, List.suffix_refl _⟩
    · rename_i id rest hdead
      have hrest : ∀ p : List Nat, p <:+ rest → p <:+ e.dead := fun p hp => by
        rw [hdead]
        exact hp.trans (List.suffix_cons id rest)
      split
      · obtain ⟨hlive, hsuffix⟩ := forgetLoop_queues frontier n { e with dead := rest } budget
        exact ⟨hlive, hrest _ hsuffix⟩
      · split
        · split
          · exact ⟨rfl, List.suffix_refl _⟩
          · obtain ⟨hlive, hsuffix⟩ := forgetLoop_queues frontier n
              { e with resting := e.resting.erase id, nDead := e.nDead - 1, dead := rest } (budget.release 1)
            exact ⟨hlive, hrest _ hsuffix⟩
        · obtain ⟨hlive, hsuffix⟩ := forgetLoop_queues frontier n { e with dead := rest } budget
          exact ⟨hlive, hrest _ hsuffix⟩

theorem forgetExpired_queued (h : Queued e) (frontier : Option Nat) (budget : GuardBudget)
    (hok : e.QueuesOnce (.forgetExpired frontier, budget)) :
    Queued (e.forgetExpired frontier budget).1 ∧ Proportional (e.forgetExpired frontier budget).1 := by
  cases frontier with
  | none => exact ⟨h, h.liveLength, hok⟩
  | some frontier =>
    obtain ⟨hlive, hsuffix⟩ := forgetLoop_queues frontier MAX_FORGOTTEN_PER_BATCH e budget
    have haccounted : Accounted (forgetLoop frontier MAX_FORGOTTEN_PER_BATCH e budget).1 :=
      Moves.accounted (forgetLoop_moves frontier MAX_FORGOTTEN_PER_BATCH e budget) h.toAccounted
    have hloop : Queued (forgetLoop frontier MAX_FORGOTTEN_PER_BATCH e budget).1 :=
      h.shrink haccounted (hlive ▸ .refl _) hsuffix.sublist
    have hcompact : Accounted (forgetLoop frontier MAX_FORGOTTEN_PER_BATCH e budget).1.compact :=
      (Move.compact _ budget).accounted haccounted
    exact ⟨hloop.shrink hcompact (compact_live _) (compact_dead _),
      compact_proportional haccounted.toCounted haccounted.capped hloop.liveOnce hloop.deadOnce⟩

theorem pop_suffix (want : Nat → Bool) : ∀ queue : List Nat, (pop want queue).2 <:+ queue
  | [] => List.suffix_refl _
  | id :: rest => by
    unfold pop
    split
    · exact List.suffix_cons id rest
    · exact (pop_suffix want rest).trans (List.suffix_cons id rest)

theorem forgetOldestRemoved_queued (h : Queued e) (budget : GuardBudget) :
    Queued (e.forgetOldestRemoved budget).1 := by
  have haccounted : Accounted (e.forgetOldestRemoved budget).1 :=
    Moves.accounted (forgetOldestRemoved_moves budget e.dead e rfl) h.toAccounted
  have hsuffix := pop_suffix e.isRemoved e.dead
  have hqueues : (e.forgetOldestRemoved budget).1.live = e.live ∧
      (e.forgetOldestRemoved budget).1.dead = (pop e.isRemoved e.dead).2 := by
    unfold forgetOldestRemoved
    split
    · rename_i hpop
      rw [hpop]
      exact ⟨rfl, rfl⟩
    · rename_i hpop
      rw [hpop]
      exact ⟨rfl, rfl⟩
  exact h.shrink haccounted (hqueues.1 ▸ .refl _) (hqueues.2 ▸ hsuffix.sublist)

/-- **One call** that queues once keeps the queues without repetition, and bounded at each of its checkpoints. -/
theorem step_queued (h : Queued e) (c : Call × GuardBudget) (hok : e.QueuesOnce c) :
    Queued (market.step e c).1 ∧ ∀ s ∈ (market.step e c).2, Proportional s := by
  obtain ⟨call, budget⟩ := c
  cases call with
  | admitEvent ev publisher arrivalNs sourceTs windowNs =>
    exact admit_queued h budget ev publisher arrivalNs sourceTs windowNs hok
  | rebaselined changes seedTs =>
    have hclear : Queued { e with seen := ∅, order := [], forced := none } :=
      { h with toAccounted := { h.toAccounted with listed := .nil, bounded := Nat.zero_le _ } }
    exact seed_queued seedTs changes _ budget hclear hok
  | forgetExpired frontier =>
    obtain ⟨hqueued, hproportional⟩ := forgetExpired_queued h frontier budget hok
    exact ⟨hqueued, fun s hs => List.mem_singleton.mp hs ▸ hproportional⟩
  | forgetOldestRemoved => exact ⟨forgetOldestRemoved_queued h budget, fun s hs => (by cases hs)⟩

/-- **The queues stay proportional to what they order**, right after each `track_floor` and `forget_expired` of a run
whose calls queue no order that still has an entry in the queue it goes to. -/
theorem queues_are_proportional (cs : List (Call × GuardBudget)) (h : market.Along QueuesOnce default cs) :
    ∀ entry ∈ market.trace default cs, ∀ s ∈ entry.2, Proportional s := by
  refine (Machine.along_history_rule (P := fun t e => Queued e ∧ ∀ entry ∈ t, ∀ s ∈ entry.2, Proportional s)
    ⟨queued_default, fun _ hentry => (by cases hentry)⟩ (fun t e c hok ⟨hqueued, htrace⟩ => ?_) cs h).2
  obtain ⟨hnext, hchecks⟩ := step_queued hqueued c hok
  refine ⟨hnext, fun entry hentry => ?_⟩
  rcases List.mem_append.mp hentry with hentry | hentry
  · exact htrace entry hentry
  · rw [List.mem_singleton.mp hentry]
    exact hchecks

/-! ## An order that is removed and seeded again -/

/-- A snapshot with one order. -/
def snapshot : List BookChange := [⟨.update, .bid, ⟨0x3FF0000000000000⟩, ⟨0x3FF0000000000000⟩, 7⟩]

/-- The removal of that order. -/
def removal : OrderEvent := ⟨7, .delete, 0x3FF0000000000000, 0⟩

/-- A re-baseline on the snapshot, and the removal of its order. -/
def round : List (Call × GuardBudget) :=
  [(.rebaselined snapshot 0, .default), (.admitEvent removal (.edge 1) 0 0 0, .default)]

/-- In one round the order is queued once in each queue. -/
theorem queues_are_proportional_round :
    market.Along QueuesOnce default (round ++ [(.forgetExpired (some 1), .default)]) ∧
      ∀ entry ∈ market.trace default (round ++ [(.forgetExpired (some 1), .default)]),
        ∀ s ∈ entry.2, Proportional s := by
  have hok : market.Along QueuesOnce default (round ++ [(.forgetExpired (some 1), .default)]) := by
    refine ⟨?_, ?_, trivial, trivial⟩
    · intro c _ _ _
      exact Or.inr List.not_mem_nil
    · intro _
      exact ⟨fun hnone => absurd hnone (by decide), fun _ _ => by decide⟩
  exact ⟨hok, queues_are_proportional _ hok⟩

/-- `n` rounds. -/
def rounds (n : Nat) : List (Call × GuardBudget) := (List.replicate n round).flatten

/-- The order is not live, and has `n` entries in the live queue. -/
structure Worn (n : Nat) (e : MarketEvents) : Prop where
  live : e.live = List.replicate n 7
  none : e.nLive = 0
  gone : e.isLive 7 = false

theorem boundLive_of_room (h : e.nLive ≤ MAX_GUARDED_ORDERS) : e.boundLive = e.compact := by
  have hloop : e.boundLiveLoop e.live = e := by
    cases hqueue : e.live with
    | nil =>
      show { e with live := [] } = e
      rw [← hqueue]
    | cons id rest =>
      unfold boundLiveLoop
      rw [if_neg (Nat.not_lt.mpr h), ← hqueue]
  unfold boundLive
  rw [hloop]

/-- A queue with entries of one live order only is not compacted. -/
theorem compact_live_of_replicate {n : Nat} (hqueue : e.live = List.replicate n 7) (hlive : e.isLive 7 = true) :
    e.compact.live = List.replicate n 7 := by
  show (if _ then _ else _ : List Nat) = _
  rw [hqueue]
  split
  · exact List.filter_eq_self.mpr fun x hx => (List.eq_of_mem_replicate hx).symm ▸ hlive
  · rfl

/-- Seeding the order queues it once more. -/
theorem trackFloor_worn {n : Nat} (h : Worn n e) (budget : GuardBudget) {size : F64} (lastTs : Nat)
    (hsize : size.eq F64.zero = false) :
    (e.trackFloor 7 size none lastTs budget).1.live = List.replicate (n + 1) 7 ∧
      (e.trackFloor 7 size none lastTs budget).1.nLive = 1 ∧
        (e.trackFloor 7 size none lastTs budget).1.slot 7 = some ⟨lastTs, size, none⟩ ∧
          (e.trackFloor 7 size none lastTs budget).1.order = e.order ∧
            (e.trackFloor 7 size none lastTs budget).1.seen = e.seen := by
  have hqueue : e.live ++ [7] = List.replicate (n + 1) 7 := by
    rw [h.live, List.replicate_succ']
  have hnLive : e.nLive + 1 = 1 := by rw [h.none]
  have hbound : ∀ e₁ : MarketEvents, e₁.live = List.replicate (n + 1) 7 → e₁.nLive = 1 →
      e₁.slot 7 = some ⟨lastTs, size, none⟩ → e₁.boundLive.live = List.replicate (n + 1) 7 ∧ e₁.boundLive.nLive = 1 ∧
        e₁.boundLive.slot 7 = some ⟨lastTs, size, none⟩ ∧ e₁.boundLive.order = e₁.order ∧
          e₁.boundLive.seen = e₁.seen := by
    intro e₁ hlive hone hslot
    have hheld : e₁.isLive 7 = true := by
      unfold isLive
      rw [hslot, Option.any_some, Slot.removed, hsize]
      rfl
    rw [boundLive_of_room (by rw [hone]; decide)]
    exact ⟨compact_live_of_replicate hlive hheld, hone, hslot, rfl, rfl⟩
  unfold trackFloor
  simp only
  split
  · exact hbound _ hqueue hnLive (FinMap.get_insert_self _ _ _)
  · rename_i prior hprior
    split
    · exact hbound _ hqueue hnLive (FinMap.get_insert_self _ _ _)
    · rename_i hrem
      have hgone := h.gone
      unfold isLive at hgone
      rw [hprior, Option.any_some, (Bool.not_eq_true _).mp hrem] at hgone
      cases hgone

/-- Removing the order leaves its entries where they are. -/
theorem admitEvent_worn {n ts : Nat} {size : F64} (hlive : e.live = List.replicate n 7) (hone : e.nLive = 1)
    (hslot : e.slot 7 = some ⟨ts, size, none⟩) (hsize : size.eq F64.zero = false) (horder : e.order = [])
    (hseen : e.seen = ∅) : Worn n (e.admitEvent removal (.edge 1) 0 0 0 .default).1 := by
  have hexpire : e.expire 0 0 = e := by
    unfold expire
    rw [horder, expireLoop]
    rw [← horder]
  have hnew : e.seen.contains removal = false := by rw [hseen]; rfl
  have hnotRemoved : e.isRemoved 7 = false := by
    unfold isRemoved
    rw [hslot, Option.any_some, Slot.removed, hsize]
  have hheld : e.isLive 7 = true := by
    unfold isLive
    rw [hslot, Option.any_some, Slot.removed, hsize]
    rfl
  have hjudge : e.judge removal (.edge 1) 0 .default =
      ((e.removeOrder 7 0 .default).1, (e.removeOrder 7 0 .default).2, .deliver) := by
    have hzero : removal.size.eq F64.zero = true := by decide
    have hlives : (⟨ts, size, none⟩ : Slot).removed = false := hsize
    unfold judge
    rw [show e.slot removal.orderId = some ⟨ts, size, none⟩ from hslot]
    simp only [hlives, hzero, Bool.false_eq_true, Bool.true_eq_false, if_false, if_true, false_and]
    rfl
  have hremove : (e.removeOrder 7 0 .default).1 =
      { e with resting := e.resting.insert 7 ⟨0, F64.zero, none⟩, nLive := 0, nDead := e.nDead + 1,
               dead := e.dead ++ [7] } := by
    unfold removeOrder
    rw [if_neg (by rw [hnotRemoved]; exact Bool.false_ne_true), if_pos hheld, hone]
  unfold admitEvent
  rw [hexpire]
  dsimp only
  rw [hnew, hjudge]
  refine ⟨?_, ?_, ?_⟩
  · show (e.removeOrder 7 0 .default).1.live = _
    rw [hremove]
    exact hlive
  · show (e.removeOrder 7 0 .default).1.nLive = 0
    rw [hremove]
  · show (e.removeOrder 7 0 .default).1.isLive 7 = false
    rw [hremove]
    unfold isLive slot
    rw [FinMap.get_insert_self]
    decide

/-- **A round leaves one more entry**, and its `track_floor` shows it. -/
theorem round_worn {n : Nat} (h : Worn n e) : Worn (n + 1) (market.exec e round) ∧
    ∃ s ∈ (market.step e (.rebaselined snapshot 0, .default)).2, s.live.length = n + 1 := by
  have hclear : Worn n { e with seen := ∅, order := [], forced := none } := ⟨h.live, h.none, h.gone⟩
  have hsize : F64.eq ⟨0x3FF0000000000000⟩ F64.zero = false := by decide
  obtain ⟨hlive, hone, hslot, horder, hseen⟩ := trackFloor_worn hclear .default 0 hsize
  generalize htrack : ({ e with seen := ∅, order := [], forced := none } : MarketEvents).trackFloor 7
    ⟨0x3FF0000000000000⟩ none 0 .default = tracked at hlive hone hslot horder hseen
  have hnamed : (7 : Nat) ≠ 0 ∧ F64.eq ⟨0x3FF0000000000000⟩ F64.zero = false := ⟨by decide, hsize⟩
  have hseed : (e.rebaselined snapshot 0 .default).1 = tracked.1 := by
    unfold rebaselined snapshot seed
    rw [if_pos hnamed, htrack]
    rfl
  have hstates : (market.step e (.rebaselined snapshot 0, .default)).2 = [tracked.1] := by
    show seedStates 0 snapshot { e with seen := ∅, order := [], forced := none } .default = _
    unfold snapshot seedStates
    rw [if_pos hnamed, htrack]
    rfl
  refine ⟨?_, tracked.1, by rw [hstates]; exact List.mem_singleton_self _, by rw [hlive, List.length_replicate]⟩
  show Worn (n + 1) ((e.rebaselined snapshot 0 .default).1.admitEvent removal (.edge 1) 0 0 0 .default).1
  rw [hseed]
  exact admitEvent_worn hlive hone hslot hsize horder hseen

theorem rounds_worn : ∀ n : Nat, Worn n (market.exec default (rounds n))
  | 0 => ⟨rfl, rfl, rfl⟩
  | n + 1 => by
    unfold rounds
    rw [List.replicate_succ', List.flatten_append, Machine.exec_append, List.flatten_singleton]
    exact (round_worn (rounds_worn n)).1

/-- The live queue grows past every length. -/
theorem rounds_outgrow (n : Nat) : ∃ entry ∈ market.trace default (rounds n ++ [(.rebaselined snapshot 0, .default)]),
    ∃ s ∈ entry.2, s.live.length = n + 1 := by
  rw [Machine.trace_append]
  exact ⟨_, List.mem_append_right _ List.mem_cons_self, (round_worn (rounds_worn n)).2⟩

/-- **An order that is removed and seeded again leaves an entry each time**: after as many rounds as the live queue may
have entries, one more `track_floor` finds one too many, with one order live. -/
theorem requeued_order_outgrows : ¬ ∀ entry ∈
    market.trace default (rounds (2 * MAX_GUARDED_ORDERS) ++ [(.rebaselined snapshot 0, .default)]),
    ∀ s ∈ entry.2, Proportional s := by
  intro h
  obtain ⟨entry, hentry, s, hs, hlength⟩ := rounds_outgrow (2 * MAX_GUARDED_ORDERS)
  have hbound := (h entry hentry s hs).live
  omega

end EdgeConnect.Arbiter.MarketEvents
