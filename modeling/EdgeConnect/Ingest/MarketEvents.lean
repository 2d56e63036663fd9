import EdgeConnect.Lib.FinMap
import EdgeConnect.Model.Book

/-!
# The race state of one order-level market (`MarketEvents` in `src/ingest/arbiter.rs`)

Executable model of what the arbiter remembers of one order-level market: the events recently
delivered, and one `Slot` per order it has published anything for.

* `admit` decides one order-level change, `forgetExpired` drops removed orders older than the frontier,
  `forgetOldestRemoved` is the ceiling's backstop, `rebaselined` re-points the state at a new book;
* the `slot` of one order is all that decides its later changes: `admitEvent_slot`, `forgetExpired_slot`,
  `forgetOldestRemoved_slot` and `rebaselined_slot` say what each operation may do to it.

A hash map is a `FinMap`, a queue a list, oldest first.  `compact` shrinks capacities as well, which no
result depends on.
-/

set_option autoImplicit false

namespace EdgeConnect.Arbiter

/-! ## Data -/

/-- The path a message arrived on: an edge publisher by its address, or the public WebSocket. -/
inductive Transport where
  | edge (addr : Nat)
  | publicWs
  deriving DecidableEq, Repr

/-- Cap on the events remembered as delivered. -/
def MAX_SEEN_ORDER_EVENTS : Nat := 1024

/-- Cap on the live floors of one market. -/
def MAX_GUARDED_ORDERS : Nat := MAX_SEEN_ORDER_EVENTS / 2

/-- Ceiling on removed-order entries across all markets. -/
def MAX_TOMBSTONES_TOTAL : Nat := 2 ^ 20

/-- Removed entries one batch may examine. -/
def MAX_FORGOTTEN_PER_BATCH : Nat := 4096

/-- The identity of one order-level venue event. -/
structure OrderEvent where
  orderId : Nat
  action : BookAction
  priceBits : UInt64
  sizeBits : UInt64
  deriving DecidableEq, Repr

/-- The size an event ends in. -/
def OrderEvent.size (ev : OrderEvent) : F64 := ⟨ev.sizeBits⟩

/-- Why a market must be re-baselined before it can be served again. -/
inductive ForcedReason where
  | disagreement
  | droppedBatch
  deriving DecidableEq, Repr

/-- One order the market has published: the venue time of its last published change (frozen at the
removal), the smallest quantity claimed for it, and the path that claimed it. -/
structure Slot where
  lastTs : Nat
  size : F64
  owner : Option Transport
  deriving DecidableEq, Repr

def Slot.removed (s : Slot) : Bool := s.size.eq F64.zero

/-- The process-wide budget for removed-order entries. -/
structure GuardBudget where
  held : Nat
  resyncedWhileOver : Bool
  deriving DecidableEq, Repr

namespace GuardBudget

def default : GuardBudget := ⟨0, false⟩

def take (b : GuardBudget) : GuardBudget := { b with held := b.held + 1 }

def release (b : GuardBudget) (n : Nat) : GuardBudget := { b with held := b.held - n }

def isOver (b : GuardBudget) : Bool := decide (b.held > MAX_TOMBSTONES_TOTAL)

end GuardBudget

structure MarketEvents where
  seen : FinMap OrderEvent (Transport × Nat)
  order : List OrderEvent
  resting : FinMap Nat Slot
  live : List Nat
  dead : List Nat
  nLive : Nat
  nDead : Nat
  forced : Option ForcedReason

/-- Whether one order event reached the wire, and why not. -/
inductive EventVerdict where
  | deliver
  | duplicate
  | resurrection
  | stale
  | disagreement
  deriving DecidableEq, Repr

namespace MarketEvents

def default : MarketEvents := ⟨∅, [], ∅, [], [], 0, 0, none⟩

/-- What the market remembers of one order. -/
def slot (e : MarketEvents) (id : Nat) : Option Slot := e.resting.get id

/-- Whether an order is held as live. -/
def isLive (e : MarketEvents) (id : Nat) : Bool := (e.slot id).any fun s => !s.removed

/-- Whether an order is held as removed. -/
def isRemoved (e : MarketEvents) (id : Nat) : Bool := (e.slot id).any Slot.removed

/-! ## Bounds -/

/-- The loop of `expire`: drop the delivered events older than the window, oldest first. -/
def expireLoop (now windowNs : Nat) (seen : FinMap OrderEvent (Transport × Nat)) :
    List OrderEvent → FinMap OrderEvent (Transport × Nat) × List OrderEvent
  | [] => (seen, [])
  | oldest :: rest =>
    match seen.get oldest with
    | none => expireLoop now windowNs seen rest
    | some (_, arrival) =>
      if now - arrival ≤ windowNs then (seen, oldest :: rest)
      else expireLoop now windowNs (seen.erase oldest) rest

/-- `expire`: forget events delivered more than `windowNs` before `now`. -/
def expire (e : MarketEvents) (now windowNs : Nat) : MarketEvents :=
  let (seen, order) := expireLoop now windowNs e.seen e.order
  { e with seen, order }

/-- `compact`: drop the stale queue entries once they outnumber the state they order. -/
def compact (e : MarketEvents) : MarketEvents :=
  let live := if e.live.length > 2 * MAX_GUARDED_ORDERS then e.live.filter e.isLive else e.live
  let dead :=
    if e.dead.length > 2 * max e.nDead MAX_GUARDED_ORDERS then e.dead.filter e.isRemoved else e.dead
  { e with live, dead }

/-- The loop of `bound_live` over the live queue: past the cap, the oldest live floor goes and a stale
entry is skipped. -/
def boundLiveLoop (e : MarketEvents) : List Nat → MarketEvents
  | [] => { e with live := [] }
  | id :: rest =>
    if e.nLive > MAX_GUARDED_ORDERS then
      if e.isLive id then
        boundLiveLoop { e with resting := e.resting.erase id, nLive := e.nLive - 1 } rest
      else boundLiveLoop e rest
    else { e with live := id :: rest }

/-- `bound_live`: hold the live floors to the cap. -/
def boundLive (e : MarketEvents) : MarketEvents := (e.boundLiveLoop e.live).compact

/-- `pop`: the oldest queued id that `want` accepts, dropping the entries ahead of it. -/
def pop (want : Nat → Bool) : List Nat → Option Nat × List Nat
  | [] => (none, [])
  | id :: rest => if want id then (some id, rest) else pop want rest

/-! ## Tracking orders -/

/-- `track_floor`: record an order as live at `size`, claimed by `by`. -/
def trackFloor (e : MarketEvents) (orderId : Nat) (size : F64) (by' : Option Transport) (lastTs : Nat)
    (budget : GuardBudget) : MarketEvents × GuardBudget :=
  let inserted := { e with resting := e.resting.insert orderId ⟨lastTs, size, by'⟩ }
  match e.slot orderId with
  | none =>
    (boundLive { inserted with nLive := e.nLive + 1, live := e.live ++ [orderId] }, budget)
  | some prior =>
    if prior.removed then
      (boundLive { inserted with
          nDead := e.nDead - 1, nLive := e.nLive + 1, live := e.live ++ [orderId] },
        budget.release 1)
    else (boundLive inserted, budget)

/-- `remove_order`: record an order as gone; an order already gone keeps its age. -/
def removeOrder (e : MarketEvents) (orderId lastTs : Nat) (budget : GuardBudget) :
    MarketEvents × GuardBudget :=
  if e.isRemoved orderId then (e, budget)
  else
    ({ e with
        resting := e.resting.insert orderId ⟨lastTs, F64.zero, none⟩,
        nLive := if e.isLive orderId then e.nLive - 1 else e.nLive,
        nDead := e.nDead + 1, dead := e.dead ++ [orderId] },
      budget.take)

/-- `force`: record why the market must re-baseline; the first cause wins. -/
def force (e : MarketEvents) (reason : ForcedReason) : MarketEvents :=
  { e with forced := some (e.forced.getD reason) }

/-- Drop the oldest delivered events past the cap. -/
def trimSeen (seen : FinMap OrderEvent (Transport × Nat)) :
    List OrderEvent → FinMap OrderEvent (Transport × Nat) × List OrderEvent
  | [] => (seen, [])
  | old :: rest =>
    if (old :: rest).length > MAX_SEEN_ORDER_EVENTS then trimSeen (seen.erase old) rest
    else (seen, old :: rest)

/-- Enter a delivered event into the dedup window. -/
def noteSeen (e : MarketEvents) (ev : OrderEvent) (publisher : Transport) (arrivalNs : Nat) :
    MarketEvents :=
  let (seen, order) := trimSeen (e.seen.insert ev (publisher, arrivalNs)) (e.order ++ [ev])
  { e with seen, order }

/-- What an admitted change does to its order, or why it is refused. -/
def judge (e : MarketEvents) (ev : OrderEvent) (publisher : Transport) (sourceTs : Nat)
    (budget : GuardBudget) : MarketEvents × GuardBudget × EventVerdict :=
  match e.slot ev.orderId with
  | none =>
    let (e, budget) :=
      if ev.size.eq F64.zero then e.removeOrder ev.orderId sourceTs budget
      else e.trackFloor ev.orderId ev.size (some publisher) sourceTs budget
    (e, budget, .deliver)
  | some slot =>
    if slot.removed then
      -- a repeat of the removal goes out without refreshing the entry's age
      if ev.size.eq F64.zero then (e, budget, .deliver) else (e, budget, .resurrection)
    else if ev.size.eq F64.zero = false ∧ sourceTs < slot.lastTs then (e, budget, .stale)
    else if ev.size.eq F64.zero then
      let (e, budget) := e.removeOrder ev.orderId sourceTs budget
      (e, budget, .deliver)
    else if slot.size.lt ev.size ∧ slot.owner ≠ some publisher then
      (e.force .disagreement, budget, .disagreement)
    else
      let slot :=
        if ev.size.lt slot.size then { slot with size := ev.size, owner := some publisher } else slot
      ({ e with resting := e.resting.insert ev.orderId { slot with lastTs := sourceTs } }, budget,
        .deliver)

/-- `admit`: the race decision for one order-level change. -/
def admitEvent (e : MarketEvents) (ev : OrderEvent) (publisher : Transport)
    (arrivalNs sourceTs windowNs : Nat) (budget : GuardBudget) :
    MarketEvents × GuardBudget × EventVerdict :=
  let e := e.expire arrivalNs windowNs
  if e.seen.contains ev then (e, budget, .duplicate)
  else
    match e.judge ev publisher sourceTs budget with
    | (e, budget, .deliver) => (e.noteSeen ev publisher arrivalNs, budget, .deliver)
    | refused => refused

/-! ## Forgetting and re-baselining -/

/-- The loop of `forget_expired`: at most `n` entries from the head of the dead queue. -/
def forgetLoop (frontier : Nat) : Nat → MarketEvents → GuardBudget → MarketEvents × GuardBudget
  | 0, e, budget => (e, budget)
  | n + 1, e, budget =>
    match e.dead with
    | [] => (e, budget)
    | id :: rest =>
      match e.slot id with
      | none => forgetLoop frontier n { e with dead := rest } budget
      | some slot =>
        if slot.removed then
          if slot.lastTs ≥ frontier then (e, budget)
          else
            forgetLoop frontier n
              { e with resting := e.resting.erase id, nDead := e.nDead - 1, dead := rest }
              (budget.release 1)
        else forgetLoop frontier n { e with dead := rest } budget

/-- `forget_expired`: drop the removed entries older than the frontier. -/
def forgetExpired (e : MarketEvents) (frontier : Option Nat) (budget : GuardBudget) :
    MarketEvents × GuardBudget :=
  match frontier with
  | none => (e, budget)
  | some frontier =>
    let (e, budget) := forgetLoop frontier MAX_FORGOTTEN_PER_BATCH e budget
    (e.compact, budget)

/-- `forget_oldest_removed`: drop the oldest removed entry whatever its age. -/
def forgetOldestRemoved (e : MarketEvents) (budget : GuardBudget) :
    MarketEvents × GuardBudget × Bool :=
  match pop e.isRemoved e.dead with
  | (none, dead) => ({ e with dead }, budget, false)
  | (some id, dead) =>
    ({ e with dead, resting := e.resting.erase id, nDead := e.nDead - 1 }, budget.release 1, true)

/-- The seeding loop of `rebaselined`. -/
def seed (seedTs : Nat) : List BookChange → MarketEvents → GuardBudget → MarketEvents × GuardBudget
  | [], e, budget => (e, budget)
  | c :: cs, e, budget =>
    if c.orderId ≠ 0 ∧ c.size.eq F64.zero = false then
      let (e, budget) := e.trackFloor c.orderId c.size none seedTs budget
      seed seedTs cs e budget
    else seed seedTs cs e budget

/-- `rebaselined`: re-point the race state at a re-baseline's book. -/
def rebaselined (e : MarketEvents) (changes : List BookChange) (seedTs : Nat) (budget : GuardBudget) :
    MarketEvents × GuardBudget :=
  seed seedTs changes { e with seen := ∅, order := [], forced := none } budget

/-! ## What each operation does to one order -/

variable (e : MarketEvents) (budget : GuardBudget) {x : Nat}

@[simp] theorem slot_expire (now windowNs : Nat) : (e.expire now windowNs).slot x = e.slot x := rfl

@[simp] theorem slot_compact : e.compact.slot x = e.slot x := rfl

@[simp] theorem slot_force (reason : ForcedReason) : (e.force reason).slot x = e.slot x := rfl

theorem slot_of_erase (id : Nat) (e' : MarketEvents) (h : e'.resting = e.resting.erase id) :
    e'.slot id = none ∧ (x ≠ id → e'.slot x = e.slot x) := by
  unfold slot
  rw [h]
  exact ⟨FinMap.get_erase_self _ _, fun hx => FinMap.get_erase_of_ne _ hx⟩

@[simp] theorem slot_noteSeen (ev : OrderEvent) (publisher : Transport) (arrivalNs : Nat) :
    (e.noteSeen ev publisher arrivalNs).slot x = e.slot x := rfl

theorem slot_boundLiveLoop : ∀ (queue : List Nat) (e : MarketEvents),
    (e.boundLiveLoop queue).slot x = e.slot x ∨
      ((e.boundLiveLoop queue).slot x = none ∧ e.isLive x = true)
  | [], _ => Or.inl rfl
  | id :: rest, e => by
    unfold boundLiveLoop
    split
    · split
      · rename_i hlive
        have ih := slot_boundLiveLoop rest
          { e with resting := e.resting.erase id, nLive := e.nLive - 1 }
        obtain ⟨hnone, hsame⟩ := e.slot_of_erase (x := x) id
          { e with resting := e.resting.erase id, nLive := e.nLive - 1 } rfl
        by_cases hx : x = id
        · subst hx
          rcases ih with h | h
          · exact Or.inr ⟨h.trans hnone, hlive⟩
          · exact Or.inr ⟨h.1, hlive⟩
        · rw [isLive, hsame hx] at ih
          exact ih
      · exact slot_boundLiveLoop rest e
    · exact Or.inl rfl

/-- Bounding the live floors leaves an order alone or evicts it as a live one. -/
theorem slot_boundLive :
    e.boundLive.slot x = e.slot x ∨ (e.boundLive.slot x = none ∧ e.isLive x = true) := by
  unfold boundLive
  rw [slot_compact]
  exact slot_boundLiveLoop e.live e

theorem trackFloor_slot (id : Nat) (size : F64) (by' : Option Transport) (ts : Nat) :
    (x = id → (e.trackFloor id size by' ts budget).1.slot x = some ⟨ts, size, by'⟩ ∨
      (e.trackFloor id size by' ts budget).1.slot x = none) ∧
    (x ≠ id → (e.trackFloor id size by' ts budget).1.slot x = e.slot x ∨
      ((e.trackFloor id size by' ts budget).1.slot x = none ∧ e.isLive x = true)) := by
  -- whatever the counters, the map before bounding is `resting` with the new slot
  have hbound : ∀ e' : MarketEvents, e'.resting = e.resting.insert id ⟨ts, size, by'⟩ →
      (x = id → e'.boundLive.slot x = some ⟨ts, size, by'⟩ ∨ e'.boundLive.slot x = none) ∧
      (x ≠ id → e'.boundLive.slot x = e.slot x ∨
        (e'.boundLive.slot x = none ∧ e.isLive x = true)) := by
    intro e' hr
    refine ⟨fun hx => ?_, fun hx => ?_⟩
    · have hslot : e'.slot x = some ⟨ts, size, by'⟩ := by
        unfold slot; rw [hr, hx, FinMap.get_insert_self]
      rcases e'.slot_boundLive (x := x) with h | h
      · exact Or.inl (h.trans hslot)
      · exact Or.inr h.1
    · have hslot : e'.slot x = e.slot x := by
        unfold slot; rw [hr, FinMap.get_insert_of_ne _ _ hx]
      have h := e'.slot_boundLive (x := x)
      rwa [isLive, hslot] at h
  unfold trackFloor
  simp only
  split
  · exact hbound _ rfl
  · split
    · exact hbound _ rfl
    · exact hbound _ rfl

theorem removeOrder_slot (id ts : Nat) :
    (e.removeOrder id ts budget).1.slot x =
      if x = id ∧ e.isRemoved id = false then some ⟨ts, F64.zero, none⟩ else e.slot x := by
  unfold removeOrder
  by_cases hrem : e.isRemoved id = true
  · rw [if_pos hrem, if_neg (by rw [hrem]; simp)]
  · rw [if_neg hrem]
    show (e.resting.insert id ⟨ts, F64.zero, none⟩).get x = _
    rw [FinMap.get_insert]
    rw [Bool.not_eq_true] at hrem
    simp only [hrem, and_true]
    rfl

theorem forgetLoop_slot (frontier : Nat) : ∀ (n : Nat) (e : MarketEvents) (budget : GuardBudget),
    (forgetLoop frontier n e budget).1.slot x = e.slot x ∨
      ((forgetLoop frontier n e budget).1.slot x = none ∧
        ∃ s, e.slot x = some s ∧ s.removed = true ∧ s.lastTs < frontier)
  | 0, _, _ => Or.inl rfl
  | n + 1, e, budget => by
    unfold forgetLoop
    split
    · exact Or.inl rfl
    · rename_i id rest hdead
      split
      · exact forgetLoop_slot frontier n { e with dead := rest } budget
      · rename_i s hs
        split
        · rename_i hrem
          split
          · exact Or.inl rfl
          · rename_i hold
            have ih := forgetLoop_slot frontier n
              { e with resting := e.resting.erase id, nDead := e.nDead - 1, dead := rest }
              (budget.release 1)
            obtain ⟨hnone, hsame⟩ := e.slot_of_erase (x := x) id
              { e with resting := e.resting.erase id, nDead := e.nDead - 1, dead := rest } rfl
            by_cases hx : x = id
            · subst hx
              rcases ih with h | h
              · exact Or.inr ⟨h.trans hnone, s, hs, hrem, Nat.lt_of_not_le hold⟩
              · exact Or.inr ⟨h.1, s, hs, hrem, Nat.lt_of_not_le hold⟩
            · rw [hsame hx] at ih
              exact ih
        · exact forgetLoop_slot frontier n { e with dead := rest } budget

/-- Forgetting leaves an order alone, or drops it as one removed before the frontier. -/
theorem forgetExpired_slot (frontier : Option Nat) :
    (e.forgetExpired frontier budget).1.slot x = e.slot x ∨
      ((e.forgetExpired frontier budget).1.slot x = none ∧
        ∃ s f, e.slot x = some s ∧ s.removed = true ∧ frontier = some f ∧ s.lastTs < f) := by
  unfold forgetExpired
  split
  · exact Or.inl rfl
  · rename_i f
    simp only [slot_compact]
    rcases forgetLoop_slot (x := x) f MAX_FORGOTTEN_PER_BATCH e budget with h | h
    · exact Or.inl h
    · obtain ⟨hn, s, hs, hrem, hlt⟩ := h
      exact Or.inr ⟨hn, s, f, hs, hrem, rfl, hlt⟩

theorem forgetOldestRemoved_slot :
    (e.forgetOldestRemoved budget).1.slot x = e.slot x ∨
      (e.forgetOldestRemoved budget).1.slot x = none := by
  unfold forgetOldestRemoved
  split
  · exact Or.inl rfl
  · rename_i id dead _
    by_cases hx : x = id
    · right; rw [hx]; exact FinMap.get_erase_self _ _
    · left; exact FinMap.get_erase_of_ne _ hx

/-- Seeding leaves an order alone, evicts it as a live or named one, or seeds it from a change. -/
theorem seed_slot (seedTs : Nat) : ∀ (changes : List BookChange) (e : MarketEvents)
    (budget : GuardBudget),
    (seed seedTs changes e budget).1.slot x = e.slot x ∨
    ((seed seedTs changes e budget).1.slot x = none ∧
      (e.isLive x = true ∨ ∃ c ∈ changes, c.orderId = x ∧ c.size.eq F64.zero = false)) ∨
    ∃ c ∈ changes, c.orderId = x ∧ c.size.eq F64.zero = false ∧
      (seed seedTs changes e budget).1.slot x = some ⟨seedTs, c.size, none⟩
  | [], _, _ => Or.inl rfl
  | c :: cs, e, budget => by
    unfold seed
    split
    · rename_i hc
      simp only
      have htrack := e.trackFloor_slot budget (x := x) c.orderId c.size none seedTs
      have hrest := seed_slot seedTs cs
        (e.trackFloor c.orderId c.size none seedTs budget).1
        (e.trackFloor c.orderId c.size none seedTs budget).2
      rcases hrest with hsame | ⟨hn, hwhy⟩ | ⟨c', hc', hid, hsz, hslot⟩
      · by_cases hx : x = c.orderId
        · rcases htrack.1 hx with h | h
          · exact Or.inr (Or.inr ⟨c, List.mem_cons_self, hx.symm, hc.2, hsame.trans h⟩)
          · exact Or.inr (Or.inl ⟨hsame.trans h, Or.inr ⟨c, List.mem_cons_self, hx.symm, hc.2⟩⟩)
        · rcases htrack.2 hx with h | h
          · exact Or.inl (hsame.trans h)
          · exact Or.inr (Or.inl ⟨hsame.trans h.1, Or.inl h.2⟩)
      · refine Or.inr (Or.inl ⟨hn, ?_⟩)
        by_cases hx : x = c.orderId
        · exact Or.inr ⟨c, List.mem_cons_self, hx.symm, hc.2⟩
        · rcases hwhy with hlive | ⟨c', hc', hnamed⟩
          · rcases htrack.2 hx with h | h
            · rw [isLive, h] at hlive; exact Or.inl hlive
            · exact Or.inl h.2
          · exact Or.inr ⟨c', List.mem_cons_of_mem _ hc', hnamed⟩
      · exact Or.inr (Or.inr ⟨c', List.mem_cons_of_mem _ hc', hid, hsz, hslot⟩)
    · rcases seed_slot seedTs cs e budget with
        hsame | ⟨hn, hwhy⟩ | ⟨c', hc', hid, hsz, hslot⟩
      · exact Or.inl hsame
      · refine Or.inr (Or.inl ⟨hn, hwhy.imp_right ?_⟩)
        rintro ⟨c', hc', hnamed⟩
        exact ⟨c', List.mem_cons_of_mem _ hc', hnamed⟩
      · exact Or.inr (Or.inr ⟨c', List.mem_cons_of_mem _ hc', hid, hsz, hslot⟩)

/-- What a delivered change leaves of its order. -/
inductive Delivered (before after : Option Slot) (ev : OrderEvent) (publisher : Transport)
    (sourceTs : Nat) : Prop
  | repeated (s : Slot) (hs : before = some s) (hrem : s.removed = true)
      (hzero : ev.size.eq F64.zero = true) (hafter : after = before)
  | removed (hlive : ∀ s, before = some s → s.removed = false) (hzero : ev.size.eq F64.zero = true)
      (hafter : after = some ⟨sourceTs, F64.zero, none⟩)
  | tracked (hnew : before = none) (hsize : ev.size.eq F64.zero = false)
      (hafter : after = some ⟨sourceTs, ev.size, some publisher⟩ ∨ after = none)
  | shrunk (s : Slot) (hs : before = some s) (hlive : s.removed = false)
      (hsize : ev.size.eq F64.zero = false) (hts : s.lastTs ≤ sourceTs) (hless : ev.size.lt s.size = true)
      (hafter : after = some ⟨sourceTs, ev.size, some publisher⟩)
  | kept (s : Slot) (hs : before = some s) (hlive : s.removed = false)
      (hsize : ev.size.eq F64.zero = false) (hts : s.lastTs ≤ sourceTs)
      (hmore : s.size.lt ev.size = true → s.owner = some publisher)
      (hnotless : ev.size.lt s.size = false)
      (hafter : after = some { s with lastTs := sourceTs })

/-- **The judgement of one change**: refused, it leaves its order alone; delivered, it leaves it as
`Delivered` says; every other order is left alone or evicted as a live one. -/
theorem judge_slot (ev : OrderEvent) (publisher : Transport) (sourceTs : Nat) :
    ((e.judge ev publisher sourceTs budget).2.2 ≠ .deliver →
      (e.judge ev publisher sourceTs budget).1.slot ev.orderId = e.slot ev.orderId) ∧
    ((e.judge ev publisher sourceTs budget).2.2 = .deliver →
      Delivered (e.slot ev.orderId) ((e.judge ev publisher sourceTs budget).1.slot ev.orderId) ev
        publisher sourceTs) ∧
    (x ≠ ev.orderId → (e.judge ev publisher sourceTs budget).1.slot x = e.slot x ∨
      ((e.judge ev publisher sourceTs budget).1.slot x = none ∧ e.isLive x = true)) := by
  have hremove : (x ≠ ev.orderId →
      (e.removeOrder ev.orderId sourceTs budget).1.slot x = e.slot x) := by
    intro hx
    rw [removeOrder_slot, if_neg fun h => hx h.1]
  unfold judge
  cases hslot : e.slot ev.orderId with
  | none =>
    simp only
    by_cases hz : ev.size.eq F64.zero = true
    · simp only [hz, if_true]
      refine ⟨fun h => absurd rfl h, fun _ => ?_, fun hx => Or.inl (hremove hx)⟩
      refine .removed (fun s hs => by cases hs) hz ?_
      rw [removeOrder_slot, if_pos ⟨rfl, by simp [isRemoved, hslot]⟩]
    · simp only [hz, Bool.false_eq_true, if_false]
      have h := e.trackFloor_slot budget (x := ev.orderId) ev.orderId ev.size (some publisher) sourceTs
      have h' := e.trackFloor_slot budget (x := x) ev.orderId ev.size (some publisher) sourceTs
      exact ⟨fun hne => absurd rfl hne,
        fun _ => .tracked rfl (by simpa using hz) (h.1 rfl), h'.2⟩
  | some s =>
    simp only
    by_cases hrem : s.removed = true
    · rw [if_pos hrem]
      by_cases hz : ev.size.eq F64.zero = true
      · rw [if_pos hz]
        exact ⟨fun _ => hslot, fun _ => .repeated s rfl hrem hz hslot, fun _ => Or.inl rfl⟩
      · rw [if_neg hz]
        exact ⟨fun _ => hslot, nofun, fun _ => Or.inl rfl⟩
    · rw [if_neg hrem]
      rw [Bool.not_eq_true] at hrem
      by_cases hz : ev.size.eq F64.zero = true
      · rw [if_neg (by rw [hz]; simp), if_pos hz]
        simp only
        refine ⟨fun h => absurd rfl h, fun _ => ?_, fun hx => Or.inl (hremove hx)⟩
        refine .removed (fun s' hs' => by cases hs'; exact hrem) hz ?_
        rw [removeOrder_slot, if_pos ⟨rfl, by simp [isRemoved, hslot, hrem]⟩]
      · rw [Bool.not_eq_true] at hz
        by_cases hts : sourceTs < s.lastTs
        · rw [if_pos ⟨hz, hts⟩]
          exact ⟨fun _ => hslot, nofun, fun _ => Or.inl rfl⟩
        · rw [if_neg fun h => hts h.2, if_neg (by rw [hz]; simp)]
          have hts' : s.lastTs ≤ sourceTs := Nat.le_of_not_lt hts
          by_cases hmore : s.size.lt ev.size = true ∧ s.owner ≠ some publisher
          · rw [if_pos hmore]
            exact ⟨fun _ => hslot, nofun, fun _ => Or.inl rfl⟩
          · rw [if_neg hmore]
            have hx' : ∀ s' : Slot, x ≠ ev.orderId →
                (e.resting.insert ev.orderId s').get x = e.slot x :=
              fun s' hx => FinMap.get_insert_of_ne _ _ hx
            by_cases hless : ev.size.lt s.size = true
            · simp only [hless, if_true]
              exact ⟨fun h => absurd rfl h,
                fun _ => .shrunk s rfl hrem hz hts' hless (FinMap.get_insert_self _ _ _),
                fun hx => Or.inl (hx' _ hx)⟩
            · simp only [hless, Bool.false_eq_true, if_false]
              refine ⟨fun h => absurd rfl h, fun _ => ?_, fun hx => Or.inl (hx' _ hx)⟩
              refine .kept s rfl hrem hz hts' (fun hm => ?_) (by simpa using hless)
                (FinMap.get_insert_self _ _ _)
              by_contra ho
              exact hmore ⟨hm, ho⟩

/-- `admit` is a duplicate that changes no order, or the judgement of the change. -/
theorem admitEvent_cases (ev : OrderEvent) (publisher : Transport) (arrivalNs sourceTs windowNs : Nat) :
    (((e.admitEvent ev publisher arrivalNs sourceTs windowNs budget).2.2 = .duplicate ∧
      ∀ y, (e.admitEvent ev publisher arrivalNs sourceTs windowNs budget).1.slot y = e.slot y)) ∨
    ∃ e' : MarketEvents, (∀ y, e'.slot y = e.slot y) ∧
      (e.admitEvent ev publisher arrivalNs sourceTs windowNs budget).2.2 =
        (e'.judge ev publisher sourceTs budget).2.2 ∧
      ∀ y, (e.admitEvent ev publisher arrivalNs sourceTs windowNs budget).1.slot y =
        (e'.judge ev publisher sourceTs budget).1.slot y := by
  unfold admitEvent
  simp only
  split
  · exact Or.inl ⟨rfl, fun _ => rfl⟩
  · refine Or.inr ⟨e.expire arrivalNs windowNs, fun _ => rfl, ?_⟩
    split
    · rename_i e' b' h
      rw [h]
      exact ⟨rfl, fun _ => rfl⟩
    · exact ⟨rfl, fun _ => rfl⟩

/-- **One admission**: refused, it leaves its order alone; delivered, it leaves it as `Delivered` says;
every other order is left alone or evicted as a live one. -/
theorem admitEvent_slot (ev : OrderEvent) (publisher : Transport) (arrivalNs sourceTs windowNs : Nat) :
    ((e.admitEvent ev publisher arrivalNs sourceTs windowNs budget).2.2 ≠ .deliver →
      (e.admitEvent ev publisher arrivalNs sourceTs windowNs budget).1.slot ev.orderId =
        e.slot ev.orderId) ∧
    ((e.admitEvent ev publisher arrivalNs sourceTs windowNs budget).2.2 = .deliver →
      Delivered (e.slot ev.orderId)
        ((e.admitEvent ev publisher arrivalNs sourceTs windowNs budget).1.slot ev.orderId) ev publisher
        sourceTs) ∧
    (x ≠ ev.orderId →
      (e.admitEvent ev publisher arrivalNs sourceTs windowNs budget).1.slot x = e.slot x ∨
      ((e.admitEvent ev publisher arrivalNs sourceTs windowNs budget).1.slot x = none ∧
        e.isLive x = true)) := by
  rcases e.admitEvent_cases budget ev publisher arrivalNs sourceTs windowNs with ⟨hv, hsame⟩ | ⟨e', he, hv, hs⟩
  · refine ⟨fun _ => hsame _, fun h => ?_, fun _ => Or.inl (hsame x)⟩
    rw [hv] at h; cases h
  · have h := e'.judge_slot budget (x := x) ev publisher sourceTs
    rw [hv, hs, hs x]
    rw [isLive] at h ⊢
    rw [he, he x] at h
    exact h

end MarketEvents

end EdgeConnect.Arbiter
