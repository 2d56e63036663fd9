import EdgeConnect.Lib.FinMap
import EdgeConnect.Lib.Machine
import Mathlib.Data.List.Sort

/-!
# The order-level book (`src/ingest/book.rs`)

Executable model of `BookState`, the L3 book of the Market-by-Order feed: the resting orders of one
instrument, the per-price totals of each side, and the snapshot-and-delta recovery model around them.

* `onDeltaReporting` buffers while `Recovering`; while `Synced` it ignores an old delta, applies the
  next contiguous one and turns a forward gap into `Recovering`;
* `onSnapshotBegin` / `onSnapshotOrder` / `onSnapshotEnd` assemble a snapshot beside the live book and
  install it, replaying the buffered deltas past its anchor;
* `onInstrumentReset`, `onEndOfSession` drop the book;
* `orderSet`, `topLevels` read it.

Prices are `Int` and the wire's unsigned integers `Nat`.  The `u64` addition of `level_add` and the
`u32` message count of a snapshot wrap, as in a release build; `last_instr_seq + 1` is evaluated only
below a larger `u32` and never does.  A hash map is a `FinMap`, since nothing depends on its iteration
order: `order_set` sorts by a key that ends in the order id.
-/

set_option autoImplicit false

namespace EdgeConnect.Mbo

/-! ## Data -/

/-- Cap on resting orders held per book, live and under assembly alike. -/
def MAX_ORDERS_PER_BOOK : Nat := 2 ^ 18

/-- Cap on deltas buffered while `Recovering`. -/
def MAX_PENDING_DELTAS : Nat := 2 ^ 18

/-- Cap on remembered removed order ids. -/
def MAX_REMOVED_ORDERS : Nat := 2 ^ 16

/-- One aggregated price level, `(price_raw, qty_raw)`. -/
abbrev Level := Int × Nat

/-- One order-level change; `qtyRaw` is the absolute resulting quantity. -/
structure OrderChange where
  orderId : Nat
  isBid : Bool
  priceRaw : Int
  qtyRaw : Nat
  deriving DecidableEq, Repr

structure RestingOrder where
  isBid : Bool
  priceRaw : Int
  qtyRaw : Nat
  deriving DecidableEq, Repr

inductive DeltaKind where
  | add (orderId : Nat) (isBid : Bool) (priceRaw : Int) (qtyRaw : Nat)
  | cancel (orderId : Nat)
  | execute (orderId : Nat) (execQtyRaw : Nat) (fullFill : Bool)
  deriving DecidableEq, Repr

/-- One sequenced delta: `seq` per instrument, `mktdataSeq` channel-wide, `ts` the event time. -/
structure DeltaOp where
  seq : Nat
  mktdataSeq : Nat
  ts : Nat
  kind : DeltaKind
  deriving DecidableEq, Repr

inductive SyncState where
  | recovering
  | synced
  deriving DecidableEq, Repr

abbrev Orders := FinMap Nat RestingOrder

abbrev Levels := FinMap Int Nat

/-- A snapshot being assembled between its begin and its end. -/
structure Building where
  snapshotId : Nat
  anchorSeq : Nat
  totalOrders : Nat
  receivedOrders : Nat
  lastInstrumentSeq : Nat
  orders : Orders
  bids : Levels
  asks : Levels

structure BookState where
  orders : Orders
  bids : Levels
  asks : Levels
  state : SyncState
  lastInstrSeq : Nat
  lastAppliedMktdataSeq : Nat
  building : Option Building
  pending : List DeltaOp
  removed : Finset Nat
  removedOrder : List Nat
  lastEventTs : Nat

/-! ## Price levels -/

/-- Add `qty` to a price level. -/
def levelAdd (levels : Levels) (price : Int) (qty : Nat) : Levels :=
  levels.insert price (((levels.get price).getD 0 + qty) % 2 ^ 64)

/-- Remove up to `qty` from a price level, dropping the level when it reaches zero. -/
def levelRemove (levels : Levels) (price : Int) (qty : Nat) : Levels :=
  match levels.get price with
  | none => levels
  | some total => if total - qty = 0 then levels.erase price else levels.insert price (total - qty)

/-- One order added to the group under assembly: every message counts, also a repeated one. -/
def Building.add (g : Building) (orderId : Nat) (isBid : Bool)
    (priceRaw : Int) (qtyRaw : Nat) : Building :=
  { g with
    orders := g.orders.insert orderId ⟨isBid, priceRaw, qtyRaw⟩
    receivedOrders := (g.receivedOrders + 1) % 2 ^ 32
    bids := if isBid then levelAdd g.bids priceRaw qtyRaw else g.bids
    asks := if isBid then g.asks else levelAdd g.asks priceRaw qtyRaw }

namespace BookState

def new : BookState where
  orders := ∅
  bids := ∅
  asks := ∅
  state := .recovering
  lastInstrSeq := 0
  lastAppliedMktdataSeq := 0
  building := none
  pending := []
  removed := ∅
  removedOrder := []
  lastEventTs := 0

def isSynced (b : BookState) : Bool := decide (b.state = .synced)

/-- The live book's price levels of one side. -/
def levels (b : BookState) (isBid : Bool) : Levels := if isBid then b.bids else b.asks

/-- Replace the price levels of one side. -/
def setLevels (b : BookState) (isBid : Bool) (levels : Levels) : BookState :=
  if isBid then { b with bids := levels } else { b with asks := levels }

def clearRemoved (b : BookState) : BookState := { b with removed := ∅, removedOrder := [] }

/-- Forget the oldest removed ids while more than the cap are held. -/
def trimRemoved (removed : Finset Nat) : List Nat → Finset Nat × List Nat
  | [] => (removed, [])
  | oldest :: rest =>
    if (oldest :: rest).length > MAX_REMOVED_ORDERS then trimRemoved (removed.erase oldest) rest
    else (removed, oldest :: rest)

/-- Remember a removed order id. -/
def noteRemoved (b : BookState) (orderId : Nat) : BookState :=
  if orderId ∈ b.removed then b
  else
    let (removed, removedOrder) :=
      trimRemoved (insert orderId b.removed) (b.removedOrder ++ [orderId])
    { b with removed, removedOrder }

/-! ## Applying deltas -/

/-- Mutate the book: the order-level changes it produced and whether the delta applied. -/
def apply (b : BookState) : DeltaKind → BookState × List OrderChange × Bool
  | .add orderId isBid priceRaw qtyRaw =>
    if orderId ∈ b.removed then (b, [], false)
    else if b.orders.size ≥ MAX_ORDERS_PER_BOOK ∧ b.orders.contains orderId = false then
      -- oversized: drop the book and re-sync from the next snapshot
      ({ b with orders := ∅, bids := ∅, asks := ∅, state := .recovering }, [], true)
    else
      let b := { b with orders := b.orders.insert orderId ⟨isBid, priceRaw, qtyRaw⟩ }
      (b.setLevels isBid (levelAdd (b.levels isBid) priceRaw qtyRaw),
        [⟨orderId, isBid, priceRaw, qtyRaw⟩], true)
  | .cancel orderId =>
    match b.orders.get orderId with
    | none => (b, [], true)
    | some o =>
      let b := { b with orders := b.orders.erase orderId }
      let b := b.setLevels o.isBid (levelRemove (b.levels o.isBid) o.priceRaw o.qtyRaw)
      (b.noteRemoved orderId, [⟨orderId, o.isBid, o.priceRaw, 0⟩], true)
  | .execute orderId execQtyRaw fullFill =>
    match b.orders.get orderId with
    | none => (b, [], true)
    | some o =>
      let filled := min execQtyRaw o.qtyRaw
      let remaining := o.qtyRaw - filled
      let remove := fullFill || decide (remaining = 0)
      let b := { b with
        orders := if remove then b.orders.erase orderId
          else b.orders.insert orderId { o with qtyRaw := remaining } }
      let b := b.setLevels o.isBid (levelRemove (b.levels o.isBid) o.priceRaw filled)
      (if remove then b.noteRemoved orderId else b,
        [⟨orderId, o.isBid, o.priceRaw, if remove then 0 else remaining⟩], true)

/-- Take the sequence, timestamp and market-data anchor of an in-sequence delta. -/
def advance (b : BookState) (op : DeltaOp) : BookState :=
  { b with
    lastInstrSeq := op.seq, lastAppliedMktdataSeq := op.mktdataSeq, lastEventTs := op.ts }

/-- Apply the next contiguous delta, ignore an old one, drop to `Recovering` on a gap. -/
def applyOrRecover (b : BookState) (op : DeltaOp) : BookState × List OrderChange × Bool :=
  if op.seq ≤ b.lastInstrSeq then (b, [], false)
  else if op.seq ≠ b.lastInstrSeq + 1 then
    ({ b with state := .recovering, pending := [op] }, [], false)
  else (b.advance op).apply op.kind

/-- `on_delta_reporting`: the book, the changes reported, and whether the delta applied. -/
def onDeltaReporting (b : BookState) (op : DeltaOp) : BookState × List OrderChange × Bool :=
  match b.state with
  | .recovering =>
    (if b.pending.length < MAX_PENDING_DELTAS then { b with pending := b.pending ++ [op] } else b,
      [], false)
  | .synced => b.applyOrRecover op

/-! ## Snapshots, resets -/

/-- `on_snapshot_begin`: start assembling a group, or drop the one under assembly. -/
def onSnapshotBegin (b : BookState) (snapshotId anchorSeq totalOrders lastInstrumentSeq : Nat) :
    BookState :=
  if b.state = .synced ∧ anchorSeq ≤ b.lastAppliedMktdataSeq then { b with building := none }
  else if totalOrders > MAX_ORDERS_PER_BOOK then { b with building := none }
  else
    { b with
      building := some
        { snapshotId, anchorSeq, totalOrders, receivedOrders := 0, lastInstrumentSeq,
          orders := ∅, bids := ∅, asks := ∅ } }

/-- `on_snapshot_order`: add one resting order to the group under assembly. -/
def onSnapshotOrder (b : BookState) (snapshotId orderId : Nat) (isBid : Bool) (priceRaw : Int)
    (qtyRaw : Nat) : BookState :=
  match b.building with
  | none => b
  | some g =>
    if g.snapshotId = snapshotId ∧ g.orders.size < MAX_ORDERS_PER_BOOK then
      { b with building := some (g.add orderId isBid priceRaw qtyRaw) }
    else b

/-- The replay loop of `on_snapshot_end`: it stops where the book drops to `Recovering`. -/
def replay (b : BookState) : List DeltaOp → BookState
  | [] => b
  | op :: ops =>
    if (b.applyOrRecover op).1.state = .recovering then (b.applyOrRecover op).1
    else replay (b.applyOrRecover op).1 ops

/-- The buffered deltas past `anchor`, in market-data order (a stable sort). -/
def replayable (b : BookState) (anchor : Nat) : List DeltaOp :=
  (b.pending.filter fun d => decide (d.mktdataSeq > anchor)).insertionSort
    fun x y => x.mktdataSeq ≤ y.mktdataSeq

/-- The book with a complete group installed and nothing replayed yet. -/
def install (b : BookState) (g : Building) : BookState :=
  { b with
    orders := g.orders, bids := g.bids, asks := g.asks, building := none,
    lastInstrSeq := g.lastInstrumentSeq, lastAppliedMktdataSeq := g.anchorSeq,
    state := .synced, pending := [], removed := ∅, removedOrder := [] }

/-- `on_snapshot_end`: install the assembled group and replay, returning whether it did. -/
def onSnapshotEnd (b : BookState) (anchorSeq snapshotId : Nat) : BookState × Bool :=
  match b.building with
  | none => (b, false)
  | some g =>
    if g.snapshotId ≠ snapshotId ∨ g.anchorSeq ≠ anchorSeq ∨ g.receivedOrders ≠ g.totalOrders then
      ({ b with building := none, state := .recovering }, false)
    else ((b.install g).replay (b.replayable g.anchorSeq), true)

/-- `on_instrument_reset(S')`: drop the book, the open group and the deltas at or below `S'`. -/
def onInstrumentReset (b : BookState) (newAnchorSeq : Nat) : BookState :=
  { b.clearRemoved with
    orders := ∅, bids := ∅, asks := ∅, building := none,
    pending := b.pending.filter fun d => decide (d.mktdataSeq > newAnchorSeq),
    state := .recovering, lastEventTs := 0 }

/-- `on_end_of_session`: the session's book, sequences and event clock are over. -/
def onEndOfSession (b : BookState) : BookState :=
  { b.clearRemoved with
    orders := ∅, bids := ∅, asks := ∅, building := none, pending := [], state := .recovering,
    lastInstrSeq := 0, lastAppliedMktdataSeq := 0, lastEventTs := 0 }

end BookState

/-! ## What the operations leave alone -/

namespace BookState

variable (b : BookState)

@[simp] theorem setLevels_orders (s : Bool) (l : Levels) : (b.setLevels s l).orders = b.orders := by
  cases s <;> rfl

@[simp] theorem setLevels_state (s : Bool) (l : Levels) : (b.setLevels s l).state = b.state := by
  cases s <;> rfl

@[simp] theorem setLevels_building (s : Bool) (l : Levels) :
    (b.setLevels s l).building = b.building := by
  cases s <;> rfl

@[simp] theorem setLevels_pending (s : Bool) (l : Levels) :
    (b.setLevels s l).pending = b.pending := by
  cases s <;> rfl

@[simp] theorem setLevels_lastInstrSeq (s : Bool) (l : Levels) :
    (b.setLevels s l).lastInstrSeq = b.lastInstrSeq := by
  cases s <;> rfl

@[simp] theorem setLevels_removed (s : Bool) (l : Levels) :
    (b.setLevels s l).removed = b.removed := by
  cases s <;> rfl

/-- Remembering a removed id changes nothing but the removed set and its queue. -/
theorem noteRemoved_eq (id : Nat) :
    ∃ r q, b.noteRemoved id = { b with removed := r, removedOrder := q } := by
  unfold noteRemoved
  split
  · exact ⟨b.removed, b.removedOrder, rfl⟩
  · exact ⟨_, _, rfl⟩

@[simp] theorem noteRemoved_orders (id : Nat) : (b.noteRemoved id).orders = b.orders := by
  obtain ⟨r, q, h⟩ := b.noteRemoved_eq id
  rw [h]

@[simp] theorem noteRemoved_levels (id : Nat) (s : Bool) :
    (b.noteRemoved id).levels s = b.levels s := by
  obtain ⟨r, q, h⟩ := b.noteRemoved_eq id
  rw [h]; rfl

@[simp] theorem noteRemoved_state (id : Nat) : (b.noteRemoved id).state = b.state := by
  obtain ⟨r, q, h⟩ := b.noteRemoved_eq id
  rw [h]

@[simp] theorem noteRemoved_building (id : Nat) : (b.noteRemoved id).building = b.building := by
  obtain ⟨r, q, h⟩ := b.noteRemoved_eq id
  rw [h]

@[simp] theorem noteRemoved_pending (id : Nat) : (b.noteRemoved id).pending = b.pending := by
  obtain ⟨r, q, h⟩ := b.noteRemoved_eq id
  rw [h]

@[simp] theorem noteRemoved_lastInstrSeq (id : Nat) :
    (b.noteRemoved id).lastInstrSeq = b.lastInstrSeq := by
  obtain ⟨r, q, h⟩ := b.noteRemoved_eq id
  rw [h]

/-- **Frame of one delta**: the group under assembly, the buffer and the sequence are not its
business, and the book stays where it is or drops to `Recovering`. -/
structure Frame (b b' : BookState) : Prop where
  building : b'.building = b.building
  pending : b'.pending = b.pending
  lastInstrSeq : b'.lastInstrSeq = b.lastInstrSeq
  state : b'.state = b.state ∨ b'.state = .recovering

theorem apply_frame (kind : DeltaKind) : Frame b (b.apply kind).1 := by
  cases kind with
  | add id isBid price qty =>
    unfold apply
    simp only
    split
    · exact ⟨rfl, rfl, rfl, Or.inl rfl⟩
    · split
      · exact ⟨rfl, rfl, rfl, Or.inr rfl⟩
      · exact ⟨by simp, by simp, by simp, Or.inl (by simp)⟩
  | cancel id =>
    unfold apply
    simp only
    split
    · exact ⟨rfl, rfl, rfl, Or.inl rfl⟩
    · exact ⟨by simp, by simp, by simp, Or.inl (by simp)⟩
  | execute id qty full =>
    unfold apply
    simp only
    split
    · exact ⟨rfl, rfl, rfl, Or.inl rfl⟩
    · split <;> exact ⟨by simp, by simp, by simp, Or.inl (by simp)⟩

/-- What `apply_or_recover` can do: ignore an old delta, open a gap, or apply the next one. -/
theorem applyOrRecover_cases (op : DeltaOp) :
    (op.seq ≤ b.lastInstrSeq ∧ b.applyOrRecover op = (b, [], false)) ∨
    (b.lastInstrSeq + 1 < op.seq ∧
      b.applyOrRecover op = ({ b with state := .recovering, pending := [op] }, [], false)) ∨
    (op.seq = b.lastInstrSeq + 1 ∧ b.applyOrRecover op = (b.advance op).apply op.kind) := by
  unfold applyOrRecover
  by_cases h : op.seq ≤ b.lastInstrSeq
  · rw [if_pos h]; exact Or.inl ⟨h, rfl⟩
  · rw [if_neg h]
    by_cases h' : op.seq = b.lastInstrSeq + 1
    · rw [if_neg (by omega)]; exact Or.inr (Or.inr ⟨h', rfl⟩)
    · rw [if_pos h']; exact Or.inr (Or.inl ⟨by omega, rfl⟩)

theorem applyOrRecover_building (op : DeltaOp) : (b.applyOrRecover op).1.building = b.building := by
  rcases b.applyOrRecover_cases op with ⟨-, he⟩ | ⟨-, he⟩ | ⟨-, he⟩ <;> rw [he]
  exact ((b.advance op).apply_frame op.kind).building

theorem replay_building : ∀ (ops : List DeltaOp) (b : BookState),
    (b.replay ops).building = b.building
  | [], _ => rfl
  | op :: ops, b => by
    have h := b.applyOrRecover_building op
    unfold replay
    split
    · exact h
    · rw [replay_building ops, h]

/-- What `on_snapshot_end` can do: nothing, discard the group, or install it and replay. -/
theorem onSnapshotEnd_cases (anchor id : Nat) :
    (b.building = none ∧ b.onSnapshotEnd anchor id = (b, false)) ∨
    (∃ g, b.building = some g ∧
      b.onSnapshotEnd anchor id = ({ b with building := none, state := .recovering }, false)) ∨
    (∃ g, b.building = some g ∧ g.receivedOrders = g.totalOrders ∧
      b.onSnapshotEnd anchor id = ((b.install g).replay (b.replayable g.anchorSeq), true)) := by
  unfold onSnapshotEnd
  cases hb : b.building with
  | none => exact Or.inl ⟨rfl, rfl⟩
  | some g =>
    simp only
    split
    · exact Or.inr (Or.inl ⟨g, rfl, rfl⟩)
    · rename_i hok
      have hfull : g.receivedOrders = g.totalOrders := by
        by_contra hne; exact hok (Or.inr (Or.inr hne))
      exact Or.inr (Or.inr ⟨g, rfl, hfull, rfl⟩)

theorem mem_replayable {anchor : Nat} {op : DeltaOp} (h : op ∈ b.replayable anchor) :
    op ∈ b.pending := by
  unfold replayable at h
  rw [List.mem_insertionSort] at h
  exact List.mem_of_mem_filter h

end BookState

/-! ## Reading the book -/

/-- The order of `order_set`: bids before asks, each best price first, ties by order id. -/
def orderSetLe (a b : OrderChange) : Bool :=
  if a.isBid ≠ b.isBid then a.isBid
  else if a.priceRaw ≠ b.priceRaw then
    if a.isBid then decide (b.priceRaw < a.priceRaw) else decide (a.priceRaw < b.priceRaw)
  else decide (a.orderId ≤ b.orderId)

/-- The change that states a resting order as it is. -/
def RestingOrder.toChange (o : RestingOrder) (orderId : Nat) : OrderChange :=
  ⟨orderId, o.isBid, o.priceRaw, o.qtyRaw⟩

/-- `order_set`: every resting order, bids best-first then asks best-first. -/
def BookState.orderSet (b : BookState) : List OrderChange :=
  (b.orders.toList.map fun e => e.2.toChange e.1).insertionSort fun x y => orderSetLe x y = true

/-- `top_levels`: the best `n` levels of each side, best first. -/
def BookState.topLevels (b : BookState) (n : Nat) : List Level × List Level :=
  (b.bids.toList.reverse.take n, b.asks.toList.take n)

/-! ## The book as a machine -/

/-- One call on an order-level book. -/
inductive Call where
  | delta (op : DeltaOp)
  | snapshotBegin (snapshotId anchorSeq totalOrders lastInstrumentSeq : Nat)
  | snapshotOrder (snapshotId orderId : Nat) (isBid : Bool) (priceRaw : Int) (qtyRaw : Nat)
  | snapshotEnd (anchorSeq snapshotId : Nat)
  | instrumentReset (newAnchorSeq : Nat)
  | endOfSession
  deriving DecidableEq, Repr

/-- What a call answers. -/
inductive Reply where
  | delta (out : List OrderChange) (applied : Bool)
  | ended (installed : Bool)
  | unit
  deriving DecidableEq, Repr

/-- One call, with its answer. -/
def step (b : BookState) : Call → BookState × Reply
  | .delta op =>
    ((b.onDeltaReporting op).1, .delta (b.onDeltaReporting op).2.1 (b.onDeltaReporting op).2.2)
  | .snapshotBegin id anchor total last => (b.onSnapshotBegin id anchor total last, .unit)
  | .snapshotOrder id order isBid price qty => (b.onSnapshotOrder id order isBid price qty, .unit)
  | .snapshotEnd anchor id => ((b.onSnapshotEnd anchor id).1, .ended (b.onSnapshotEnd anchor id).2)
  | .instrumentReset s => (b.onInstrumentReset s, .unit)
  | .endOfSession => (b.onEndOfSession, .unit)

/-- The order-level book as a machine over its calls. -/
def machine : Machine BookState Call Reply := ⟨step⟩

end EdgeConnect.Mbo
