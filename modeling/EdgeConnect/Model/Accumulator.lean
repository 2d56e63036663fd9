import EdgeConnect.Lib.FinMap
import EdgeConnect.Model.Book

/-!
# The accumulated book (`BookAccumulator` in `src/model.rs`)

Executable model of the book a stream of batches builds: price levels by fixed-point key, orders by id,
and the changes of the logical event that is still open.

* `apply` buffers a batch and folds the open event at its `last`; `toBook` renders the whole book as one
  re-baseline; `sameState` compares two books;
* `Resting` is what rests, `settled` what rests once the open event is folded in;
* `foldChanges_eq_of_clears` — changes that clear both sides leave the same book whatever was there;
* `EventBook`, `core_apply` — the book an accumulator is to its reader, and the batches it is fed.

`toBook` is `to_book` at `ReplayScope::Orders`, the scope the arbiter renders; `Model.Materialize` has the other.
-/

set_option autoImplicit false

namespace EdgeConnect

/-! ## What rests -/

/-- Cap on the changes of an event still waiting for its `last`. -/
def MAX_PENDING_CHANGES : Nat := 8192

/-- Cap on the orders one book accumulates. -/
def MAX_ACCUMULATED_ORDERS : Nat := 2 ^ 18

/-- The fixed-point key of a price: `(price * 10f64.powi(8)).round() as i128`. -/
def fixedKey (price : F64) : Int := price.scaleRound (10 ^ 8)

structure RestingOrder where
  isBid : Bool
  key : Int
  price : F64
  size : F64
  deriving DecidableEq, Repr

/-- The levels of each side, by key, and the orders, by id. -/
structure Resting where
  bids : FinMap Int (F64 × F64)
  asks : FinMap Int (F64 × F64)
  orders : FinMap Nat RestingOrder

/-- Whether a change clears the bid (`true`) or the ask side. -/
def BookChange.clears (c : BookChange) (bid : Bool) : Bool :=
  c.action = .clear ∧ c.side ≠ (if bid then .ask else .bid)

/-- A change whose price and size are both finite; no other enters a book. -/
def BookChange.isFinite (c : BookChange) : Bool := c.price.isFinite && c.size.isFinite

namespace Resting

def empty : Resting := ⟨∅, ∅, ∅⟩

/-- `clear_side`: discard a side of both populations. -/
def clearSide (r : Resting) (side : BookSide) : Resting :=
  let r := if side ≠ .ask then { r with bids := ∅, orders := r.orders.filter fun _ o => !o.isBid } else r
  if side ≠ .bid then { r with asks := ∅, orders := r.orders.filter fun _ o => o.isBid } else r

/-- One change of a closed event. -/
def applyChange (r : Resting) (c : BookChange) : Resting :=
  let key := fixedKey c.price
  if c.orderId ≠ 0 then
    match c.action with
    | .delete => { r with orders := r.orders.erase c.orderId }
    | .update =>
      if c.size.eq F64.zero then { r with orders := r.orders.erase c.orderId }
      else { r with orders := r.orders.insert c.orderId ⟨c.side = .bid, key, c.price, c.size⟩ }
    | .clear => r.clearSide c.side
  else
    match c.action, c.side with
    | .clear, _ => r.clearSide c.side
    | .delete, .bid => { r with bids := r.bids.erase key }
    | .delete, .ask => { r with asks := r.asks.erase key }
    | .update, .bid => { r with bids := r.bids.insert key (c.price, c.size) }
    | .update, .ask => { r with asks := r.asks.insert key (c.price, c.size) }
    | _, .both => r

def foldChanges (r : Resting) (cs : List BookChange) : Resting := cs.foldl applyChange r

/-- The levels of one side. -/
def levels (r : Resting) (bid : Bool) : FinMap Int (F64 × F64) := if bid then r.bids else r.asks

end Resting

/-- The sides a list of changes clears: bid, ask. -/
def clearedSides (cs : List BookChange) : Bool × Bool :=
  (cs.any (·.clears true), cs.any (·.clears false))

/-! ## The accumulator -/

structure BookAccumulator extends Resting where
  symbol : String
  orderLevel : Bool
  pending : List BookChange
  pendingTsNs : Nat
  sourceTsNs : Nat
  wireTsNs : Nat
  pendingWireTsNs : Nat
  pendingBatchId : Option Nat
  batchId : Option Nat
  batchIdExact : Bool
  baselined : Bool

namespace BookAccumulator

def new (symbol : String) : BookAccumulator where
  toResting := .empty
  symbol := symbol
  orderLevel := false
  pending := []
  pendingTsNs := 0
  sourceTsNs := 0
  wireTsNs := 0
  pendingWireTsNs := 0
  pendingBatchId := none
  batchId := none
  batchIdExact := false
  baselined := false

/-- The first half of `apply`: the batch joins the open event. -/
def buffer (a : BookAccumulator) (b : NormalizedBook) : BookAccumulator :=
  { a with
    symbol := b.symbol
    pendingTsNs := if b.sourceTsNs ≠ 0 then b.sourceTsNs else a.pendingTsNs
    pendingBatchId := if b.batchId.isSome then b.batchId else a.pendingBatchId
    pendingWireTsNs := max a.pendingWireTsNs b.recvTsNs
    pending := a.pending ++ b.changes.filter BookChange.isFinite }

/-- The open event outgrew the cap: its changes go, its stamps roll back to what is folded in, and the
book no longer claims to be complete. -/
def abandon (a : BookAccumulator) : BookAccumulator :=
  { a with
    pending := []
    baselined := false
    pendingTsNs := a.sourceTsNs
    pendingBatchId := a.batchId
    pendingWireTsNs := a.wireTsNs }

/-- What rests with the open event folded in. -/
def settled (a : BookAccumulator) : Resting := a.toResting.foldChanges a.pending

/-- The second half of `apply`: the open event closes.  Past the order cap the orders go, and with them
the claim to be complete. -/
def close (a : BookAccumulator) (batchIdExact : Bool) : BookAccumulator :=
  let r := a.settled
  let overflow := decide (r.orders.size > MAX_ACCUMULATED_ORDERS)
  { a with
    bids := r.bids
    asks := r.asks
    orders := if overflow then ∅ else r.orders
    orderLevel := a.orderLevel || a.pending.any fun c => c.orderId ≠ 0 ∧ c.action ≠ .clear
    pending := []
    baselined := (a.baselined || clearedSides a.pending = (true, true)) && !overflow
    sourceTsNs := a.pendingTsNs
    batchId := a.pendingBatchId
    batchIdExact := batchIdExact
    wireTsNs := a.pendingWireTsNs }

def apply (a : BookAccumulator) (b : NormalizedBook) : BookAccumulator :=
  let a := a.buffer b
  if b.last then a.close b.batchId.isSome
  else if a.pending.length > MAX_PENDING_CHANGES then a.abandon
  else a

def pendingEmpty (a : BookAccumulator) : Bool := a.pending.isEmpty

/-- The committed slot, when the event that closed it named one. -/
def exactBatchId (a : BookAccumulator) : Option Nat := if a.batchIdExact then a.batchId else none

/-- Equal level maps, compared entry by entry in key order. -/
def sideEq (x y : FinMap Int (F64 × F64)) : Bool :=
  x.size == y.size && (x.toList.zip y.toList).all fun e => e.1.1 = e.2.1 ∧ e.1.2 = e.2.2

/-- Whether two books rest the same, bit for bit. -/
def sameState (a a' : BookAccumulator) : Bool :=
  sideEq a.bids a'.bids && sideEq a.asks a'.asks && a.orders.size == a'.orders.size &&
    a.orders.toList.all fun e => a'.orders.get e.1 = some e.2

/-- The order of `order_set`: bids by falling key then id, then asks by rising key then id. -/
def orderBefore (x y : Nat × RestingOrder) : Bool :=
  if x.2.isBid then
    if y.2.isBid then x.2.key > y.2.key ∨ x.2.key = y.2.key ∧ x.1 ≤ y.1 else true
  else if y.2.isBid then false
  else x.2.key < y.2.key ∨ x.2.key = y.2.key ∧ x.1 ≤ y.1

def orderSet (a : BookAccumulator) : List (Nat × RestingOrder) := a.orders.toList.mergeSort orderBefore

/-- The change that discards a whole book. -/
def clearBoth : BookChange := ⟨.clear, .both, F64.zero, F64.zero, 0⟩

/-- `to_clear`: a bare clear of `key`'s market, built at host time `nowNs`. -/
def toClear (a : BookAccumulator) (key : BookKey) (nowNs : Nat) : NormalizedBook where
  venue := key.source.name
  sourceName := key.source.name
  sourceId := key.source.id
  symbol := a.symbol
  channel := key.channel
  instrumentId := key.instrumentId
  category := key.category
  orderLevel := a.orderLevel
  changes := [clearBoth]
  batchId := a.batchId
  snapshot := true
  last := true
  sourceTsNs := a.sourceTsNs
  recvTsNs := nowNs
  kernelRxTsNs := 0
  wsSendTsNs := 0

/-- The changes that set every level and every order. -/
def levelChanges (a : BookAccumulator) : List BookChange :=
  (a.bids.toList.reverse.map fun e => ⟨.update, .bid, e.2.1, e.2.2, 0⟩) ++
    (a.asks.toList.map fun e => ⟨.update, .ask, e.2.1, e.2.2, 0⟩) ++
    a.orderSet.map fun e =>
      ⟨.update, if e.2.isBid then .bid else .ask, e.2.price, e.2.size, e.1⟩

/-- `to_book` in the `Orders` scope: a clear and the complete current book. -/
def toBook (a : BookAccumulator) (key : BookKey) (nowNs : Nat) : NormalizedBook :=
  { a.toClear key nowNs with changes := clearBoth :: a.levelChanges }

end BookAccumulator

/-! ## A book is its two sides -/

namespace Resting

variable {r r' : Resting} {c : BookChange} {cs : List BookChange} {bid : Bool}

/-- Two books agree on one side: the same levels and the same orders of that side. -/
structure Agree (bid : Bool) (r r' : Resting) : Prop where
  levels : r.levels bid = r'.levels bid
  orders : ∀ id o, o.isBid = bid → (r.orders.get id = some o ↔ r'.orders.get id = some o)

theorem eq_of_agree (hb : Agree true r r') (ha : Agree false r r') : r = r' := by
  obtain ⟨bids, asks, orders⟩ := r
  obtain ⟨bids', asks', orders'⟩ := r'
  obtain rfl : bids = bids' := hb.levels
  obtain rfl : asks = asks' := ha.levels
  have horders : orders = orders' := by
    ext1 id
    refine Option.ext fun o => ?_
    cases hs : o.isBid with
    | true => exact hb.orders id o hs
    | false => exact ha.orders id o hs
  rw [horders]

theorem levels_clearSide (side : BookSide) :
    (r.clearSide side).levels bid =
      if side = (if bid then .ask else .bid) then r.levels bid else ∅ := by
  cases bid <;> cases side <;> rfl

theorem orders_clearSide (side : BookSide) (id : Nat) (o : RestingOrder) (hs : o.isBid = bid) :
    (r.clearSide side).orders.get id = some o ↔
      side = (if bid then .ask else .bid) ∧ r.orders.get id = some o := by
  cases bid <;> cases side <;> simp [clearSide, Option.filter_eq_some_iff, hs]

theorem Agree.clearSide (h : Agree bid r r') (side : BookSide) :
    Agree bid (r.clearSide side) (r'.clearSide side) := by
  refine ⟨?_, fun id o hs => ?_⟩
  · rw [levels_clearSide, levels_clearSide, h.levels]
  · rw [orders_clearSide side id o hs, orders_clearSide side id o hs, h.orders id o hs]

/-- Setting or dropping one order acts on each side alone. -/
theorem Agree.setOrder (h : Agree bid r r') {os os' : FinMap Nat RestingOrder} (id : Nat)
    (v : Option RestingOrder) (hos : ∀ x, os.get x = if x = id then v else r.orders.get x)
    (hos' : ∀ x, os'.get x = if x = id then v else r'.orders.get x) :
    Agree bid { r with orders := os } { r' with orders := os' } := by
  refine ⟨h.levels, fun x o hs => ?_⟩
  show os.get x = some o ↔ os'.get x = some o
  rw [hos, hos']
  by_cases hx : x = id
  · rw [if_pos hx, if_pos hx]
  · rw [if_neg hx, if_neg hx]; exact h.orders x o hs

/-- Setting or dropping one level acts on each side alone. -/
theorem Agree.level (h : Agree bid r r') (f : FinMap Int (F64 × F64) → FinMap Int (F64 × F64)) :
    Agree bid { r with bids := f r.bids } { r' with bids := f r'.bids } ∧
      Agree bid { r with asks := f r.asks } { r' with asks := f r'.asks } := by
  obtain ⟨hl, ho⟩ := h
  cases bid with
  | false => exact ⟨⟨hl, ho⟩, ⟨congrArg f hl, ho⟩⟩
  | true => exact ⟨⟨congrArg f hl, ho⟩, ⟨hl, ho⟩⟩

theorem Agree.applyChange (h : Agree bid r r') (c : BookChange) :
    Agree bid (r.applyChange c) (r'.applyChange c) := by
  unfold Resting.applyChange
  simp only
  split
  · split
    · exact h.setOrder c.orderId none (fun x => FinMap.get_erase _ _ _) fun x => FinMap.get_erase _ _ _
    · split
      · exact h.setOrder c.orderId none (fun x => FinMap.get_erase _ _ _) fun x => FinMap.get_erase _ _ _
      · exact h.setOrder c.orderId _ (fun x => FinMap.get_insert _ _ _ _)
          fun x => FinMap.get_insert _ _ _ _
    · exact h.clearSide c.side
  · split
    · exact h.clearSide c.side
    · exact (h.level fun m => m.erase (fixedKey c.price)).1
    · exact (h.level fun m => m.erase (fixedKey c.price)).2
    · exact (h.level fun m => m.insert (fixedKey c.price) (c.price, c.size)).1
    · exact (h.level fun m => m.insert (fixedKey c.price) (c.price, c.size)).2
    · exact h

theorem applyChange_clear (h : c.action = .clear) : r.applyChange c = r.clearSide c.side := by
  unfold Resting.applyChange
  rw [h]
  simp

theorem agree_of_clears (h : c.clears bid = true) : Agree bid (r.applyChange c) (r'.applyChange c) := by
  unfold BookChange.clears at h
  rw [decide_eq_true_iff] at h
  rw [applyChange_clear h.1, applyChange_clear h.1]
  refine ⟨?_, fun id o hs => ?_⟩
  · rw [levels_clearSide, levels_clearSide, if_neg h.2, if_neg h.2]
  · rw [orders_clearSide _ id o hs, orders_clearSide _ id o hs]
    exact ⟨fun h' => absurd h'.1 h.2, fun h' => absurd h'.1 h.2⟩

theorem Agree.foldChanges : ∀ (cs : List BookChange) {r r' : Resting}, Agree bid r r' →
    Agree bid (r.foldChanges cs) (r'.foldChanges cs)
  | [], _, _, h => h
  | c :: cs, _, _, h => Agree.foldChanges cs (h.applyChange c)

theorem agree_of_any_clears : ∀ (cs : List BookChange) (r r' : Resting),
    cs.any (·.clears bid) = true → Agree bid (r.foldChanges cs) (r'.foldChanges cs)
  | c :: cs, r, r', h => by
    by_cases hc : c.clears bid = true
    · exact Agree.foldChanges cs (agree_of_clears hc)
    · refine agree_of_any_clears cs (r.applyChange c) (r'.applyChange c) ?_
      simpa [hc] using h

/-- **Changes that clear both sides leave the same book whatever was there.** -/
theorem foldChanges_eq_of_clears (h : clearedSides cs = (true, true)) :
    r.foldChanges cs = r'.foldChanges cs := by
  have hb : cs.any (·.clears true) = true := congrArg Prod.fst h
  have ha : cs.any (·.clears false) = true := congrArg Prod.snd h
  exact eq_of_agree (agree_of_any_clears cs r r' hb) (agree_of_any_clears cs r r' ha)

theorem foldChanges_append (cs cs' : List BookChange) :
    r.foldChanges (cs ++ cs') = (r.foldChanges cs).foldChanges cs' := List.foldl_append

end Resting

/-! ## Open events -/

/-- What a book is to its reader: what rests, the event still open, and whether it is complete. -/
structure EventBook where
  rests : Resting
  pending : List BookChange
  complete : Bool

namespace EventBook

/-- Past the order cap the orders go. -/
def bound (r : Resting) : Resting :=
  if r.orders.size > MAX_ACCUMULATED_ORDERS then { r with orders := ∅ } else r

/-- Feed one batch. -/
def feed (e : EventBook) (changes : List BookChange) (last : Bool) : EventBook :=
  let pending := e.pending ++ changes.filter BookChange.isFinite
  let r := e.rests.foldChanges pending
  if last then
    ⟨bound r, [], (e.complete || clearedSides pending = (true, true)) &&
      decide (r.orders.size ≤ MAX_ACCUMULATED_ORDERS)⟩
  else if pending.length > MAX_PENDING_CHANGES then ⟨e.rests, [], false⟩
  else ⟨e.rests, pending, e.complete⟩

end EventBook

/-- The book an accumulator is. -/
def BookAccumulator.core (a : BookAccumulator) : EventBook := ⟨a.toResting, a.pending, a.baselined⟩

theorem BookAccumulator.core_close (a : BookAccumulator) (exact : Bool) :
    (a.close exact).core =
      ⟨EventBook.bound a.settled, [], (a.baselined || clearedSides a.pending = (true, true)) &&
        decide (a.settled.orders.size ≤ MAX_ACCUMULATED_ORDERS)⟩ := by
  unfold close core EventBook.bound
  by_cases ho : a.settled.orders.size > MAX_ACCUMULATED_ORDERS
  · rw [if_pos ho, decide_eq_false (Nat.not_le.mpr ho)]
    simp only [decide_eq_true ho, if_true, Bool.not_true, Bool.and_false]
  · rw [if_neg ho, decide_eq_true (Nat.not_lt.mp ho)]
    simp only [decide_eq_false ho, Bool.false_eq_true, if_false, Bool.not_false, Bool.and_true]

/-- **An accumulator applies a batch as its book is fed it.** -/
theorem BookAccumulator.core_apply (a : BookAccumulator) (b : NormalizedBook) :
    (a.apply b).core = a.core.feed b.changes b.last := by
  unfold apply EventBook.feed
  by_cases hl : b.last = true
  · simp only [hl, if_true]
    exact core_close _ _
  · simp only [hl, Bool.false_eq_true, if_false]
    by_cases hc : (a.buffer b).pending.length > MAX_PENDING_CHANGES
    · rw [if_pos hc]
      exact (if_pos hc).symm
    · rw [if_neg hc]
      exact (if_neg hc).symm

end EdgeConnect
