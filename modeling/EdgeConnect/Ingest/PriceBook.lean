import EdgeConnect.Lib.FinMap
import EdgeConnect.Lib.Machine
import Mathlib.Data.List.Sort

/-!
# The price-level book (`src/ingest/pricebook.rs`)

Executable model of `PriceBook`, the L2 book of the Market-by-Price feed: one map of price levels per
side and the snapshot-and-delta recovery model around them.

* `onDelta` applies a delta in unbroken per-instrument sequence, buffers it while the book is not
  `Ready`, and turns a forward gap into `Status.gap`;
* `onSnapshotBegin` / `onSnapshotLevel` / `onSnapshotEnd` assemble a snapshot group in a shadow and
  install it, after which `replay` runs the buffered deltas past the anchor;
* `onInstrumentReset`, `onEndOfSession`, `dropBuffer` take the book back to a rebuild.

Prices are `Int`, the wire's unsigned integers `Nat`, its byte enumerations `UInt8`.  The one `u32`
addition, `last_applied_instrument_seq + 1`, is evaluated only below a larger `u32` sequence number and
so never wraps.  A `BTreeMap` is a `FinMap`, whose ascending traversal is `FinMap.toList`.
-/

set_option autoImplicit false

namespace EdgeConnect.Mbp

/-! ## Wire bytes and constants -/

def SIDE_BID : UInt8 := 0
def SIDE_ASK : UInt8 := 1
def CLEAR_SIDE_BID : UInt8 := 0
def CLEAR_SIDE_ASK : UInt8 := 1
def CLEAR_SIDE_BOTH : UInt8 := 2
def SCOPE_ENTIRE_SIDE : UInt8 := 0
def ACTION_NEW : UInt8 := 1
def ACTION_CHANGE : UInt8 := 2
def ACTION_DELETE : UInt8 := 3

/-- Cap on deltas buffered while not `Ready`. -/
def MAX_BUFFERED_DELTAS : Nat := 2 ^ 18

/-- How long a book may be reported as served while a group assembles over its live levels. -/
def MAX_REBUILD_SERVE_NS : Nat := 3000000000

/-- Cap on price levels held per book, live sides and shadow alike. -/
def MAX_LEVELS_PER_BOOK : Nat := 2 ^ 18

def REANCHOR_MIN_SHORTFALL_LEVELS : Nat := 8
def REANCHOR_SHORTFALL_PERCENT : Nat := 10
def REANCHOR_MIN_INTERVAL_NS : Nat := 60000000000

/-! ## Data -/

/-- Where a book sits in the recovery model. -/
inductive Status where
  | awaitingSnapshot
  | buildingSnapshot
  | ready
  | gap
  deriving DecidableEq, Repr

/-- One price level; `qtyRaw` is the absolute quantity resting at the price. -/
structure LevelState where
  qtyRaw : Nat
  orderCount : Option Nat
  levelFlags : UInt8
  deriving DecidableEq, Repr

abbrev Levels := FinMap Int LevelState

/-- What a delta does to the book. -/
inductive BookDelta where
  | level (side : UInt8) (priceRaw : Int) (qtyRaw : Nat) (orderCount : Option Nat)
      (levelFlags : UInt8) (action : UInt8)
  | clear (clearSide : UInt8) (scope : UInt8) (fromPriceRaw : Int)
  deriving DecidableEq, Repr

/-- One sequenced delta: `seq` per instrument, `mktdataSeq` channel-wide, `ts` the event time. -/
structure DeltaOp where
  seq : Nat
  mktdataSeq : Nat
  ts : Nat
  delta : BookDelta
  deriving DecidableEq, Repr

/-- A publisher `Action` byte that disagrees with the quantity it arrived with. -/
inductive Divergence where
  | newOnPresentLevel
  | changeOnAbsentLevel
  | deleteWithQuantity
  | zeroQuantityWithoutDelete
  deriving DecidableEq, Repr

/-- What `onDelta` did with a delta. -/
inductive DeltaOutcome where
  | buffered
  | duplicate
  | gap
  | overflow
  | bufferOverflow
  | applied (divergence : Option Divergence)
  deriving DecidableEq, Repr

/-- What `onSnapshotBegin` did with a rotation. -/
inductive BeginOutcome where
  | accepted
  | declined (shortfall : Option Nat)
  | resynced (shortfall : Nat)
  deriving DecidableEq, Repr

/-- A snapshot group being assembled between its begin and its end. -/
structure Building where
  snapshotId : Nat
  anchorSeq : Nat
  totalLevels : Nat
  receivedLevels : Nat
  lastInstrumentSeq : Nat
  depthBound : Nat
  overLiveBook : Bool
  servingSinceNs : Nat
  bids : Levels
  asks : Levels

def Building.len (b : Building) : Nat := b.bids.size + b.asks.size

/-- Whether a begin repeats the group already assembling, field for field. -/
def Building.repeats (g : Building)
    (snapshotId anchorSeq totalLevels lastInstrumentSeq depthBound : Nat) : Bool :=
  g.snapshotId == snapshotId && g.anchorSeq == anchorSeq && g.totalLevels == totalLevels &&
    g.lastInstrumentSeq == lastInstrumentSeq && g.depthBound == depthBound

structure PriceBook where
  bids : Levels
  asks : Levels
  status : Status
  lastAppliedInstrumentSeq : Nat
  depthBound : Option Nat
  requiredAnchorSeq : Option Nat
  lastEventTs : Nat
  «open» : Option Building
  pending : List DeltaOp
  lastReanchorNs : Option Nat
  shortStrike : Option Nat

def PriceBook.new : PriceBook where
  bids := ∅
  asks := ∅
  status := .awaitingSnapshot
  lastAppliedInstrumentSeq := 0
  depthBound := none
  requiredAnchorSeq := none
  lastEventTs := 0
  «open» := none
  pending := []
  lastReanchorNs := none
  shortStrike := none

/-! ## Pure helpers -/

/-- Whether a rebuild has been assembling over the live book for too long; `0` is "no clock". -/
def rebuildExpired (sinceNs nowNs : Nat) : Bool :=
  sinceNs ≠ 0 && nowNs ≠ 0 && decide (nowNs - sinceNs > MAX_REBUILD_SERVE_NS)

/-- Whether a declined complete rotation's shortfall is past the jitter bound. -/
def reanchorWarranted (shortfall totalLevels : Nat) : Bool :=
  decide (shortfall > max REANCHOR_MIN_SHORTFALL_LEVELS
    (totalLevels * REANCHOR_SHORTFALL_PERCENT / 100))

/-- The publisher's `Action` byte against what the quantity did. -/
def divergence (action : UInt8) (qtyRaw : Nat) (present : Bool) : Option Divergence :=
  if action = ACTION_NEW ∧ present = true then some .newOnPresentLevel
  else if action = ACTION_CHANGE ∧ present = false then some .changeOnAbsentLevel
  else if action = ACTION_DELETE ∧ qtyRaw ≠ 0 then some .deleteWithQuantity
  else if qtyRaw = 0 ∧ action ≠ ACTION_DELETE then some .zeroQuantityWithoutDelete
  else none

/-- Whether a level at `price` survives a clear of its side. -/
def survivesClear (side scope : UInt8) (fromPrice price : Int) : Bool :=
  scope != SCOPE_ENTIRE_SIDE &&
    if side = SIDE_ASK then decide (price < fromPrice) else decide (price > fromPrice)

/-- Clear one side, appending each dropped `(side, price)` to `removed`. -/
def clearSideLevels (levels : Levels) (side scope : UInt8) (fromPrice : Int)
    (removed : List (UInt8 × Int)) : Levels × List (UInt8 × Int) :=
  (levels.filter fun p _ => survivesClear side scope fromPrice p,
    removed ++ ((levels.toList.filter fun e => !survivesClear side scope fromPrice e.1).map
      fun e => (side, e.1)))

namespace PriceBook

/-- Whether the book still holds a complete picture of the market. -/
def servesABook (b : PriceBook) (nowNs : Nat) : Bool :=
  match b.status with
  | .ready => true
  | .buildingSnapshot =>
    match b.open with
    | some g => g.overLiveBook && !rebuildExpired g.servingSinceNs nowNs
    | none => false
  | .awaitingSnapshot | .gap => false

def bufferedLen (b : PriceBook) : Nat := b.pending.length

def levelsLen (b : PriceBook) : Nat := b.bids.size + b.asks.size

/-- Drop the buffered deltas and mark the instrument `Gap`. -/
def dropBuffer (b : PriceBook) : PriceBook := { b with pending := [], status := .gap }

/-- Whether the inside prices cross (strictly: a locked book is not crossed). -/
def crossed (b : PriceBook) : Bool :=
  match b.bids.toList.getLast?, b.asks.toList.head? with
  | some bid, some ask => decide (bid.1 > ask.1)
  | _, _ => false

def reanchorAllowed (b : PriceBook) (nowNs : Nat) : Bool :=
  match b.lastReanchorNs with
  | none => true
  | some last => decide (nowNs - last > REANCHOR_MIN_INTERVAL_NS)

/-- Leave `Ready` without installing anything. -/
def forceResync (b : PriceBook) (nowNs : Nat) : PriceBook :=
  { b with
    bids := ∅, asks := ∅, depthBound := none, status := .awaitingSnapshot,
    lastReanchorNs := some nowNs, shortStrike := none }

/-- The level cap was reached: discard the book and the buffer. -/
def overflow (b : PriceBook) : PriceBook :=
  { b with bids := ∅, asks := ∅, pending := [], status := .awaitingSnapshot }

def advance (b : PriceBook) (seq ts : Nat) : PriceBook :=
  { b with lastAppliedInstrumentSeq := seq, lastEventTs := ts }

/-- Hold a delta for replay, reporting whether the cap refused it. -/
def buffer (b : PriceBook) (op : DeltaOp) : PriceBook × Bool :=
  if b.pending.length < MAX_BUFFERED_DELTAS then ({ b with pending := b.pending ++ [op] }, false)
  else ({ b with pending := [], status := .gap }, true)

/-! ## Applying deltas -/

/-- Apply an in-sequence delta, advancing the trackers. -/
def apply (b : PriceBook) (op : DeltaOp) (removed : List (UInt8 × Int)) :
    PriceBook × List (UInt8 × Int) × DeltaOutcome :=
  match op.delta with
  | .level side priceRaw qtyRaw orderCount levelFlags action =>
    let present := if side = SIDE_ASK then b.asks.contains priceRaw else b.bids.contains priceRaw
    if present = false ∧ qtyRaw ≠ 0 ∧ b.bids.size + b.asks.size ≥ MAX_LEVELS_PER_BOOK then
      (b.overflow, removed, .overflow)
    else
      let b := b.advance op.seq op.ts
      let set (levels : Levels) : Levels :=
        if qtyRaw = 0 then levels.erase priceRaw
        else levels.insert priceRaw ⟨qtyRaw, orderCount, levelFlags⟩
      (if side = SIDE_ASK then { b with asks := set b.asks } else { b with bids := set b.bids },
        removed, .applied (divergence action qtyRaw present))
  | .clear clearSide scope fromPriceRaw =>
    let b := b.advance op.seq op.ts
    if clearSide = CLEAR_SIDE_BOTH ∧ scope ≠ SCOPE_ENTIRE_SIDE then
      -- one price cannot bound both sides: the sequence is consumed, nothing is cleared
      (b, removed, .applied none)
    else
      let (bids, removed) :=
        if clearSide = CLEAR_SIDE_BID ∨ clearSide = CLEAR_SIDE_BOTH then
          clearSideLevels b.bids SIDE_BID scope fromPriceRaw removed
        else (b.bids, removed)
      let (asks, removed) :=
        if clearSide = CLEAR_SIDE_ASK ∨ clearSide = CLEAR_SIDE_BOTH then
          clearSideLevels b.asks SIDE_ASK scope fromPriceRaw removed
        else (b.asks, removed)
      ({ b with bids := bids, asks := asks }, removed, .applied none)

/-- `on_delta`: the book, the levels a clear dropped, and the outcome. -/
def onDelta (b : PriceBook) (op : DeltaOp) : PriceBook × List (UInt8 × Int) × DeltaOutcome :=
  if b.status ≠ .ready then
    let (b, refused) := b.buffer op
    (b, [], if refused then .bufferOverflow else .buffered)
  else if op.seq ≤ b.lastAppliedInstrumentSeq then (b, [], .duplicate)
  else if op.seq ≠ b.lastAppliedInstrumentSeq + 1 then
    ({ b with status := .gap, pending := [op] }, [], .gap)
  else b.apply op []

/-- Buffer every delta of a list, in order. -/
def bufferAll (b : PriceBook) (ops : List DeltaOp) : PriceBook :=
  ops.foldl (fun b op => (b.buffer op).1) b

/-- The loop of `replay` over the sorted deltas past the anchor. -/
def replayOps (b : PriceBook) : List DeltaOp → PriceBook
  | [] => b
  | op :: ops =>
    if op.seq ≤ b.lastAppliedInstrumentSeq then replayOps b ops
    else if op.seq ≠ b.lastAppliedInstrumentSeq + 1 then
      -- a forward gap stops the replay with the remainder buffered again
      ({ b with status := .gap }.buffer op).1.bufferAll ops
    else
      match b.apply op [] with
      | (b', _, .overflow) => b'
      | (b', _, _) => replayOps b' ops

/-- Replay the buffered deltas past `anchor` after an install. -/
def replay (b : PriceBook) (anchor : Nat) : PriceBook :=
  let ops := (b.pending.filter fun d => decide (d.mktdataSeq > anchor)).insertionSort
    fun x y => x.mktdataSeq ≤ y.mktdataSeq
  { b with pending := [] }.replayOps ops

/-! ## Snapshots, resets -/

/-- `on_snapshot_begin`: open a snapshot group, reporting what it did. -/
def onSnapshotBegin (b : PriceBook)
    (snapshotId anchorSeq totalLevels lastInstrumentSeq depthBound nowNs : Nat) :
    PriceBook × BeginOutcome :=
  if b.requiredAnchorSeq.any (fun s => decide (anchorSeq < s)) ∨
      totalLevels > MAX_LEVELS_PER_BOOK then
    (b, .declined none)
  else if b.status = .ready ∧ lastInstrumentSeq ≤ b.lastAppliedInstrumentSeq then
    if depthBound ≠ 0 then (b, .declined none)
    else
      let shortfall := totalLevels - b.levelsLen % 2 ^ 32
      if reanchorWarranted shortfall totalLevels = false then
        ({ b with shortStrike := none }, .declined (some shortfall))
      else
        -- the first strike keeps its id; a second, distinct rotation confirms it
        let confirmed := b.shortStrike.any fun first => first != snapshotId
        let b := { b with shortStrike := some (b.shortStrike.getD snapshotId) }
        if confirmed && b.reanchorAllowed nowNs then (b.forceResync nowNs, .resynced shortfall)
        else (b, .declined (some shortfall))
  else if b.open.any (fun g =>
      g.repeats snapshotId anchorSeq totalLevels lastInstrumentSeq depthBound) then
    (b, .declined none)
  else
    let overLiveBook := b.servesABook nowNs
    let servingSinceNs :=
      match b.open with
      | some prev => if overLiveBook then prev.servingSinceNs else nowNs
      | none => nowNs
    ({ b with
        «open» := some
          { snapshotId, anchorSeq, totalLevels, receivedLevels := 0, lastInstrumentSeq, depthBound,
            overLiveBook, servingSinceNs, bids := ∅, asks := ∅ },
        status := .buildingSnapshot }, .accepted)

/-- `on_snapshot_level`: add one level to the group under assembly, counting distinct prices. -/
def onSnapshotLevel (b : PriceBook) (snapshotId : Nat) (side : UInt8) (priceRaw : Int)
    (qtyRaw : Nat) (orderCount : Option Nat) (levelFlags : UInt8) : PriceBook :=
  match b.open with
  | none => b
  | some g =>
    if g.snapshotId ≠ snapshotId ∨ g.len ≥ MAX_LEVELS_PER_BOOK then b
    else
      let l : LevelState := ⟨qtyRaw, orderCount, levelFlags⟩
      let g :=
        if side = SIDE_ASK then
          { g with
            asks := g.asks.insert priceRaw l,
            receivedLevels := g.receivedLevels + if g.asks.contains priceRaw then 0 else 1 }
        else
          { g with
            bids := g.bids.insert priceRaw l,
            receivedLevels := g.receivedLevels + if g.bids.contains priceRaw then 0 else 1 }
      { b with «open» := some g }

/-- `on_snapshot_end`: install the assembled group, returning whether it did. -/
def onSnapshotEnd (b : PriceBook) (anchorSeq snapshotId : Nat) : PriceBook × Bool :=
  match b.open with
  | none => (b, false)
  | some g =>
    if g.snapshotId ≠ snapshotId ∨ g.anchorSeq ≠ anchorSeq ∨ g.receivedLevels ≠ g.totalLevels then
      ({ b with
          «open» := none, bids := ∅, asks := ∅, depthBound := none,
          status := .awaitingSnapshot }, false)
    else
      ({ b with
          «open» := none, bids := g.bids, asks := g.asks,
          lastAppliedInstrumentSeq := g.lastInstrumentSeq, depthBound := some g.depthBound,
          requiredAnchorSeq := none, shortStrike := none, status := .ready }.replay g.anchorSeq,
        true)

/-- `on_instrument_reset(S')`: drop the book and any group anchored before `S'`. -/
def onInstrumentReset (b : PriceBook) (newAnchorSeq : Nat) : PriceBook :=
  let kept := (b.open.filter fun g => decide (newAnchorSeq ≤ g.anchorSeq)).map
    fun g => { g with overLiveBook := false }
  { b with
    bids := ∅, asks := ∅, «open» := kept,
    pending := b.pending.filter fun d => decide (d.mktdataSeq > newAnchorSeq),
    status := if kept.isSome then .buildingSnapshot else .awaitingSnapshot,
    lastAppliedInstrumentSeq := 0, depthBound := none, requiredAnchorSeq := some newAnchorSeq,
    lastEventTs := 0 }

/-- `on_end_of_session`: the session's book, sequences and event clock are over. -/
def onEndOfSession (b : PriceBook) : PriceBook :=
  { b with
    bids := ∅, asks := ∅, «open» := none, pending := [], status := .awaitingSnapshot,
    lastAppliedInstrumentSeq := 0, depthBound := none, requiredAnchorSeq := none, lastEventTs := 0 }

end PriceBook

/-! ## The book as a machine -/

/-- One call on a price book. -/
inductive Call where
  | delta (op : DeltaOp)
  | snapshotBegin (snapshotId anchorSeq totalLevels lastInstrumentSeq depthBound nowNs : Nat)
  | snapshotLevel (snapshotId : Nat) (side : UInt8) (priceRaw : Int) (qtyRaw : Nat)
      (orderCount : Option Nat) (levelFlags : UInt8)
  | snapshotEnd (anchorSeq snapshotId : Nat)
  | dropBuffer
  | instrumentReset (newAnchorSeq : Nat)
  | endOfSession
  deriving DecidableEq, Repr

/-- What a call answers. -/
inductive Reply where
  | delta (removed : List (UInt8 × Int)) (outcome : DeltaOutcome)
  | begun (outcome : BeginOutcome)
  | ended (installed : Bool)
  | unit
  deriving DecidableEq, Repr

/-- One call, with its answer. -/
def step (b : PriceBook) : Call → PriceBook × Reply
  | .delta op => ((b.onDelta op).1, .delta (b.onDelta op).2.1 (b.onDelta op).2.2)
  | .snapshotBegin id anchor total last depth now =>
    ((b.onSnapshotBegin id anchor total last depth now).1,
      .begun (b.onSnapshotBegin id anchor total last depth now).2)
  | .snapshotLevel id side price qty count flags =>
    (b.onSnapshotLevel id side price qty count flags, .unit)
  | .snapshotEnd anchor id => ((b.onSnapshotEnd anchor id).1, .ended (b.onSnapshotEnd anchor id).2)
  | .dropBuffer => (b.dropBuffer, .unit)
  | .instrumentReset s => (b.onInstrumentReset s, .unit)
  | .endOfSession => (b.onEndOfSession, .unit)

/-- The price book as a machine over its calls. -/
def machine : Machine PriceBook Call Reply := ⟨step⟩

end EdgeConnect.Mbp
