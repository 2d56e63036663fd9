import EdgeConnect.Ingest.PriceBook
import EdgeConnect.Ingest.Receiver

/-!
# The Market-by-Price processor (`MbpProcessor` in `src/ingest/processor.rs`)

Executable model of the processor that feeds decoded datagrams into one price book per publisher, channel and
instrument, and hands the arbiter the batches that mirror it.

* `Run` — the processor and what it has handed on; `Frame` — a datagram in progress;
* `sendBook`, `emitRebaseline` — the two ways a batch leaves; `reportHealth`, `revealIfNeeded`, `ensureBook`;
* `onMessage` — one message; `emitPass` — the end of a datagram; `onDatagram`, `onTick` — the processor's two calls.

A datagram that does not decode does nothing and is left out, as are metrics, warnings and the shared instrument
catalog.  What `on_datagram` reads elsewhere is in its context: the clocks, the tape flag, the order in which a hash
map comes up, and the arbiter's answer to `book_rebaselines_owed` after what it was handed so far.
-/

set_option autoImplicit false

namespace EdgeConnect.Mbp

open Ingest

/-! ## Messages -/

structure LevelUpdate where
  instrumentId : Nat
  sourceId : Nat
  side : UInt8
  action : UInt8
  perInstrumentSeq : Nat
  priceRaw : Int
  qtyRaw : Nat
  ts : Nat
  orderCount : Option Nat
  levelFlags : UInt8
  deriving DecidableEq, Repr

structure BookClear where
  instrumentId : Nat
  sourceId : Nat
  clearSide : UInt8
  scope : UInt8
  perInstrumentSeq : Nat
  fromPriceRaw : Int
  ts : Nat
  deriving DecidableEq, Repr

structure SnapshotBegin where
  instrumentId : Nat
  anchorSeq : Nat
  totalLevels : Nat
  snapshotId : Nat
  lastInstrumentSeq : Nat
  depthBound : Nat
  deriving DecidableEq, Repr

structure SnapshotLevel where
  snapshotId : Nat
  priceRaw : Int
  qtyRaw : Nat
  orderCount : Option Nat
  side : UInt8
  levelFlags : UInt8
  deriving DecidableEq, Repr

structure SnapshotEnd where
  instrumentId : Nat
  anchorSeq : Nat
  snapshotId : Nat
  deriving DecidableEq, Repr

structure Trade where
  instrumentId : Nat
  sourceId : Nat
  aggressorSide : UInt8
  sourceTs : Nat
  tradePriceRaw : Int
  tradeQtyRaw : Nat
  tradeId : Nat
  cumulativeVolumeRaw : Nat
  deriving DecidableEq, Repr

/-- A decoded message; `other` is a heartbeat or one that is skipped. -/
inductive Message where
  | manifestSummary (valid : Bool) (manifestSeq instrumentCount : Nat)
  | instrumentDefinition (d : InstrumentDefinition)
  | levelUpdate (l : LevelUpdate)
  | bookClear (c : BookClear)
  | snapshotBegin (s : SnapshotBegin)
  | snapshotLevel (l : SnapshotLevel)
  | snapshotEnd (e : SnapshotEnd)
  | instrumentReset (instrumentId newAnchorSeq : Nat)
  | endOfSession (ts : Nat)
  | batchBoundary (batchId : Nat)
  | trade (t : Trade)
  | other
  deriving DecidableEq, Repr

structure Header where
  channelId : Nat
  sequence : Nat
  resetCount : Nat
  deriving DecidableEq, Repr

/-! ## The processor -/

def MAX_PRICE_BOOKS : Nat := 4096
def MAX_CHANNEL_KEYS : Nat := 256
def BOUNDARY_TIMEOUT_NS : Nat := 2000000000
def MAX_DATAGRAMS_WITHOUT_BOUNDARY : Nat := 16384
def MAX_BUFFERED_DELTAS_ACROSS_BOOKS : Nat := 2 ^ 20

structure PriceBookKey where
  publisher : IpAddr
  channel : Nat
  instrumentId : Nat
  deriving DecidableEq, Repr

namespace PriceBookKey

def lex (k : PriceBookKey) : ℕ ×ₗ ℕ ×ₗ ℕ := toLex (k.publisher, toLex (k.channel, k.instrumentId))

theorem lex_injective : Function.Injective lex := by
  rintro ⟨p, c, i⟩ ⟨p', c', i'⟩ h
  have h := toLex_inj.mp h
  rw [Prod.mk.injEq, toLex_inj, Prod.mk.injEq] at h
  obtain ⟨hp, hc, hi⟩ := h
  cases hp
  cases hc
  cases hi
  rfl

instance : LinearOrder PriceBookKey := LinearOrder.lift' lex lex_injective

def chan (k : PriceBookKey) : ChannelKey := ⟨k.publisher, k.channel⟩

end PriceBookKey

/-- What a `BatchBoundary` of a channel closes. -/
structure ChannelBatching where
  «open» : Finset Nat
  lastBoundaryNs : Nat
  sinceBoundary : Nat
  seen : Bool
  slotLapsed : Bool

namespace ChannelBatching

def new : ChannelBatching := ⟨∅, 0, 0, false, false⟩

def boundaryOverdue (b : ChannelBatching) (nowNs : Nat) : Bool :=
  b.lastBoundaryNs ≠ 0 ∧ nowNs ≠ 0 ∧ nowNs - b.lastBoundaryNs > BOUNDARY_TIMEOUT_NS

end ChannelBatching

/-- The snapshot group that routes a channel's levels. -/
structure OpenGroup where
  instrumentId : Nat
  snapshotId : Nat
  anchorSeq : Nat
  accepted : Bool
  deriving DecidableEq, Repr

inductive DropReason where
  | reset
  | staleEra
  | noDefinition
  | endOfSession
  deriving DecidableEq, Repr

structure DroppedGroup where
  snapshotId : Nat
  reason : DropReason
  deriving DecidableEq, Repr

structure MbpProcessor where
  state : PerPublisher
  books : FinMap PriceBookKey PriceBook
  booksOrder : List PriceBookKey
  «open» : FinMap ChannelKey OpenGroup
  dropped : FinMap ChannelKey (Option DroppedGroup)
  droppedOrder : List ChannelKey
  lastReset : FinMap ChannelKey Nat
  lastBatch : FinMap ChannelKey Nat
  batching : FinMap ChannelKey ChannelBatching
  channelOrder : List ChannelKey
  bufferedTotal : Nat
  healthReported : FinMap PriceBookKey (Nat × Bool)
  revealed : FinMap PriceBookKey Nat
  seq : PublisherSeq

def MbpProcessor.new : MbpProcessor where
  state := .new
  books := ∅
  booksOrder := []
  «open» := ∅
  dropped := ∅
  droppedOrder := []
  lastReset := ∅
  lastBatch := ∅
  batching := ∅
  channelOrder := []
  bufferedTotal := 0
  healthReported := ∅
  revealed := ∅
  seq := ⟨∅, [], true⟩

/-- One thing handed to the arbiter, with the book it is about; and two marks: a close that was refused, which
`mbp_closes_refused` counts, and the batching state of a channel being dropped. -/
inductive Out (P S : Type) where
  | book (key : PriceBookKey) (b : Batch P S)
  | instrument (key : PriceBookKey) (i : Instrument)
  | trade (key : PriceBookKey) (t : TradePrint P S)
  | setBookHealth (key : PriceBookKey) (market : BookKey) (healthy : Bool)
  | noteSourcePath (key : PriceBookKey) (sourceId : Nat) (market : BookKey)
  | forgetSourcePath (key : PriceBookKey) (market : BookKey)
  | releaseSourceMarket (key : PriceBookKey) (market : BookKey)
  | closeRefused (key : PriceBookKey)
  | batchingDropped (chan : ChannelKey)
  deriving DecidableEq, Repr

/-- The context of one call. -/
structure Ctx (P S : Type) where
  category : String
  kernelRxTsNs : Nat
  recvTsNs : Nat
  role : PortRole
  publisher : IpAddr
  mirrorOffset : Option Nat
  monoNs : Nat
  tape : Bool
  order : List PriceBookKey
  owed : List (Out P S) → BookKey → Bool

/-- The processor and what it has handed on in this call. -/
structure Run (P S : Type) where
  proc : MbpProcessor
  out : List (Out P S)

/-- A datagram in progress: the changes to publish, the instruments it touched and those it revealed. -/
structure Frame (P S : Type) extends Run P S where
  accum : FinMap Nat (List (Change P S))
  touched : Finset Nat
  revealedNow : Finset Nat

section Processor

variable {P S : Type} (rd : Render P S) (cx : Ctx P S)

namespace Run

def emit (r : Run P S) (o : Out P S) : Run P S := { r with out := r.out ++ [o] }

/-- The market a book of this row is published under. -/
def marketOf (key : PriceBookKey) (sourceId : Nat) : BookKey :=
  ⟨rd.sourceKey sourceId, cx.category, canonicalChannel cx.mirrorOffset key.channel, key.instrumentId⟩

/-- `with_book`: run `f` on one book, keeping the buffer total in step. -/
def withBook {R : Type} (r : Run P S) (key : PriceBookKey) (f : PriceBook → PriceBook × R) :
    Run P S × Option R :=
  match r.proc.books.get key with
  | none => (r, none)
  | some b =>
    let (b', x) := f b
    ({ r with
        proc := { r.proc with
          books := r.proc.books.insert key b'
          bufferedTotal := r.proc.bufferedTotal + b'.bufferedLen - b.bufferedLen } }, some x)

/-- The exponents of an instrument whose definition is known. -/
def exponents (p : MbpProcessor) (publisher : IpAddr) (instrumentId : Nat) : Option (Int × Int) :=
  (p.state.definition publisher instrumentId).map fun d => (d.priceExponent, d.qtyExponent)

def instrumentOf (key : PriceBookKey) (sourceId : Nat) (d : InstrumentDefinition) : Instrument where
  source := rd.sourceKey sourceId
  sourceId := sourceId
  symbol := d.symbol
  channel := canonicalChannel cx.mirrorOffset key.channel
  instrumentId := key.instrumentId
  category := cx.category
  priceExponent := d.priceExponent
  qtyExponent := d.qtyExponent
  tickSize := d.tickSize

/-- `reveal_if_needed`: name the Source ID of a book, and say whether it is new. -/
def revealIfNeeded (r : Run P S) (key : PriceBookKey) (sourceId : Nat) : Run P S × Bool :=
  let previous := r.proc.revealed.get key
  if previous = some sourceId then (r, false)
  else
    match r.proc.state.definition cx.publisher key.instrumentId with
    | none => (r, false)
    | some d =>
      let r :=
        match previous with
        | none => r
        | some old => r.emit (.releaseSourceMarket key (marketOf rd cx key old))
      let r : Run P S := { r with proc := { r.proc with revealed := r.proc.revealed.insert key sourceId } }
      let r := r.emit (.noteSourcePath key sourceId (marketOf rd cx key sourceId))
      (r.emit (.instrument key (instrumentOf rd cx key sourceId d)), true)

/-- `forget_source_path`, before the Source ID goes. -/
def forgetSourcePath (r : Run P S) (key : PriceBookKey) : Run P S :=
  match r.proc.revealed.get key with
  | none => r
  | some id => r.emit (.forgetSourcePath key (marketOf rd cx key id))

/-- `report_health`: file a change of health under the revealed Source ID, and withdraw the unhealth filed under one
the book has moved off. -/
def reportHealth (r : Run P S) (key : PriceBookKey) (healthy : Bool) : Run P S :=
  match r.proc.revealed.get key with
  | none => r
  | some id =>
    if r.proc.healthReported.get key = some (id, healthy) then r
    else
      let filed := r.proc.healthReported.get key
      let r : Run P S :=
        { r with proc := { r.proc with healthReported := r.proc.healthReported.insert key (id, healthy) } }
      let r :=
        match filed with
        | some (old, false) => if old ≠ id then r.emit (.setBookHealth key (marketOf rd cx key old) true) else r
        | _ => r
      r.emit (.setBookHealth key (marketOf rd cx key id) healthy)

/-- `forget_book`: drop one book and every map keyed off it. -/
def forgetBook (r : Run P S) (key : PriceBookKey) : Run P S :=
  let buffered := (r.proc.books.get key).elim 0 PriceBook.bufferedLen
  let r : Run P S :=
    { r with
      proc := { r.proc with
        books := r.proc.books.erase key
        bufferedTotal := r.proc.bufferedTotal - buffered
        healthReported := r.proc.healthReported.erase key } }
  let r := forgetSourcePath rd cx r key
  { r with
    proc := { r.proc with
      revealed := r.proc.revealed.erase key
      «open» :=
        if (r.proc.open.get key.chan).any fun g => g.instrumentId = key.instrumentId then
          r.proc.open.erase key.chan
        else r.proc.open } }

/-- `ensure_book`: the book of an instrument with a definition, made where there is none in the place of the
oldest. -/
def ensureBook (r : Run P S) (channel instrumentId : Nat) : Run P S × Option PriceBookKey :=
  match r.proc.state.definition cx.publisher instrumentId with
  | none => (r, none)
  | some _ =>
    let key : PriceBookKey := ⟨cx.publisher, channel, instrumentId⟩
    if r.proc.books.contains key then (r, some key)
    else
      let (order, r) := evictWhile (fun r : Run P S => decide (r.proc.books.size ≥ MAX_PRICE_BOOKS))
        (fun r old => forgetBook rd cx (reportHealth rd cx r old false) old) r.proc.booksOrder r
      ({ r with
          proc := { r.proc with
            books := r.proc.books.insert key .new
            booksOrder := order ++ [key] } }, some key)

/-- The batching state of a channel is dropped. -/
def dropBatching (r : Run P S) (chan : ChannelKey) : Run P S :=
  { r with proc := { r.proc with batching := r.proc.batching.erase chan } }.emit (.batchingDropped chan)

/-- `forget_publisher`: drop every trace of a publisher. -/
def forgetPublisher (r : Run P S) (publisher : IpAddr) : Run P S :=
  let mine (k : PriceBookKey) : Bool := k.publisher = publisher
  let r := (visit cx.order (r.proc.books.keys.filter fun k => mine k)).foldl (forgetBook rd cx) r
  let r := (visit cx.order (r.proc.revealed.keys.filter fun k => mine k)).foldl (forgetSourcePath rd cx) r
  let r := (visit [] (r.proc.batching.keys.filter fun k => k.publisher = publisher)).foldl dropBatching r
  { r with
    proc := { r.proc with
      booksOrder := r.proc.booksOrder.filter fun k => !mine k
      «open» := r.proc.open.filter fun k _ => k.publisher ≠ publisher
      dropped := r.proc.dropped.filter fun k _ => k.publisher ≠ publisher
      droppedOrder := r.proc.droppedOrder.filter fun k => k.publisher ≠ publisher
      lastReset := r.proc.lastReset.filter fun k _ => k.publisher ≠ publisher
      lastBatch := r.proc.lastBatch.filter fun k _ => k.publisher ≠ publisher
      channelOrder := r.proc.channelOrder.filter fun k => k.publisher ≠ publisher
      revealed := r.proc.revealed.filter fun k _ => !mine k
      healthReported := r.proc.healthReported.filter fun k _ => !mine k
      seq := r.proc.seq.forget publisher } }

/-- `on_channel_reset`: discard what a change of `Reset Count` invalidates. -/
def onChannelReset (r : Run P S) (channel resetCount : Nat) : Run P S :=
  let chan : ChannelKey := ⟨cx.publisher, channel⟩
  let r := (visit cx.order (r.proc.books.keys.filter fun k => k.chan = chan)).foldl
    (fun r key => forgetBook rd cx (reportHealth rd cx r key false) key) r
  let r := r.dropBatching chan
  { r with
    proc := { r.proc with
      booksOrder := r.proc.booksOrder.filter fun k => k.chan ≠ chan
      «open» := r.proc.open.erase chan
      lastBatch := r.proc.lastBatch.erase chan
      seq := r.proc.seq.forgetChannel cx.publisher channel
      state := r.proc.state.modifyExisting cx.publisher fun s => s.onDatagram resetCount } }

/-! ## Batches -/

/-- The slot a channel has committed, unless its boundaries have lapsed. -/
def committedSlot (p : MbpProcessor) (chan : ChannelKey) : Option Nat :=
  if (p.batching.get chan).any ChannelBatching.slotLapsed then none else p.lastBatch.get chan

/-- Whether a channel's batches are closed by its boundaries. -/
def batchesEvents (p : MbpProcessor) (chan : ChannelKey) (nowNs : Nat) : Bool :=
  (p.batching.get chan).any fun b =>
    b.seen && decide (b.sinceBoundary ≤ MAX_DATAGRAMS_WITHOUT_BOUNDARY) && !b.boundaryOverdue nowNs

/-- `send_book`: hand on a batch of a book that is `Ready` and revealed, and say whether it went. -/
def sendBook (r : Run P S) (channel instrumentId : Nat) (changes : List (Change P S)) (snapshot last : Bool) :
    Run P S × Bool :=
  let key : PriceBookKey := ⟨cx.publisher, channel, instrumentId⟩
  match r.proc.revealed.get key, r.proc.books.get key, r.proc.state.definition cx.publisher instrumentId with
  | some sourceId, some b, some d =>
    if b.status = .ready then
      (r.emit (.book key
        { source := rd.sourceKey sourceId
          sourceId := sourceId
          symbol := d.symbol
          channel := canonicalChannel cx.mirrorOffset channel
          instrumentId := instrumentId
          category := cx.category
          orderLevel := false
          changes := changes
          batchId := committedSlot r.proc key.chan
          snapshot := snapshot
          last := last
          sourceTsNs := b.lastEventTs
          recvTsNs := cx.recvTsNs
          kernelRxTsNs := cx.kernelRxTsNs }), true)
    else (r, false)
  | _, _, _ => (r, false)

/-- The changes of a re-baseline: a clear, then the bids from the best down and the asks from the best up. -/
def rebaselineChanges (b : PriceBook) (priceExponent qtyExponent : Int) : List (Change P S) :=
  let level (side : BookSide) (e : Int × LevelState) : Change P S :=
    ⟨.update, side, rd.price e.1 priceExponent, rd.scaledQty e.2.qtyRaw qtyExponent, 0⟩
  rd.clearBoth :: (b.bids.toList.reverse.map (level .bid) ++ b.asks.toList.map (level .ask))

/-- `emit_rebaseline`. -/
def emitRebaseline (r : Run P S) (channel instrumentId : Nat) : Run P S × Bool :=
  match r.proc.books.get ⟨cx.publisher, channel, instrumentId⟩, exponents r.proc cx.publisher instrumentId with
  | some b, some (pe, qe) => sendBook rd cx r channel instrumentId (rebaselineChanges rd b pe qe) true true
  | _, _ => (r, false)

def modifyBatching (r : Run P S) (chan : ChannelKey) (f : ChannelBatching → ChannelBatching) : Run P S :=
  match r.proc.batching.get chan with
  | none => r
  | some b => { r with proc := { r.proc with batching := r.proc.batching.insert chan (f b) } }

/-- `note_batch`: an event of an instrument is closed, or open. -/
def noteBatch (r : Run P S) (chan : ChannelKey) (instrumentId : Nat) (last : Bool) : Run P S :=
  r.modifyBatching chan fun b =>
    { b with «open» := if last then b.open.erase instrumentId else insert instrumentId b.open }

def openIds (p : MbpProcessor) (chan : ChannelKey) : Finset Nat :=
  (p.batching.get chan).elim ∅ ChannelBatching.open

/-- `rebaselines_owed`: those of the instruments that the arbiter asks a whole book of. -/
def rebaselinesOwed (r : Run P S) (channel : Nat) (ids : Finset Nat) : Finset Nat :=
  ids.filter fun id =>
    let key : PriceBookKey := ⟨cx.publisher, channel, id⟩
    (r.proc.revealed.get key).any fun sourceId => cx.owed r.out (marketOf rd cx key sourceId)

/-- One instrument of `close_open`. -/
def closeOpenOne (channel : Nat) (owed : Finset Nat) (x : Run P S × Finset Nat) (id : Nat) : Run P S × Finset Nat :=
  let (r, published) :=
    if id ∈ owed then emitRebaseline rd cx x.1 channel id else sendBook rd cx x.1 channel id [] false true
  if published then (r, x.2) else (r.emit (.closeRefused ⟨cx.publisher, channel, id⟩), insert id x.2)

/-- `close_open`: close every open event of a channel; what is refused stays owed. -/
def closeOpen (r : Run P S) (channel : Nat) (owed : Finset Nat) : Run P S :=
  let chan : ChannelKey := ⟨cx.publisher, channel⟩
  let ids := openIds r.proc chan
  let r := r.modifyBatching chan fun b => { b with «open» := ∅ }
  let (r, refused) := (ids.sort (· ≤ ·)).foldl (closeOpenOne rd cx channel owed) (r, ∅)
  r.modifyBatching chan fun b => { b with «open» := b.open ∪ refused }

/-! ## The buffer budget -/

/-- The book that holds the most buffered deltas, the last of those that hold as many. -/
def largestBuffer (p : MbpProcessor) (order : List PriceBookKey) (pick : PriceBookKey → Bool) :
    Option PriceBookKey :=
  let len (k : PriceBookKey) : Nat := (p.books.get k).elim 0 PriceBook.bufferedLen
  ((visit order p.books.keys).filter fun k => pick k && decide (0 < len k)).foldl
    (fun best k =>
      match best with
      | none => some k
      | some k' => if len k' ≤ len k then some k else some k') none

/-- The loop of `enforce_buffer_budget`; each round takes at least one delta off the total. -/
def enforceBufferBudget : Nat → Run P S → Run P S
  | 0, r => r
  | n + 1, r =>
    if r.proc.bufferedTotal > MAX_BUFFERED_DELTAS_ACROSS_BOOKS then
      match (largestBuffer r.proc cx.order fun k => k.publisher = cx.publisher).or
          (largestBuffer r.proc cx.order fun _ => true) with
      | none => r
      | some key =>
        let (r, _) := r.withBook key fun b => (b.dropBuffer, ())
        enforceBufferBudget n (reportHealth rd cx r key false)
    else r

end Run

/-! ## One message -/

namespace Frame

variable (channel : Nat)

def bookKey (instrumentId : Nat) : PriceBookKey := ⟨cx.publisher, channel, instrumentId⟩

/-- Name the Source ID that a message carries. -/
def reveal (f : Frame P S) (key : PriceBookKey) (sourceId : Nat) : Frame P S :=
  let (r, isNew) := f.toRun.revealIfNeeded rd cx key sourceId
  { f with toRun := r, revealedNow := if isNew then insert key.instrumentId f.revealedNow else f.revealedNow }

/-- Add to what an instrument has to publish. -/
def push (f : Frame P S) (instrumentId : Nat) (changes : List (Change P S)) : Frame P S :=
  { f with accum := f.accum.insert instrumentId ((f.accum.get instrumentId).getD [] ++ changes) }

def bookSide (side : UInt8) : BookSide := if side = SIDE_ASK then .ask else .bid

def clearBookSide (clearSide : UInt8) : Option BookSide :=
  if clearSide = CLEAR_SIDE_BID then some .bid
  else if clearSide = CLEAR_SIDE_ASK then some .ask
  else if clearSide = CLEAR_SIDE_BOTH then some .both
  else none

/-- What an applied level change is published as. -/
def levelChange (l : LevelUpdate) (pe qe : Int) : Change P S where
  action := if l.qtyRaw = 0 then .delete else .update
  side := bookSide l.side
  price := rd.price l.priceRaw pe
  size := if l.qtyRaw = 0 then rd.zeroSize else rd.scaledQty l.qtyRaw qe
  orderId := 0

/-- What an applied clear is published as: a clear of the side, or the levels that a bounded one removed. -/
def clearChanges (c : BookClear) (removed : List (UInt8 × Int)) (pe : Int) : List (Change P S) :=
  if c.scope = SCOPE_ENTIRE_SIDE then
    match clearBookSide c.clearSide with
    | some side => [⟨.clear, side, rd.zeroPrice, rd.zeroSize, 0⟩]
    | none => []
  else removed.map fun e => ⟨.delete, bookSide e.1, rd.price e.2 pe, rd.zeroSize, 0⟩

/-- A delta on the book of an instrument; `changes` is what it is published as if it applies. -/
def onDelta (f : Frame P S) (instrumentId sourceId : Nat) (op : DeltaOp)
    (changes : List (UInt8 × Int) → List (Change P S)) : Frame P S :=
  match f.toRun.ensureBook rd cx channel instrumentId with
  | (r, none) => { f with toRun := r }
  | (r, some key) =>
    let f : Frame P S := { f with toRun := r, touched := insert instrumentId f.touched }
    match f.toRun.withBook key fun b => ((b.onDelta op).1, (b.onDelta op).2) with
    | (r, none) => { f with toRun := r }
    | (r, some (removed, outcome)) =>
      let f := { f with toRun := r }.reveal rd cx key sourceId
      match outcome with
      | .applied _ => f.push instrumentId (changes removed)
      | _ => f

def onLevelUpdate (f : Frame P S) (sequence : Nat) (l : LevelUpdate) : Frame P S :=
  match Run.exponents f.proc cx.publisher l.instrumentId with
  | none => f
  | some (pe, qe) =>
    f.onDelta rd cx channel l.instrumentId l.sourceId
      ⟨l.perInstrumentSeq, sequence, l.ts,
        .level l.side l.priceRaw l.qtyRaw l.orderCount l.levelFlags l.action⟩
      fun _ => [levelChange rd l pe qe]

def onBookClear (f : Frame P S) (sequence : Nat) (c : BookClear) : Frame P S :=
  match Run.exponents f.proc cx.publisher c.instrumentId with
  | none => f
  | some (pe, _) =>
    f.onDelta rd cx channel c.instrumentId c.sourceId
      ⟨c.perInstrumentSeq, sequence, c.ts, .clear c.clearSide c.scope c.fromPriceRaw⟩
      fun removed => clearChanges rd c removed pe

/-- `note_dropped_group`. -/
def noteDroppedGroup (f : Frame P S) (chan : ChannelKey) (snapshotId : Nat) (reason : DropReason) : Frame P S :=
  let p := f.proc
  let (order, dropped) :=
    if p.dropped.contains chan then (p.droppedOrder, p.dropped)
    else
      let (order, dropped) :=
        evictWhile (fun m => decide (m.size ≥ MAX_CHANNEL_KEYS)) FinMap.erase p.droppedOrder p.dropped
      (order ++ [chan], dropped)
  { f with proc := { p with droppedOrder := order, dropped := dropped.insert chan (some ⟨snapshotId, reason⟩) } }

def onSnapshotBegin (f : Frame P S) (resetCount : Nat) (s : SnapshotBegin) : Frame P S :=
  let chan : ChannelKey := ⟨cx.publisher, channel⟩
  let f : Frame P S :=
    if f.proc.dropped.contains chan then
      { f with proc := { f.proc with dropped := f.proc.dropped.insert chan none } }
    else f
  -- a group of another era of the publisher
  if (f.proc.lastReset.get chan).any fun era => era ≠ resetCount then
    f.noteDroppedGroup chan s.snapshotId .staleEra
  else
    match f.toRun.ensureBook rd cx channel s.instrumentId with
    | (r, none) => { f with toRun := r }.noteDroppedGroup chan s.snapshotId .noDefinition
    | (r, some key) =>
      let f : Frame P S := { f with toRun := r, touched := insert s.instrumentId f.touched }
      let (r, outcome) := f.toRun.withBook key fun b =>
        b.onSnapshotBegin s.snapshotId s.anchorSeq s.totalLevels s.lastInstrumentSeq s.depthBound cx.recvTsNs
      let f := { f with toRun := r }
      let accepted : Bool := outcome = some .accepted
      -- a refused begin takes the route of another instrument's group, and leaves that of its own
      if accepted ∨ ¬ (f.proc.open.get chan).any fun g => g.instrumentId = s.instrumentId then
        { f with
          proc := { f.proc with
            «open» := f.proc.open.insert chan ⟨s.instrumentId, s.snapshotId, s.anchorSeq, accepted⟩ } }
      else f

def onSnapshotLevel (f : Frame P S) (l : SnapshotLevel) : Frame P S :=
  match (f.proc.open.get ⟨cx.publisher, channel⟩).filter fun g => g.snapshotId = l.snapshotId with
  | none => f
  | some g =>
    if g.accepted then
      { f with
        toRun := (f.toRun.withBook (bookKey cx channel g.instrumentId) fun b =>
          (b.onSnapshotLevel l.snapshotId l.side l.priceRaw l.qtyRaw l.orderCount l.levelFlags, ())).1 }
    else f

def onSnapshotEnd (f : Frame P S) (e : SnapshotEnd) : Frame P S :=
  let chan : ChannelKey := ⟨cx.publisher, channel⟩
  match (f.proc.open.get chan).filter fun g => g.instrumentId = e.instrumentId with
  | none => f
  | some g =>
    let f : Frame P S := { f with proc := { f.proc with «open» := f.proc.open.erase chan } }
    if g.accepted then
      let f : Frame P S := { f with touched := insert e.instrumentId f.touched }
      let (r, installed) := f.toRun.withBook (bookKey cx channel e.instrumentId) fun b =>
        b.onSnapshotEnd e.anchorSeq e.snapshotId
      let f := { f with toRun := r }
      if installed = some true then
        let f : Frame P S :=
          { f with
            accum := f.accum.erase e.instrumentId
            revealedNow := f.revealedNow.erase e.instrumentId }
        let (r, published) := f.toRun.emitRebaseline rd cx channel e.instrumentId
        { f with toRun := if published then r.noteBatch chan e.instrumentId true else r }
      else f
    else f

def onInstrumentReset (f : Frame P S) (instrumentId newAnchorSeq : Nat) : Frame P S :=
  let chan : ChannelKey := ⟨cx.publisher, channel⟩
  let key := bookKey cx channel instrumentId
  let f : Frame P S :=
    match f.toRun.withBook key fun b => (b.onInstrumentReset newAnchorSeq, ()) with
    | (_, none) => f
    | (r, some ()) =>
      let r := r.reportHealth rd cx key false
      let r := r.forgetSourcePath rd cx key
      { f with
        toRun := { r with proc := { r.proc with revealed := r.proc.revealed.erase key } }
        accum := f.accum.erase instrumentId }
  match (f.proc.open.get chan).filter fun g => g.instrumentId = instrumentId ∧ g.anchorSeq < newAnchorSeq with
  | none => f
  | some g =>
    { f with proc := { f.proc with «open» := f.proc.open.erase chan } }.noteDroppedGroup chan g.snapshotId .reset

/-- One book of an ended session. -/
def endOne (f : Frame P S) (key : PriceBookKey) : Frame P S :=
  let (r, _) := f.toRun.withBook key fun b => (b.onEndOfSession, ())
  { f with toRun := r.reportHealth rd cx key false, accum := f.accum.erase key.instrumentId }

def onEndOfSession (f : Frame P S) : Frame P S :=
  let chan : ChannelKey := ⟨cx.publisher, channel⟩
  let f := (visit cx.order (f.proc.books.keys.filter fun k => k.chan = chan)).foldl (endOne rd cx) f
  let f : Frame P S := { f with toRun := f.toRun.dropBatching chan }
  let f : Frame P S :=
    { f with
      proc := { f.proc with
        lastBatch := f.proc.lastBatch.erase chan
        seq := f.proc.seq.forgetChannel cx.publisher channel } }
  match f.proc.open.get chan with
  | none => f
  | some g =>
    { f with proc := { f.proc with «open» := f.proc.open.erase chan } }.noteDroppedGroup chan g.snapshotId
      .endOfSession

/-- One instrument that a boundary closes, with those whose close is refused. -/
def closeOne (openIds owed : Finset Nat) (x : Frame P S × Finset Nat) (id : Nat) : Frame P S × Finset Nat :=
  let f := x.1
  let changes := (f.accum.get id).getD []
  let f : Frame P S := { f with accum := f.accum.erase id }
  if changes = [] ∧ id ∉ openIds then (f, x.2)
  else
    let isNew := id ∈ f.revealedNow
    let f : Frame P S := { f with revealedNow := f.revealedNow.erase id }
    let (r, published) :=
      if isNew ∨ id ∈ owed then f.toRun.emitRebaseline rd cx channel id
      else f.toRun.sendBook rd cx channel id changes false true
    if published then ({ f with toRun := r }, x.2)
    else ({ f with toRun := r.emit (.closeRefused (bookKey cx channel id)) }, insert id x.2)

/-- The batching of a channel after a boundary that it received at `nowNs`. -/
def atBoundary (nowNs : Nat) (b : ChannelBatching) : ChannelBatching :=
  { b with slotLapsed := false, seen := true, sinceBoundary := 0, lastBoundaryNs := nowNs, «open» := ∅ }

/-- A boundary past the committed slot ends every open event of its channel. -/
def onBatchBoundary (f : Frame P S) (batchId : Nat) : Frame P S :=
  let chan : ChannelKey := ⟨cx.publisher, channel⟩
  if cx.role.handlesMktdata ∧ f.proc.lastReset.contains chan then
    if (f.proc.lastBatch.get chan).any fun c => batchId ≤ c then f
    else
      let state := (f.proc.batching.get chan).getD .new
      let f : Frame P S :=
        { f with
          proc := { f.proc with
            lastBatch := f.proc.lastBatch.insert chan batchId
            batching := f.proc.batching.insert chan (atBoundary cx.recvTsNs state) } }
      let closing := f.accum.keys ∪ state.open
      let owed := f.toRun.rebaselinesOwed rd cx channel closing
      let (f, refused) := (closing.sort (· ≤ ·)).foldl (closeOne rd cx channel state.open owed) (f, ∅)
      { f with toRun := f.toRun.modifyBatching chan fun b => { b with «open» := b.open ∪ refused } }
  else f

def onTrade (f : Frame P S) (t : Trade) : Frame P S :=
  match f.proc.state.definition cx.publisher t.instrumentId with
  | none => f
  | some d =>
    let f : Frame P S :=
      match f.toRun.ensureBook rd cx channel t.instrumentId with
      | (r, none) => { f with toRun := r }
      | (r, some key) => { f with toRun := r }.reveal rd cx key t.sourceId
    if cx.tape then
      { f with
        toRun := f.toRun.emit (.trade (bookKey cx channel t.instrumentId)
          { source := rd.sourceKey t.sourceId
            sourceId := t.sourceId
            symbol := d.symbol
            channel := canonicalChannel cx.mirrorOffset channel
            instrumentId := t.instrumentId
            category := cx.category
            price := rd.price t.tradePriceRaw d.priceExponent
            size := rd.size (asI64 t.tradeQtyRaw) d.qtyExponent
            aggressorSide := t.aggressorSide
            tradeId := t.tradeId
            cumulativeVolume := rd.size (asI64 t.cumulativeVolumeRaw) d.qtyExponent
            sourceTsNs := t.sourceTs
            recvTsNs := cx.recvTsNs
            kernelRxTsNs := cx.kernelRxTsNs }) }
    else f

/-- A definition re-announces a book that is revealed under its Source ID, and one that names its own reveals. -/
def onInstrumentDefinition (f : Frame P S) (d : InstrumentDefinition) : Frame P S :=
  let key := bookKey cx channel d.instrumentId
  let r := f.toRun
  let r :=
    match r.proc.revealed.get key with
    | none => r
    | some id =>
      if d.sourceId.all fun s => s = id then r.emit (.instrument key (Run.instrumentOf rd cx key id d)) else r
  let r : Run P S :=
    { r with
      proc := { r.proc with state := r.proc.state.modify cx.publisher fun s => s.onInstrumentDefinition d } }
  { f with
    toRun :=
      match d.sourceId with
      | none => r
      | some id => (r.revealIfNeeded rd cx key id).1 }

/-- One message of a datagram; `fresh` says that the datagram is not out of order. -/
def onMessage (h : Header) (fresh : Bool) (f : Frame P S) : Message → Frame P S
  | .manifestSummary _ manifestSeq instrumentCount =>
    if cx.role.handlesRefdata then
      { f with
        proc := { f.proc with
          state := f.proc.state.modify cx.publisher fun s => s.onManifest true manifestSeq instrumentCount } }
    else f
  | .instrumentDefinition d =>
    if cx.role.handlesRefdata then f.onInstrumentDefinition rd cx h.channelId d else f
  | .levelUpdate l => f.onLevelUpdate rd cx h.channelId h.sequence l
  | .bookClear c => f.onBookClear rd cx h.channelId h.sequence c
  | .snapshotBegin s => f.onSnapshotBegin rd cx h.channelId h.resetCount s
  | .snapshotLevel l => f.onSnapshotLevel cx h.channelId l
  | .snapshotEnd e => f.onSnapshotEnd rd cx h.channelId e
  | .instrumentReset id newAnchorSeq => f.onInstrumentReset rd cx h.channelId id newAnchorSeq
  | .endOfSession _ => f.onEndOfSession rd cx h.channelId
  | .batchBoundary batchId => if fresh then f.onBatchBoundary rd cx h.channelId batchId else f
  | .trade t => f.onTrade rd cx h.channelId t
  | .other => f

/-! ## The end of a datagram -/

/-- One instrument with something to publish: the whole book if it was revealed in this datagram or is owed, and
otherwise its changes. -/
def emitOne (closes : Bool) (owed : Finset Nat) (f : Frame P S) (e : Nat × List (Change P S)) : Frame P S :=
  let chan : ChannelKey := ⟨cx.publisher, channel⟩
  if e.1 ∈ f.revealedNow ∨ (e.2 ≠ [] ∧ e.1 ∈ owed) then
    let (r, published) := f.toRun.emitRebaseline rd cx channel e.1
    { f with toRun := if published then r.noteBatch chan e.1 true else r }
  else if e.2 ≠ [] then
    let (r, published) := f.toRun.sendBook rd cx channel e.1 e.2 false closes
    { f with toRun := if published then r.noteBatch chan e.1 closes else r }
  else f

/-- An instrument revealed by a message that changes no book. -/
def emitRevealed (accumKeys : Finset Nat) (f : Frame P S) (id : Nat) : Frame P S :=
  if id ∈ accumKeys then f
  else
    let (r, published) := f.toRun.emitRebaseline rd cx channel id
    { f with toRun := if published then r.noteBatch ⟨cx.publisher, channel⟩ id true else r }

/-- Report the health of one book that the datagram touched. -/
def reportTouched (f : Frame P S) (id : Nat) : Frame P S :=
  let key := bookKey cx channel id
  match f.proc.books.get key with
  | none => f
  | some b => { f with toRun := f.toRun.reportHealth rd cx key (b.servesABook cx.recvTsNs) }

/-- The batches of a datagram, once its messages are applied. -/
def emitPass (f : Frame P S) : Frame P S :=
  let chan : ChannelKey := ⟨cx.publisher, channel⟩
  let closes := !Run.batchesEvents f.proc chan cx.recvTsNs
  let f : Frame P S :=
    if closes then { f with toRun := f.toRun.modifyBatching chan fun b => { b with slotLapsed := true } } else f
  let owed :=
    if closes then f.toRun.rebaselinesOwed rd cx channel (f.accum.keys ∪ Run.openIds f.proc chan) else ∅
  let f := f.accum.toList.foldl (emitOne rd cx channel closes owed) f
  let f := (f.revealedNow.sort (· ≤ ·)).foldl (emitRevealed rd cx channel f.accum.keys) f
  let f : Frame P S := if closes then { f with toRun := f.toRun.closeOpen rd cx channel owed } else f
  (f.touched.sort (· ≤ ·)).foldl (reportTouched rd cx channel) f

end Frame

/-! ## The calls -/

/-- `note_reset_count`: the count seen before on a channel. -/
def noteResetCount (r : Run P S) (chan : ChannelKey) (resetCount : Nat) : Run P S × Option Nat :=
  let r : Run P S :=
    if r.proc.lastReset.contains chan then r
    else
      let (order, r) := evictWhile (fun r : Run P S => decide (r.proc.lastReset.size ≥ MAX_CHANNEL_KEYS))
        (fun r old =>
          let r := r.dropBatching old
          { r with
            proc := { r.proc with
              lastReset := r.proc.lastReset.erase old
              lastBatch := r.proc.lastBatch.erase old
              «open» := r.proc.open.erase old } }) r.proc.channelOrder r
      { r with proc := { r.proc with channelOrder := order ++ [chan] } }
  ({ r with proc := { r.proc with lastReset := r.proc.lastReset.insert chan resetCount } }, r.proc.lastReset.get chan)

/-- What a datagram's header does, before its messages: the sequence, the reference data of its era, and the era of
the market data. -/
def begin (h : Header) (p : MbpProcessor) : Frame P S × Bool :=
  let chan : ChannelKey := ⟨cx.publisher, h.channelId⟩
  let (seq, fresh) :=
    if cx.role.handlesMktdata then
      let (seq, c) := p.seq.check cx.publisher h.channelId h.resetCount h.sequence cx.monoNs
      (seq, decide (c ≠ .stale))
    else (p.seq, true)
  let r : Run P S := ⟨{ p with seq }, []⟩
  let r :=
    if cx.role.handlesRefdata then
      let state := r.proc.state.modify cx.publisher fun s => s.onDatagram h.resetCount
      let r : Run P S := { r with proc := { r.proc with state := { state with lastEvicted := none } } }
      match state.lastEvicted with
      | none => r
      | some evicted => r.forgetPublisher rd cx evicted
    else r
  let r :=
    if cx.role.handlesMktdata ∧ r.proc.state.states.contains cx.publisher then
      let (r, prev) := noteResetCount r chan h.resetCount
      if prev.any fun c => c ≠ h.resetCount then r.onChannelReset rd cx h.channelId h.resetCount else r
    else r
  let r : Run P S :=
    if cx.role.handlesMktdata ∧ r.proc.lastReset.contains chan then
      let b := (r.proc.batching.get chan).getD .new
      { r with
        proc := { r.proc with
          batching := r.proc.batching.insert chan
            { b with sinceBoundary := min (b.sinceBoundary + 1) (2 ^ 32 - 1) } } }
    else r
  (⟨r, ∅, ∅, ∅⟩, fresh)

/-- A decoded datagram. -/
structure Datagram where
  header : Header
  messages : List Message
  deriving DecidableEq, Repr

def onDatagram (p : MbpProcessor) (d : Datagram) : Run P S :=
  let (f, fresh) := begin rd cx d.header p
  let f := d.messages.foldl (Frame.onMessage rd cx d.header fresh) f
  let r := Run.enforceBufferBudget rd cx f.proc.bufferedTotal f.toRun
  (Frame.emitPass rd cx d.header.channelId { f with toRun := r }).toRun

/-- One overdue channel of `on_tick`. -/
def tickOne (r : Run P S) (chan : ChannelKey) : Run P S :=
  let cx := { cx with publisher := chan.publisher, role := .mktdata, kernelRxTsNs := 0 }
  let r := r.modifyBatching chan fun b => { b with slotLapsed := true }
  let owed := r.rebaselinesOwed rd cx chan.channel (Run.openIds r.proc chan)
  r.closeOpen rd cx chan.channel owed

/-- `on_tick`, with the channels in an order of the hash map's choosing. -/
def onTick (order : List ChannelKey) (p : MbpProcessor) : Run P S :=
  let overdue := p.batching.keys.filter fun chan =>
    (p.batching.get chan).any fun b => b.seen && !decide (b.open = ∅) && b.boundaryOverdue cx.recvTsNs
  (visit order overdue).foldl (tickOne rd cx) ⟨p, []⟩

end Processor

end EdgeConnect.Mbp
