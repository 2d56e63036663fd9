import EdgeConnect.Ingest.Book
import EdgeConnect.Ingest.CodecMbo
import EdgeConnect.Lib.Machine

/-!
# The Market-by-Order processor (`MboProcessor` in `src/ingest/processor.rs`)

Executable model of the processor that feeds decoded datagrams into one order book per publisher and instrument, and
hands the arbiter the books, depths and sync reports that mirror it.

* `Run` — the processor and what it has handed on; `Frame` — a datagram in progress;
* `setSynced`, `revealIfNeeded`, `bookFor`, `emitDepth`, `emitBook` — what the messages are made of;
* `onMessage` — one message; `emitPass` — the end of a datagram; `onDatagram` — the processor's call.

A datagram that does not decode does nothing and is left out, as are metrics, warnings and the shared instrument
catalog.  What `on_datagram` reads elsewhere is in its context: the clocks, the tape flag, and the order in which a
hash map comes up.
-/

set_option autoImplicit false

namespace EdgeConnect.MboFeed

open Ingest
open Mbo (BookState DeltaOp DeltaKind OrderChange Level)
open CodecMbo (Message)
open CodecCommon (DatagramHeader)

/-! ## The processor -/

def MAX_BOOKS : Nat := 4096
def DEPTH_LEVELS : Nat := 10
def REVEAL_REBASELINE_INTERVAL_NS : Nat := 15000000000
def SIDE_BID : UInt8 := 0

structure OrderBookKey where
  publisher : IpAddr
  instrumentId : Nat
  deriving DecidableEq, Repr

namespace OrderBookKey

def lex (k : OrderBookKey) : ℕ ×ₗ ℕ := toLex (k.publisher, k.instrumentId)

theorem lex_injective : Function.Injective lex := by
  rintro ⟨p, i⟩ ⟨p', i'⟩ h
  cases toLex_inj.mp h
  rfl

instance : LinearOrder OrderBookKey := LinearOrder.lift' lex lex_injective

end OrderBookKey

structure MboProcessor where
  state : PerPublisher
  books : FinMap OrderBookKey BookState
  booksOrder : List OrderBookKey
  lastTop : FinMap OrderBookKey (List Level × List Level)
  emittedSymbol : FinMap OrderBookKey String
  revealed : FinMap OrderBookKey Nat
  pendingChannel : FinMap OrderBookKey Nat
  syncedReported : FinMap OrderBookKey Bool
  revealRebaselinedNs : FinMap OrderBookKey Nat

def MboProcessor.new : MboProcessor where
  state := .new
  books := ∅
  booksOrder := []
  lastTop := ∅
  emittedSymbol := ∅
  revealed := ∅
  pendingChannel := ∅
  syncedReported := ∅
  revealRebaselinedNs := ∅

/-- A `depth` message: the best levels of both sides. -/
structure Depth (P S : Type) where
  source : SourceKey
  sourceId : Nat
  symbol : String
  bids : List (P × S)
  asks : List (P × S)
  sourceTsNs : Nat
  recvTsNs : Nat
  kernelRxTsNs : Nat
  deriving DecidableEq, Repr

/-- What the `book` of one instrument says of a datagram: its changes, a bare clear, or the whole book. -/
inductive BookEmit where
  | delta
  | clear
  | rebaseline
  deriving DecidableEq, Repr

/-- One thing handed to the arbiter, with the book it is about and the mode of a `book`; `forgetDepth` is the one entry
of the shared replay map that the processor removes itself. -/
inductive Out (P S : Type) where
  | book (key : OrderBookKey) (mode : BookEmit) (b : Batch P S)
  | depth (key : OrderBookKey) (d : Depth P S)
  | instrument (key : OrderBookKey) (i : Instrument)
  | trade (key : OrderBookKey) (t : TradePrint P S)
  | setBookSynced (key : OrderBookKey) (market : BookKey) (synced : Bool)
  | noteSourcePath (key : OrderBookKey) (sourceId : Nat) (market : BookKey)
  | forgetSourcePath (key : OrderBookKey) (market : BookKey)
  | releaseSourceMarket (key : OrderBookKey) (market : BookKey) (symbol : String)
  | resetDepthFloor (source : SourceKey) (symbol : String)
  | resetBookEvents (market : BookKey)
  | resetBookSession (market : BookKey)
  | forgetDepth (source : SourceKey) (symbol : String)
  deriving DecidableEq, Repr

/-- The context of one call. -/
structure Ctx where
  category : String
  kernelRxTsNs : Nat
  recvTsNs : Nat
  role : PortRole
  publisher : IpAddr
  mirrorOffset : Option Nat
  monoNs : Nat
  tape : Bool
  order : List OrderBookKey

/-- The processor and what it has handed on in this call. -/
structure Run (P S : Type) where
  proc : MboProcessor
  out : List (Out P S)

/-- A datagram in progress: the order changes that its deltas made, and the instruments that it changed, touched,
owes the whole book of, and owes a clear of. -/
structure Frame (P S : Type) extends Run P S where
  datagramChanges : List (Nat × OrderChange)
  changed : Finset Nat
  touched : Finset Nat
  rebaselined : Finset Nat
  cleared : Finset Nat

section Processor

variable {P S : Type} (rd : Render P S) (cx : Ctx)

namespace Run

def emit (r : Run P S) (o : Out P S) : Run P S := { r with out := r.out ++ [o] }

def channelOf (p : MboProcessor) (key : OrderBookKey) : Nat := (p.pendingChannel.get key).getD 0

def marketOf (p : MboProcessor) (key : OrderBookKey) (sourceId : Nat) : BookKey :=
  ⟨rd.sourceKey sourceId, cx.category, channelOf p key, key.instrumentId⟩

/-- `wire_venue`. -/
def wireVenue (p : MboProcessor) (key : OrderBookKey) : Option SourceKey := (p.revealed.get key).map rd.sourceKey

/-- `market_key`: the market a book is published under, once its Source ID is known. -/
def marketKey (p : MboProcessor) (key : OrderBookKey) : Option BookKey :=
  (p.revealed.get key).map (marketOf rd cx p key)

def instrumentOf (key : OrderBookKey) (channel sourceId : Nat) (d : InstrumentDefinition) : Instrument where
  source := rd.sourceKey sourceId
  sourceId := sourceId
  symbol := d.symbol
  channel := channel
  instrumentId := key.instrumentId
  category := cx.category
  priceExponent := d.priceExponent
  qtyExponent := d.qtyExponent
  tickSize := d.tickSize

/-- `reveal_if_needed`: name the Source ID of a book, and say whether it is new. -/
def revealIfNeeded (r : Run P S) (instrumentId sourceId : Nat) : Run P S × Bool :=
  let key : OrderBookKey := ⟨cx.publisher, instrumentId⟩
  let previous := r.proc.revealed.get key
  if previous = some sourceId then (r, false)
  else
    match r.proc.state.definition cx.publisher instrumentId with
    | none => (r, false)
    | some d =>
      let r :=
        match previous with
        | none => r
        | some old =>
          { r with proc := { r.proc with lastTop := r.proc.lastTop.erase key } }.emit
            (.releaseSourceMarket key (marketOf rd cx r.proc key old) ((r.proc.emittedSymbol.get key).getD d.symbol))
      let r : Run P S := { r with proc := { r.proc with revealed := r.proc.revealed.insert key sourceId } }
      let r := r.emit (.noteSourcePath key sourceId (marketOf rd cx r.proc key sourceId))
      (r.emit (.instrument key (instrumentOf rd cx key (channelOf r.proc key) sourceId d)), true)

/-- The channel that an instrument's definition came on. -/
def setChannel (r : Run P S) (key : OrderBookKey) (channel : Nat) : Run P S :=
  { r with proc := { r.proc with pendingChannel := r.proc.pendingChannel.insert key channel } }

/-- A definition is announced again under the Source ID that is known, unless it names another. -/
def reannounce (r : Run P S) (key : OrderBookKey) (channel : Nat) (d : InstrumentDefinition) : Run P S :=
  match r.proc.revealed.get key with
  | none => r
  | some id =>
    if d.sourceId.all fun s => s = id then r.emit (.instrument key (instrumentOf rd cx key channel id d)) else r

def define (r : Run P S) (d : InstrumentDefinition) : Run P S :=
  { r with proc := { r.proc with state := r.proc.state.modify cx.publisher fun s => s.onInstrumentDefinition d } }

/-- `forget_source_path`, before the Source ID goes. -/
def forgetSourcePath (r : Run P S) (key : OrderBookKey) : Run P S :=
  match marketKey rd cx r.proc key with
  | none => r
  | some market => r.emit (.forgetSourcePath key market)

/-- `set_synced`: report a change of the sync state of a book under its market. -/
def setSynced (r : Run P S) (key : OrderBookKey) (synced : Bool) : Run P S :=
  if r.proc.syncedReported.get key = some synced then r
  else
    match marketKey rd cx r.proc key with
    | none => r
    | some market =>
      { r with proc := { r.proc with syncedReported := r.proc.syncedReported.insert key synced } }.emit
        (.setBookSynced key market synced)

/-- `report_synced`. -/
def reportSynced (r : Run P S) (instrumentId : Nat) : Run P S :=
  let key : OrderBookKey := ⟨cx.publisher, instrumentId⟩
  setSynced rd cx r key ((r.proc.books.get key).any BookState.isSynced)

/-- The depth last emitted and the last republish of a book are forgotten. -/
def forgetTop (r : Run P S) (key : OrderBookKey) : Run P S :=
  { r with
    proc := { r.proc with
      lastTop := r.proc.lastTop.erase key
      revealRebaselinedNs := r.proc.revealRebaselinedNs.erase key } }

/-- The session of every book ends. -/
def endBooks (r : Run P S) : Run P S :=
  { r with proc := { r.proc with books := r.proc.books.mapVals BookState.onEndOfSession } }

/-- The books of a publisher go, with the maps kept in lockstep with the books. -/
def purgeBooks (r : Run P S) (publisher : IpAddr) : Run P S :=
  { r with
    proc := { r.proc with
      books := r.proc.books.filter fun k _ => !decide (k.publisher = publisher)
      booksOrder := r.proc.booksOrder.filter fun k => !decide (k.publisher = publisher)
      lastTop := r.proc.lastTop.filter fun k _ => !decide (k.publisher = publisher)
      emittedSymbol := r.proc.emittedSymbol.filter fun k _ => !decide (k.publisher = publisher)
      syncedReported := r.proc.syncedReported.filter fun k _ => !decide (k.publisher = publisher)
      revealRebaselinedNs := r.proc.revealRebaselinedNs.filter fun k _ => !decide (k.publisher = publisher) } }

/-- The Source IDs and the channels of a publisher go. -/
def purgeNames (r : Run P S) (publisher : IpAddr) : Run P S :=
  { r with
    proc := { r.proc with
      revealed := r.proc.revealed.filter fun k _ => !decide (k.publisher = publisher)
      pendingChannel := r.proc.pendingChannel.filter fun k _ => !decide (k.publisher = publisher) } }

/-- `forget_publisher`: drop every trace of a publisher, after reporting its books unsynced. -/
def forgetPublisher (r : Run P S) (publisher : IpAddr) : Run P S :=
  let stale := r.proc.syncedReported.keys.filter fun k =>
    k.publisher = publisher ∧ r.proc.syncedReported.get k = some true
  let r := (visit cx.order stale).foldl (fun r k => setSynced rd cx r k false) r
  let r := r.purgeBooks publisher
  let r := (visit cx.order (r.proc.revealed.keys.filter fun k => k.publisher = publisher)).foldl
    (forgetSourcePath rd cx) r
  r.purgeNames publisher

/-- `reset_all_known_depth_floors`: those of every symbol that a depth went out under. -/
def resetAllKnownDepthFloors (r : Run P S) : Run P S :=
  (visit cx.order r.proc.emittedSymbol.keys).foldl
    (fun r key =>
      match r.proc.emittedSymbol.get key, wireVenue rd r.proc key with
      | some symbol, some source => r.emit (.resetDepthFloor source symbol)
      | _, _ => r) r

/-- The floor that a depth latched, or every floor where it is not known. -/
def resetDepthFloorOf (r : Run P S) (symbol : Option String) (source : Option SourceKey) : Run P S :=
  match symbol, source with
  | some symbol, some source => r.emit (.resetDepthFloor source symbol)
  | _, _ => resetAllKnownDepthFloors rd cx r

def resetBookEventsOf (r : Run P S) (market : Option BookKey) : Run P S :=
  match market with
  | none => r
  | some market => r.emit (.resetBookEvents market)

/-- `reset_all_known_book_events`: the racing state of every book's market. -/
def resetAllKnownBookEvents (r : Run P S) : Run P S :=
  (visit cx.order r.proc.books.keys).foldl
    (fun r key =>
      match marketKey rd cx r.proc key with
      | none => r
      | some market => r.emit (.resetBookSession market)) r

/-- A book goes, with the maps kept in lockstep with the books. -/
def dropBook (r : Run P S) (old : OrderBookKey) : Run P S :=
  { r with
    proc := { r.proc with
      books := r.proc.books.erase old
      lastTop := r.proc.lastTop.erase old
      emittedSymbol := r.proc.emittedSymbol.erase old
      syncedReported := r.proc.syncedReported.erase old
      revealRebaselinedNs := r.proc.revealRebaselinedNs.erase old } }

/-- The Source ID of a book goes. -/
def unreveal (r : Run P S) (key : OrderBookKey) : Run P S :=
  { r with proc := { r.proc with revealed := r.proc.revealed.erase key } }

/-- One eviction of `book_for`: the oldest book goes, and its depth unless an instrument of that id still has a book. -/
def evictBook (r : Run P S) (old : OrderBookKey) : Run P S :=
  let r := r.dropBook old
  let evictedSource := wireVenue rd r.proc old
  let r := (forgetSourcePath rd cx r old).unreveal old
  if r.proc.books.any fun k _ => decide (k.instrumentId = old.instrumentId) then r
  else
    match r.proc.state.definition old.publisher old.instrumentId, evictedSource with
    | some d, some source => r.emit (.forgetDepth source d.symbol)
    | _, _ => r

/-- `book_for`: the book of an instrument with a definition, made where there is none in the place of the oldest. -/
def bookFor (r : Run P S) (instrumentId : Nat) : Run P S × Option BookState :=
  match r.proc.state.definition cx.publisher instrumentId with
  | none => (r, none)
  | some _ =>
    let key : OrderBookKey := ⟨cx.publisher, instrumentId⟩
    match r.proc.books.get key with
    | some b => (r, some b)
    | none =>
      let (order, r) := evictWhile (fun r : Run P S => decide (r.proc.books.size ≥ MAX_BOOKS)) (evictBook rd cx)
        r.proc.booksOrder r
      ({ r with proc := { r.proc with books := r.proc.books.insert key .new, booksOrder := order ++ [key] } },
        some .new)

/-- A book that `book_for` gave is written back. -/
def putBook (r : Run P S) (instrumentId : Nat) (b : BookState) : Run P S :=
  { r with proc := { r.proc with books := r.proc.books.insert ⟨cx.publisher, instrumentId⟩ b } }

/-! ## What goes out -/

/-- `emit_depth`: the best levels of a synced and revealed book, unless they are what was last emitted. -/
def emitDepth (r : Run P S) (instrumentId : Nat) : Run P S :=
  let key : OrderBookKey := ⟨cx.publisher, instrumentId⟩
  match r.proc.revealed.get key, r.proc.books.get key, r.proc.state.definition cx.publisher instrumentId with
  | some sourceId, some b, some d =>
    if b.isSynced then
      let top := b.topLevels DEPTH_LEVELS
      if r.proc.lastTop.get key = some top then r
      else
        let scale (levels : List Level) : List (P × S) :=
          levels.map fun l => (rd.price l.1 d.priceExponent, rd.size (asI64 l.2) d.qtyExponent)
        { r with
          proc := { r.proc with
            lastTop := r.proc.lastTop.insert key top
            emittedSymbol := r.proc.emittedSymbol.insert key d.symbol } }.emit (.depth key
          { source := rd.sourceKey sourceId
            sourceId := sourceId
            symbol := d.symbol
            bids := scale top.1
            asks := scale top.2
            sourceTsNs := b.lastEventTs
            recvTsNs := cx.recvTsNs
            kernelRxTsNs := cx.kernelRxTsNs })
    else r
  | _, _, _ => r

/-- How one order change is published. -/
def scaleChange (d : InstrumentDefinition) (c : OrderChange) : Change P S where
  action := if c.qtyRaw = 0 then .delete else .update
  side := if c.isBid then .bid else .ask
  price := rd.price c.priceRaw d.priceExponent
  size := rd.size (asI64 c.qtyRaw) d.qtyExponent
  orderId := c.orderId

/-- The changes of a `book` in each of its modes. -/
def bookChanges (mode : BookEmit) (d : InstrumentDefinition) (b : BookState) (instrumentId : Nat)
    (datagramChanges : List (Nat × OrderChange)) : List (Change P S) :=
  match mode with
  | .clear => [rd.clearBoth]
  | .rebaseline => rd.clearBoth :: b.orderSet.map (scaleChange rd d)
  | .delta => (datagramChanges.filter fun e => e.1 = instrumentId).map fun e => scaleChange rd d e.2

/-- `emit_book`: the order-level `book` of a synced and revealed book. -/
def emitBook (datagramChanges : List (Nat × OrderChange)) (r : Run P S) (instrumentId : Nat) (mode : BookEmit) :
    Run P S :=
  let key : OrderBookKey := ⟨cx.publisher, instrumentId⟩
  match r.proc.revealed.get key, r.proc.books.get key, r.proc.state.definition cx.publisher instrumentId with
  | some sourceId, some b, some d =>
    if b.isSynced then
      let changes := bookChanges rd mode d b instrumentId datagramChanges
      if changes = [] then r
      else
        r.emit (.book key mode
          { source := rd.sourceKey sourceId
            sourceId := sourceId
            symbol := d.symbol
            channel := channelOf r.proc key
            instrumentId := instrumentId
            category := cx.category
            orderLevel := true
            changes := changes
            batchId := none
            snapshot := decide (mode ≠ .delta)
            last := true
            sourceTsNs := b.lastEventTs
            recvTsNs := cx.recvTsNs
            kernelRxTsNs := cx.kernelRxTsNs })
    else r
  | _, _, _ => r

/-- `reveal_rebaseline_due`: whether a reveal may republish the whole book. -/
def revealRebaselineDue (r : Run P S) (key : OrderBookKey) : Run P S × Bool :=
  if (r.proc.revealRebaselinedNs.get key).any fun last => cx.monoNs - last < REVEAL_REBASELINE_INTERVAL_NS then
    (r, false)
  else
    ({ r with proc := { r.proc with revealRebaselinedNs := r.proc.revealRebaselinedNs.insert key cx.monoNs } }, true)

end Run

/-! ## One message -/

namespace Frame

/-- `apply_delta`: one delta on the book of an instrument, and the order changes it made. -/
def applyDelta (f : Frame P S) (instrumentId : Nat) (op : DeltaOp) : Frame P S :=
  let f : Frame P S := { f with touched := insert instrumentId f.touched }
  match f.toRun.bookFor rd cx instrumentId with
  | (r, none) => { f with toRun := r }
  | (r, some b) =>
    let (b', produced, applied) := b.onDeltaReporting op
    { f with
      toRun := r.putBook cx instrumentId b'
      datagramChanges := f.datagramChanges ++ produced.map fun c => (instrumentId, c)
      changed := if applied then insert instrumentId f.changed else f.changed }

/-- `on_reveal`: what the datagram owes for a Source ID that is new. -/
def onReveal (f : Frame P S) (instrumentId sourceId : Nat) : Frame P S :=
  match f.toRun.revealIfNeeded rd cx instrumentId sourceId with
  | (r, false) => { f with toRun := r }
  | (r, true) =>
    let f : Frame P S := { f with toRun := r, changed := insert instrumentId f.changed }
    match f.toRun.revealRebaselineDue cx ⟨cx.publisher, instrumentId⟩ with
    | (r, true) => { f with toRun := r, rebaselined := insert instrumentId f.rebaselined }
    | (r, false) => { f with toRun := r, cleared := insert instrumentId f.cleared }

/-- A delta-carrying message: the delta, then the Source ID that it names. -/
def onDelta (f : Frame P S) (instrumentId sourceId : Nat) (op : DeltaOp) : Frame P S :=
  (f.applyDelta rd cx instrumentId op).onReveal rd cx instrumentId sourceId

def onOrderAdd (f : Frame P S) (sequence : Nat) (o : CodecMbo.OrderAdd) : Frame P S :=
  f.onDelta rd cx o.instrumentId o.sourceId
    ⟨o.perInstrumentSeq, sequence, o.enterTs, .add o.orderId (decide (o.side = SIDE_BID)) o.priceRaw o.qtyRaw⟩

def onOrderCancel (f : Frame P S) (sequence : Nat) (o : CodecMbo.OrderCancel) : Frame P S :=
  f.onDelta rd cx o.instrumentId o.sourceId ⟨o.perInstrumentSeq, sequence, o.ts, .cancel o.orderId⟩

/-- An execution is also a trade print. -/
def onOrderExecute (f : Frame P S) (sequence : Nat) (o : CodecMbo.OrderExecute) : Frame P S :=
  let f := f.onDelta rd cx o.instrumentId o.sourceId
    ⟨o.perInstrumentSeq, sequence, o.ts, .execute o.orderId o.execQtyRaw (decide (o.execFlags &&& 0x01 ≠ 0))⟩
  let key : OrderBookKey := ⟨cx.publisher, o.instrumentId⟩
  match f.proc.state.definition cx.publisher o.instrumentId with
  | none => f
  | some d =>
    if cx.tape then
      { f with
        toRun := f.toRun.emit (.trade key
          { source := rd.sourceKey o.sourceId
            sourceId := o.sourceId
            symbol := d.symbol
            channel := Run.channelOf f.proc key
            instrumentId := o.instrumentId
            category := cx.category
            price := rd.price o.execPriceRaw d.priceExponent
            size := rd.size (asI64 o.execQtyRaw) d.qtyExponent
            aggressorSide := o.aggressorSide
            tradeId := o.tradeId
            cumulativeVolume := rd.zeroSize
            sourceTsNs := o.ts
            recvTsNs := cx.recvTsNs
            kernelRxTsNs := cx.kernelRxTsNs }) }
    else f

def onTrade (f : Frame P S) (t : Codec.Trade) : Frame P S :=
  match f.proc.state.definition cx.publisher t.instrumentId with
  | none => f
  | some d =>
    let f := f.onReveal rd cx t.instrumentId t.sourceId
    let key : OrderBookKey := ⟨cx.publisher, t.instrumentId⟩
    if cx.tape then
      { f with
        toRun := f.toRun.emit (.trade key
          { source := rd.sourceKey t.sourceId
            sourceId := t.sourceId
            symbol := d.symbol
            channel := Run.channelOf f.proc key
            instrumentId := t.instrumentId
            category := cx.category
            price := rd.price t.tradePriceRaw d.priceExponent
            size := rd.size (asI64 t.tradeQtyRaw) d.qtyExponent
            aggressorSide := t.aggressorSide
            tradeId := t.tradeId
            cumulativeVolume := rd.size (asI64 t.cumulativeVolumeRaw) d.qtyExponent
            sourceTsNs := t.sourceTs
            recvTsNs := cx.recvTsNs
            kernelRxTsNs := cx.kernelRxTsNs }) }
    else f

/-- A definition re-announces a book that is revealed under its Source ID, and one that names its own reveals. -/
def onInstrumentDefinition (f : Frame P S) (channel : Nat) (d : InstrumentDefinition) : Frame P S :=
  let key : OrderBookKey := ⟨cx.publisher, d.instrumentId⟩
  let r := ((f.toRun.setChannel key channel).reannounce rd cx key channel d).define cx d
  { f with
    toRun :=
      match d.sourceId with
      | none => r
      | some id => (r.revealIfNeeded rd cx d.instrumentId id).1 }

/-- The session of every publisher ends. -/
def onEndOfSession (f : Frame P S) : Frame P S :=
  let r := f.toRun.endBooks
  let peers := r.proc.books.keys.filter fun k => k.publisher ≠ cx.publisher
  let r := (visit cx.order peers).foldl (fun r k => r.setSynced rd cx k false) r
  let own := (r.proc.books.keys.filter fun k => k.publisher = cx.publisher).image OrderBookKey.instrumentId
  let r := (r.resetAllKnownDepthFloors rd cx).resetAllKnownBookEvents rd cx
  { f with
    toRun := { r with proc := { r.proc with lastTop := ∅, emittedSymbol := ∅ } }
    touched := f.touched ∪ own }

/-- A book is reset: it is reported unsynced while its market is known, and its Source ID goes. -/
def onInstrumentReset (f : Frame P S) (instrumentId newAnchorSeq : Nat) : Frame P S :=
  let key : OrderBookKey := ⟨cx.publisher, instrumentId⟩
  let r := (f.toRun.setSynced rd cx key false).forgetTop key
  let latchedSource := Run.wireVenue rd r.proc key
  let market := Run.marketKey rd cx r.proc key
  let r := (r.forgetSourcePath rd cx key).unreveal key
  let latchedSymbol := (r.proc.emittedSymbol.get key).or
    ((r.proc.state.definition cx.publisher instrumentId).map InstrumentDefinition.symbol)
  let r := (r.resetDepthFloorOf rd cx latchedSymbol latchedSource).resetBookEventsOf market
  { f with
    toRun :=
      match r.proc.books.get key with
      | none => r
      | some b => r.putBook cx instrumentId (b.onInstrumentReset newAnchorSeq) }

def onSnapshotBegin (f : Frame P S) (s : CodecMbo.SnapshotBegin) : Frame P S :=
  let f : Frame P S := { f with touched := insert s.instrumentId f.touched }
  match f.toRun.bookFor rd cx s.instrumentId with
  | (r, none) => { f with toRun := r }
  | (r, some b) =>
    { f with
      toRun := r.putBook cx s.instrumentId
        (b.onSnapshotBegin s.snapshotId s.anchorSeq s.totalOrders s.lastInstrumentSeq) }

/-- An order of a snapshot goes to every book of its publisher that assembles a group of its id. -/
def onSnapshotOrder (f : Frame P S) (s : CodecMbo.SnapshotOrder) : Frame P S :=
  { f with
    proc := { f.proc with
      books := f.proc.books.mapEntries fun k b =>
        if k.publisher = cx.publisher then
          b.onSnapshotOrder s.snapshotId s.orderId (decide (s.side = SIDE_BID)) s.priceRaw s.qtyRaw
        else b } }

/-- The end of a group at the book of its instrument. -/
def endGroup (f : Frame P S) (s : CodecMbo.SnapshotEnd) : Frame P S :=
  match f.toRun.bookFor rd cx s.instrumentId with
  | (r, none) => { f with toRun := r }
  | (r, some b) =>
    let (b', installed) := b.onSnapshotEnd s.anchorSeq s.snapshotId
    { f with
      toRun := r.putBook cx s.instrumentId b'
      changed := if installed then insert s.instrumentId f.changed else f.changed
      rebaselined := if installed then insert s.instrumentId f.rebaselined else f.rebaselined }

def onSnapshotEnd (f : Frame P S) (s : CodecMbo.SnapshotEnd) : Frame P S :=
  let f := f.endGroup rd cx s
  { f with touched := insert s.instrumentId f.touched }

/-- One message of a datagram. -/
def onMessage (h : DatagramHeader) (f : Frame P S) : Message → Frame P S
  | .manifestSummary m =>
    if cx.role.handlesRefdata then
      { f with
        proc := { f.proc with
          state := f.proc.state.modify cx.publisher fun s => s.onManifest true m.manifestSeq m.instrumentCount } }
    else f
  | .instrumentDefinition d =>
    if cx.role.handlesRefdata then
      f.onInstrumentDefinition rd cx (canonicalChannel cx.mirrorOffset h.channelId.toNat) d
    else f
  | .endOfSession _ => f.onEndOfSession rd cx
  | .orderAdd o => f.onOrderAdd rd cx h.sequence o
  | .orderCancel o => f.onOrderCancel rd cx h.sequence o
  | .orderExecute o => f.onOrderExecute rd cx h.sequence o
  | .trade t => f.onTrade rd cx t
  | .instrumentReset r => f.onInstrumentReset rd cx r.instrumentId r.newAnchorSeq
  | .snapshotBegin s => f.onSnapshotBegin rd cx s
  | .snapshotOrder s => f.onSnapshotOrder cx s
  | .snapshotEnd s => f.onSnapshotEnd rd cx s
  | .batchBoundary _ _ | .heartbeat | .other _ => f

/-! ## The end of a datagram -/

/-- What the `book` of one instrument says: a snapshot install or a reveal outranks a bare clear. -/
def modeOf (f : Frame P S) (instrumentId : Nat) : BookEmit :=
  if instrumentId ∈ f.rebaselined then .rebaseline
  else if instrumentId ∈ f.cleared then .clear
  else .delta

/-- The depth and the `book` of one instrument that changed. -/
def emitOne (f : Frame P S) (r : Run P S) (instrumentId : Nat) : Run P S :=
  (r.emitDepth rd cx instrumentId).emitBook rd cx f.datagramChanges instrumentId (f.modeOf instrumentId)

/-- The reports and the messages of a datagram, once its messages are applied. -/
def emitPass (f : Frame P S) : Run P S :=
  let r := (f.touched.sort (· ≤ ·)).foldl (fun r id => r.reportSynced rd cx id) f.toRun
  (f.changed.sort (· ≤ ·)).foldl (f.emitOne rd cx) r

end Frame

/-! ## The call -/

/-- A decoded datagram. -/
structure Datagram where
  header : DatagramHeader
  messages : List Message
  deriving DecidableEq, Repr

/-- What a datagram's header does, before its messages: the reference data of its era. -/
def begin (h : DatagramHeader) (p : MboProcessor) : Frame P S :=
  let r : Run P S := ⟨p, []⟩
  let r :=
    if cx.role.handlesRefdata then
      let state := r.proc.state.modify cx.publisher fun s => s.onDatagram h.resetCount.toNat
      let r : Run P S := { r with proc := { r.proc with state := { state with lastEvicted := none } } }
      match state.lastEvicted with
      | none => r
      | some evicted => r.forgetPublisher rd cx evicted
    else r
  ⟨r, [], ∅, ∅, ∅, ∅⟩

def onDatagram (p : MboProcessor) (d : Datagram) : Run P S :=
  (d.messages.foldl (Frame.onMessage rd cx d.header) (begin rd cx d.header p)).emitPass rd cx

end Processor

end EdgeConnect.MboFeed
