import EdgeConnect.Ingest.ArbiterQuotes
import EdgeConnect.Ingest.Codec
import EdgeConnect.Ingest.CodecMidpoint

/-!
# The Top-of-Book and Midpoint processors (`TobProcessor` and `MidpointProcessor` in `src/ingest/processor.rs`)

Executable model of the two processors that hold no book: they keep the instrument definitions of each publisher and turn
a price on the wire into a message under the definition that is known.

* `Announcer` — what either of them keeps; `Run` — one and what it has handed on in a call;
* `revealIfNeeded`, `onInstrumentDefinition`, `forgetPublisher` — when an instrument is announced, and under what name;
* `Action` — what a message asks of an announcer, `Tob.action` and `Midpoint.action` — the messages of each codec;
* `onDatagram`, `announcer` — the processors' call, and the processors as machines.

A datagram that does not decode does nothing and is left out, as are metrics and warnings.  The shared instrument
catalog is written and never read here: its writes are handed on in their place among the messages.
-/

set_option autoImplicit false

namespace EdgeConnect.TobFeed

open Ingest
open Arbiter (NormalizedQuote QuoteWire)
open CodecCommon (DatagramHeader)

/-! ## The processors -/

structure InstrumentKey where
  publisher : IpAddr
  instrumentId : Nat
  deriving DecidableEq, Repr

namespace InstrumentKey

def lex (k : InstrumentKey) : ℕ ×ₗ ℕ := toLex (k.publisher, k.instrumentId)

theorem lex_injective : Function.Injective lex := by
  rintro ⟨p, i⟩ ⟨p', i'⟩ h
  cases toLex_inj.mp h
  rfl

instance : LinearOrder InstrumentKey := LinearOrder.lift' lex lex_injective

end InstrumentKey

/-- What both processors keep: the reference data and the datagram sequences of each publisher, the Source ID that an
instrument was revealed under, and the channel that its definition came on. -/
structure Announcer where
  state : PerPublisher
  seq : PublisherSeq
  revealed : FinMap InstrumentKey Nat
  pendingChannel : FinMap InstrumentKey Nat

def Announcer.new : Announcer := ⟨.new, ⟨∅, [], false⟩, ∅, ∅⟩

/-- A quote as it is handed on. -/
structure QuoteMessage (P : Type) extends NormalizedQuote P where
  kernelRxTsNs : Nat

structure NormalizedMidpoint (P : Type) where
  venue : String
  sourceId : Nat
  symbol : String
  mid : P
  method : UInt8
  qualityFlags : UInt8
  bookTsNs : Nat
  computeTsNs : Nat
  recvTsNs : Nat
  kernelRxTsNs : Nat

/-- One thing handed on, with the instrument it is about: a write of the shared catalog, or a message. -/
inductive Out (P : Type) where
  | upsertInstrument (key : InstrumentKey) (i : Instrument)
  | removeInstrument (key : InstrumentKey) (market : BookKey)
  | instrument (key : InstrumentKey) (i : Instrument)
  | quote (key : InstrumentKey) (q : QuoteMessage P)
  | trade (key : InstrumentKey) (t : TradePrint P P)
  | midpoint (key : InstrumentKey) (m : NormalizedMidpoint P)

/-- What the configuration says of the row that a processor reads. -/
structure Row where
  category : String
  mirrorOffset : Option Nat
  deriving DecidableEq, Repr

/-- The context of one call. -/
structure Ctx where
  role : PortRole
  publisher : IpAddr
  recvTsNs : Nat
  kernelRxTsNs : Nat
  monoNs : Nat
  tape : Bool
  deriving DecidableEq, Repr

/-- A processor and what it has handed on in this call. -/
structure Run (P : Type) where
  proc : Announcer
  out : List (Out P)

/-- What a price needs of a definition. -/
structure Scale where
  symbol : String
  priceExponent : Int
  qtyExponent : Int
  deriving DecidableEq, Repr

def Scale.of (d : InstrumentDefinition) : Scale := ⟨d.symbol, d.priceExponent, d.qtyExponent⟩

section Processor

variable {P : Type} (rd : Render P P) (row : Row) (cx : Ctx)

namespace Run

def emit (r : Run P) (o : Out P) : Run P := { r with out := r.out ++ [o] }

def channelOf (p : Announcer) (key : InstrumentKey) : Nat := (p.pendingChannel.get key).getD 0

def instrumentOf (key : InstrumentKey) (channel sourceId : Nat) (d : InstrumentDefinition) : Instrument where
  source := rd.sourceKey sourceId
  sourceId := sourceId
  symbol := d.symbol
  channel := channel
  instrumentId := key.instrumentId
  category := row.category
  priceExponent := d.priceExponent
  qtyExponent := d.qtyExponent
  tickSize := d.tickSize

/-- A definition goes into the catalog and out. -/
def announce (r : Run P) (key : InstrumentKey) (channel sourceId : Nat) (d : InstrumentDefinition) : Run P :=
  let i := instrumentOf rd row key channel sourceId d
  (r.emit (.upsertInstrument key i)).emit (.instrument key i)

/-- The name that an instrument had goes out of the catalog. -/
def retire (r : Run P) (key : InstrumentKey) (channel : Nat) : Run P :=
  match r.proc.revealed.get key with
  | none => r
  | some old => r.emit (.removeInstrument key ⟨rd.sourceKey old, row.category, channel, key.instrumentId⟩)

def name (r : Run P) (key : InstrumentKey) (sourceId : Nat) : Run P :=
  { r with proc := { r.proc with revealed := r.proc.revealed.insert key sourceId } }

/-- `reveal_if_needed`: name the Source ID of an instrument that is defined, and announce it under that. -/
def revealIfNeeded (r : Run P) (instrumentId sourceId : Nat) : Run P :=
  let key : InstrumentKey := ⟨cx.publisher, instrumentId⟩
  if r.proc.revealed.get key = some sourceId then r
  else
    match r.proc.state.definition cx.publisher instrumentId with
    | none => r
    | some d =>
      let channel := channelOf r.proc key
      ((r.retire rd row key channel).name key sourceId).announce rd row key channel sourceId d

/-- `forget_publisher`. -/
def forgetPublisher (r : Run P) (publisher : IpAddr) : Run P :=
  { r with
    proc := { r.proc with
      revealed := r.proc.revealed.filter fun k _ => !decide (k.publisher = publisher)
      pendingChannel := r.proc.pendingChannel.filter fun k _ => !decide (k.publisher = publisher) } }

/-- A write of the publisher's reference data. -/
def modify (r : Run P) (f : RefDataState → RefDataState) : Run P :=
  { r with proc := { r.proc with state := r.proc.state.modify cx.publisher f } }

/-- The channel that an instrument's definition came on. -/
def setChannel (r : Run P) (key : InstrumentKey) (channel : Nat) : Run P :=
  { r with proc := { r.proc with pendingChannel := r.proc.pendingChannel.insert key channel } }

/-- A definition is announced again under the Source ID that is known, unless it names another. -/
def reannounce (r : Run P) (key : InstrumentKey) (channel : Nat) (d : InstrumentDefinition) : Run P :=
  match r.proc.revealed.get key with
  | none => r
  | some id => if d.sourceId.all fun s => s = id then r.announce rd row key channel id d else r

/-- A definition is announced again and kept. -/
def define (r : Run P) (channel : Nat) (d : InstrumentDefinition) : Run P :=
  let key : InstrumentKey := ⟨cx.publisher, d.instrumentId⟩
  ((r.setChannel key channel).reannounce rd row key channel d).modify cx fun s => s.onInstrumentDefinition d

/-- A definition, and the Source ID that it names where its version does. -/
def onInstrumentDefinition (r : Run P) (channel : Nat) (d : InstrumentDefinition) : Run P :=
  let r := r.define rd row cx channel d
  match d.sourceId with
  | none => r
  | some id => r.revealIfNeeded rd row cx d.instrumentId id

/-- The definitions of the publisher and the names of its instruments go. -/
def onChannelReset (r : Run P) : Run P := (r.modify cx fun _ => .new).forgetPublisher cx.publisher

/-- A price of an instrument: dropped without a definition, else made under it once the instrument is revealed. -/
def onPrice (r : Run P) (instrumentId sourceId : Nat) (price : InstrumentKey → Nat → Scale → Option (Out P)) : Run P :=
  match r.proc.state.definition cx.publisher instrumentId with
  | none => r
  | some d =>
    let r := r.revealIfNeeded rd row cx instrumentId sourceId
    let key : InstrumentKey := ⟨cx.publisher, instrumentId⟩
    match price key (channelOf r.proc key) (.of d) with
    | none => r
    | some o => r.emit o

end Run

/-! ## The messages -/

/-- What a message asks of an announcer. -/
inductive Action (P : Type) where
  | manifest (valid : Bool) (manifestSeq instrumentCount : Nat)
  | define (channel : Nat) (d : InstrumentDefinition)
  | channelReset
  | price (instrumentId sourceId : Nat) (price : InstrumentKey → Nat → Scale → Option (Out P))
  | skip

def Run.act (r : Run P) : Action P → Run P
  | .manifest valid manifestSeq instrumentCount => r.modify cx fun s => s.onManifest valid manifestSeq instrumentCount
  | .define channel d => r.onInstrumentDefinition rd row cx channel d
  | .channelReset => r.onChannelReset cx
  | .price instrumentId sourceId price => r.onPrice rd row cx instrumentId sourceId price
  | .skip => r

/-- A quote under a definition; the identity of its update is on the channel of the datagram. -/
def quoteOf (channel : Nat) (s : Scale) (q : Codec.Quote) : QuoteMessage P where
  venue := rd.label q.sourceId
  sourceId := q.sourceId
  symbol := s.symbol
  bid := rd.price q.bidPriceRaw s.priceExponent
  ask := rd.price q.askPriceRaw s.priceExponent
  bidSize := rd.size (asI64 q.bidQtyRaw) s.qtyExponent
  askSize := rd.size (asI64 q.askQtyRaw) s.qtyExponent
  bidN := q.bidN
  askN := q.askN
  sourceTsNs := q.sourceTs
  recvTsNs := cx.recvTsNs
  venueUpdateId := BitVec.ofNat 32 q.venueUpdateId
  wire :=
    { channel := channel
      bidPrice := q.bidPriceRaw
      bidQty := q.bidQtyRaw
      askPrice := q.askPriceRaw
      askQty := q.askQtyRaw
      priceExponent := s.priceExponent
      qtyExponent := s.qtyExponent }
  kernelRxTsNs := cx.kernelRxTsNs

/-- A trade under a definition and the channel that this came on. -/
def tradeOf (channel : Nat) (s : Scale) (t : Codec.Trade) : TradePrint P P where
  source := rd.sourceKey t.sourceId
  sourceId := t.sourceId
  symbol := s.symbol
  channel := channel
  instrumentId := t.instrumentId
  category := row.category
  price := rd.price t.tradePriceRaw s.priceExponent
  size := rd.size (asI64 t.tradeQtyRaw) s.qtyExponent
  aggressorSide := t.aggressorSide
  tradeId := t.tradeId
  cumulativeVolume := rd.size (asI64 t.cumulativeVolumeRaw) s.qtyExponent
  sourceTsNs := t.sourceTs
  recvTsNs := cx.recvTsNs
  kernelRxTsNs := cx.kernelRxTsNs

def midpointOf (s : Scale) (mp : CodecMidpoint.Midpoint) : NormalizedMidpoint P where
  venue := rd.label mp.sourceId
  sourceId := mp.sourceId
  symbol := s.symbol
  mid := rd.price mp.midPriceRaw s.priceExponent
  method := mp.method
  qualityFlags := mp.qualityFlags
  bookTsNs := mp.bookTs
  computeTsNs := mp.computeTs
  recvTsNs := cx.recvTsNs
  kernelRxTsNs := cx.kernelRxTsNs

/-- One message of a Top-of-Book datagram; its manifest counts as valid whatever it says, and a trade goes out where the
row owns the tape. -/
def Tob.action (h : DatagramHeader) (fresh : Bool) : Codec.Message → Action P
  | .manifestSummary m =>
    if cx.role.handlesRefdata then .manifest true m.manifestSeq m.instrumentCount else .skip
  | .instrumentDefinition d =>
    if cx.role.handlesRefdata then .define (canonicalChannel row.mirrorOffset h.channelId.toNat) d else .skip
  | .channelReset _ => if cx.role.handlesRefdata then .channelReset else .skip
  | .quote q =>
    if cx.role.handlesMktdata && fresh then
      .price q.instrumentId q.sourceId fun key _ s =>
        some (.quote key (quoteOf rd cx (canonicalChannel row.mirrorOffset h.channelId.toNat) s q))
    else .skip
  | .trade t =>
    if cx.role.handlesMktdata && fresh then
      .price t.instrumentId t.sourceId fun key channel s =>
        if cx.tape then some (.trade key (tradeOf rd row cx channel s t)) else none
    else .skip
  | .endOfSession _ | .heartbeat | .other _ => .skip

/-- One message of a Midpoint datagram; its manifest is taken at its word. -/
def Midpoint.action (h : DatagramHeader) (fresh : Bool) : CodecMidpoint.Message → Action P
  | .manifestSummary m =>
    if cx.role.handlesRefdata then .manifest m.valid m.manifestSeq m.instrumentCount else .skip
  | .instrumentDefinition d =>
    if cx.role.handlesRefdata then .define (canonicalChannel row.mirrorOffset h.channelId.toNat) d.known else .skip
  | .midpoint mp =>
    if cx.role.handlesMktdata && fresh then
      .price mp.instrumentId mp.sourceId fun key _ s => some (.midpoint key (midpointOf rd cx s mp))
    else .skip
  | .endOfSession _ | .heartbeat | .other _ => .skip

/-! ## The call -/

/-- A decoded datagram of a codec and its context. -/
structure Input (M : Type) where
  cx : Ctx
  header : DatagramHeader
  messages : List M

variable {M : Type} (action : Ctx → DatagramHeader → Bool → M → Action P)

/-- `take_evicted`. -/
def Run.takeEvicted (r : Run P) : Run P × Option IpAddr :=
  ({ r with proc := { r.proc with state := { r.proc.state with lastEvicted := none } } }, r.proc.state.lastEvicted)

/-- The reference data of the datagram's era, and the publisher that made room for it. -/
def begin (resetCount : Nat) (p : Announcer) : Run P :=
  if cx.role.handlesRefdata then
    match (Run.modify cx (P := P) ⟨p, []⟩ fun s => s.onDatagram resetCount).takeEvicted with
    | (r, none) => r
    | (r, some evicted) => r.forgetPublisher evicted
  else ⟨p, []⟩

/-- The sequence of a datagram on a market-data port, and whether its prices count. -/
def checkSeq (h : DatagramHeader) (r : Run P) : Run P × Bool :=
  if cx.role.handlesMktdata then
    let (seq, check) := r.proc.seq.check cx.publisher h.channelId.toNat h.resetCount.toNat h.sequence cx.monoNs
    ({ r with proc := { r.proc with seq := seq } }, check ≠ .stale)
  else (r, true)

def onDatagram (p : Announcer) (i : Input M) : Run P :=
  let (r, fresh) := checkSeq i.cx i.header (begin i.cx i.header.resetCount.toNat p)
  i.messages.foldl (fun r m => r.act rd row i.cx (action i.cx i.header fresh m)) r

/-- A processor as a machine: a datagram is answered with what is handed on. -/
def announcer : Machine Announcer (Input M) (List (Out P)) where
  step p i := ((onDatagram rd row action p i).proc, (onDatagram rd row action p i).out)

end Processor

section Machines

variable {P : Type} (rd : Render P P) (row : Row)

/-- `TobProcessor::on_datagram`. -/
def Tob.machine : Machine Announcer (Input Codec.Message) (List (Out P)) := announcer rd row (Tob.action rd row)

/-- `MidpointProcessor::on_datagram`. -/
def Midpoint.machine : Machine Announcer (Input CodecMidpoint.Message) (List (Out P)) :=
  announcer rd row (Midpoint.action rd row)

end Machines

end EdgeConnect.TobFeed
