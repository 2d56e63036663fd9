import EdgeConnect.Ingest.Codec

/-!
# The Market-by-Order codec (`src/ingest/codec_mbo.rs`), and locality of both lenient codecs

* `decodeBody`, `decodeDatagram` — as in the Top-of-Book codec, with this feed's types;
* `ownFields` — how the bodies use the declared length;
* `decode_locality_iff` — the messages of a datagram of either feed come from their own bytes exactly when those
  cover their types' fields.
-/

set_option autoImplicit false

namespace EdgeConnect.CodecMbo

open Layout CodecCommon
open Ingest (InstrumentDefinition)
open Codec (MSG_HEARTBEAT MSG_INSTRUMENT_DEFINITION MSG_TRADE MSG_END_OF_SESSION MSG_MANIFEST_SUMMARY)

def MAGIC : Nat := 0x4444
def SUPPORTED_VERSIONS : List UInt8 := [SCHEMA_V1, SCHEMA_V3]

def MSG_ORDER_ADD : UInt8 := 0x10
def MSG_ORDER_CANCEL : UInt8 := 0x11
def MSG_ORDER_EXECUTE : UInt8 := 0x12
def MSG_BATCH_BOUNDARY : UInt8 := 0x13
def MSG_INSTRUMENT_RESET : UInt8 := 0x14
def MSG_SNAPSHOT_BEGIN : UInt8 := 0x20
def MSG_SNAPSHOT_ORDER : UInt8 := 0x21
def MSG_SNAPSHOT_END : UInt8 := 0x22

structure OrderAdd where
  instrumentId : Nat
  sourceId : Nat
  side : UInt8
  orderFlags : UInt8
  perInstrumentSeq : Nat
  orderId : Nat
  enterTs : Nat
  priceRaw : Int
  qtyRaw : Nat
  deriving DecidableEq, Repr

structure OrderCancel where
  instrumentId : Nat
  sourceId : Nat
  reason : UInt8
  perInstrumentSeq : Nat
  orderId : Nat
  ts : Nat
  deriving DecidableEq, Repr

structure OrderExecute where
  instrumentId : Nat
  sourceId : Nat
  aggressorSide : UInt8
  execFlags : UInt8
  perInstrumentSeq : Nat
  orderId : Nat
  tradeId : Nat
  ts : Nat
  execPriceRaw : Int
  execQtyRaw : Nat
  deriving DecidableEq, Repr

structure InstrumentReset where
  instrumentId : Nat
  reason : UInt8
  newAnchorSeq : Nat
  ts : Nat
  deriving DecidableEq, Repr

structure SnapshotBegin where
  instrumentId : Nat
  anchorSeq : Nat
  totalOrders : Nat
  snapshotId : Nat
  lastInstrumentSeq : Nat
  ts : Nat
  deriving DecidableEq, Repr

structure SnapshotOrder where
  snapshotId : Nat
  orderId : Nat
  side : UInt8
  orderFlags : UInt8
  enterTs : Nat
  priceRaw : Int
  qtyRaw : Nat
  deriving DecidableEq, Repr

structure SnapshotEnd where
  instrumentId : Nat
  anchorSeq : Nat
  snapshotId : Nat
  deriving DecidableEq, Repr

inductive Message where
  | instrumentDefinition (d : InstrumentDefinition)
  | manifestSummary (m : Codec.ManifestSummary)
  | trade (t : Codec.Trade)
  | orderAdd (a : OrderAdd)
  | orderCancel (c : OrderCancel)
  | orderExecute (e : OrderExecute)
  | batchBoundary (batchId batchTime : Nat)
  | instrumentReset (r : InstrumentReset)
  | snapshotBegin (s : SnapshotBegin)
  | snapshotOrder (o : SnapshotOrder)
  | snapshotEnd (e : SnapshotEnd)
  | heartbeat
  | endOfSession (ts : Nat)
  | other (ty : UInt8)
  deriving DecidableEq, Repr

/-! ## The bodies -/

def orderAddFields (b : Bytes) (body : Nat) : Option Message := do
  let instrumentId ← u32le b body
  let sourceId ← u16le b (body + 4)
  let side ← u8le b (body + 6)
  let orderFlags ← u8le b (body + 7)
  let perInstrumentSeq ← u32le b (body + 8)
  let orderId ← u64le b (body + 12)
  let enterTs ← u64le b (body + 20)
  let priceRaw ← i64le b (body + 28)
  let qtyRaw ← u64le b (body + 36)
  return .orderAdd ⟨instrumentId, sourceId, side, orderFlags, perInstrumentSeq, orderId, enterTs, priceRaw, qtyRaw⟩

def orderCancelFields (b : Bytes) (body : Nat) : Option Message := do
  let instrumentId ← u32le b body
  let sourceId ← u16le b (body + 4)
  let reason ← u8le b (body + 6)
  let perInstrumentSeq ← u32le b (body + 8)
  let orderId ← u64le b (body + 12)
  let ts ← u64le b (body + 20)
  return .orderCancel ⟨instrumentId, sourceId, reason, perInstrumentSeq, orderId, ts⟩

def orderExecuteFields (b : Bytes) (body : Nat) : Option Message := do
  let instrumentId ← u32le b body
  let sourceId ← u16le b (body + 4)
  let aggressorSide ← u8le b (body + 6)
  let execFlags ← u8le b (body + 7)
  let perInstrumentSeq ← u32le b (body + 8)
  let orderId ← u64le b (body + 12)
  let tradeId ← u64le b (body + 20)
  let ts ← u64le b (body + 28)
  let execPriceRaw ← i64le b (body + 36)
  let execQtyRaw ← u64le b (body + 44)
  return .orderExecute ⟨instrumentId, sourceId, aggressorSide, execFlags, perInstrumentSeq, orderId, tradeId, ts,
    execPriceRaw, execQtyRaw⟩

def batchBoundaryFields (b : Bytes) (body : Nat) : Option Message := do
  let batchId ← u32le b body
  let batchTime ← u64le b (body + 4)
  return .batchBoundary batchId batchTime

def instrumentResetFields (b : Bytes) (body : Nat) : Option Message := do
  let instrumentId ← u32le b body
  let reason ← u8le b (body + 4)
  let newAnchorSeq ← u64le b (body + 8)
  let ts ← u64le b (body + 16)
  return .instrumentReset ⟨instrumentId, reason, newAnchorSeq, ts⟩

def snapshotBeginFields (b : Bytes) (body : Nat) : Option Message := do
  let instrumentId ← u32le b body
  let anchorSeq ← u64le b (body + 4)
  let totalOrders ← u32le b (body + 12)
  let snapshotId ← u32le b (body + 16)
  let lastInstrumentSeq ← u32le b (body + 20)
  let ts ← u64le b (body + 24)
  return .snapshotBegin ⟨instrumentId, anchorSeq, totalOrders, snapshotId, lastInstrumentSeq, ts⟩

def snapshotOrderFields (b : Bytes) (body : Nat) : Option Message := do
  let snapshotId ← u32le b body
  let orderId ← u64le b (body + 4)
  let side ← u8le b (body + 12)
  let orderFlags ← u8le b (body + 13)
  let enterTs ← u64le b (body + 16)
  let priceRaw ← i64le b (body + 24)
  let qtyRaw ← u64le b (body + 32)
  return .snapshotOrder ⟨snapshotId, orderId, side, orderFlags, enterTs, priceRaw, qtyRaw⟩

def snapshotEndFields (b : Bytes) (body : Nat) : Option Message := do
  let instrumentId ← u32le b body
  let anchorSeq ← u64le b (body + 4)
  let snapshotId ← u32le b (body + 12)
  return .snapshotEnd ⟨instrumentId, anchorSeq, snapshotId⟩

def tradeFields (b : Bytes) (body : Nat) : Option Message := do
  let instrumentId ← u32le b body
  let sourceId ← u16le b (body + 4)
  let aggressorSide ← u8le b (body + 6)
  let tradeFlags ← u8le b (body + 7)
  let sourceTs ← u64le b (body + 8)
  let tradePriceRaw ← i64le b (body + 16)
  let tradeQtyRaw ← u64le b (body + 24)
  let tradeId ← u64le b (body + 32)
  let cumulativeVolumeRaw ← u64le b (body + 40)
  return .trade ⟨instrumentId, sourceId, aggressorSide, tradeFlags, sourceTs, tradePriceRaw, tradeQtyRaw, tradeId,
    cumulativeVolumeRaw⟩

def manifestFields (b : Bytes) (body : Nat) : Option Message := do
  let channelId ← u8le b body
  let valid ← u8le b (body + 1)
  let manifestSeq ← u16le b (body + 4)
  let instrumentCount ← u32le b (body + 8)
  let ts ← u64le b (body + 12)
  return .manifestSummary ⟨channelId, valid ≠ 0, manifestSeq, instrumentCount, ts⟩

def endOfSessionFields (b : Bytes) (body : Nat) : Option Message := do
  let ts ← u64le b body
  return .endOfSession ts

/-- The layout of a type, where its body ends and its decoder. -/
def layout (ty : UInt8) : Option (Nat × Reader Message) :=
  if ty = MSG_ORDER_ADD then some (44, orderAddFields)
  else if ty = MSG_ORDER_CANCEL then some (28, orderCancelFields)
  else if ty = MSG_ORDER_EXECUTE then some (52, orderExecuteFields)
  else if ty = MSG_BATCH_BOUNDARY then some (12, batchBoundaryFields)
  else if ty = MSG_INSTRUMENT_RESET then some (24, instrumentResetFields)
  else if ty = MSG_SNAPSHOT_BEGIN then some (32, snapshotBeginFields)
  else if ty = MSG_SNAPSHOT_ORDER then some (40, snapshotOrderFields)
  else if ty = MSG_SNAPSHOT_END then some (16, snapshotEndFields)
  else if ty = MSG_TRADE then some (48, tradeFields)
  else if ty = MSG_MANIFEST_SUMMARY then some (20, manifestFields)
  else if ty = MSG_END_OF_SESSION then some (8, endOfSessionFields)
  else none

/-- `decode_body`, at a message offset. -/
def decodeBody (ty : UInt8) (b : Bytes) (o : Nat) (schemaVersion : UInt8) : Option Message :=
  let body := o + MSG_HEADER_SIZE
  if ty = MSG_INSTRUMENT_DEFINITION then (instrumentDefinition b o schemaVersion).map Message.instrumentDefinition
  else
    match layout ty with
    | some (_, fields) => fields b body
    | none => if ty = MSG_HEARTBEAT then some .heartbeat else some (.other ty)

/-- `decode_message`. -/
def decodeMessage (ty : UInt8) (_flags : Nat) (b : Bytes) (o : Nat) (ver : UInt8) : Except DecodeError Message :=
  .ok (orOther decodeBody Message.other ty b o ver)

theorem decodeMessage_eq (ty : UInt8) (flags : Nat) (b : Bytes) (o : Nat) (ver : UInt8) (_ : o + 1 < b.length) :
    decodeMessage ty flags b o ver = .ok (orOther decodeBody Message.other ty b o ver) := rfl

def decodeDatagram (b : Bytes) : Except DecodeError (DatagramHeader × List Message) :=
  decodeDatagramWith decodeMessage MAGIC SUPPORTED_VERSIONS b

/-! ## How far a message reads -/

/-- Where the fields of a type end, from the start of its message. -/
def fieldsEnd (ty ver : UInt8) : Option Nat :=
  if ty = MSG_INSTRUMENT_DEFINITION then some (definitionEnd ver)
  else (layout ty).map fun l => MSG_HEADER_SIZE + l.1

/-- A layout that reads exactly its body, and never yields `Other`. -/
def Exact (n : Nat) (r : Reader Message) : Prop := Fills r n ∧ ∀ ty, Yields r (· ≠ Message.other ty)

theorem orderAddFields_exact : Exact 44 orderAddFields :=
  ⟨Fills.u32le.bind fun _ => (Fills.u16le.shift 4).bind fun _ => (Fills.u8le.shift 6).bind fun _ =>
    (Fills.u8le.shift 7).bind fun _ => (Fills.u32le.shift 8).bind fun _ => (Fills.u64le.shift 12).bind fun _ =>
    (Fills.u64le.shift 20).bind fun _ => (Fills.i64le.shift 28).bind fun _ => (Fills.u64le.shift 36).last _,
    fun _ => .bind fun _ => .bind fun _ => .bind fun _ => .bind fun _ => .bind fun _ => .bind fun _ => .bind fun _ =>
      .bind fun _ => .last fun _ => nofun⟩

theorem orderCancelFields_exact : Exact 28 orderCancelFields :=
  ⟨Fills.u32le.bind fun _ => (Fills.u16le.shift 4).bind fun _ => (Fills.u8le.shift 6).bind fun _ =>
    (Fills.u32le.shift 8).bind fun _ => (Fills.u64le.shift 12).bind fun _ => (Fills.u64le.shift 20).last _,
    fun _ => .bind fun _ => .bind fun _ => .bind fun _ => .bind fun _ => .bind fun _ => .last fun _ => nofun⟩

theorem orderExecuteFields_exact : Exact 52 orderExecuteFields :=
  ⟨Fills.u32le.bind fun _ => (Fills.u16le.shift 4).bind fun _ => (Fills.u8le.shift 6).bind fun _ =>
    (Fills.u8le.shift 7).bind fun _ => (Fills.u32le.shift 8).bind fun _ => (Fills.u64le.shift 12).bind fun _ =>
    (Fills.u64le.shift 20).bind fun _ => (Fills.u64le.shift 28).bind fun _ => (Fills.i64le.shift 36).bind fun _ =>
    (Fills.u64le.shift 44).last _,
    fun _ => .bind fun _ => .bind fun _ => .bind fun _ => .bind fun _ => .bind fun _ => .bind fun _ => .bind fun _ =>
      .bind fun _ => .bind fun _ => .last fun _ => nofun⟩

theorem batchBoundaryFields_exact : Exact 12 batchBoundaryFields :=
  ⟨Fills.u32le.bind fun _ => (Fills.u64le.shift 4).last _, fun _ => .bind fun _ => .last fun _ => nofun⟩

theorem instrumentResetFields_exact : Exact 24 instrumentResetFields :=
  ⟨Fills.u32le.bind fun _ => (Fills.u8le.shift 4).bind fun _ => (Fills.u64le.shift 8).bind fun _ =>
    (Fills.u64le.shift 16).last _, fun _ => .bind fun _ => .bind fun _ => .bind fun _ => .last fun _ => nofun⟩

theorem snapshotBeginFields_exact : Exact 32 snapshotBeginFields :=
  ⟨Fills.u32le.bind fun _ => (Fills.u64le.shift 4).bind fun _ => (Fills.u32le.shift 12).bind fun _ =>
    (Fills.u32le.shift 16).bind fun _ => (Fills.u32le.shift 20).bind fun _ => (Fills.u64le.shift 24).last _,
    fun _ => .bind fun _ => .bind fun _ => .bind fun _ => .bind fun _ => .bind fun _ => .last fun _ => nofun⟩

theorem snapshotOrderFields_exact : Exact 40 snapshotOrderFields :=
  ⟨Fills.u32le.bind fun _ => (Fills.u64le.shift 4).bind fun _ => (Fills.u8le.shift 12).bind fun _ =>
    (Fills.u8le.shift 13).bind fun _ => (Fills.u64le.shift 16).bind fun _ => (Fills.i64le.shift 24).bind fun _ =>
    (Fills.u64le.shift 32).last _,
    fun _ => .bind fun _ => .bind fun _ => .bind fun _ => .bind fun _ => .bind fun _ => .bind fun _ =>
      .last fun _ => nofun⟩

theorem snapshotEndFields_exact : Exact 16 snapshotEndFields :=
  ⟨Fills.u32le.bind fun _ => (Fills.u64le.shift 4).bind fun _ => (Fills.u32le.shift 12).last _,
    fun _ => .bind fun _ => .bind fun _ => .last fun _ => nofun⟩

theorem tradeFields_exact : Exact 48 tradeFields :=
  ⟨Fills.u32le.bind fun _ => (Fills.u16le.shift 4).bind fun _ => (Fills.u8le.shift 6).bind fun _ =>
    (Fills.u8le.shift 7).bind fun _ => (Fills.u64le.shift 8).bind fun _ => (Fills.i64le.shift 16).bind fun _ =>
    (Fills.u64le.shift 24).bind fun _ => (Fills.u64le.shift 32).bind fun _ => (Fills.u64le.shift 40).last _,
    fun _ => .bind fun _ => .bind fun _ => .bind fun _ => .bind fun _ => .bind fun _ => .bind fun _ => .bind fun _ =>
      .bind fun _ => .last fun _ => nofun⟩

theorem manifestFields_exact : Exact 20 manifestFields :=
  ⟨Fills.u8le.bind fun _ => (Fills.u8le.shift 1).bind fun _ => (Fills.u16le.shift 4).bind fun _ =>
    (Fills.u32le.shift 8).bind fun _ => (Fills.u64le.shift 12).last _,
    fun _ => .bind fun _ => .bind fun _ => .bind fun _ => .bind fun _ => .last fun _ => nofun⟩

theorem endOfSessionFields_exact : Exact 8 endOfSessionFields :=
  ⟨Fills.u64le.last _, fun _ => .last fun _ => nofun⟩

theorem layout_exact {ty : UInt8} {n : Nat} {fields : Reader Message} (h : layout ty = some (n, fields)) :
    Exact n fields := by
  unfold layout at h
  rcases of_ite_some h with hrow | h
  · cases hrow
    exact orderAddFields_exact
  rcases of_ite_some h with hrow | h
  · cases hrow
    exact orderCancelFields_exact
  rcases of_ite_some h with hrow | h
  · cases hrow
    exact orderExecuteFields_exact
  rcases of_ite_some h with hrow | h
  · cases hrow
    exact batchBoundaryFields_exact
  rcases of_ite_some h with hrow | h
  · cases hrow
    exact instrumentResetFields_exact
  rcases of_ite_some h with hrow | h
  · cases hrow
    exact snapshotBeginFields_exact
  rcases of_ite_some h with hrow | h
  · cases hrow
    exact snapshotOrderFields_exact
  rcases of_ite_some h with hrow | h
  · cases hrow
    exact snapshotEndFields_exact
  rcases of_ite_some h with hrow | h
  · cases hrow
    exact tradeFields_exact
  rcases of_ite_some h with hrow | h
  · cases hrow
    exact manifestFields_exact
  rcases of_ite_some h with hrow | h
  · cases hrow
    exact endOfSessionFields_exact
  cases h

/-- **How the Market-by-Order bodies use the declared length.** -/
theorem ownFields : OwnFields decodeBody Message.other fieldsEnd Codec.checksLength := by
  refine ownFields_of_layouts (fun _ _ _ => 0) .instrumentDefinition (fun _ _ _ _ _ _ _ => rfl)
    (fun ty ver n hc hn => ?_) (fun ty ver hc hn => ?_) (fun ty ver b o hc => ?_) (fun ty ver n hc hn => ?_)
  · unfold Codec.checksLength at hc
    unfold fieldsEnd at hn
    rw [if_neg hc] at hn
    obtain ⟨⟨k, fields⟩, hl, rfl⟩ := Option.map_eq_some_iff.mp hn
    obtain ⟨hfills, hother⟩ := layout_exact hl
    refine ⟨fun _ => fields, k, rfl, fun _ => hfills, fun _ => hother ty, fun b o => ?_⟩
    unfold decodeBody
    simp only [if_neg hc, hl]
  · unfold Codec.checksLength at hc
    unfold fieldsEnd at hn
    rw [if_neg hc] at hn
    have hl := Option.map_eq_none_iff.mp hn
    refine ⟨if ty = MSG_HEARTBEAT then some .heartbeat else some (.other ty), fun b o => ?_⟩
    unfold decodeBody
    simp only [if_neg hc, hl]
  · unfold Codec.checksLength at hc
    subst hc
    rfl
  · unfold Codec.checksLength at hc
    subst hc
    exact (Option.some.inj hn).symm

/-! ## Locality -/

/-- **The messages of a Top-of-Book or Market-by-Order datagram come from their own bytes exactly when those cover
their types' fields**, or the buffer ends before the fields do; a definition checks its length itself. -/
theorem decode_locality_iff (b : Bytes) (h : DatagramHeader) :
    (∀ ms, Codec.decodeDatagram b = .ok (h, ms) →
      (OwnBytes Codec.decodeBody Codec.Message.other Codec.fieldsEnd b h ms ↔
        Covered Codec.fieldsEnd Codec.checksLength b h)) ∧
      ∀ ms, decodeDatagram b = .ok (h, ms) →
        (OwnBytes decodeBody Message.other fieldsEnd b h ms ↔ Covered fieldsEnd Codec.checksLength b h) := by
  constructor
  · intro ms hok
    obtain ⟨-, -, -, -, rfl⟩ := (decodeDatagramWith_messages Codec.decodeMessage_eq).mp hok
    exact Codec.ownFields.ownBytes_iff
  · intro ms hok
    obtain ⟨-, -, -, -, rfl⟩ := (decodeDatagramWith_messages decodeMessage_eq).mp hok
    exact ownFields.ownBytes_iff

/-- A Top-of-Book datagram whose trade declares no body, before a message of an unknown type. -/
def cutTrade : Bytes :=
  [0x5A, 0x44, 1, 0, 0, 0, 0, 0, 0, 0, 0, 0, 0, 0, 0, 0, 0, 0, 0, 0, 2, 0, 76, 0,
    0x04, 4, 0, 0,
    0x99, 48, 0, 0, 5, 0, 1, 0, 0, 0, 0, 0, 0, 0, 0, 0, 7, 0, 0, 0, 0, 0, 0, 0, 9, 0, 0, 0, 0, 0, 0, 0, 0, 0, 0, 0, 0, 0,
    0, 0, 0, 0, 0, 0, 0, 0, 0, 0]

/-- The trade of `cutTrade` is made of the bytes of the message behind it. -/
theorem cutTrade_not_ownBytes :
    ∃ h ms, Codec.decodeDatagram cutTrade = .ok (h, ms) ∧
      ms = [.trade ⟨12441, 5, 1, 0, 0, 7, 9, 0, 0⟩, .other 0x99] ∧
      ¬ OwnBytes Codec.decodeBody Codec.Message.other Codec.fieldsEnd cutTrade h ms := by
  refine ⟨⟨1, 0, 0, 0, 2, 0, 76⟩, _, by decide, rfl, fun hown => ?_⟩
  have hspans : (messageSpans cutTrade ⟨1, 0, 0, 0, 2, 0, 76⟩)[0]? = some (24, 4) := by decide
  have hother := (hown 0 24 4 _ hspans rfl).2 52 (by decide) (by decide)
  cases hother

/-- The same with a trade of the length its fields need. -/
def wholeTrade : Bytes :=
  [0x5A, 0x44, 1, 0, 0, 0, 0, 0, 0, 0, 0, 0, 0, 0, 0, 0, 0, 0, 0, 0, 1, 0, 76, 0,
    0x04, 52, 0, 0,
    0x99, 48, 0, 0, 5, 0, 1, 0, 0, 0, 0, 0, 0, 0, 0, 0, 7, 0, 0, 0, 0, 0, 0, 0, 9, 0, 0, 0, 0, 0, 0, 0, 0, 0, 0, 0, 0, 0,
    0, 0, 0, 0, 0, 0, 0, 0, 0, 0]

theorem decode_locality_iff_wholeTrade :
    OwnBytes Codec.decodeBody Codec.Message.other Codec.fieldsEnd wholeTrade ⟨1, 0, 0, 0, 1, 0, 76⟩
      [.trade ⟨12441, 5, 1, 0, 0, 7, 9, 0, 0⟩] := by
  refine ((decode_locality_iff wholeTrade ⟨1, 0, 0, 0, 1, 0, 76⟩).1 _ (by decide)).mpr fun s hs n hn => ?_
  have hspans : messageSpans wholeTrade ⟨1, 0, 0, 0, 1, 0, 76⟩ = [(24, 52)] := by decide
  rw [hspans, List.mem_singleton] at hs
  subst hs
  have hneed : Codec.fieldsEnd (wholeTrade[24]?.getD 0) 1 = some 52 := by decide
  have heq : some n = some 52 := hn.symm.trans hneed
  cases heq
  exact .inr (.inl le_rfl)

end EdgeConnect.CodecMbo
