import EdgeConnect.Ingest.CodecCommon

/-!
# The Midpoint codec (`src/ingest/codec_midpoint.rs`)

Executable model of `decode_datagram`: the magic, the one schema version and the bodies of the feed.

* `decodeBody`, `decodeDatagram`;
* `InstrumentDefinition.known` — the slimmed definition as the reference data keeps it.
-/

set_option autoImplicit false

namespace EdgeConnect.CodecMidpoint

open Layout CodecCommon

def MAGIC : Nat := 0x4D44
def SUPPORTED_VERSIONS : List UInt8 := [SCHEMA_V1]

def MSG_HEARTBEAT : UInt8 := 0x01
def MSG_INSTRUMENT_DEFINITION : UInt8 := 0x02
def MSG_MIDPOINT : UInt8 := 0x03
def MSG_END_OF_SESSION : UInt8 := 0x06
def MSG_MANIFEST_SUMMARY : UInt8 := 0x07

structure InstrumentDefinition where
  instrumentId : Nat
  symbol : String
  priceExponent : Int
  defaultMethod : UInt8
  manifestSeq : Nat
  deriving DecidableEq, Repr

structure Midpoint where
  instrumentId : Nat
  sourceId : Nat
  method : UInt8
  qualityFlags : UInt8
  bookTs : Nat
  computeTs : Nat
  midPriceRaw : Int
  deriving DecidableEq, Repr

structure ManifestSummary where
  channelId : UInt8
  valid : Bool
  manifestSeq : Nat
  instrumentCount : Nat
  ts : Nat
  deriving DecidableEq, Repr

inductive Message where
  | midpoint (mp : Midpoint)
  | instrumentDefinition (d : InstrumentDefinition)
  | manifestSummary (m : ManifestSummary)
  | heartbeat
  | endOfSession (ts : Nat)
  | other (ty : UInt8)
  deriving DecidableEq, Repr

/-- A definition as the reference data keeps it: a mid has no size and no tick, and no version names its Source ID. -/
def InstrumentDefinition.known (d : InstrumentDefinition) : Ingest.InstrumentDefinition :=
  ⟨d.instrumentId, none, d.symbol, d.priceExponent, 0, 0, d.manifestSeq⟩

def midpointFields (b : Bytes) (body : Nat) : Option Message := do
  let instrumentId ← u32le b body
  let sourceId ← u16le b (body + 4)
  let method ← u8le b (body + 6)
  let qualityFlags ← u8le b (body + 7)
  let bookTs ← u64le b (body + 8)
  let computeTs ← u64le b (body + 16)
  let midPriceRaw ← i64le b (body + 24)
  return .midpoint ⟨instrumentId, sourceId, method, qualityFlags, bookTs, computeTs, midPriceRaw⟩

def definitionFields (b : Bytes) (body : Nat) : Option Message := do
  let instrumentId ← u32le b body
  let symbol ← cstr 16 b (body + 4)
  let priceExponent ← u8le b (body + 37)
  let defaultMethod ← u8le b (body + 38)
  let manifestSeq ← u16le b (body + 56)
  return .instrumentDefinition ⟨instrumentId, symbol, toI8 priceExponent, defaultMethod, manifestSeq⟩

def manifestFields (b : Bytes) (body : Nat) : Option Message := do
  let channelId ← u8le b body
  let valid ← u8le b (body + 1)
  let manifestSeq ← u16le b (body + 4)
  let instrumentCount ← u32le b (body + 8)
  let ts ← u64le b (body + 12)
  return .manifestSummary ⟨channelId, valid ≠ 0, manifestSeq, instrumentCount, ts⟩

def endOfSessionFields (b : Bytes) (body : Nat) : Option Message := do
  let ts ← u64le b body
  return .endOfSession ts

/-- `decode_body`, at a message offset. -/
def decodeBody (ty : UInt8) (b : Bytes) (o : Nat) (_ver : UInt8) : Option Message :=
  let body := o + MSG_HEADER_SIZE
  if ty = MSG_MIDPOINT then midpointFields b body
  else if ty = MSG_INSTRUMENT_DEFINITION then definitionFields b body
  else if ty = MSG_MANIFEST_SUMMARY then manifestFields b body
  else if ty = MSG_HEARTBEAT then some .heartbeat
  else if ty = MSG_END_OF_SESSION then endOfSessionFields b body
  else some (.other ty)

/-- `decode_message`. -/
def decodeMessage (ty : UInt8) (_flags : Nat) (b : Bytes) (o : Nat) (ver : UInt8) : Except DecodeError Message :=
  .ok (orOther decodeBody Message.other ty b o ver)

theorem decodeMessage_eq (ty : UInt8) (flags : Nat) (b : Bytes) (o : Nat) (ver : UInt8) (_ : o + 1 < b.length) :
    decodeMessage ty flags b o ver = .ok (orOther decodeBody Message.other ty b o ver) := rfl

def decodeDatagram (b : Bytes) : Except DecodeError (DatagramHeader × List Message) :=
  decodeDatagramWith decodeMessage MAGIC SUPPORTED_VERSIONS b

end EdgeConnect.CodecMidpoint
