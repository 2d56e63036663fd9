import EdgeConnect.Ingest.CodecCommon

/-!
# The Top-of-Book codec (`src/ingest/codec.rs`)

Executable model of `decode_datagram`: bodies are read from the buffer, whatever length their message declares.

* `decodeBody`, `decodeDatagram`;
* `quoteVenueUpdateId` — the one field that is read only from within the declared length;
* `fieldsEnd` — where the fields of a type end; `ownFields` — how the bodies use the declared length.
-/

set_option autoImplicit false

namespace EdgeConnect.Codec

open Layout CodecCommon
open Ingest (InstrumentDefinition)

def MAGIC : Nat := 0x445A
def SUPPORTED_VERSIONS : List UInt8 := [SCHEMA_V1, SCHEMA_V3]

def MSG_HEARTBEAT : UInt8 := 0x01
def MSG_INSTRUMENT_DEFINITION : UInt8 := 0x02
def MSG_QUOTE : UInt8 := 0x03
def MSG_TRADE : UInt8 := 0x04
def MSG_CHANNEL_RESET : UInt8 := 0x05
def MSG_END_OF_SESSION : UInt8 := 0x06
def MSG_MANIFEST_SUMMARY : UInt8 := 0x07

def QUOTE_VENUE_UPDATE_ID_OFFSET : Nat := 56

structure Quote where
  instrumentId : Nat
  sourceId : Nat
  updateFlags : UInt8
  sourceTs : Nat
  bidPriceRaw : Int
  bidQtyRaw : Nat
  askPriceRaw : Int
  askQtyRaw : Nat
  bidN : Nat
  askN : Nat
  venueUpdateId : Nat
  deriving DecidableEq, Repr

structure Trade where
  instrumentId : Nat
  sourceId : Nat
  aggressorSide : UInt8
  tradeFlags : UInt8
  sourceTs : Nat
  tradePriceRaw : Int
  tradeQtyRaw : Nat
  tradeId : Nat
  cumulativeVolumeRaw : Nat
  deriving DecidableEq, Repr

structure ManifestSummary where
  channelId : UInt8
  valid : Bool
  manifestSeq : Nat
  instrumentCount : Nat
  ts : Nat
  deriving DecidableEq, Repr

inductive Message where
  | quote (q : Quote)
  | trade (t : Trade)
  | instrumentDefinition (d : InstrumentDefinition)
  | manifestSummary (m : ManifestSummary)
  | heartbeat
  | channelReset (ts : Nat)
  | endOfSession (ts : Nat)
  | other (ty : UInt8)
  deriving DecidableEq, Repr

/-- The `Venue Update ID` of the quote at a message offset, or zero where the version or the declared length does not
have it. -/
def quoteVenueUpdateId (b : Bytes) (o : Nat) (schemaVersion : UInt8) : Nat :=
  if schemaVersion ≠ SCHEMA_V3 then 0
  else
    let declared := (b[o + 1]?).elim 0 UInt8.toNat
    if declared < QUOTE_VENUE_UPDATE_ID_OFFSET + 4 then 0
    else (u32le b (o + QUOTE_VENUE_UPDATE_ID_OFFSET)).getD 0

/-- The fields of a quote that every version has. -/
def quoteFields (venueUpdateId : Nat) (b : Bytes) (body : Nat) : Option Message := do
  let instrumentId ← u32le b body
  let sourceId ← u16le b (body + 4)
  let updateFlags ← u8le b (body + 6)
  let sourceTs ← u64le b (body + 8)
  let bidPriceRaw ← i64le b (body + 16)
  let bidQtyRaw ← u64le b (body + 24)
  let askPriceRaw ← i64le b (body + 32)
  let askQtyRaw ← u64le b (body + 40)
  let bidN ← u16le b (body + 48)
  let askN ← u16le b (body + 50)
  return .quote ⟨instrumentId, sourceId, updateFlags, sourceTs, bidPriceRaw, bidQtyRaw, askPriceRaw, askQtyRaw, bidN,
    askN, venueUpdateId⟩

def tradeFields (b : Bytes) (body : Nat) : Option Message := do
  let instrumentId ← u32le b body
  let sourceId ← u16le b (body + 4)
  let aggressorSide ← u8le b (body + 6)
  let tradeFlags ← u8le b (body + 7)
  let sourceTs ← u64le b (body + 8)
  let tradePriceRaw ← i64le b (body + 16)
  let tradeQtyRaw ← u64le b (body + 24)
  let tradeId ← u64le b (body + 32)
  let cumulativeVolumeRaw ← u64le b (body + 40)
  return .trade ⟨instrumentId, sourceId, aggressorSide, tradeFlags, sourceTs, tradePriceRaw, tradeQtyRaw, tradeId,
    cumulativeVolumeRaw⟩

def manifestFields (b : Bytes) (body : Nat) : Option Message := do
  let channelId ← u8le b body
  let valid ← u8le b (body + 1)
  let manifestSeq ← u16le b (body + 4)
  let instrumentCount ← u32le b (body + 8)
  let ts ← u64le b (body + 12)
  return .manifestSummary ⟨channelId, valid ≠ 0, manifestSeq, instrumentCount, ts⟩

def channelResetFields (b : Bytes) (body : Nat) : Option Message := do
  let ts ← u64le b body
  return .channelReset ts

def endOfSessionFields (b : Bytes) (body : Nat) : Option Message := do
  let ts ← u64le b body
  return .endOfSession ts

/-- `decode_body`, at a message offset. -/
def decodeBody (ty : UInt8) (b : Bytes) (o : Nat) (schemaVersion : UInt8) : Option Message :=
  let body := o + MSG_HEADER_SIZE
  if ty = MSG_QUOTE then quoteFields (quoteVenueUpdateId b o schemaVersion) b body
  else if ty = MSG_TRADE then tradeFields b body
  else if ty = MSG_INSTRUMENT_DEFINITION then
    (instrumentDefinition b o schemaVersion).map Message.instrumentDefinition
  else if ty = MSG_MANIFEST_SUMMARY then manifestFields b body
  else if ty = MSG_HEARTBEAT then some .heartbeat
  else if ty = MSG_CHANNEL_RESET then channelResetFields b body
  else if ty = MSG_END_OF_SESSION then endOfSessionFields b body
  else some (.other ty)

/-- `decode_message`. -/
def decodeMessage (ty : UInt8) (_flags : Nat) (b : Bytes) (o : Nat) (ver : UInt8) : Except DecodeError Message :=
  .ok (orOther decodeBody Message.other ty b o ver)

theorem decodeMessage_eq (ty : UInt8) (flags : Nat) (b : Bytes) (o : Nat) (ver : UInt8) (_ : o + 1 < b.length) :
    decodeMessage ty flags b o ver = .ok (orOther decodeBody Message.other ty b o ver) := rfl

def decodeDatagram (b : Bytes) : Except DecodeError (DatagramHeader × List Message) :=
  decodeDatagramWith decodeMessage MAGIC SUPPORTED_VERSIONS b

/-! ## How far a message reads -/

/-- Where the fields of a type end, from the start of its message; the `Venue Update ID` of a quote is not one that
every quote has. -/
def fieldsEnd (ty ver : UInt8) : Option Nat :=
  if ty = MSG_QUOTE then some 56
  else if ty = MSG_TRADE then some 52
  else if ty = MSG_INSTRUMENT_DEFINITION then some (definitionEnd ver)
  else if ty = MSG_MANIFEST_SUMMARY then some 24
  else if ty = MSG_CHANNEL_RESET then some 12
  else if ty = MSG_END_OF_SESSION then some 12
  else none

/-- The type whose decoder checks the declared length. -/
def checksLength (ty : UInt8) : Prop := ty = MSG_INSTRUMENT_DEFINITION

theorem quoteFields_fills (venueUpdateId : Nat) : Fills (quoteFields venueUpdateId) 52 :=
  Fills.u32le.bind fun _ => (Fills.u16le.shift 4).bind fun _ => (Fills.u8le.shift 6).bind fun _ =>
    (Fills.u64le.shift 8).bind fun _ => (Fills.i64le.shift 16).bind fun _ => (Fills.u64le.shift 24).bind fun _ =>
    (Fills.i64le.shift 32).bind fun _ => (Fills.u64le.shift 40).bind fun _ => (Fills.u16le.shift 48).bind fun _ =>
    (Fills.u16le.shift 50).last _

theorem tradeFields_fills : Fills tradeFields 48 :=
  Fills.u32le.bind fun _ => (Fills.u16le.shift 4).bind fun _ => (Fills.u8le.shift 6).bind fun _ =>
    (Fills.u8le.shift 7).bind fun _ => (Fills.u64le.shift 8).bind fun _ => (Fills.i64le.shift 16).bind fun _ =>
    (Fills.u64le.shift 24).bind fun _ => (Fills.u64le.shift 32).bind fun _ => (Fills.u64le.shift 40).last _

theorem manifestFields_fills : Fills manifestFields 20 :=
  Fills.u8le.bind fun _ => (Fills.u8le.shift 1).bind fun _ => (Fills.u16le.shift 4).bind fun _ =>
    (Fills.u32le.shift 8).bind fun _ => (Fills.u64le.shift 12).last _

theorem channelResetFields_fills : Fills channelResetFields 8 := Fills.u64le.last _

theorem endOfSessionFields_fills : Fills endOfSessionFields 8 := Fills.u64le.last _

/-- The `Venue Update ID` is read from the message's own bytes. -/
theorem quoteVenueUpdateId_window (b : Bytes) (o len : Nat) (ver : UInt8) (hmin : MSG_HEADER_SIZE ≤ len)
    (hfit : o + len ≤ b.length) (hlen : len = (b[o + 1]?.getD 0).toNat) :
    quoteVenueUpdateId b o ver = quoteVenueUpdateId (window b o len) 0 ver := by
  unfold MSG_HEADER_SIZE at hmin
  have hget : b[o + 1]? = some (b[o + 1]?.getD 0) := by
    rw [List.getElem?_eq_getElem (by omega)]
    rfl
  have hdeclared : (window b o len)[0 + 1]? = b[o + 1]? := getElem?_window (by omega)
  unfold quoteVenueUpdateId
  rw [hdeclared, hget]
  simp only [Option.elim_some, ← hlen]
  split
  · rfl
  · split
    · rfl
    · rw [(Fills.u32le.shift QUOTE_VENUE_UPDATE_ID_OFFSET).inside b o len (by omega) hfit]

theorem quoteFields_ne_other (ty : UInt8) (x : Nat) : Yields (quoteFields x) (· ≠ Message.other ty) :=
  .bind fun _ => .bind fun _ => .bind fun _ => .bind fun _ => .bind fun _ => .bind fun _ => .bind fun _ =>
    .bind fun _ => .bind fun _ => .last fun _ => nofun

theorem tradeFields_ne_other (ty : UInt8) : Yields tradeFields (· ≠ Message.other ty) :=
  .bind fun _ => .bind fun _ => .bind fun _ => .bind fun _ => .bind fun _ => .bind fun _ => .bind fun _ =>
    .bind fun _ => .last fun _ => nofun

theorem manifestFields_ne_other (ty : UInt8) : Yields manifestFields (· ≠ Message.other ty) :=
  .bind fun _ => .bind fun _ => .bind fun _ => .bind fun _ => .last fun _ => nofun

theorem channelResetFields_ne_other (ty : UInt8) : Yields channelResetFields (· ≠ Message.other ty) :=
  .last fun _ => nofun

theorem endOfSessionFields_ne_other (ty : UInt8) : Yields endOfSessionFields (· ≠ Message.other ty) :=
  .last fun _ => nofun

/-- The fixed layouts of the codec. -/
theorem decodeBody_layouts (ty ver : UInt8) (n : Nat) (hc : ¬ checksLength ty) (hn : fieldsEnd ty ver = some n) :
    ∃ (r : Nat → Reader Message) (k : Nat), n = MSG_HEADER_SIZE + k ∧ (∀ x, Fills (r x) k) ∧
      (∀ x, Yields (r x) (· ≠ Message.other ty)) ∧
        ∀ b o, decodeBody ty b o ver = r (quoteVenueUpdateId b o ver) b (o + MSG_HEADER_SIZE) := by
  unfold checksLength at hc
  unfold fieldsEnd at hn
  unfold decodeBody
  split at hn
  · rename_i h
    simp only [if_pos h]
    cases hn
    exact ⟨quoteFields, 52, rfl, quoteFields_fills, quoteFields_ne_other ty, fun _ _ => rfl⟩
  rename_i hq
  simp only [if_neg hq]
  split at hn
  · rename_i h
    simp only [if_pos h]
    cases hn
    exact ⟨fun _ => tradeFields, 48, rfl, fun _ => tradeFields_fills, fun _ => tradeFields_ne_other ty,
      fun _ _ => rfl⟩
  rename_i ht
  simp only [if_neg ht, if_neg hc]
  split at hn
  · rename_i h
    simp only [if_pos h]
    cases hn
    exact ⟨fun _ => manifestFields, 20, rfl, fun _ => manifestFields_fills, fun _ => manifestFields_ne_other ty,
      fun _ _ => rfl⟩
  rename_i hm
  simp only [if_neg hm]
  split at hn
  · rename_i h
    have hheartbeat : ty ≠ MSG_HEARTBEAT := by rw [h]; decide
    simp only [if_pos h, if_neg hheartbeat]
    cases hn
    exact ⟨fun _ => channelResetFields, 8, rfl, fun _ => channelResetFields_fills,
      fun _ => channelResetFields_ne_other ty, fun _ _ => rfl⟩
  rename_i hr
  simp only [if_neg hr]
  split at hn
  · rename_i h
    have hheartbeat : ty ≠ MSG_HEARTBEAT := by rw [h]; decide
    simp only [if_pos h, if_neg hheartbeat]
    cases hn
    exact ⟨fun _ => endOfSessionFields, 8, rfl, fun _ => endOfSessionFields_fills,
      fun _ => endOfSessionFields_ne_other ty, fun _ _ => rfl⟩
  cases hn

/-- **How the Top-of-Book bodies use the declared length.** -/
theorem ownFields : OwnFields decodeBody Message.other fieldsEnd checksLength := by
  refine ownFields_of_layouts quoteVenueUpdateId .instrumentDefinition quoteVenueUpdateId_window decodeBody_layouts
    (fun ty ver hc hn => ?_) (fun ty ver b o hc => ?_) (fun ty ver n hc hn => ?_)
  · unfold fieldsEnd at hn
    unfold decodeBody
    split at hn
    · cases hn
    split at hn
    · cases hn
    split at hn
    · cases hn
    split at hn
    · cases hn
    split at hn
    · cases hn
    split at hn
    · cases hn
    rename_i h1 h2 h3 h4 h5 h6
    simp only [if_neg h1, if_neg h2, if_neg h3, if_neg h4, if_neg h5, if_neg h6]
    split
    · exact ⟨_, fun _ _ => rfl⟩
    · exact ⟨_, fun _ _ => rfl⟩
  · unfold checksLength at hc
    subst hc
    rfl
  · unfold checksLength at hc
    subst hc
    exact (Option.some.inj hn).symm

end EdgeConnect.Codec
