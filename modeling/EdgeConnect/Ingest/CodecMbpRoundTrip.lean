import EdgeConnect.Ingest.CodecEncode
import EdgeConnect.Ingest.CodecMbp

/-!
# The Market-by-Price codec undoes its encoders (the tests of `src/ingest/codec_mbp.rs`)

* `encTrade`, `encLevelUpdate`, …, `datagram` — the encoders, byte for byte;
* `Message.Fits` — the messages of a typed variant whose fields are in range;
* `Encodes ver xs m` — a buffer that holds `xs` decodes there to `m`; `encodes_msg`: from its body to a message;
* `decode_undoes_encode` — a datagram of any such messages decodes to its header and to those messages, and a
  definition decodes alike from its two layouts.
-/

set_option autoImplicit false

namespace EdgeConnect.CodecMbp

open Layout CodecCommon
open Ingest (InstrumentDefinition)

/-! ## The encoders -/

/-- `u16_wire`: no count is `0xFFFF`. -/
def u16Wire (v : Option Nat) : Nat := v.getD U16_UNAVAILABLE

def encHeartbeat (ts : Nat) : Bytes := msg MSG_HEARTBEAT 0 <| List.flatten [List.replicate 4 0, toLe 8 ts]

/-- The definition of schema version 1; of its symbol, the first 16 bytes. -/
def encInstrumentDefinition (d : InstrumentDefinition) : Bytes :=
  msg MSG_INSTRUMENT_DEFINITION 0
    (defBodyV1 d.instrumentId ((asBytes d.symbol).take 16) d.priceExponent d.qtyExponent d.tickSize d.manifestSeq)

def encManifestSummary (m : ManifestSummary) : Bytes :=
  msg MSG_MANIFEST_SUMMARY 0 <| List.flatten [
    [m.channelId, if m.valid then 1 else 0, 0, 0],
    toLe 2 m.manifestSeq,
    [0, 0],
    toLe 4 m.instrumentCount,
    toLe 8 m.ts]

def encTrade (t : Trade) : Bytes :=
  msg MSG_TRADE 0 <| List.flatten [
    toLe 4 t.instrumentId,
    toLe 2 t.sourceId,
    [t.aggressorSide],
    [t.tradeFlags],
    toLe 8 t.sourceTs,
    toLe 8 (ofI64 t.tradePriceRaw),
    toLe 8 t.tradeQtyRaw,
    toLe 8 t.tradeId,
    toLe 8 t.cumulativeVolumeRaw]

def encLevelUpdate (u : LevelUpdate) : Bytes :=
  msg MSG_LEVEL_UPDATE 0 <| List.flatten [
    toLe 4 u.instrumentId,
    toLe 2 u.sourceId,
    [u.side],
    [u.action],
    toLe 4 u.perInstrumentSeq,
    toLe 8 (ofI64 u.priceRaw),
    toLe 8 u.qtyRaw,
    toLe 8 u.ts,
    toLe 2 (u16Wire u.orderCount),
    toLe 2 (u16Wire u.levelIndex),
    [u.updateReason],
    [u.levelFlags],
    [0, 0]]

def encBookClear (c : BookClear) : Bytes :=
  msg MSG_BOOK_CLEAR 0 <| List.flatten [
    toLe 4 c.instrumentId,
    toLe 2 c.sourceId,
    [c.clearSide],
    [c.scope],
    toLe 4 c.perInstrumentSeq,
    toLe 8 (ofI64 c.fromPriceRaw),
    toLe 8 c.ts,
    [c.clearReason],
    [0, 0, 0]]

def encSnapshotLevel (l : SnapshotLevel) : Bytes :=
  msg MSG_SNAPSHOT_LEVEL 0 <| List.flatten [
    toLe 4 l.snapshotId,
    toLe 8 (ofI64 l.priceRaw),
    toLe 8 l.qtyRaw,
    toLe 2 (u16Wire l.orderCount),
    [l.side],
    [l.levelFlags],
    [0, 0, 0, 0]]

def encSnapshotBegin (s : SnapshotBegin) : Bytes :=
  msg MSG_SNAPSHOT_BEGIN 0 <| List.flatten [
    toLe 4 s.instrumentId,
    toLe 8 s.anchorSeq,
    toLe 4 s.totalLevels,
    toLe 4 s.snapshotId,
    toLe 4 s.lastInstrumentSeq,
    toLe 8 s.ts,
    toLe 4 s.depthBound]

def encSnapshotEnd (e : SnapshotEnd) : Bytes :=
  msg MSG_SNAPSHOT_END 0 <| List.flatten [toLe 4 e.instrumentId, toLe 8 e.anchorSeq, toLe 4 e.snapshotId]

def encBatchBoundary (bb : BatchBoundary) : Bytes :=
  msg MSG_BATCH_BOUNDARY 0 <| List.flatten [toLe 4 bb.batchId, toLe 8 bb.batchTime]

def encInstrumentReset (r : InstrumentReset) : Bytes :=
  msg MSG_INSTRUMENT_RESET 0 <| List.flatten [
    toLe 4 r.instrumentId,
    [r.reason],
    [0, 0, 0],
    toLe 8 r.newAnchorSeq,
    toLe 8 r.ts]

def encEndOfSession (ts : Nat) : Bytes := msg MSG_END_OF_SESSION 0 (toLe 8 ts)

/-- The encoder of each typed variant; `Other` has none. -/
def encode : Message → Bytes
  | .heartbeat ts => encHeartbeat ts
  | .instrumentDefinition d => encInstrumentDefinition d
  | .trade t => encTrade t
  | .endOfSession ts => encEndOfSession ts
  | .manifestSummary m => encManifestSummary m
  | .levelUpdate u => encLevelUpdate u
  | .bookClear c => encBookClear c
  | .snapshotLevel l => encSnapshotLevel l
  | .snapshotBegin s => encSnapshotBegin s
  | .snapshotEnd e => encSnapshotEnd e
  | .batchBoundary bb => encBatchBoundary bb
  | .instrumentReset r => encInstrumentReset r
  | .other _ => []

def SEND_TS : Nat := 1700000000000000000

/-- The header fields at their offsets; the count and the length are cut to their widths. -/
def datagramHeader (schemaVersion channelId resetCount : UInt8) (sequence count length : Nat) : Bytes :=
  puts (List.replicate 24 0) [
    (0, toLe 2 MAGIC),
    (2, [schemaVersion]),
    (3, [channelId]),
    (4, toLe 8 sequence),
    (12, toLe 8 SEND_TS),
    (20, [UInt8.ofNat count]),
    (21, [resetCount]),
    (22, toLe 2 length)]

/-- The messages behind a header of the given schema version. -/
def datagramAt (schemaVersion channelId resetCount : UInt8) (sequence : Nat) (messages : List Bytes) : Bytes :=
  let body := messages.flatten
  datagramHeader schemaVersion channelId resetCount sequence messages.length (24 + body.length) ++ body

/-- `datagram`. -/
def datagram (channelId resetCount : UInt8) (sequence : Nat) (messages : List Bytes) : Bytes :=
  datagramAt SCHEMA_V1 channelId resetCount sequence messages

/-- The definition of a source, in the layout of schema version 3. -/
def encInstrumentDefinitionV3 (d : InstrumentDefinition) (sourceId : Nat) : Bytes :=
  msg MSG_INSTRUMENT_DEFINITION 0
    (defBodyV3 d.instrumentId sourceId (asBytes d.symbol) d.priceExponent d.qtyExponent d.tickSize d.manifestSeq)

/-! ## What the format can carry -/

/-- A count that the sentinel leaves. -/
def CountFits (v : Option Nat) : Prop := ∀ n, v = some n → n < 2 ^ 16 ∧ n ≠ U16_UNAVAILABLE

def SignedFits (i : Int) : Prop := -2 ^ 63 ≤ i ∧ i < 2 ^ 63

/-- The fields of a message are in range: a definition of version 1 has no source id, and a clear of both sides no
price bound. -/
def Message.Fits : Message → Prop
  | .heartbeat ts => ts < 2 ^ 64
  | .instrumentDefinition d => DefinitionFits d DEF_SYM_LEN_V1 ∧ d.sourceId = none
  | .trade t => t.instrumentId < 2 ^ 32 ∧ t.sourceId < 2 ^ 16 ∧ t.sourceTs < 2 ^ 64 ∧ SignedFits t.tradePriceRaw ∧
      t.tradeQtyRaw < 2 ^ 64 ∧ t.tradeId < 2 ^ 64 ∧ t.cumulativeVolumeRaw < 2 ^ 64
  | .endOfSession ts => ts < 2 ^ 64
  | .manifestSummary m => m.manifestSeq < 2 ^ 16 ∧ m.instrumentCount < 2 ^ 32 ∧ m.ts < 2 ^ 64
  | .levelUpdate u => u.instrumentId < 2 ^ 32 ∧ u.sourceId < 2 ^ 16 ∧ u.perInstrumentSeq < 2 ^ 32 ∧
      SignedFits u.priceRaw ∧ u.qtyRaw < 2 ^ 64 ∧ u.ts < 2 ^ 64 ∧ CountFits u.orderCount ∧ CountFits u.levelIndex
  | .bookClear c => c.instrumentId < 2 ^ 32 ∧ c.sourceId < 2 ^ 16 ∧ c.perInstrumentSeq < 2 ^ 32 ∧
      SignedFits c.fromPriceRaw ∧ c.ts < 2 ^ 64 ∧ ¬ (c.clearSide = CLEAR_SIDE_BOTH ∧ c.scope ≠ SCOPE_ENTIRE_SIDE)
  | .snapshotLevel l => l.snapshotId < 2 ^ 32 ∧ SignedFits l.priceRaw ∧ l.qtyRaw < 2 ^ 64 ∧ CountFits l.orderCount
  | .snapshotBegin s => s.instrumentId < 2 ^ 32 ∧ s.anchorSeq < 2 ^ 64 ∧ s.totalLevels < 2 ^ 32 ∧
      s.snapshotId < 2 ^ 32 ∧ s.lastInstrumentSeq < 2 ^ 32 ∧ s.ts < 2 ^ 64 ∧ s.depthBound < 2 ^ 32
  | .snapshotEnd e => e.instrumentId < 2 ^ 32 ∧ e.anchorSeq < 2 ^ 64 ∧ e.snapshotId < 2 ^ 32
  | .batchBoundary bb => bb.batchId < 2 ^ 32 ∧ bb.batchTime < 2 ^ 64
  | .instrumentReset r => r.instrumentId < 2 ^ 32 ∧ r.newAnchorSeq < 2 ^ 64 ∧ r.ts < 2 ^ 64
  | .other _ => False

/-! ## One message -/

/-- A message that declares its length, and that is decoded wherever a datagram of its version holds it. -/
structure Encodes (ver : UInt8) (xs : Bytes) (m : Message) : Prop where
  framed : Framed xs
  decodes : ∀ b o, Holds b o xs → decodeAt decodeMessage b ver o = .ok m

/-- The decoder at a message of the encoders. -/
theorem decodeAt_msg {b body : Bytes} {o flags : Nat} {ty ver : UInt8} (h : Holds b o (msg ty flags body)) :
    decodeAt decodeMessage b ver o = .ok (messageOf ty (UInt8.ofNat (4 + body.length)) b o ver) := by
  have hlen := length_of_msg h
  have hlt : o + 1 < b.length := (List.getElem?_eq_some_iff.mp hlen).1
  unfold decodeAt
  rw [decodeMessage_eq _ _ _ _ _ hlt, type_of_msg h]
  unfold messageIn
  rw [hlen]
  rfl

/-- **A message is read back from its body**, when that has the length of its type. -/
theorem encodes_msg {ty ver : UInt8} {flags size : Nat} {body : Bytes} {decode : Reader Message} {m : Message}
    (hty : fixedBody ty = some (size, decode)) (hdef : ty ≠ MSG_INSTRUMENT_DEFINITION)
    (hsize : 4 + body.length = size) (hsmall : size < 256) (hrec : Recovers body decode m) :
    Encodes ver (msg ty flags body) m where
  framed := framed_msg (by omega)
  decodes b o h := by
    rw [decodeAt_msg h]
    unfold messageOf
    simp only [if_neg hdef, hty]
    rw [toNat_byte (by omega), if_pos hsize, hrec b _ (body_of_msg h)]
    rfl

theorem u16Opt_u16Wire {v : Option Nat} (h : CountFits v) : u16Opt (u16Wire v) = v := by
  cases v with
  | none => rfl
  | some n =>
    unfold u16Opt u16Wire
    exact if_pos (h n rfl).2

theorem u16Wire_lt {v : Option Nat} (h : CountFits v) : u16Wire v < 2 ^ 16 := by
  cases v with
  | none => decide
  | some n => exact (h n rfl).1

theorem encHeartbeat_encodes {ts : Nat} (h : ts < 2 ^ 64) : Encodes SCHEMA_V1 (encHeartbeat ts) (.heartbeat ts) := by
  unfold encHeartbeat
  exact encodes_msg rfl (by decide) (by simp [sizes.HEARTBEAT]) (by decide) (Recovers.u64le 4 h rfl).last

theorem encTrade_encodes {t : Trade} (h : (Message.trade t).Fits) : Encodes SCHEMA_V1 (encTrade t) (.trade t) := by
  obtain ⟨hid, hsource, hts, hprice, hqty, htrade, hvolume⟩ := h
  unfold encTrade
  refine encodes_msg rfl (by decide) (by simp [sizes.TRADE]) (by decide) ?_
  exact (Recovers.u32le 0 hid rfl).bind <| (Recovers.u16le 4 hsource rfl).bind <| (Recovers.u8le 6 rfl).bind <|
    (Recovers.u8le 7 rfl).bind <| (Recovers.u64le 8 hts rfl).bind <| (Recovers.i64le 16 hprice rfl).bind <|
    (Recovers.u64le 24 hqty rfl).bind <| (Recovers.u64le 32 htrade rfl).bind <| (Recovers.u64le 40 hvolume rfl).last

theorem encEndOfSession_encodes {ts : Nat} (h : ts < 2 ^ 64) :
    Encodes SCHEMA_V1 (encEndOfSession ts) (.endOfSession ts) := by
  unfold encEndOfSession
  exact encodes_msg rfl (by decide) (by simp [sizes.END_OF_SESSION]) (by decide) (Recovers.u64le 0 h rfl).last

theorem encManifestSummary_encodes {m : ManifestSummary} (h : (Message.manifestSummary m).Fits) :
    Encodes SCHEMA_V1 (encManifestSummary m) (.manifestSummary m) := by
  obtain ⟨hseq, hcount, hts⟩ := h
  -- the flag comes back from its byte
  have hvalid : Message.manifestSummary m = .manifestSummary
      ⟨m.channelId, decide ((if m.valid then 1 else 0 : UInt8) ≠ 0), m.manifestSeq, m.instrumentCount, m.ts⟩ := by
    cases m with
    | mk channelId valid manifestSeq instrumentCount ts => cases valid <;> rfl
  unfold encManifestSummary
  refine encodes_msg rfl (by decide) (by simp [sizes.MANIFEST_SUMMARY]) (by decide) ?_
  rw [hvalid]
  exact (Recovers.u8le 0 rfl).bind <| (Recovers.u8le 1 rfl).bind <| (Recovers.u16le 4 hseq rfl).bind <|
    (Recovers.u32le 8 hcount rfl).bind <| (Recovers.u64le 12 hts rfl).last

theorem encLevelUpdate_encodes {u : LevelUpdate} (h : (Message.levelUpdate u).Fits) :
    Encodes SCHEMA_V1 (encLevelUpdate u) (.levelUpdate u) := by
  obtain ⟨hid, hsource, hseq, hprice, hqty, hts, horders, hlevel⟩ := h
  have hcounts : Message.levelUpdate u = .levelUpdate
      { u with orderCount := u16Opt (u16Wire u.orderCount), levelIndex := u16Opt (u16Wire u.levelIndex) } := by
    rw [u16Opt_u16Wire horders, u16Opt_u16Wire hlevel]
  unfold encLevelUpdate
  refine encodes_msg rfl (by decide) (by simp [sizes.LEVEL_UPDATE]) (by decide) ?_
  rw [hcounts]
  exact (Recovers.u32le 0 hid rfl).bind <| (Recovers.u16le 4 hsource rfl).bind <| (Recovers.u8le 6 rfl).bind <|
    (Recovers.u8le 7 rfl).bind <| (Recovers.u32le 8 hseq rfl).bind <| (Recovers.i64le 12 hprice rfl).bind <|
    (Recovers.u64le 20 hqty rfl).bind <| (Recovers.u64le 28 hts rfl).bind <|
    (Recovers.u16le 36 (u16Wire_lt horders) rfl).bind <| (Recovers.u16le 38 (u16Wire_lt hlevel) rfl).bind <|
    (Recovers.u8le 40 rfl).bind <| (Recovers.u8le 41 rfl).last

theorem encBookClear_encodes {c : BookClear} (h : (Message.bookClear c).Fits) :
    Encodes SCHEMA_V1 (encBookClear c) (.bookClear c) := by
  obtain ⟨hid, hsource, hseq, hprice, hts, hsides⟩ := h
  unfold encBookClear
  refine encodes_msg rfl (by decide) (by simp [sizes.BOOK_CLEAR]) (by decide) ?_
  exact (Recovers.u8le 6 rfl).bind <| (Recovers.u8le 7 rfl).bind <| .guard hsides <|
    (Recovers.u32le 0 hid rfl).bind <| (Recovers.u16le 4 hsource rfl).bind <| (Recovers.u32le 8 hseq rfl).bind <|
    (Recovers.i64le 12 hprice rfl).bind <| (Recovers.u64le 20 hts rfl).bind <| (Recovers.u8le 28 rfl).last

theorem encSnapshotLevel_encodes {l : SnapshotLevel} (h : (Message.snapshotLevel l).Fits) :
    Encodes SCHEMA_V1 (encSnapshotLevel l) (.snapshotLevel l) := by
  obtain ⟨hid, hprice, hqty, horders⟩ := h
  have hcount : Message.snapshotLevel l = .snapshotLevel { l with orderCount := u16Opt (u16Wire l.orderCount) } := by
    rw [u16Opt_u16Wire horders]
  unfold encSnapshotLevel
  refine encodes_msg rfl (by decide) (by simp [sizes.SNAPSHOT_LEVEL]) (by decide) ?_
  rw [hcount]
  exact (Recovers.u32le 0 hid rfl).bind <| (Recovers.i64le 4 hprice rfl).bind <| (Recovers.u64le 12 hqty rfl).bind <|
    (Recovers.u16le 20 (u16Wire_lt horders) rfl).bind <| (Recovers.u8le 22 rfl).bind <| (Recovers.u8le 23 rfl).last

theorem encSnapshotBegin_encodes {s : SnapshotBegin} (h : (Message.snapshotBegin s).Fits) :
    Encodes SCHEMA_V1 (encSnapshotBegin s) (.snapshotBegin s) := by
  obtain ⟨hid, hanchor, hlevels, hsnapshot, hlast, hts, hdepth⟩ := h
  unfold encSnapshotBegin
  refine encodes_msg rfl (by decide) (by simp [sizes.SNAPSHOT_BEGIN]) (by decide) ?_
  exact (Recovers.u32le 0 hid rfl).bind <| (Recovers.u64le 4 hanchor rfl).bind <|
    (Recovers.u32le 12 hlevels rfl).bind <| (Recovers.u32le 16 hsnapshot rfl).bind <|
    (Recovers.u32le 20 hlast rfl).bind <| (Recovers.u64le 24 hts rfl).bind <| (Recovers.u32le 32 hdepth rfl).last

theorem encSnapshotEnd_encodes {e : SnapshotEnd} (h : (Message.snapshotEnd e).Fits) :
    Encodes SCHEMA_V1 (encSnapshotEnd e) (.snapshotEnd e) := by
  obtain ⟨hid, hanchor, hsnapshot⟩ := h
  unfold encSnapshotEnd
  refine encodes_msg rfl (by decide) (by simp [sizes.SNAPSHOT_END]) (by decide) ?_
  exact (Recovers.u32le 0 hid rfl).bind <| (Recovers.u64le 4 hanchor rfl).bind <| (Recovers.u32le 12 hsnapshot rfl).last

theorem encBatchBoundary_encodes {bb : BatchBoundary} (h : (Message.batchBoundary bb).Fits) :
    Encodes SCHEMA_V1 (encBatchBoundary bb) (.batchBoundary bb) := by
  obtain ⟨hid, htime⟩ := h
  unfold encBatchBoundary
  refine encodes_msg rfl (by decide) (by simp [sizes.BATCH_BOUNDARY]) (by decide) ?_
  exact (Recovers.u32le 0 hid rfl).bind (Recovers.u64le 4 htime rfl).last

theorem encInstrumentReset_encodes {r : InstrumentReset} (h : (Message.instrumentReset r).Fits) :
    Encodes SCHEMA_V1 (encInstrumentReset r) (.instrumentReset r) := by
  obtain ⟨hid, hanchor, hts⟩ := h
  unfold encInstrumentReset
  refine encodes_msg rfl (by decide) (by simp [sizes.INSTRUMENT_RESET]) (by decide) ?_
  exact (Recovers.u32le 0 hid rfl).bind <| (Recovers.u8le 4 rfl).bind <| (Recovers.u64le 8 hanchor rfl).bind <|
    (Recovers.u64le 16 hts rfl).last

theorem encInstrumentDefinition_encodes {d : InstrumentDefinition} (hd : DefinitionFits d DEF_SYM_LEN_V1) :
    Encodes SCHEMA_V1 (encInstrumentDefinition d) (.instrumentDefinition { d with sourceId := none }) := by
  have hlen := length_defBodyV1 hd
  have htake : (asBytes d.symbol).take 16 = asBytes d.symbol := List.take_of_length_le hd.symbol
  unfold encInstrumentDefinition
  rw [htake]
  refine ⟨framed_msg (by rw [hlen]; decide), fun b o hb => ?_⟩
  rw [decodeAt_msg hb]
  unfold messageOf
  rw [if_pos rfl, instrumentDefinition_msg hb (.inl ⟨rfl, hlen, definitionV1_recovers hd⟩)]
  rfl

theorem encInstrumentDefinitionV3_encodes {d : InstrumentDefinition} {sourceId : Nat}
    (hd : DefinitionFits d DEF_SYM_LEN_V1) (hsource : sourceId < 2 ^ 16) :
    Encodes SCHEMA_V3 (encInstrumentDefinitionV3 d sourceId)
      (.instrumentDefinition { d with sourceId := some sourceId }) := by
  have hd3 : DefinitionFits d DEF_SYM_LEN_V3 := { hd with symbol := hd.symbol.trans (by decide) }
  have hlen := length_defBodyV3 sourceId hd3
  unfold encInstrumentDefinitionV3
  refine ⟨framed_msg (by rw [hlen]; decide), fun b o hb => ?_⟩
  rw [decodeAt_msg hb]
  unfold messageOf
  rw [if_pos rfl, instrumentDefinition_msg hb (.inr ⟨rfl, hlen, definitionV3_recovers hd3 hsource⟩)]
  rfl

/-- **Every message of a typed variant is read back.** -/
theorem encode_encodes {m : Message} (h : m.Fits) : Encodes SCHEMA_V1 (encode m) m := by
  cases m with
  | heartbeat ts => exact encHeartbeat_encodes h
  | instrumentDefinition d =>
    obtain ⟨hd, hsource⟩ := h
    have hsame : { d with sourceId := none } = d := by rw [← hsource]
    have h := encInstrumentDefinition_encodes hd
    rwa [hsame] at h
  | trade t => exact encTrade_encodes h
  | endOfSession ts => exact encEndOfSession_encodes h
  | manifestSummary m => exact encManifestSummary_encodes h
  | levelUpdate u => exact encLevelUpdate_encodes h
  | bookClear c => exact encBookClear_encodes h
  | snapshotLevel l => exact encSnapshotLevel_encodes h
  | snapshotBegin s => exact encSnapshotBegin_encodes h
  | snapshotEnd e => exact encSnapshotEnd_encodes h
  | batchBoundary bb => exact encBatchBoundary_encodes h
  | instrumentReset r => exact encInstrumentReset_encodes h
  | other ty => exact h.elim

/-! ## A datagram -/

section Header

variable (ver channelId resetCount : UInt8) (sequence count length : Nat)

/-- The fields of a header lie in their own places. -/
theorem fit_datagramHeader : Fit (List.replicate 24 (0 : UInt8)) [
    (0, toLe 2 MAGIC), (2, [ver]), (3, [channelId]), (4, toLe 8 sequence), (12, toLe 8 SEND_TS),
    (20, [UInt8.ofNat count]), (21, [resetCount]), (22, toLe 2 length)] := by
  simp [Fit]

theorem length_datagramHeader :
    (datagramHeader ver channelId resetCount sequence count length).length = DATAGRAM_HEADER_SIZE :=
  length_puts (fit_datagramHeader ver channelId resetCount sequence count length)

/-- Each field of a header is read back at its offset. -/
theorem window_datagramHeader : ∀ w ∈ [
    (0, toLe 2 MAGIC), (2, [ver]), (3, [channelId]), (4, toLe 8 sequence), (12, toLe 8 SEND_TS),
    (20, [UInt8.ofNat count]), (21, [resetCount]), (22, toLe 2 length)],
    window (datagramHeader ver channelId resetCount sequence count length) w.1 w.2.length = w.2 :=
  window_puts (fit_datagramHeader ver channelId resetCount sequence count length) (by simp [Apart])

theorem magic_datagramHeader :
    Recovers (datagramHeader ver channelId resetCount sequence count length) u16le MAGIC := by
  have hread := window_datagramHeader ver channelId resetCount sequence count length
  simp only [List.forall_mem_cons, length_toLe] at hread
  exact Recovers.u16le 0 (by decide) hread.1

/-- **The header is read back from its fields.** -/
theorem header_datagramHeader (body : Bytes) (hseq : sequence < 2 ^ 64) (hlen : length < 2 ^ 16) :
    header (datagramHeader ver channelId resetCount sequence count length ++ body) =
      .ok ⟨ver, channelId, sequence, SEND_TS, UInt8.ofNat count, resetCount, length⟩ := by
  have hread := window_datagramHeader ver channelId resetCount sequence count length
  simp only [List.forall_mem_cons, length_toLe, List.length_cons, List.length_nil] at hread
  obtain ⟨-, hver, hchannel, hsequence, hts, hcount, hreset, hlength, -⟩ := hread
  have hb := Holds.left (holds_self (datagramHeader ver channelId resetCount sequence count length ++ body))
  have hindex : ∀ {k : Nat} {x : UInt8},
      window (datagramHeader ver channelId resetCount sequence count length) k 1 = [x] →
        index (datagramHeader ver channelId resetCount sequence count length ++ body) k = .ok x := by
    intro k x hk
    have hx : (datagramHeader ver channelId resetCount sequence count length ++ body)[0 + k]? = some x :=
      Recovers.u8le k hk _ 0 hb
    rw [Nat.zero_add] at hx
    unfold index
    rw [hx]
  have hsequence' : u64le (datagramHeader ver channelId resetCount sequence count length ++ body) 4 = some sequence :=
    Recovers.u64le 4 hseq hsequence _ 0 hb
  have hts' : u64le (datagramHeader ver channelId resetCount sequence count length ++ body) 12 = some SEND_TS :=
    Recovers.u64le 12 (by decide) hts _ 0 hb
  have hlength' : u16le (datagramHeader ver channelId resetCount sequence count length ++ body) 22 = some length :=
    Recovers.u16le 22 hlen hlength _ 0 hb
  unfold header
  rw [hindex hver, hindex hchannel, hindex hcount, hindex hreset, hsequence', hts', hlength']
  rfl

end Header

/-- **A datagram decodes to its header and to its messages**, at the version their encodings are of. -/
theorem decodeDatagram_datagramAt {ver channelId resetCount : UInt8} {sequence : Nat} (enc : Message → Bytes)
    (messages : List Message) (hver : ver ∈ SUPPORTED_VERSIONS) (hseq : sequence < 2 ^ 64)
    (hcount : messages.length ≤ 255) (htotal : DATAGRAM_HEADER_SIZE + (messages.flatMap enc).length < 2 ^ 16)
    (henc : ∀ m ∈ messages, Encodes ver (enc m) m) :
    decodeDatagram (datagramAt ver channelId resetCount sequence (messages.map enc)) =
      .ok (⟨ver, channelId, sequence, SEND_TS, UInt8.ofNat messages.length, resetCount,
        DATAGRAM_HEADER_SIZE + (messages.flatMap enc).length⟩, messages) := by
  have hbody : (messages.map enc).flatten = messages.flatMap enc := rfl
  unfold datagramAt
  rw [List.length_map, hbody]
  exact decodeDatagramWith_encoded (length_datagramHeader _ _ _ _ _ _) (magic_datagramHeader _ _ _ _ _ _)
    (header_datagramHeader _ _ _ _ _ _ _ hseq htotal) hver (toNat_byte (by omega)) rfl
    (fun m hm => (henc m hm).framed) fun m hm o ho => (henc m hm).decodes _ o ho

/-- **Decoding undoes encoding.** A datagram of at most 255 messages of the typed variants, in any order and within
the length field, decodes to its header and to exactly those messages; and a definition decodes from its two layouts
to the same fields, but for the source id that version 1 lacks. -/
theorem decode_undoes_encode :
    (∀ (channelId resetCount : UInt8) (sequence : Nat) (messages : List Message), sequence < 2 ^ 64 →
      messages.length ≤ 255 → (∀ m ∈ messages, m.Fits) →
      DATAGRAM_HEADER_SIZE + (messages.flatMap encode).length < 2 ^ 16 →
      decodeDatagram (datagram channelId resetCount sequence (messages.map encode)) =
        .ok (⟨SCHEMA_V1, channelId, sequence, SEND_TS, UInt8.ofNat messages.length, resetCount,
          DATAGRAM_HEADER_SIZE + (messages.flatMap encode).length⟩, messages)) ∧
    ∀ (channelId resetCount : UInt8) (sequence : Nat) (d : InstrumentDefinition) (sourceId : Nat), sequence < 2 ^ 64 →
      DefinitionFits d DEF_SYM_LEN_V1 → sourceId < 2 ^ 16 →
      ∃ h₁ h₃,
        decodeDatagram (datagram channelId resetCount sequence [encInstrumentDefinition d]) =
          .ok (h₁, [.instrumentDefinition { d with sourceId := none }]) ∧
        decodeDatagram (datagramAt SCHEMA_V3 channelId resetCount sequence [encInstrumentDefinitionV3 d sourceId]) =
          .ok (h₃, [.instrumentDefinition { d with sourceId := some sourceId }]) := by
  refine ⟨fun channelId resetCount sequence messages hseq hcount hfits htotal =>
    decodeDatagram_datagramAt encode messages (by decide) hseq hcount htotal fun m hm => encode_encodes (hfits m hm),
    ?_⟩
  intro channelId resetCount sequence d sourceId hseq hd hsource
  have hone : ∀ {xs : Bytes} {d' : InstrumentDefinition} {ver : UInt8}, ver ∈ SUPPORTED_VERSIONS →
      Encodes ver xs (.instrumentDefinition d') →
        ∃ h, decodeDatagram (datagramAt ver channelId resetCount sequence [xs]) =
          .ok (h, [.instrumentDefinition d']) := by
    intro xs d' ver hver henc
    have hlen := henc.framed.length_lt
    refine ⟨_, decodeDatagram_datagramAt (fun _ => xs) [.instrumentDefinition d'] hver hseq ?_ ?_ ?_⟩
    · show 1 ≤ 255
      decide
    · show 24 + (xs ++ []).length < 2 ^ 16
      rw [List.append_nil]
      omega
    · intro m hm
      rw [List.mem_singleton.mp hm]
      exact henc
  obtain ⟨h₁, hv1⟩ := hone (by decide) (encInstrumentDefinition_encodes hd)
  obtain ⟨h₃, hv3⟩ := hone (by decide) (encInstrumentDefinitionV3_encodes hd hsource)
  exact ⟨h₁, h₃, hv1, hv3⟩

/-- A manifest, a definition, a level without a count and a clear of both sides. -/
def mixedMessages : List Message := [
  .manifestSummary ⟨7, true, 3, 1, 5⟩,
  .instrumentDefinition ⟨41, none, "BTC", -8, -6, 100, 3⟩,
  .levelUpdate ⟨41, 9, 1, 0, 2, -5, 10, 6, none, some 0, 0, 0⟩,
  .bookClear ⟨41, 9, 2, 0, 3, 0, 6, 1⟩]

theorem mixedMessages_fit : ∀ m ∈ mixedMessages, m.Fits := by
  have hlevel : CountFits (some 0) := by
    intro n hn
    cases hn
    decide
  simp only [mixedMessages, List.forall_mem_cons]
  refine ⟨⟨by decide, by decide, by decide⟩, ⟨?_, rfl⟩,
    ⟨by decide, by decide, by decide, ?_, by decide, by decide, nofun, hlevel⟩,
    ⟨by decide, by decide, by decide, ?_, by decide, by decide⟩, nofun⟩
  · exact ⟨by decide, by decide, by decide, by decide, by decide, by decide, by decide⟩
  · exact ⟨by decide, by decide⟩
  · exact ⟨by decide, by decide⟩

theorem decode_undoes_encode_mixedMessages :
    decodeDatagram (datagram 7 1 9 (mixedMessages.map encode)) =
        .ok (⟨SCHEMA_V1, 7, 9, SEND_TS, 4, 1, 212⟩, mixedMessages) ∧
      ∃ h₁ h₃,
        decodeDatagram (datagram 7 1 9 [encInstrumentDefinition ⟨41, none, "BTC", -8, -6, 100, 3⟩]) =
          .ok (h₁, [.instrumentDefinition ⟨41, none, "BTC", -8, -6, 100, 3⟩]) ∧
        decodeDatagram (datagramAt SCHEMA_V3 7 1 9 [encInstrumentDefinitionV3 ⟨41, none, "BTC", -8, -6, 100, 3⟩ 9]) =
          .ok (h₃, [.instrumentDefinition ⟨41, some 9, "BTC", -8, -6, 100, 3⟩]) := by
  have hlen : (mixedMessages.flatMap encode).length = 188 := rfl
  have h := decode_undoes_encode.1 7 1 9 mixedMessages (by decide) (by decide) mixedMessages_fit
    (by rw [hlen]; decide)
  rw [hlen] at h
  refine ⟨h, ?_⟩
  exact decode_undoes_encode.2 7 1 9 ⟨41, none, "BTC", -8, -6, 100, 3⟩ 9 (by decide)
    (mixedMessages_fit (.instrumentDefinition ⟨41, none, "BTC", -8, -6, 100, 3⟩) (by decide)).1 (by decide)

end EdgeConnect.CodecMbp
