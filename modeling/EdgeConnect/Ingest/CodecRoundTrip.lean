import EdgeConnect.Ingest.Codec
import EdgeConnect.Ingest.CodecEncode

/-!
# The Top-of-Book codec undoes its encoders (the tests of `src/ingest/codec.rs`)

* `headerBytes`, `datagramOf` — a datagram of any header and any encoded messages;
* `definition_read_back` — a definition in the layout of either schema version;
* `encode_carries` — a message is read back wherever a datagram holds it, up to what its version carries;
* `decode_undoes_encode_tob` — so is a datagram of any messages.
-/

set_option autoImplicit false

namespace EdgeConnect.CodecCommon

open Layout
open Ingest (InstrumentDefinition)

/-! ## A datagram -/

/-- The header that the encoders write, field after field. -/
def headerBytes (magic : Nat) (h : DatagramHeader) : Bytes := List.flatten [
  toLe 2 magic,
  [h.schemaVersion, h.channelId],
  toLe 8 h.sequence,
  toLe 8 h.sendTs,
  [h.msgCount, h.resetCount],
  toLe 2 h.datagramLength]

/-- `datagram`: the messages behind their header. -/
def datagramOf (magic : Nat) (h : DatagramHeader) (messages : List Bytes) : Bytes :=
  headerBytes magic h ++ messages.flatten

/-- The numbers of a header are of their widths. -/
structure HeaderFits (h : DatagramHeader) : Prop where
  sequence : h.sequence < 2 ^ 64
  sendTs : h.sendTs < 2 ^ 64
  datagramLength : h.datagramLength < 2 ^ 16

theorem length_headerBytes (magic : Nat) (h : DatagramHeader) :
    (headerBytes magic h).length = DATAGRAM_HEADER_SIZE := by
  simp [headerBytes, DATAGRAM_HEADER_SIZE]

theorem magic_headerBytes {magic : Nat} (h : DatagramHeader) (hmagic : magic < 2 ^ 16) :
    Recovers (headerBytes magic h) u16le magic :=
  Recovers.u16le 0 hmagic rfl

/-- **A header is read back from its bytes**, whatever follows them. -/
theorem header_headerBytes (magic : Nat) {h : DatagramHeader} (hfits : HeaderFits h) (rest : Bytes) :
    header (headerBytes magic h ++ rest) = .ok h := by
  have hb := (holds_self (headerBytes magic h ++ rest)).left
  have hindex : ∀ {k : Nat} {x : UInt8}, window (headerBytes magic h) k 1 = [x] →
      index (headerBytes magic h ++ rest) k = .ok x := by
    intro k x hk
    have hx : (headerBytes magic h ++ rest)[0 + k]? = some x := Recovers.u8le k hk _ 0 hb
    rw [Nat.zero_add] at hx
    unfold index
    rw [hx]
  have hsequence : u64le (headerBytes magic h ++ rest) 4 = some h.sequence :=
    Recovers.u64le 4 hfits.sequence rfl _ 0 hb
  have hsendTs : u64le (headerBytes magic h ++ rest) 12 = some h.sendTs := Recovers.u64le 12 hfits.sendTs rfl _ 0 hb
  have hlength : u16le (headerBytes magic h ++ rest) 22 = some h.datagramLength :=
    Recovers.u16le 22 hfits.datagramLength rfl _ 0 hb
  unfold header
  rw [hindex rfl, hindex rfl, hindex rfl, hindex rfl, hsequence, hsendTs, hlength]
  rfl

/-! ## The instrument definition -/

/-- What a version carries of a definition: version 1 names no source. -/
def carriedDefinition (ver : UInt8) (d : InstrumentDefinition) : InstrumentDefinition :=
  if ver = SCHEMA_V1 then { d with sourceId := none } else d

/-- A definition in the layout of a version. -/
def definitionBody (ver : UInt8) (d : InstrumentDefinition) : Bytes :=
  if ver = SCHEMA_V1 then
    defBodyV1 d.instrumentId (asBytes d.symbol) d.priceExponent d.qtyExponent d.tickSize d.manifestSeq
  else
    defBodyV3 d.instrumentId (d.sourceId.getD 0) (asBytes d.symbol) d.priceExponent d.qtyExponent d.tickSize
      d.manifestSeq

/-- A definition fits the layout of a version; version 3 needs its source. -/
def DefinitionFitsAt (ver : UInt8) (d : InstrumentDefinition) : Prop :=
  if ver = SCHEMA_V1 then DefinitionFits d DEF_SYM_LEN_V1
  else DefinitionFits d DEF_SYM_LEN_V3 ∧ ∃ source, d.sourceId = some source ∧ source < 2 ^ 16

/-- **A definition is read back from its message** under both schema versions. -/
theorem definition_read_back {ver : UInt8} {d : InstrumentDefinition} (hver : ver ∈ [SCHEMA_V1, SCHEMA_V3])
    (h : DefinitionFitsAt ver d) (ty : UInt8) (flags : Nat) :
    (definitionBody ver d).length < 252 ∧
      ∀ b o, Holds b o (msg ty flags (definitionBody ver d)) →
        instrumentDefinition b o ver = some (carriedDefinition ver d) := by
  have hcases : ver = SCHEMA_V1 ∨ ver = SCHEMA_V3 := by simpa using hver
  unfold DefinitionFitsAt at h
  unfold definitionBody carriedDefinition
  rcases hcases with rfl | rfl
  · rw [if_pos rfl] at h
    simp only [if_true]
    have hlen := length_defBodyV1 h
    exact ⟨by rw [hlen]; decide, fun b o hb => instrumentDefinition_msg hb (.inl ⟨rfl, hlen, definitionV1_recovers h⟩)⟩
  · have hne : SCHEMA_V3 ≠ SCHEMA_V1 := by decide
    rw [if_neg hne] at h
    obtain ⟨hd, source, hsource, hwidth⟩ := h
    simp only [if_neg hne, hsource, Option.getD_some]
    have hlen := length_defBodyV3 source hd
    have hsame : { d with sourceId := some source } = d := by rw [← hsource]
    have hrec := definitionV3_recovers hd hwidth
    rw [hsame] at hrec
    exact ⟨by rw [hlen]; decide, fun b o hb => instrumentDefinition_msg hb (.inr ⟨rfl, hlen, hrec⟩)⟩

/-- A signed number of 64 bits. -/
def FitsI64 (i : Int) : Prop := -2 ^ 63 ≤ i ∧ i < 2 ^ 63

end EdgeConnect.CodecCommon

/-! ## Top of Book -/

namespace EdgeConnect.Codec

open Layout CodecCommon
open Ingest (InstrumentDefinition)

def quoteBody (q : Quote) : Bytes := List.flatten [
  toLe 4 q.instrumentId,
  toLe 2 q.sourceId,
  [q.updateFlags],
  [0],
  toLe 8 q.sourceTs,
  toLe 8 (ofI64 q.bidPriceRaw),
  toLe 8 q.bidQtyRaw,
  toLe 8 (ofI64 q.askPriceRaw),
  toLe 8 q.askQtyRaw,
  toLe 2 q.bidN,
  toLe 2 q.askN,
  toLe 4 q.venueUpdateId]

def tradeBody (t : Trade) : Bytes := List.flatten [
  toLe 4 t.instrumentId,
  toLe 2 t.sourceId,
  [t.aggressorSide],
  [t.tradeFlags],
  toLe 8 t.sourceTs,
  toLe 8 (ofI64 t.tradePriceRaw),
  toLe 8 t.tradeQtyRaw,
  toLe 8 t.tradeId,
  toLe 8 t.cumulativeVolumeRaw]

def manifestBody (m : ManifestSummary) : Bytes := List.flatten [
  [m.channelId, if m.valid then 1 else 0, 0, 0],
  toLe 2 m.manifestSeq,
  [0, 0],
  toLe 4 m.instrumentCount,
  toLe 8 m.ts]

/-- The encoder of each typed variant under a schema version; `Other` has none. -/
def encode (ver : UInt8) : Message → Bytes
  | .quote q => msg MSG_QUOTE 0 (quoteBody q)
  | .trade t => msg MSG_TRADE 0 (tradeBody t)
  | .instrumentDefinition d => msg MSG_INSTRUMENT_DEFINITION 0 (definitionBody ver d)
  | .manifestSummary m => msg MSG_MANIFEST_SUMMARY 0 (manifestBody m)
  | .heartbeat => msg MSG_HEARTBEAT 0 (List.replicate 12 0)
  | .channelReset ts => msg MSG_CHANNEL_RESET 0 (toLe 8 ts)
  | .endOfSession ts => msg MSG_END_OF_SESSION 0 (toLe 8 ts)
  | .other _ => []

def TradeFits (t : Trade) : Prop :=
  t.instrumentId < 2 ^ 32 ∧ t.sourceId < 2 ^ 16 ∧ t.sourceTs < 2 ^ 64 ∧ FitsI64 t.tradePriceRaw ∧
    t.tradeQtyRaw < 2 ^ 64 ∧ t.tradeId < 2 ^ 64 ∧ t.cumulativeVolumeRaw < 2 ^ 64

def ManifestFits (m : ManifestSummary) : Prop := m.manifestSeq < 2 ^ 16 ∧ m.instrumentCount < 2 ^ 32 ∧ m.ts < 2 ^ 64

/-- The fields of a message are of their widths. -/
def Fits (ver : UInt8) : Message → Prop
  | .quote q => q.instrumentId < 2 ^ 32 ∧ q.sourceId < 2 ^ 16 ∧ q.sourceTs < 2 ^ 64 ∧ FitsI64 q.bidPriceRaw ∧
      q.bidQtyRaw < 2 ^ 64 ∧ FitsI64 q.askPriceRaw ∧ q.askQtyRaw < 2 ^ 64 ∧ q.bidN < 2 ^ 16 ∧ q.askN < 2 ^ 16 ∧
      q.venueUpdateId < 2 ^ 32
  | .trade t => TradeFits t
  | .instrumentDefinition d => DefinitionFitsAt ver d
  | .manifestSummary m => ManifestFits m
  | .heartbeat => True
  | .channelReset ts => ts < 2 ^ 64
  | .endOfSession ts => ts < 2 ^ 64
  | .other _ => False

/-- What a version carries of a message: version 1 has no `Venue Update ID`, and names no source. -/
def carried (ver : UInt8) : Message → Message
  | .quote q => .quote { q with venueUpdateId := if ver = SCHEMA_V3 then q.venueUpdateId else 0 }
  | .instrumentDefinition d => .instrumentDefinition (carriedDefinition ver d)
  | m => m

theorem quoteBody_recovers {q : Quote} {ver : UInt8} (h : Fits ver (.quote q)) (venueUpdateId : Nat) :
    Recovers (quoteBody q) (quoteFields venueUpdateId) (.quote { q with venueUpdateId := venueUpdateId }) := by
  obtain ⟨hid, hsource, hts, hbid, hbidQty, hask, haskQty, hbidN, haskN, -⟩ := h
  exact (Recovers.u32le 0 hid rfl).bind <| (Recovers.u16le 4 hsource rfl).bind <| (Recovers.u8le 6 rfl).bind <|
    (Recovers.u64le 8 hts rfl).bind <| (Recovers.i64le 16 hbid rfl).bind <| (Recovers.u64le 24 hbidQty rfl).bind <|
    (Recovers.i64le 32 hask rfl).bind <| (Recovers.u64le 40 haskQty rfl).bind <| (Recovers.u16le 48 hbidN rfl).bind <|
    (Recovers.u16le 50 haskN rfl).last

theorem tradeBody_recovers {t : Trade} (h : TradeFits t) : Recovers (tradeBody t) tradeFields (.trade t) := by
  obtain ⟨hid, hsource, hts, hprice, hqty, htrade, hvolume⟩ := h
  exact (Recovers.u32le 0 hid rfl).bind <| (Recovers.u16le 4 hsource rfl).bind <| (Recovers.u8le 6 rfl).bind <|
    (Recovers.u8le 7 rfl).bind <| (Recovers.u64le 8 hts rfl).bind <| (Recovers.i64le 16 hprice rfl).bind <|
    (Recovers.u64le 24 hqty rfl).bind <| (Recovers.u64le 32 htrade rfl).bind <| (Recovers.u64le 40 hvolume rfl).last

theorem manifestBody_recovers {m : ManifestSummary} (h : ManifestFits m) :
    Recovers (manifestBody m) manifestFields (.manifestSummary m) := by
  obtain ⟨hseq, hcount, hts⟩ := h
  have hvalid : Message.manifestSummary m = .manifestSummary
      ⟨m.channelId, decide ((if m.valid then 1 else 0 : UInt8) ≠ 0), m.manifestSeq, m.instrumentCount, m.ts⟩ := by
    cases m with
    | mk channelId valid manifestSeq instrumentCount ts => cases valid <;> rfl
  rw [hvalid]
  exact (Recovers.u8le 0 rfl).bind <| (Recovers.u8le 1 rfl).bind <| (Recovers.u16le 4 hseq rfl).bind <|
    (Recovers.u32le 8 hcount rfl).bind <| (Recovers.u64le 12 hts rfl).last

/-- The `Venue Update ID` of a quote that is all there: under version 3 what was written, under any other zero. -/
theorem quoteVenueUpdateId_quoteBody {b : Bytes} {o : Nat} {q : Quote} (hb : Holds b o (msg MSG_QUOTE 0 (quoteBody q)))
    (hid : q.venueUpdateId < 2 ^ 32) (ver : UInt8) :
    quoteVenueUpdateId b o ver = if ver = SCHEMA_V3 then q.venueUpdateId else 0 := by
  have hread : u32le b (o + QUOTE_VENUE_UPDATE_ID_OFFSET) = some q.venueUpdateId :=
    Recovers.u32le QUOTE_VENUE_UPDATE_ID_OFFSET hid rfl b o hb
  have hlen : b[o + 1]? = some 60 := length_of_msg hb
  have hdeclared : ¬ (60 : UInt8).toNat < QUOTE_VENUE_UPDATE_ID_OFFSET + 4 := by decide
  unfold quoteVenueUpdateId
  rw [hlen, hread]
  by_cases hver : ver = SCHEMA_V3
  · rw [if_neg (not_not.mpr hver), if_pos hver]
    exact if_neg hdeclared
  · rw [if_pos hver, if_neg hver]

/-- An encoding that declares its length, and that is decoded wherever a datagram of its version holds it. -/
structure Carries (ver : UInt8) (xs : Bytes) (m : Message) : Prop where
  framed : Framed xs
  decodes : ∀ b o, Holds b o xs → decodeAt decodeMessage b ver o = .ok m

/-- A message is read back if its body is. -/
theorem carries_msg {ty ver : UInt8} {xs : Bytes} {m : Message} (hsmall : xs.length < 252)
    (hbody : ∀ b o, Holds b o (msg ty 0 xs) → decodeBody ty b o ver = some m) : Carries ver (msg ty 0 xs) m where
  framed := framed_msg hsmall
  decodes b o hb := by
    have hlt : o + 1 < b.length := (List.getElem?_eq_some_iff.mp (length_of_msg hb)).1
    unfold decodeAt
    rw [decodeMessage_eq _ _ _ _ _ hlt, type_of_msg hb]
    unfold orOther
    rw [Option.getD_some, hbody b o hb]
    rfl

/-- **Every message of a typed variant is read back**, up to what its version carries. -/
theorem encode_carries {ver : UInt8} (hver : ver ∈ SUPPORTED_VERSIONS) {m : Message} (h : Fits ver m) :
    Carries ver (encode ver m) (carried ver m) := by
  cases m with
  | quote q =>
    refine carries_msg (by simp [quoteBody]) fun b o hb => ?_
    have hbody : decodeBody MSG_QUOTE b o ver =
      quoteFields (quoteVenueUpdateId b o ver) b (o + MSG_HEADER_SIZE) := rfl
    rw [hbody, quoteBody_recovers h _ b _ (body_of_msg hb), quoteVenueUpdateId_quoteBody hb h.2.2.2.2.2.2.2.2.2]
    rfl
  | trade t =>
    exact carries_msg (by simp [tradeBody]) fun b o hb => tradeBody_recovers h b _ (body_of_msg hb)
  | instrumentDefinition d =>
    obtain ⟨hlen, hread⟩ := definition_read_back hver h MSG_INSTRUMENT_DEFINITION 0
    refine carries_msg hlen fun b o hb => ?_
    have hbody : decodeBody MSG_INSTRUMENT_DEFINITION b o ver =
      (instrumentDefinition b o ver).map Message.instrumentDefinition := rfl
    rw [hbody, hread b o hb]
    rfl
  | manifestSummary m =>
    exact carries_msg (by simp [manifestBody]) fun b o hb =>
      manifestBody_recovers h b _ (body_of_msg hb)
  | heartbeat => exact carries_msg (by simp) fun _ _ _ => rfl
  | channelReset ts =>
    refine carries_msg (by simp) fun b o hb => ?_
    have hrec : Recovers (toLe 8 ts) channelResetFields (.channelReset ts) := (Recovers.u64le 0 h rfl).last
    exact hrec b _ (body_of_msg hb)
  | endOfSession ts =>
    refine carries_msg (by simp) fun b o hb => ?_
    have hrec : Recovers (toLe 8 ts) endOfSessionFields (.endOfSession ts) := (Recovers.u64le 0 h rfl).last
    exact hrec b _ (body_of_msg hb)
  | other ty => exact h.elim

/-- **Decoding undoes encoding.**  A datagram of any number of typed messages in any order, whatever follows it in the
buffer, decodes to its header and to those messages: under schema version 3 to all of them, under version 1 to what that
version carries. -/
theorem decode_undoes_encode_tob (h : DatagramHeader) (messages : List Message) (tail : Bytes) (hfits : HeaderFits h)
    (hver : h.schemaVersion ∈ SUPPORTED_VERSIONS) (hcount : h.msgCount.toNat = messages.length)
    (hlength : h.datagramLength = DATAGRAM_HEADER_SIZE + (messages.flatMap (encode h.schemaVersion)).length)
    (hmessages : ∀ m ∈ messages, Fits h.schemaVersion m) :
    decodeDatagram (datagramOf MAGIC h (messages.map (encode h.schemaVersion)) ++ tail) =
      .ok (h, messages.map (carried h.schemaVersion)) := by
  have hbody : (messages.map (encode h.schemaVersion)).flatten = messages.flatMap (encode h.schemaVersion) := rfl
  unfold datagramOf
  rw [hbody, List.append_assoc]
  exact decodeDatagramWith_carried (length_headerBytes MAGIC h) (magic_headerBytes h (by decide))
    (header_headerBytes MAGIC hfits _) hver hcount hlength
    (fun m hm => (encode_carries hver (hmessages m hm)).framed)
    fun m hm o ho => (encode_carries hver (hmessages m hm)).decodes _ o ho

/-- A quote with a `Venue Update ID` and a definition of a source, under version 1 and followed by other bytes. -/
theorem decode_undoes_encode_tob_v1 :
    decodeDatagram (datagramOf MAGIC ⟨SCHEMA_V1, 4, 9, 7, 2, 1, 164⟩
      ([.quote ⟨42, 1, 3, 5, -6788, 10657, 6790, 10886, 5, 3, 77⟩,
        .instrumentDefinition ⟨42, some 1, "BTC", -2, 0, 1, 3⟩].map (encode SCHEMA_V1)) ++ [1, 2, 3]) =
      .ok (⟨SCHEMA_V1, 4, 9, 7, 2, 1, 164⟩,
        [.quote ⟨42, 1, 3, 5, -6788, 10657, 6790, 10886, 5, 3, 0⟩,
          .instrumentDefinition ⟨42, none, "BTC", -2, 0, 1, 3⟩]) := by
  refine decode_undoes_encode_tob ⟨SCHEMA_V1, 4, 9, 7, 2, 1, 164⟩ _ [1, 2, 3] ⟨by decide, by decide, by decide⟩ (by decide)
    rfl (by decide +kernel) ?_
  simp only [List.forall_mem_cons]
  refine ⟨?_, ?_, nofun⟩
  · simp [Fits, FitsI64]
  · exact ⟨by decide, by decide, by decide, by decide, by decide, by decide, by decide⟩

end EdgeConnect.Codec
