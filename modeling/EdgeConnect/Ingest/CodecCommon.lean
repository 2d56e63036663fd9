import EdgeConnect.Ingest.Receiver
import EdgeConnect.Lib.Layout

/-!
# What the edge-feed codecs share (`src/ingest/codec_common.rs`)

Executable model of the 24-byte datagram header, the instrument definition in its two layouts, and the walk over a
datagram's messages.

* `cstr`, `utf8Lossy` — a NUL-padded text field;
* `instrumentDefinition` — the one message whose layout depends on the schema version;
* `walk`, `decodeDatagramWith` — the walk, with each codec's message decoder as a parameter; an index past the buffer
  is the error `outOfBounds`;
* `spans` — where the messages of a datagram lie; `walk_eq`, `decodeDatagramWith_eq` — the walk decodes those.
-/

set_option autoImplicit false

namespace EdgeConnect.CodecCommon

open Layout
open Ingest (InstrumentDefinition)

abbrev Bytes := List UInt8

def DATAGRAM_HEADER_SIZE : Nat := 24
def MSG_HEADER_SIZE : Nat := 4
def SCHEMA_V1 : UInt8 := 1
def SCHEMA_V3 : UInt8 := 3
def DEF_SYM_LEN_V1 : Nat := 16
def DEF_SYM_LEN_V3 : Nat := 64
def DEF_BODY_LEN_V1 : Nat := 76
def DEF_BODY_LEN_V3 : Nat := 126

structure DatagramHeader where
  schemaVersion : UInt8
  channelId : UInt8
  sequence : Nat
  sendTs : Nat
  msgCount : UInt8
  resetCount : UInt8
  datagramLength : Nat
  deriving DecidableEq, Repr

inductive DecodeError where
  | bail (text : String)
  | outOfBounds
  deriving DecidableEq, Repr

/-- `buf[i]`. -/
def index (b : Bytes) (i : Nat) : Except DecodeError UInt8 :=
  match b[i]? with
  | some x => .ok x
  | none => .error .outOfBounds

/-! ## Text -/

def isCont (x : UInt8) : Bool := 0x80 ≤ x ∧ x ≤ 0xBF

/-- What may follow the lead byte of a character of three bytes. -/
def isSecondOf3 (lead x : UInt8) : Bool :=
  if lead = 0xE0 then 0xA0 ≤ x ∧ x ≤ 0xBF else if lead = 0xED then 0x80 ≤ x ∧ x ≤ 0x9F else isCont x

/-- What may follow the lead byte of a character of four bytes. -/
def isSecondOf4 (lead x : UInt8) : Bool :=
  if lead = 0xF0 then 0x90 ≤ x ∧ x ≤ 0xBF else if lead = 0xF4 then 0x80 ≤ x ∧ x ≤ 0x8F else isCont x

def REPLACEMENT : Char := Char.ofNat 0xFFFD

/-- The bits that a continuation byte carries. -/
def low6 (x : UInt8) : Nat := x.toNat % 64

/-- `String::from_utf8_lossy`: the longest prefix that could still become a character is one replacement character. -/
def utf8Lossy : Bytes → List Char
  | [] => []
  | x :: r =>
    if x < 0x80 then Char.ofNat x.toNat :: utf8Lossy r
    else if 0xC2 ≤ x ∧ x ≤ 0xDF then
      match r with
      | [] => [REPLACEMENT]
      | y :: r' =>
        if isCont y then Char.ofNat (x.toNat % 32 * 64 + low6 y) :: utf8Lossy r'
        else REPLACEMENT :: utf8Lossy (y :: r')
    else if 0xE0 ≤ x ∧ x ≤ 0xEF then
      match r with
      | [] => [REPLACEMENT]
      | [y] => if isSecondOf3 x y then [REPLACEMENT] else REPLACEMENT :: utf8Lossy [y]
      | y :: z :: r' =>
        if isSecondOf3 x y then
          if isCont z then Char.ofNat ((x.toNat % 16 * 64 + low6 y) * 64 + low6 z) :: utf8Lossy r'
          else REPLACEMENT :: utf8Lossy (z :: r')
        else REPLACEMENT :: utf8Lossy (y :: z :: r')
    else if 0xF0 ≤ x ∧ x ≤ 0xF4 then
      match r with
      | [] => [REPLACEMENT]
      | [y] => if isSecondOf4 x y then [REPLACEMENT] else REPLACEMENT :: utf8Lossy [y]
      | [y, z] =>
        if isSecondOf4 x y then
          if isCont z then [REPLACEMENT] else REPLACEMENT :: utf8Lossy [z]
        else REPLACEMENT :: utf8Lossy [y, z]
      | y :: z :: w :: r' =>
        if isSecondOf4 x y then
          if isCont z then
            if isCont w then
              Char.ofNat (((x.toNat % 8 * 64 + low6 y) * 64 + low6 z) * 64 + low6 w) :: utf8Lossy r'
            else REPLACEMENT :: utf8Lossy (w :: r')
          else REPLACEMENT :: utf8Lossy (z :: w :: r')
        else REPLACEMENT :: utf8Lossy (y :: z :: w :: r')
    else REPLACEMENT :: utf8Lossy r
termination_by structural b => b

/-- `cstr`: a fixed-width field up to its first NUL. -/
def cstr (len : Nat) : Reader String := fun b o =>
  (bytes len b o).map fun field => String.ofList (utf8Lossy (field.takeWhile fun x => x ≠ 0))

/-! ## The instrument definition -/

/-- The fields of a definition in the layout of schema version 1, from the body on. -/
def definitionV1 (b : Bytes) (body : Nat) : Option InstrumentDefinition := do
  let instrumentId ← u32le b body
  let symbol ← cstr DEF_SYM_LEN_V1 b (body + 4)
  let priceExponent ← u8le b (body + 37)
  let qtyExponent ← u8le b (body + 38)
  let tickSize ← i64le b (body + 40)
  let manifestSeq ← u16le b (body + 74)
  return ⟨instrumentId, none, symbol, toI8 priceExponent, toI8 qtyExponent, tickSize, manifestSeq⟩

/-- The fields of a definition in the layout of schema version 3. -/
def definitionV3 (b : Bytes) (body : Nat) : Option InstrumentDefinition := do
  let instrumentId ← u32le b body
  let sourceId ← u16le b (body + 4)
  let symbol ← cstr DEF_SYM_LEN_V3 b (body + 6)
  let priceExponent ← u8le b (body + 87)
  let qtyExponent ← u8le b (body + 88)
  let tickSize ← i64le b (body + 90)
  let manifestSeq ← u16le b (body + 124)
  return ⟨instrumentId, some sourceId, symbol, toI8 priceExponent, toI8 qtyExponent, tickSize, manifestSeq⟩

/-- `instrument_definition`: the declared length must cover the layout of the declared version. -/
def instrumentDefinition (b : Bytes) (msgOffset : Nat) (schemaVersion : UInt8) : Option InstrumentDefinition := do
  let body := msgOffset + MSG_HEADER_SIZE
  let declared ← u8le b (msgOffset + 1)
  let declaredBody ← if MSG_HEADER_SIZE ≤ declared.toNat then some (declared.toNat - MSG_HEADER_SIZE) else none
  let requiredBody ←
    if schemaVersion = SCHEMA_V1 then some DEF_BODY_LEN_V1
    else if schemaVersion = SCHEMA_V3 then some DEF_BODY_LEN_V3
    else none
  if declaredBody < requiredBody then none
  else if schemaVersion = SCHEMA_V1 then definitionV1 b body
  else if schemaVersion = SCHEMA_V3 then definitionV3 b body
  else none

/-! ## The walk -/

/-- `{:04X}`. -/
def hex4 (n : Nat) : String :=
  let digits := (Nat.toDigits 16 n).map Char.toUpper
  String.ofList (List.replicate (4 - digits.length) '0' ++ digits)

section Walk

variable {M : Type} (decodeMessage : UInt8 → Nat → Bytes → Nat → UInt8 → Except DecodeError M)

/-- The loop over at most `n` messages from `off` on. -/
def walk (b : Bytes) (schemaVersion : UInt8) (datagramLen : Nat) : Nat → Nat → Except DecodeError (List M)
  | 0, _ => .ok []
  | n + 1, off =>
    if off + MSG_HEADER_SIZE > datagramLen then .ok []
    else do
      let msgType ← index b off
      let msgLen ← index b (off + 1)
      let flags := (u16le b (off + 2)).getD 0
      if msgLen.toNat < MSG_HEADER_SIZE ∨ off + msgLen.toNat > datagramLen then .ok []
      else
        let m ← decodeMessage msgType flags b off schemaVersion
        let ms ← walk b schemaVersion datagramLen n (off + msgLen.toNat)
        return m :: ms

/-- The header fields past the magic. -/
def header (b : Bytes) : Except DecodeError DatagramHeader := do
  let schemaVersion ← index b 2
  let channelId ← index b 3
  let msgCount ← index b 20
  let resetCount ← index b 21
  return {
    schemaVersion, channelId, msgCount, resetCount
    sequence := (u64le b 4).getD 0
    sendTs := (u64le b 12).getD 0
    datagramLength := (u16le b 22).getD 0 }

/-- `decode_datagram_with`. -/
def decodeDatagramWith (magic : Nat) (supportedVersions : List UInt8) (b : Bytes) :
    Except DecodeError (DatagramHeader × List M) :=
  if b.length < DATAGRAM_HEADER_SIZE then .error (.bail ("datagram too short: " ++ toString b.length ++ " bytes"))
  else
    let gotMagic := (u16le b 0).getD 0
    if gotMagic ≠ magic then
      .error (.bail ("bad magic 0x" ++ hex4 gotMagic ++ " (expected 0x" ++ hex4 magic ++ ")"))
    else do
      let h ← header b
      if h.schemaVersion ∈ supportedVersions then
        let datagramLen := min h.datagramLength b.length
        let ms ← walk decodeMessage b h.schemaVersion datagramLen h.msgCount.toNat DATAGRAM_HEADER_SIZE
        return (h, ms)
      else
        .error (.bail ("unsupported schema version " ++ toString h.schemaVersion ++ " (implemented: " ++
          toString supportedVersions ++ ")"))

end Walk

/-! ## Where the messages lie -/

/-- The offset and declared length of each message of the walk. -/
def spans (b : Bytes) (datagramLen : Nat) : Nat → Nat → List (Nat × Nat)
  | 0, _ => []
  | n + 1, off =>
    if off + MSG_HEADER_SIZE > datagramLen then []
    else
      let msgLen := (b[off + 1]?.getD 0).toNat
      if msgLen < MSG_HEADER_SIZE ∨ off + msgLen > datagramLen then []
      else (off, msgLen) :: spans b datagramLen n (off + msgLen)

def messageSpans (b : Bytes) (h : DatagramHeader) : List (Nat × Nat) :=
  spans b (min h.datagramLength b.length) h.msgCount.toNat DATAGRAM_HEADER_SIZE

/-- What a decoder makes of the message at an offset. -/
def decodeAt {M : Type} (decodeMessage : UInt8 → Nat → Bytes → Nat → UInt8 → Except DecodeError M) (b : Bytes)
    (schemaVersion : UInt8) (off : Nat) : Except DecodeError M :=
  decodeMessage (b[off]?.getD 0) ((u16le b (off + 2)).getD 0) b off schemaVersion

theorem index_of_lt {b : Bytes} {i : Nat} (h : i < b.length) : index b i = .ok (b[i]?.getD 0) := by
  unfold index
  rw [List.getElem?_eq_getElem h]
  rfl

theorem spans_spec {b : Bytes} {datagramLen : Nat} {s : Nat × Nat} :
    ∀ {n off : Nat}, s ∈ spans b datagramLen n off →
      off ≤ s.1 ∧ MSG_HEADER_SIZE ≤ s.2 ∧ s.1 + s.2 ≤ datagramLen ∧ s.2 = (b[s.1 + 1]?.getD 0).toNat
  | 0, _, h => by cases h
  | n + 1, off, h => by
    unfold spans at h
    simp only at h
    split at h
    · cases h
    · split at h
      · cases h
      · rename_i hlen
        rw [not_or, not_lt, not_lt] at hlen
        rcases List.mem_cons.mp h with rfl | h
        · exact ⟨le_rfl, hlen.1, hlen.2, rfl⟩
        · obtain ⟨hoff, hrest⟩ := spans_spec h
          exact ⟨by omega, hrest⟩

section WalkSpans

variable {M : Type} {decodeMessage : UInt8 → Nat → Bytes → Nat → UInt8 → Except DecodeError M} {b : Bytes}

variable (decodeMessage) in
/-- **The walk decodes the messages of its spans, in order.** -/
theorem walk_eq {datagramLen : Nat} (hd : datagramLen ≤ b.length) (schemaVersion : UInt8) :
    ∀ n off, walk decodeMessage b schemaVersion datagramLen n off =
      (spans b datagramLen n off).mapM fun s => decodeAt decodeMessage b schemaVersion s.1
  | 0, _ => rfl
  | n + 1, off => by
    unfold walk spans
    by_cases hfit : off + MSG_HEADER_SIZE > datagramLen
    · rw [if_pos hfit, if_pos hfit]
      rfl
    · have hlt : off + 1 < b.length := by unfold MSG_HEADER_SIZE at hfit; omega
      rw [if_neg hfit, if_neg hfit, index_of_lt (by omega), index_of_lt hlt]
      show (if (b[off + 1]?.getD 0).toNat < MSG_HEADER_SIZE ∨ off + (b[off + 1]?.getD 0).toNat > datagramLen then _
        else _) = _
      by_cases hlen : (b[off + 1]?.getD 0).toNat < MSG_HEADER_SIZE ∨ off + (b[off + 1]?.getD 0).toNat > datagramLen
      · simp only [if_pos hlen]
        rfl
      · simp only [if_neg hlen, List.mapM_cons, walk_eq hd schemaVersion n]
        rfl

theorem header_of_le (h : DATAGRAM_HEADER_SIZE ≤ b.length) : ∃ hdr, header b = .ok hdr := by
  unfold DATAGRAM_HEADER_SIZE at h
  unfold header
  rw [index_of_lt (by omega), index_of_lt (by omega), index_of_lt (by omega), index_of_lt (by omega)]
  exact ⟨_, rfl⟩

/-- **What a datagram that decodes is.** -/
theorem decodeDatagramWith_eq {magic : Nat} {versions : List UInt8} {h : DatagramHeader} {ms : List M} :
    decodeDatagramWith decodeMessage magic versions b = .ok (h, ms) ↔
      DATAGRAM_HEADER_SIZE ≤ b.length ∧ (u16le b 0).getD 0 = magic ∧ header b = .ok h ∧
        h.schemaVersion ∈ versions ∧
        (messageSpans b h).mapM (fun s => decodeAt decodeMessage b h.schemaVersion s.1) = .ok ms := by
  unfold decodeDatagramWith messageSpans
  by_cases hlen : b.length < DATAGRAM_HEADER_SIZE
  · rw [if_pos hlen]
    exact ⟨nofun, fun hh => absurd hh.1 (not_le.mpr hlen)⟩
  · rw [if_neg hlen]
    by_cases hmagic : (u16le b 0).getD 0 = magic
    · obtain ⟨hdr, hhdr⟩ := header_of_le (not_lt.mp hlen)
      simp only [hmagic, ne_eq, not_true_eq_false, if_false, hhdr]
      by_cases hver : hdr.schemaVersion ∈ versions
      · have hwalk := walk_eq decodeMessage (min_le_right hdr.datagramLength b.length)
          hdr.schemaVersion hdr.msgCount.toNat DATAGRAM_HEADER_SIZE
        simp only [bind, Except.bind, hver, if_true, hwalk]
        constructor
        · intro hok
          cases hm : (spans b (min hdr.datagramLength b.length) hdr.msgCount.toNat DATAGRAM_HEADER_SIZE).mapM
            fun s => decodeAt decodeMessage b hdr.schemaVersion s.1 with
          | error e =>
            rw [hm] at hok
            cases hok
          | ok ms' =>
            rw [hm] at hok
            cases hok
            exact ⟨not_lt.mp hlen, trivial, rfl, hver, hm⟩
        · rintro ⟨-, -, heq, -, hm⟩
          cases heq
          rw [hm]
          rfl
      · simp only [bind, Except.bind, hver, if_false]
        exact ⟨nofun, fun ⟨_, _, heq, hv, _⟩ => absurd (Except.ok.inj heq ▸ hv) hver⟩
    · simp only [hmagic, ne_eq, not_false_eq_true, if_true]
      exact ⟨nofun, fun hh => absurd hh.2.1 not_false⟩

end WalkSpans


/-! ## How far a definition reads -/

theorem cstr_fills (len : Nat) : Fills (cstr len) len := (Fills.bytes len).map _

theorem definitionV1_fills : Fills definitionV1 DEF_BODY_LEN_V1 :=
  (Fills.u32le.bind fun _ => ((cstr_fills DEF_SYM_LEN_V1).shift 4).bind fun _ => (Fills.u8le.shift 37).bind fun _ =>
    (Fills.u8le.shift 38).bind fun _ => (Fills.i64le.shift 40).bind fun _ => (Fills.u16le.shift 74).last _)

theorem definitionV3_fills : Fills definitionV3 DEF_BODY_LEN_V3 :=
  (Fills.u32le.bind fun _ => (Fills.u16le.shift 4).bind fun _ => ((cstr_fills DEF_SYM_LEN_V3).shift 6).bind fun _ =>
    (Fills.u8le.shift 87).bind fun _ => (Fills.u8le.shift 88).bind fun _ => (Fills.i64le.shift 90).bind fun _ =>
    (Fills.u16le.shift 124).last _)

/-- **A definition is read from its own bytes.** -/
theorem instrumentDefinition_window {b : Bytes} {o len : Nat} (schemaVersion : UInt8) (hmin : MSG_HEADER_SIZE ≤ len)
    (hfit : o + len ≤ b.length) (hlen : len = (b[o + 1]?.getD 0).toNat) :
    instrumentDefinition b o schemaVersion = instrumentDefinition (window b o len) 0 schemaVersion := by
  unfold MSG_HEADER_SIZE at hmin
  have hdeclared : u8le (window b o len) (0 + 1) = u8le b (o + 1) := getElem?_window (by omega)
  have hget : u8le b (o + 1) = some (b[o + 1]?.getD 0) := by
    unfold u8le
    rw [List.getElem?_eq_getElem (by omega)]
    rfl
  unfold instrumentDefinition
  simp only [hdeclared, hget, bind, Option.bind, ← hlen]
  unfold MSG_HEADER_SIZE
  simp only [if_pos hmin]
  by_cases h1 : schemaVersion = SCHEMA_V1
  · simp only [if_pos h1]
    split
    · rfl
    · rename_i hbody
      exact (definitionV1_fills.shift 4).inside b o len (by unfold DEF_BODY_LEN_V1 at *; omega) hfit
  · by_cases h3 : schemaVersion = SCHEMA_V3
    · simp only [if_neg h1, if_pos h3]
      split
      · rfl
      · rename_i hbody
        exact (definitionV3_fills.shift 4).inside b o len (by unfold DEF_BODY_LEN_V3 at *; omega) hfit
    · simp only [if_neg h1, if_neg h3]

/-! ## Decoders that stay in the buffer -/

section Total

variable {M : Type} {decodeMessage : UInt8 → Nat → Bytes → Nat → UInt8 → Except DecodeError M}
  {messageOf : UInt8 → Bytes → Nat → UInt8 → M} {magic : Nat} {versions : List UInt8}

/-- The message at an offset, for a decoder that stays in the buffer. -/
def messageAt (messageOf : UInt8 → Bytes → Nat → UInt8 → M) (b : Bytes) (schemaVersion : UInt8) (off : Nat) : M :=
  messageOf (b[off]?.getD 0) b off schemaVersion

theorem mapM_eq_ok {α β ε : Type} {f : α → Except ε β} {g : α → β} :
    ∀ {l : List α}, (∀ a ∈ l, f a = .ok (g a)) → l.mapM f = .ok (l.map g)
  | [], _ => rfl
  | a :: l, h => by
    rw [List.mapM_cons, h a List.mem_cons_self, mapM_eq_ok fun a' ha' => h a' (List.mem_cons_of_mem _ ha')]
    rfl

theorem messageSpans_spec {b : Bytes} {h : DatagramHeader} {s : Nat × Nat} (hs : s ∈ messageSpans b h) :
    DATAGRAM_HEADER_SIZE ≤ s.1 ∧ MSG_HEADER_SIZE ≤ s.2 ∧ s.1 + s.2 ≤ min h.datagramLength b.length ∧
      s.2 = (b[s.1 + 1]?.getD 0).toNat := spans_spec hs

variable (hdec : ∀ ty flags b o ver, o + 1 < b.length → decodeMessage ty flags b o ver = .ok (messageOf ty b o ver))
include hdec

theorem decode_messages (b : Bytes) (h : DatagramHeader) :
    (messageSpans b h).mapM (fun s => decodeAt decodeMessage b h.schemaVersion s.1) =
      .ok ((messageSpans b h).map fun s => messageAt messageOf b h.schemaVersion s.1) := by
  refine mapM_eq_ok fun s hs => ?_
  obtain ⟨-, hmin, hfit, -⟩ := messageSpans_spec hs
  unfold MSG_HEADER_SIZE at hmin
  exact hdec _ _ b s.1 _ (by omega)

/-- **A datagram decodes to the messages of its spans.** -/
theorem decodeDatagramWith_messages {b : Bytes} {h : DatagramHeader} {ms : List M} :
    decodeDatagramWith decodeMessage magic versions b = .ok (h, ms) ↔
      DATAGRAM_HEADER_SIZE ≤ b.length ∧ (u16le b 0).getD 0 = magic ∧ header b = .ok h ∧ h.schemaVersion ∈ versions ∧
        ms = (messageSpans b h).map fun s => messageAt messageOf b h.schemaVersion s.1 := by
  rw [decodeDatagramWith_eq, decode_messages hdec]
  refine and_congr_right fun _ => and_congr_right fun _ => and_congr_right fun _ => and_congr_right fun _ => ?_
  exact ⟨fun heq => (Except.ok.inj heq).symm, fun heq => congrArg _ heq.symm⟩

end Total

/-! ## Messages and their own bytes -/

section OwnBytes

variable {M : Type}

/-- How a codec's bodies use the declared length: `need` is where the fields of a type end, and `checked` says that
the decoder itself refuses a message declared shorter. -/
structure OwnFields (body : UInt8 → Bytes → Nat → UInt8 → Option M) (other : UInt8 → M)
    (need : UInt8 → UInt8 → Option Nat) (checked : UInt8 → Prop) : Prop where
  own : ∀ ty ver b o len, MSG_HEADER_SIZE ≤ len → o + len ≤ b.length → len = (b[o + 1]?.getD 0).toNat →
    (checked ty ∨ ∀ n, need ty ver = some n → n ≤ len) → body ty b o ver = body ty (window b o len) 0 ver
  refused : ∀ ty ver b o n, checked ty → need ty ver = some n → (b[o + 1]?.getD 0).toNat < n → body ty b o ver = none
  short : ∀ ty ver b o n, ¬ checked ty → need ty ver = some n → b.length < o + n → body ty b o ver = none
  full : ∀ ty ver b o n, ¬ checked ty → need ty ver = some n → o + n ≤ b.length →
    ∃ m, body ty b o ver = some m ∧ m ≠ other ty

/-- A body that does not decode is `Other`. -/
def orOther (body : UInt8 → Bytes → Nat → UInt8 → Option M) (other : UInt8 → M) (ty : UInt8) (b : Bytes) (off : Nat)
    (ver : UInt8) : M := (body ty b off ver).getD (other ty)

/-- Every message is what its own bytes decode to, and is `Other` where its type's fields do not fit in them. -/
def OwnBytes (body : UInt8 → Bytes → Nat → UInt8 → Option M) (other : UInt8 → M)
    (need : UInt8 → UInt8 → Option Nat) (b : Bytes) (h : DatagramHeader) (ms : List M) : Prop :=
  ∀ (i o len : Nat) (m : M), (messageSpans b h)[i]? = some (o, len) → ms[i]? = some m →
    m = messageAt (orOther body other) (window b o len) h.schemaVersion 0 ∧
      ∀ n, need (b[o]?.getD 0) h.schemaVersion = some n → len < n → m = other (b[o]?.getD 0)

/-- Every message declares the length of its type's fields, or the buffer ends before them. -/
def Covered (need : UInt8 → UInt8 → Option Nat) (checked : UInt8 → Prop) (b : Bytes) (h : DatagramHeader) : Prop :=
  ∀ s ∈ messageSpans b h, ∀ n, need (b[s.1]?.getD 0) h.schemaVersion = some n →
    checked (b[s.1]?.getD 0) ∨ n ≤ s.2 ∨ b.length < s.1 + n

variable {body : UInt8 → Bytes → Nat → UInt8 → Option M} {other : UInt8 → M} {need : UInt8 → UInt8 → Option Nat}
  {checked : UInt8 → Prop}

/-- One message: it is its own bytes' exactly when they cover its fields or the buffer does not hold them. -/
theorem OwnFields.message_iff (hf : OwnFields body other need checked) {b : Bytes} {o len : Nat} (ver : UInt8)
    (hmin : MSG_HEADER_SIZE ≤ len) (hfit : o + len ≤ b.length) (hlen : len = (b[o + 1]?.getD 0).toNat) :
    (messageAt (orOther body other) b ver o = messageAt (orOther body other) (window b o len) ver 0 ∧
        ∀ n, need (b[o]?.getD 0) ver = some n → len < n → messageAt (orOther body other) b ver o = other (b[o]?.getD 0)) ↔
      ∀ n, need (b[o]?.getD 0) ver = some n → checked (b[o]?.getD 0) ∨ n ≤ len ∨ b.length < o + n := by
  have hty : (window b o len)[0]? = b[o]? := getElem?_window (by unfold MSG_HEADER_SIZE at hmin; omega)
  unfold messageAt orOther
  rw [hty]
  generalize (b[o]?.getD 0) = ty
  constructor
  · rintro ⟨-, hother⟩ n hn
    by_contra hnot
    obtain ⟨hc, hlt, hroom⟩ : ¬ checked ty ∧ ¬ n ≤ len ∧ ¬ b.length < o + n := by tauto
    obtain ⟨m, hm, hne⟩ := hf.full ty ver b o n hc hn (by omega)
    have := hother n hn (by omega)
    rw [hm] at this
    exact hne this
  · intro hcov
    cases hn : need ty ver with
    | none =>
      rw [hf.own ty ver b o len hmin hfit hlen (.inr fun n h => by rw [hn] at h; cases h)]
      exact ⟨rfl, fun n h => by cases h⟩
    | some n =>
      by_cases hc : checked ty
      · rw [hf.own ty ver b o len hmin hfit hlen (.inl hc)]
        refine ⟨rfl, fun n' h hlt => ?_⟩
        cases h
        rw [← hf.own ty ver b o len hmin hfit hlen (.inl hc), hf.refused ty ver b o n hc hn (hlen ▸ hlt)]
        rfl
      · by_cases hle : n ≤ len
        · rw [hf.own ty ver b o len hmin hfit hlen (.inr fun n' h => by rw [hn] at h; cases h; exact hle)]
          refine ⟨rfl, fun n' h hlt => ?_⟩
          cases h
          omega
        · have hroom : b.length < o + n := ((hcov n hn).resolve_left hc).resolve_left hle
          rw [hf.short ty ver b o n hc hn hroom, hf.short ty ver (window b o len) 0 n hc hn
            (by rw [length_window]; omega)]
          exact ⟨rfl, fun _ _ _ => rfl⟩

/-- **A datagram's messages are their own bytes' exactly when those cover their fields**, or the buffer ends before
them. -/
theorem OwnFields.ownBytes_iff (hf : OwnFields body other need checked) {b : Bytes} {h : DatagramHeader} :
    OwnBytes body other need b h
        ((messageSpans b h).map fun s => messageAt (orOther body other) b h.schemaVersion s.1) ↔
      Covered need checked b h := by
  constructor
  · intro hown s hs
    obtain ⟨-, hmin, hfit, hlen⟩ := messageSpans_spec hs
    obtain ⟨i, hi, rfl⟩ := List.mem_iff_getElem.mp hs
    have hspan : (messageSpans b h)[i]? = some (messageSpans b h)[i] := List.getElem?_eq_getElem hi
    refine (hf.message_iff h.schemaVersion hmin (hfit.trans (min_le_right _ _)) hlen).mp ?_
    exact hown i _ _ _ hspan (by rw [List.getElem?_map, hspan]; rfl)
  · intro hcov i o len m hspan hm
    have hs := List.mem_of_getElem? hspan
    obtain ⟨-, hmin, hfit, hlen⟩ := messageSpans_spec hs
    rw [List.getElem?_map, hspan] at hm
    cases hm
    exact (hf.message_iff h.schemaVersion hmin (hfit.trans (min_le_right _ _)) hlen).mpr (hcov _ hs)

/-- How long a definition's fields make its message. -/
def definitionEnd (ver : UInt8) : Nat := MSG_HEADER_SIZE + if ver = SCHEMA_V1 then DEF_BODY_LEN_V1 else DEF_BODY_LEN_V3

theorem instrumentDefinition_refused {b : Bytes} {o : Nat} {ver : UInt8}
    (h : (b[o + 1]?.getD 0).toNat < definitionEnd ver) : instrumentDefinition b o ver = none := by
  unfold definitionEnd at h
  unfold instrumentDefinition u8le
  cases hb : b[o + 1]? with
  | none => rfl
  | some x =>
    rw [hb] at h
    simp only [Option.getD_some, bind, Option.bind] at h ⊢
    by_cases hmin : MSG_HEADER_SIZE ≤ x.toNat
    · by_cases h1 : ver = SCHEMA_V1
      · rw [if_pos h1] at h
        simp only [if_pos hmin, if_pos h1]
        rw [if_pos (by omega)]
      · rw [if_neg h1] at h
        by_cases h3 : ver = SCHEMA_V3
        · simp only [if_pos hmin, if_neg h1, if_pos h3]
          rw [if_pos (by omega)]
        · simp only [if_pos hmin, if_neg h1, if_neg h3]
    · simp only [if_neg hmin]

/-- A codec whose fixed layouts are `Fills` readers behind the message header, given a value read from the message's
own bytes, and whose definitions are the shared ones. -/
theorem ownFields_of_layouts {M : Type} {body : UInt8 → Bytes → Nat → UInt8 → Option M} {other : UInt8 → M}
    {need : UInt8 → UInt8 → Option Nat} {checked : UInt8 → Prop} (aux : Bytes → Nat → UInt8 → Nat)
    (wrap : InstrumentDefinition → M)
    (haux : ∀ b o len ver, MSG_HEADER_SIZE ≤ len → o + len ≤ b.length → len = (b[o + 1]?.getD 0).toNat →
      aux b o ver = aux (window b o len) 0 ver)
    (hfixed : ∀ ty ver n, ¬ checked ty → need ty ver = some n → ∃ (r : Nat → Reader M) (k : Nat),
      n = MSG_HEADER_SIZE + k ∧ (∀ x, Fills (r x) k) ∧ (∀ x, Yields (r x) (· ≠ other ty)) ∧
        ∀ b o, body ty b o ver = r (aux b o ver) b (o + MSG_HEADER_SIZE))
    (hrest : ∀ ty ver, ¬ checked ty → need ty ver = none → ∃ x, ∀ b o, body ty b o ver = x)
    (hdefinition : ∀ ty ver b o, checked ty → body ty b o ver = (instrumentDefinition b o ver).map wrap)
    (hend : ∀ ty ver n, checked ty → need ty ver = some n → n = definitionEnd ver) :
    OwnFields body other need checked where
  own ty ver b o len hmin hfit hlen hcov := by
    by_cases hc : checked ty
    · rw [hdefinition ty ver b o hc, hdefinition ty ver _ 0 hc, instrumentDefinition_window ver hmin hfit hlen]
    · cases hn : need ty ver with
      | none =>
        obtain ⟨x, hx⟩ := hrest ty ver hc hn
        rw [hx, hx]
      | some n =>
        obtain ⟨r, k, rfl, hfills, -, hbody⟩ := hfixed ty ver n hc hn
        rw [hbody, hbody, ← haux b o len ver hmin hfit hlen]
        exact ((hfills _).shift MSG_HEADER_SIZE).inside b o len (hcov.resolve_left hc _ hn) hfit
  refused ty ver b o n hc hn hlt := by
    rw [hdefinition ty ver b o hc, instrumentDefinition_refused (hend ty ver n hc hn ▸ hlt)]
    rfl
  short ty ver b o n hc hn hlt := by
    obtain ⟨r, k, rfl, hfills, -, hbody⟩ := hfixed ty ver n hc hn
    rw [hbody]
    exact (hfills _).short b _ (by omega)
  full ty ver b o n hc hn hfit := by
    obtain ⟨r, k, rfl, hfills, hne, hbody⟩ := hfixed ty ver n hc hn
    obtain ⟨m, hm⟩ := Option.isSome_iff_exists.mp ((hfills (aux b o ver)).full b (o + MSG_HEADER_SIZE) (by omega))
    rw [hbody]
    exact ⟨m, hm, hne _ _ _ _ hm⟩

end OwnBytes

end EdgeConnect.CodecCommon
