import EdgeConnect.Ingest.CodecCommon
import EdgeConnect.Lib.Encode
import EdgeConnect.Lib.Percent

/-!
# Encoders for the edge-feed codecs (the tests of `src/ingest/codec_common.rs`)

What `CodecCommon` decodes, encoded.

* `utf8Lossy_asBytes`, `cstr_recovers` — a text without NUL is read back from its padded field;
* `defBodyV1`, `defBodyV3` — a definition in its two layouts; `definitionV1_recovers`, `definitionV3_recovers`;
* `msg` — a body behind its message header; `instrumentDefinition_msg`;
* `decodeDatagramWith_encoded` — the walk finds the messages that were put one after the other.
-/

set_option autoImplicit false

namespace EdgeConnect.CodecCommon

open Layout
open Ingest (InstrumentDefinition)

/-! ## Text -/

theorem toNat_byte {n : Nat} (h : n < 256) : (UInt8.ofNat n).toNat = n := by
  rw [UInt8.toNat_ofNat', Nat.mod_eq_of_lt h]

/-- The comparisons of `utf8Lossy`, as numbers. -/
theorem byte_range {x lo hi : UInt8} (h : lo.toNat ≤ x.toNat ∧ x.toNat ≤ hi.toNat) : lo ≤ x ∧ x ≤ hi :=
  ⟨UInt8.le_iff_toNat_le.mpr h.1, UInt8.le_iff_toNat_le.mpr h.2⟩

theorem not_byte_lt {x y : UInt8} (h : y.toNat ≤ x.toNat) : ¬ x < y := by
  rw [UInt8.lt_iff_toNat_lt]
  omega

/-- A byte past a range. -/
theorem not_byte_range {x lo hi : UInt8} (h : hi.toNat < x.toNat) : ¬ (lo ≤ x ∧ x ≤ hi) := by
  rintro ⟨-, hhi⟩
  rw [UInt8.le_iff_toNat_le] at hhi
  omega

/-- The continuation byte of six bits. -/
def contByte (n : Nat) : UInt8 := UInt8.ofNat (n % 64 + 0x80)

theorem toNat_contByte (n : Nat) : (contByte n).toNat = n % 64 + 0x80 := toNat_byte (by omega)

theorem low6_contByte (n : Nat) : low6 (contByte n) = n % 64 := by
  unfold low6
  rw [toNat_contByte]
  omega

theorem contByte_range {n : Nat} {lo hi : UInt8} (h : lo.toNat ≤ n % 64 + 0x80 ∧ n % 64 + 0x80 ≤ hi.toNat) :
    lo ≤ contByte n ∧ contByte n ≤ hi :=
  byte_range (by rw [toNat_contByte]; exact h)

theorem isCont_contByte (n : Nat) : isCont (contByte n) = true :=
  decide_eq_true (contByte_range (by show 128 ≤ _ ∧ _ ≤ 191; omega))

/-- The numbers of two, three and four bytes. -/
theorem utf8Lossy_two {n : Nat} (hlo : 0x7f < n) (hhi : n ≤ 0x7ff) (rest : Bytes) :
    utf8Lossy (UInt8.ofNat (n / 64 % 0x20 + 0xc0) :: contByte n :: rest) = Char.ofNat n :: utf8Lossy rest := by
  have hx : (UInt8.ofNat (n / 64 % 0x20 + 0xc0)).toNat = n / 64 % 0x20 + 0xc0 := toNat_byte (by omega)
  generalize UInt8.ofNat (n / 64 % 0x20 + 0xc0) = x at hx ⊢
  have h1 : ¬ x < 0x80 := not_byte_lt (by rw [hx]; show 128 ≤ _; omega)
  have h2 : 0xC2 ≤ x ∧ x ≤ 0xDF := byte_range (by rw [hx]; show 194 ≤ _ ∧ _ ≤ 223; omega)
  conv_lhs => unfold utf8Lossy
  rw [if_neg h1, if_pos h2]
  simp only [isCont_contByte, if_true, low6_contByte, hx]
  congr 2
  omega

theorem utf8Lossy_three {n : Nat} (hlo : 0x7ff < n) (hhi : n ≤ 0xffff) (hvalid : n < 0xD800 ∨ 0xDFFF < n)
    (rest : Bytes) :
    utf8Lossy (UInt8.ofNat (n / 4096 % 0x10 + 0xe0) :: contByte (n / 64) :: contByte n :: rest) =
      Char.ofNat n :: utf8Lossy rest := by
  have hx : (UInt8.ofNat (n / 4096 % 0x10 + 0xe0)).toNat = n / 4096 % 0x10 + 0xe0 := toNat_byte (by omega)
  generalize UInt8.ofNat (n / 4096 % 0x10 + 0xe0) = x at hx ⊢
  have h1 : ¬ x < 0x80 := not_byte_lt (by rw [hx]; show 128 ≤ _; omega)
  have h2 : ¬ (0xC2 ≤ x ∧ x ≤ 0xDF) := not_byte_range (by rw [hx]; show 223 < _; omega)
  have h3 : 0xE0 ≤ x ∧ x ≤ 0xEF := byte_range (by rw [hx]; show 224 ≤ _ ∧ _ ≤ 239; omega)
  -- no overlong form and no surrogate
  have hsecond : isSecondOf3 x (contByte (n / 64)) = true := by
    unfold isSecondOf3
    split
    · rename_i hE0
      rw [hE0] at hx
      have : n / 4096 % 16 + 224 = 224 := hx.symm
      exact decide_eq_true (contByte_range (by show 160 ≤ _ ∧ _ ≤ 191; omega))
    · split
      · rename_i hED
        rw [hED] at hx
        have : n / 4096 % 16 + 224 = 237 := hx.symm
        exact decide_eq_true (contByte_range (by show 128 ≤ _ ∧ _ ≤ 159; omega))
      · exact isCont_contByte _
  conv_lhs => unfold utf8Lossy
  rw [if_neg h1, if_neg h2, if_pos h3]
  simp only [hsecond, isCont_contByte, if_true, low6_contByte, hx]
  congr 2
  omega

theorem utf8Lossy_four {n : Nat} (hlo : 0xffff < n) (hhi : n < 0x110000) (rest : Bytes) :
    utf8Lossy (UInt8.ofNat (n / 262144 % 0x08 + 0xf0) :: contByte (n / 4096) :: contByte (n / 64) :: contByte n ::
      rest) = Char.ofNat n :: utf8Lossy rest := by
  have hx : (UInt8.ofNat (n / 262144 % 0x08 + 0xf0)).toNat = n / 262144 % 0x08 + 0xf0 := toNat_byte (by omega)
  generalize UInt8.ofNat (n / 262144 % 0x08 + 0xf0) = x at hx ⊢
  have h1 : ¬ x < 0x80 := not_byte_lt (by rw [hx]; show 128 ≤ _; omega)
  have h2 : ¬ (0xC2 ≤ x ∧ x ≤ 0xDF) := not_byte_range (by rw [hx]; show 223 < _; omega)
  have h3 : ¬ (0xE0 ≤ x ∧ x ≤ 0xEF) := not_byte_range (by rw [hx]; show 239 < _; omega)
  have h4 : 0xF0 ≤ x ∧ x ≤ 0xF4 := byte_range (by rw [hx]; show 240 ≤ _ ∧ _ ≤ 244; omega)
  have hsecond : isSecondOf4 x (contByte (n / 4096)) = true := by
    unfold isSecondOf4
    split
    · rename_i hF0
      rw [hF0] at hx
      have : n / 262144 % 8 + 240 = 240 := hx.symm
      exact decide_eq_true (contByte_range (by show 144 ≤ _ ∧ _ ≤ 191; omega))
    · split
      · rename_i hF4
        rw [hF4] at hx
        have : n / 262144 % 8 + 240 = 244 := hx.symm
        exact decide_eq_true (contByte_range (by show 128 ≤ _ ∧ _ ≤ 143; omega))
      · exact isCont_contByte _
  conv_lhs => unfold utf8Lossy
  rw [if_neg h1, if_neg h2, if_neg h3, if_pos h4]
  simp only [hsecond, isCont_contByte, if_true, low6_contByte, hx]
  congr 2
  omega

/-- **A character is decoded from its encoding.** -/
theorem utf8Lossy_utf8EncodeChar (c : Char) (rest : Bytes) :
    utf8Lossy (String.utf8EncodeChar c ++ rest) = c :: utf8Lossy rest := by
  have hback : Char.ofNat c.val.toNat = c := Char.ofNat_toNat c
  have hvalid : c.val.toNat < 0xD800 ∨ 0xDFFF < c.val.toNat ∧ c.val.toNat < 0x110000 := c.valid
  unfold String.utf8EncodeChar
  generalize c.val.toNat = n at hback hvalid ⊢
  simp only
  rw [← hback]
  split
  · rename_i h1
    have hx : (UInt8.ofNat n).toNat = n := toNat_byte (by omega)
    have hlt : UInt8.ofNat n < 0x80 := by
      rw [UInt8.lt_iff_toNat_lt, hx]
      show n < 128
      omega
    show utf8Lossy (UInt8.ofNat n :: rest) = _
    conv_lhs => unfold utf8Lossy
    rw [if_pos hlt, hx]
  · rename_i h1
    split
    · rename_i h2
      exact utf8Lossy_two (by omega) h2 rest
    · rename_i h2
      split
      · rename_i h3
        exact utf8Lossy_three (by omega) h3 (by omega) rest
      · rename_i h3
        exact utf8Lossy_four (by omega) (by omega) rest

/-- `as_bytes`: the UTF-8 of a text. -/
def asBytes (s : String) : Bytes := s.toList.flatMap String.utf8EncodeChar

theorem utf8Lossy_asBytes (s : String) : utf8Lossy (asBytes s) = s.toList := by
  unfold asBytes
  induction s.toList with
  | nil => rfl
  | cons c l ih => rw [List.flatMap_cons, utf8Lossy_utf8EncodeChar, ih]

/-- Only NUL is encoded with a zero. -/
theorem utf8EncodeChar_ne_zero {c : Char} (hc : c ≠ Char.ofNat 0) : ∀ x ∈ String.utf8EncodeChar c, x ≠ 0 := by
  rintro x hx rfl
  have hzero : c.toNat = 0 := Percent.toNat_of_mem_utf8EncodeChar c 0 hx (by decide)
  exact hc (by rw [← hzero, Char.ofNat_toNat])

theorem asBytes_ne_zero {s : String} (hs : Char.ofNat 0 ∉ s.toList) : ∀ x ∈ asBytes s, x ≠ 0 := by
  intro x hx
  obtain ⟨c, hc, hx⟩ := List.mem_flatMap.mp hx
  exact utf8EncodeChar_ne_zero (fun h => hs (h ▸ hc)) x hx

/-- **A text is read back from its field**, padded with NULs. -/
theorem cstr_recovers {xs : Bytes} {s : String} (len k : Nat) (hlen : 0 < len) (hfit : (asBytes s).length ≤ len)
    (hs : Char.ofNat 0 ∉ s.toList)
    (hk : window xs k len = asBytes s ++ List.replicate (len - (asBytes s).length) 0) :
    Recovers xs (fun b o => cstr len b (o + k)) s := by
  have hsize : (asBytes s ++ List.replicate (len - (asBytes s).length) (0 : UInt8)).length = len := by
    rw [List.length_append, List.length_replicate]
    omega
  have hne : asBytes s ++ List.replicate (len - (asBytes s).length) (0 : UInt8) ≠ [] := by
    intro h
    rw [h] at hsize
    exact absurd hsize (by rw [List.length_nil]; omega)
  have htext : (asBytes s ++ List.replicate (len - (asBytes s).length) (0 : UInt8)).takeWhile (fun x => x ≠ 0) =
      asBytes s := by
    rw [List.takeWhile_append_of_pos fun x hx => by simpa using asBytes_ne_zero hs x hx]
    cases len - (asBytes s).length with
    | zero => exact List.append_nil _
    | succ n =>
      rw [List.replicate_succ, List.takeWhile_cons_of_neg (by simp)]
      exact List.append_nil _
  have h := (Recovers.bytes hne).map (f := fun field : Bytes =>
    String.ofList (utf8Lossy (field.takeWhile fun x => x ≠ 0)))
  rw [hsize, htext, utf8Lossy_asBytes, String.ofList_toList] at h
  exact h.field k hne (by rw [hsize]; exact hk)

/-! ## The instrument definition -/

/-- The layout of schema version 1, written at its offsets. -/
def defBodyV1 (instrumentId : Nat) (symbol : Bytes) (priceExponent qtyExponent tickSize : Int) (manifestSeq : Nat) :
    Bytes :=
  puts (List.replicate 76 0) [
    (0, toLe 4 instrumentId),
    (4, symbol),
    (37, [ofI8 priceExponent]),
    (38, [ofI8 qtyExponent]),
    (40, toLe 8 (ofI64 tickSize)),
    (74, toLe 2 manifestSeq)]

/-- The layout of schema version 3. -/
def defBodyV3 (instrumentId sourceId : Nat) (symbol : Bytes) (priceExponent qtyExponent tickSize : Int)
    (manifestSeq : Nat) : Bytes :=
  puts (List.replicate 126 0) [
    (0, toLe 4 instrumentId),
    (4, toLe 2 sourceId),
    (6, symbol),
    (87, [ofI8 priceExponent]),
    (88, [ofI8 qtyExponent]),
    (90, toLe 8 (ofI64 tickSize)),
    (124, toLe 2 manifestSeq)]

/-- What a definition's fields may be: of their widths, and a symbol of at most `len` bytes without NUL. -/
structure DefinitionFits (d : InstrumentDefinition) (len : Nat) : Prop where
  instrumentId : d.instrumentId < 2 ^ 32
  symbol : (asBytes d.symbol).length ≤ len
  noNul : Char.ofNat 0 ∉ d.symbol.toList
  priceExponent : -2 ^ 7 ≤ d.priceExponent ∧ d.priceExponent < 2 ^ 7
  qtyExponent : -2 ^ 7 ≤ d.qtyExponent ∧ d.qtyExponent < 2 ^ 7
  tickSize : -2 ^ 63 ≤ d.tickSize ∧ d.tickSize < 2 ^ 63
  manifestSeq : d.manifestSeq < 2 ^ 16

section Bodies

variable {d : InstrumentDefinition}

/-- The writes of a definition of version 1 lie in their own places. -/
theorem fit_defBodyV1 (h : DefinitionFits d DEF_SYM_LEN_V1) : Fit (List.replicate 76 (0 : UInt8)) [
    (0, toLe 4 d.instrumentId), (4, asBytes d.symbol), (37, [ofI8 d.priceExponent]), (38, [ofI8 d.qtyExponent]),
    (40, toLe 8 (ofI64 d.tickSize)), (74, toLe 2 d.manifestSeq)] := by
  have hsym : (asBytes d.symbol).length ≤ 16 := h.symbol
  simp [Fit]
  omega

theorem length_defBodyV1 (h : DefinitionFits d DEF_SYM_LEN_V1) :
    (defBodyV1 d.instrumentId (asBytes d.symbol) d.priceExponent d.qtyExponent d.tickSize d.manifestSeq).length =
      DEF_BODY_LEN_V1 :=
  length_puts (fit_defBodyV1 h)

theorem definitionV1_recovers (h : DefinitionFits d DEF_SYM_LEN_V1) :
    Recovers (defBodyV1 d.instrumentId (asBytes d.symbol) d.priceExponent d.qtyExponent d.tickSize d.manifestSeq)
      definitionV1 { d with sourceId := none } := by
  have hsym : (asBytes d.symbol).length ≤ 16 := h.symbol
  unfold defBodyV1
  generalize hws : [(0, toLe 4 d.instrumentId), (4, asBytes d.symbol), (37, [ofI8 d.priceExponent]),
    (38, [ofI8 d.qtyExponent]), (40, toLe 8 (ofI64 d.tickSize)), (74, toLe 2 d.manifestSeq)] = ws
  have hfit : Fit (List.replicate 76 0) ws := hws ▸ fit_defBodyV1 h
  have hapart : ws.Pairwise Apart := by
    simp [← hws, Apart]
    omega
  have hsymbol : window (puts (List.replicate 76 0) ws) 4 16 =
      asBytes d.symbol ++ List.replicate (16 - (asBytes d.symbol).length) 0 :=
    window_puts_padded hfit hapart (by simp [← hws]) hsym (by decide) (by simp [← hws])
  have hread := window_puts hfit hapart
  simp only [← hws, List.forall_mem_cons, length_toLe, List.length_cons, List.length_nil] at hread
  rw [hws] at hread
  obtain ⟨hid, -, hprice, hqty, htick, hmanifest, -⟩ := hread
  have hfields : { d with sourceId := none } = InstrumentDefinition.mk d.instrumentId none d.symbol
      (toI8 (ofI8 d.priceExponent)) (toI8 (ofI8 d.qtyExponent)) d.tickSize d.manifestSeq := by
    rw [toI8_ofI8 h.priceExponent.1 h.priceExponent.2, toI8_ofI8 h.qtyExponent.1 h.qtyExponent.2]
  rw [hfields]
  exact (Recovers.u32le 0 h.instrumentId hid).bind <|
    (cstr_recovers DEF_SYM_LEN_V1 4 (by decide) hsym h.noNul hsymbol).bind <|
    (Recovers.u8le 37 hprice).bind <| (Recovers.u8le 38 hqty).bind <| (Recovers.i64le 40 h.tickSize htick).bind <|
    (Recovers.u16le 74 h.manifestSeq hmanifest).last

theorem fit_defBodyV3 (sourceId : Nat) (h : DefinitionFits d DEF_SYM_LEN_V3) : Fit (List.replicate 126 (0 : UInt8)) [
    (0, toLe 4 d.instrumentId), (4, toLe 2 sourceId), (6, asBytes d.symbol), (87, [ofI8 d.priceExponent]),
    (88, [ofI8 d.qtyExponent]), (90, toLe 8 (ofI64 d.tickSize)), (124, toLe 2 d.manifestSeq)] := by
  have hsym : (asBytes d.symbol).length ≤ 64 := h.symbol
  simp [Fit]
  omega

theorem length_defBodyV3 (sourceId : Nat) (h : DefinitionFits d DEF_SYM_LEN_V3) :
    (defBodyV3 d.instrumentId sourceId (asBytes d.symbol) d.priceExponent d.qtyExponent d.tickSize
      d.manifestSeq).length = DEF_BODY_LEN_V3 :=
  length_puts (fit_defBodyV3 sourceId h)

theorem definitionV3_recovers {sourceId : Nat} (h : DefinitionFits d DEF_SYM_LEN_V3) (hsource : sourceId < 2 ^ 16) :
    Recovers
      (defBodyV3 d.instrumentId sourceId (asBytes d.symbol) d.priceExponent d.qtyExponent d.tickSize d.manifestSeq)
      definitionV3 { d with sourceId := some sourceId } := by
  have hsym : (asBytes d.symbol).length ≤ 64 := h.symbol
  unfold defBodyV3
  generalize hws : [(0, toLe 4 d.instrumentId), (4, toLe 2 sourceId), (6, asBytes d.symbol),
    (87, [ofI8 d.priceExponent]), (88, [ofI8 d.qtyExponent]), (90, toLe 8 (ofI64 d.tickSize)),
    (124, toLe 2 d.manifestSeq)] = ws
  have hfit : Fit (List.replicate 126 0) ws := hws ▸ fit_defBodyV3 sourceId h
  have hapart : ws.Pairwise Apart := by
    simp [← hws, Apart]
    omega
  have hsymbol : window (puts (List.replicate 126 0) ws) 6 64 =
      asBytes d.symbol ++ List.replicate (64 - (asBytes d.symbol).length) 0 :=
    window_puts_padded hfit hapart (by simp [← hws]) hsym (by decide) (by simp [← hws])
  have hread := window_puts hfit hapart
  simp only [← hws, List.forall_mem_cons, length_toLe, List.length_cons, List.length_nil] at hread
  rw [hws] at hread
  obtain ⟨hid, hsrc, -, hprice, hqty, htick, hmanifest, -⟩ := hread
  have hfields : { d with sourceId := some sourceId } = InstrumentDefinition.mk d.instrumentId (some sourceId) d.symbol
      (toI8 (ofI8 d.priceExponent)) (toI8 (ofI8 d.qtyExponent)) d.tickSize d.manifestSeq := by
    rw [toI8_ofI8 h.priceExponent.1 h.priceExponent.2, toI8_ofI8 h.qtyExponent.1 h.qtyExponent.2]
  rw [hfields]
  exact (Recovers.u32le 0 h.instrumentId hid).bind <| (Recovers.u16le 4 hsource hsrc).bind <|
    (cstr_recovers DEF_SYM_LEN_V3 6 (by decide) hsym h.noNul hsymbol).bind <|
    (Recovers.u8le 87 hprice).bind <| (Recovers.u8le 88 hqty).bind <| (Recovers.i64le 90 h.tickSize htick).bind <|
    (Recovers.u16le 124 h.manifestSeq hmanifest).last

end Bodies

/-! ## A message -/

/-- `msg`: a body behind its message header, which declares the length of both. -/
def msg (ty : UInt8) (flags : Nat) (body : Bytes) : Bytes :=
  [ty, UInt8.ofNat (4 + body.length)] ++ toLe 2 flags ++ body

theorem length_msg (ty : UInt8) (flags : Nat) (body : Bytes) : (msg ty flags body).length = 4 + body.length := by
  unfold msg
  rw [List.length_append, List.length_append, length_toLe]
  rfl

section Message

variable {b body : Bytes} {o flags : Nat} {ty : UInt8}

theorem type_of_msg (h : Holds b o (msg ty flags body)) : b[o]? = some ty :=
  h.getElem? (k := 0) (by rw [length_msg]; omega)

theorem length_of_msg (h : Holds b o (msg ty flags body)) : b[o + 1]? = some (UInt8.ofNat (4 + body.length)) :=
  h.getElem? (k := 1) (by rw [length_msg]; omega)

theorem body_of_msg (h : Holds b o (msg ty flags body)) : Holds b (o + MSG_HEADER_SIZE) body := by
  have hbody := Holds.right h
  rwa [List.length_append, length_toLe] at hbody

/-- **A definition is read back from its message**, in the layout of the declared version. -/
theorem instrumentDefinition_msg {d : InstrumentDefinition} {ver : UInt8} (h : Holds b o (msg ty flags body))
    (hbody : ver = SCHEMA_V1 ∧ body.length = DEF_BODY_LEN_V1 ∧ Recovers body definitionV1 d ∨
      ver = SCHEMA_V3 ∧ body.length = DEF_BODY_LEN_V3 ∧ Recovers body definitionV3 d) :
    instrumentDefinition b o ver = some d := by
  unfold instrumentDefinition u8le
  rw [length_of_msg h]
  rcases hbody with ⟨rfl, hlen, hrec⟩ | ⟨rfl, hlen, hrec⟩
  · rw [hlen]
    exact hrec b _ (body_of_msg h)
  · rw [hlen]
    exact hrec b _ (body_of_msg h)

end Message

/-! ## The walk -/

/-- A message of at most 255 bytes that declares its length. -/
structure Framed (xs : Bytes) : Prop where
  min : MSG_HEADER_SIZE ≤ xs.length
  declares : xs[1]?.map UInt8.toNat = some xs.length

theorem Framed.length_lt {xs : Bytes} (h : Framed xs) : xs.length < 256 := by
  obtain ⟨x, -, hx⟩ := Option.map_eq_some_iff.mp h.declares
  rw [← hx]
  exact x.toNat_lt

theorem framed_msg {ty : UInt8} {flags : Nat} {body : Bytes} (h : body.length < 252) : Framed (msg ty flags body) where
  min := by
    rw [length_msg]
    exact Nat.le_add_right 4 _
  declares := by
    rw [length_msg]
    show some (UInt8.ofNat (4 + body.length)).toNat = _
    rw [toNat_byte (by omega)]

section Datagram

variable {M α : Type} {decodeMessage : UInt8 → Nat → Bytes → Nat → UInt8 → Except DecodeError M}

/-- The walk over messages put one after the other; `val` is what an encoding carries of its message. -/
theorem spans_encoded {enc : α → Bytes} {val : α → M} {b : Bytes} {ver : UInt8} {datagramLen : Nat}
    (hd : datagramLen ≤ b.length) :
    ∀ {ms : List α} {off : Nat}, Holds b off (ms.flatMap enc) → off + (ms.flatMap enc).length ≤ datagramLen →
      (∀ m ∈ ms, Framed (enc m)) →
      (∀ m ∈ ms, ∀ o, Holds b o (enc m) → decodeAt decodeMessage b ver o = .ok (val m)) →
      (spans b datagramLen ms.length off).mapM (fun s => decodeAt decodeMessage b ver s.1) = .ok (ms.map val)
  | [], _, _, _, _, _ => rfl
  | m :: ms, off, hb, hfit, hframed, hdec => by
    rw [List.flatMap_cons] at hb hfit
    rw [List.length_append] at hfit
    obtain ⟨hmin, hdeclares⟩ := hframed m List.mem_cons_self
    have hm : Holds b off (enc m) := hb.left
    have hlen : (b[off + 1]?.getD 0).toNat = (enc m).length := by
      rw [hm.getElem? (by unfold MSG_HEADER_SIZE at hmin; omega)]
      obtain ⟨x, hx, hxlen⟩ := Option.map_eq_some_iff.mp hdeclares
      rw [hx]
      exact hxlen
    have hrest := spans_encoded hd hb.right (by omega) (fun m' h => hframed m' (List.mem_cons_of_mem _ h))
      fun m' h => hdec m' (List.mem_cons_of_mem _ h)
    rw [List.length_cons]
    unfold spans
    rw [if_neg (by omega)]
    simp only [hlen]
    rw [if_neg (by omega), List.mapM_cons, hdec m List.mem_cons_self off hm]
    simp only [hrest]
    rfl

/-- **A datagram decodes to what its messages carry**, behind its header and whatever follows it. -/
theorem decodeDatagramWith_carried {enc : α → Bytes} {val : α → M} {magic : Nat} {versions : List UInt8}
    {hdr tail : Bytes} {h : DatagramHeader} {ms : List α}
    (hsize : hdr.length = DATAGRAM_HEADER_SIZE) (hmagic : Recovers hdr u16le magic)
    (hheader : header (hdr ++ (ms.flatMap enc ++ tail)) = .ok h) (hver : h.schemaVersion ∈ versions)
    (hcount : h.msgCount.toNat = ms.length)
    (hlength : h.datagramLength = DATAGRAM_HEADER_SIZE + (ms.flatMap enc).length)
    (hframed : ∀ m ∈ ms, Framed (enc m))
    (hdec : ∀ m ∈ ms, ∀ o, Holds (hdr ++ (ms.flatMap enc ++ tail)) o (enc m) →
      decodeAt decodeMessage (hdr ++ (ms.flatMap enc ++ tail)) h.schemaVersion o = .ok (val m)) :
    decodeDatagramWith decodeMessage magic versions (hdr ++ (ms.flatMap enc ++ tail)) = .ok (h, ms.map val) := by
  have htotal : (hdr ++ (ms.flatMap enc ++ tail)).length = h.datagramLength + tail.length := by
    rw [List.length_append, List.length_append, hsize, hlength, Nat.add_assoc]
  have hmagic' := hmagic _ 0 (holds_self (hdr ++ (ms.flatMap enc ++ tail))).left
  refine decodeDatagramWith_eq.mpr ⟨by omega, by rw [hmagic']; rfl, hheader, hver, ?_⟩
  unfold messageSpans
  rw [htotal, Nat.min_eq_left (Nat.le_add_right _ _), hcount]
  refine spans_encoded (by omega) ?_ (by omega) hframed hdec
  rw [← hsize]
  exact (holds_append hdr _).left

/-- **A datagram decodes to the messages that were put behind its header.** -/
theorem decodeDatagramWith_encoded {enc : M → Bytes} {magic : Nat} {versions : List UInt8} {hdr : Bytes}
    {h : DatagramHeader} {ms : List M}
    (hsize : hdr.length = DATAGRAM_HEADER_SIZE) (hmagic : Recovers hdr u16le magic)
    (hheader : header (hdr ++ ms.flatMap enc) = .ok h) (hver : h.schemaVersion ∈ versions)
    (hcount : h.msgCount.toNat = ms.length)
    (hlength : h.datagramLength = DATAGRAM_HEADER_SIZE + (ms.flatMap enc).length)
    (hframed : ∀ m ∈ ms, Framed (enc m))
    (hdec : ∀ m ∈ ms, ∀ o, Holds (hdr ++ ms.flatMap enc) o (enc m) →
      decodeAt decodeMessage (hdr ++ ms.flatMap enc) h.schemaVersion o = .ok m) :
    decodeDatagramWith decodeMessage magic versions (hdr ++ ms.flatMap enc) = .ok (h, ms) := by
  rw [← List.append_nil (ms.flatMap enc)] at hheader hdec ⊢
  have hcarried := decodeDatagramWith_carried hsize hmagic hheader hver hcount hlength hframed hdec
  rwa [List.map_id' ms] at hcarried

end Datagram

end EdgeConnect.CodecCommon
