import EdgeConnect.Ingest.CodecEncode
import EdgeConnect.Lib.Percent
import EdgeConnect.Lib.Tokens
import Mathlib.Algebra.Group.Nat.Defs

/-!
# The HTTP request parser (`src/sinks/http.rs`)

* `decodeStep`, `decodeLoop`, `percentDecode` — the decoder over indices, each read checked;
* `parseRequest` — the request line and the headers;
* `productScoped` — how the product endpoints of `src/sinks/api.rs` split their path;
* `decodeLoop_eq` — the decoder stays inside its input, and is `Percent.unescape`;
* `parseRequest_line`, `parseRequest_path` — what a request that begins with a method and a target is parsed to.
-/

set_option autoImplicit false

namespace EdgeConnect.Http

open Text
open CodecCommon (Bytes utf8Lossy asBytes utf8Lossy_asBytes)
open Percent (char hexByte unescape PERCENT)

/-! ## Percent-decoding -/

/-- One turn of the loop: the byte that is pushed, and the next index; `none` is a read past the end. -/
def decodeStep (bytes : Bytes) (i : Nat) : Option (UInt8 × Nat) := do
  let b ← bytes[i]?
  if b = PERCENT ∧ i + 2 < bytes.length then
    let h ← bytes[i + 1]?
    let l ← bytes[i + 2]?
    match hexByte h l with
    | some x => return (x, i + 3)
    | none => return (b, i + 1)
  else return (b, i + 1)

/-- The loop from `i` on; `none` is a read past the end, or a loop that did not end within its fuel. -/
def decodeLoop (bytes : Bytes) : Nat → Nat → Option Bytes
  | 0, i => if i < bytes.length then none else some []
  | fuel + 1, i =>
    if i < bytes.length then do
      let (b, next) ← decodeStep bytes i
      let out ← decodeLoop bytes fuel next
      return b :: out
    else some []

/-- The bytes that `percent_decode` collects. -/
def decode (bytes : Bytes) : Option Bytes := decodeLoop bytes bytes.length 0

/-- One turn decodes the head of what is left. -/
theorem decodeStep_eq {bytes : Bytes} {i : Nat} (h : i < bytes.length) :
    ∃ b next, decodeStep bytes i = some (b, next) ∧ i < next ∧
      unescape (bytes.drop i) = b :: unescape (bytes.drop next) := by
  have hb : bytes[i]? = some bytes[i] := List.getElem?_eq_getElem h
  have hdrop : bytes.drop i = bytes[i] :: bytes.drop (i + 1) := List.drop_eq_getElem_cons h
  unfold decodeStep
  rw [hb, hdrop]
  simp only [Option.bind_eq_bind, Option.bind_some]
  split
  · next hcond =>
    obtain ⟨hpercent, hlt⟩ := hcond
    have hdrop1 : bytes.drop (i + 1) = bytes[i + 1] :: bytes.drop (i + 2) := List.drop_eq_getElem_cons (by omega)
    have hdrop2 : bytes.drop (i + 2) = bytes[i + 2] :: bytes.drop (i + 3) := List.drop_eq_getElem_cons hlt
    rw [List.getElem?_eq_getElem (show i + 1 < bytes.length by omega), List.getElem?_eq_getElem hlt, hpercent]
    simp only [Option.bind_some]
    cases hx : hexByte bytes[i + 1] bytes[i + 2] with
    | some x =>
      refine ⟨x, i + 3, rfl, by omega, ?_⟩
      rw [hdrop1, hdrop2]
      exact Percent.unescape_hex hx _
    | none =>
      refine ⟨PERCENT, i + 1, rfl, by omega, Percent.unescape_pass fun _ x y tail heq => ?_⟩
      rw [hdrop1, hdrop2, List.cons.injEq, List.cons.injEq] at heq
      obtain ⟨rfl, rfl, -⟩ := heq
      exact hx
  · next hcond =>
    refine ⟨bytes[i], i + 1, rfl, by omega, Percent.unescape_pass fun hpercent x y tail heq => ?_⟩
    -- a percent sign with two bytes after it would have met the condition
    have hlength := congrArg List.length heq
    rw [List.length_drop, List.length_cons, List.length_cons] at hlength
    exact absurd ⟨hpercent, by omega⟩ hcond

/-- **The decoder stays inside its input**, on any bytes, and decodes each escape. -/
theorem decodeLoop_eq (bytes : Bytes) : ∀ (fuel i : Nat), bytes.length ≤ i + fuel →
    decodeLoop bytes fuel i = some (unescape (bytes.drop i))
  | 0, i, hfuel => by
    rw [decodeLoop, if_neg (by omega), List.drop_eq_nil_of_le (by omega)]
    rfl
  | fuel + 1, i, hfuel => by
    unfold decodeLoop
    split
    · next hlt =>
      obtain ⟨b, next, hstep, hnext, hhead⟩ := decodeStep_eq hlt
      rw [hstep, hhead]
      simp only [Option.bind_eq_bind, Option.bind_some]
      rw [decodeLoop_eq bytes fuel next (by omega)]
      rfl
    · next hge =>
      rw [List.drop_eq_nil_of_le (by omega)]
      rfl

theorem decode_eq (bytes : Bytes) : decode bytes = some (unescape bytes) := decodeLoop_eq bytes _ 0 (by omega)

def percentDecode (s : String) : String :=
  String.ofList (utf8Lossy ((decode (asBytes s)).get (by rw [decode_eq]; rfl)))

theorem percentDecode_eq (s : String) : percentDecode s = String.ofList (utf8Lossy (unescape (asBytes s))) := by
  unfold percentDecode
  congr 2
  exact Option.get_of_eq_some _ (decode_eq _)

theorem percentDecode_ofList (cs : List Char) :
    percentDecode (String.ofList cs) = String.ofList (utf8Lossy (unescape (Percent.utf8 cs))) := by
  rw [percentDecode_eq, asBytes, String.toList_ofList]
  rfl

/-! ## Requests -/

structure Request where
  method : String
  path : String
  params : List (String × String)
  contentLength : Nat
  headers : List (String × String)
  deriving DecidableEq, Repr

/-- `from_utf8`. -/
def fromUtf8 (buf : Bytes) : Option String := String.fromUTF8? buf.toByteArray

/-- `to_ascii_uppercase`. -/
def toAsciiUppercase (s : String) : String := String.ofList (s.toList.map Char.toUpper)

def parseHeaders : List String → List (String × String)
  | [] => []
  | line :: rest =>
    if line = "" then []
    else
      match splitOnce ':' line with
      | some (name, value) => (trim name, trim value) :: parseHeaders rest
      | none => parseHeaders rest

/-- One segment of a query string. -/
def parsePair (pair : String) : String × String :=
  match splitOnce '=' pair with
  | some (key, value) => (percentDecode key, percentDecode value)
  | none => (percentDecode pair, percentDecode "")

def parseQueryParams (query : String) : List (String × String) :=
  ((split '&' query).filter fun pair => pair ≠ "").map parsePair

/-- The path of a target, and its parameters. -/
def parseTarget (target : String) : String × List (String × String) :=
  match splitOnce '?' target with
  | some (path, query) => (path, parseQueryParams query)
  | none => (target, [])

def contentLength (headers : List (String × String)) : Nat :=
  ((headers.find? fun h => eqIgnoreAsciiCase h.1 "content-length").bind fun h =>
    parseUnsigned (2 ^ 64 - 1) (trim h.2)).getD 0

def parseRequest (buf : Bytes) : Option Request := do
  let text ← fromUtf8 buf
  match lines text with
  | [] => none
  | line :: rest =>
    match words line with
    | method :: target :: _ =>
      let (path, params) := parseTarget target
      let headers := parseHeaders rest
      return { method := toAsciiUppercase method, path, params, contentLength := contentLength headers, headers }
    | _ => none

/-- The id segment of the rest of a path behind `/v1/products/`, and the sub-resource. -/
def productScoped (rest : String) : String × Option String :=
  match splitOnce '/' rest with
  | some (rawId, sub) => (rawId, some sub)
  | none => (rest, none)

/-- How a path under `/v1/products/` is routed. -/
def productRoute (path : String) : Option (String × Option String) :=
  ("/v1/products/".toList.isPrefixOf? path.toList).map fun rest => productScoped (String.ofList rest)

/-! ## Requests that begin with a method and a target -/

theorem fromUtf8_asBytes (s : String) : fromUtf8 (asBytes s) = some s := by
  have hbytes : (asBytes s).toByteArray = s.toByteArray := String.utf8Encode_toList
  unfold fromUtf8 String.fromUTF8?
  rw [hbytes, dif_pos s.isValidUTF8]
  rfl

theorem parseTarget_of_notMem {target : String} (h : '?' ∉ target.toList) : parseTarget target = (target, []) := by
  unfold parseTarget
  rw [splitOnce_eq_none.mpr h]

theorem parseTarget_cut {target path query : String} (h : target.toList = path.toList ++ '?' :: query.toList)
    (hpath : '?' ∉ path.toList) : parseTarget target = (path, parseQueryParams query) := by
  unfold parseTarget
  rw [splitOnce_eq_some.mpr ⟨h, hpath⟩]

section

variable {text : String} {m p t r : List Char}

/-- **The request line is read up to white space**, whatever follows it. -/
theorem parseRequest_line (htext : text.toList = m ++ ' ' :: (t ++ r)) (hm : Word m) (ht : Word t) (hr : Breaks r) :
    ∃ contentLength headers, parseRequest (asBytes text) = some
      { method := toAsciiUppercase (String.ofList m), path := (parseTarget (String.ofList t)).1,
        params := (parseTarget (String.ofList t)).2, contentLength, headers } := by
  have hfeed : '\n' ∉ m ++ ' ' :: t := by
    rw [List.mem_append, List.mem_cons, not_or, not_or]
    exact ⟨hm.notMem rfl, by decide, ht.notMem rfl⟩
  have hlast : (m ++ ' ' :: t).getLast? ≠ some '\r' := by
    intro h
    rw [List.getLast?_append_of_ne_nil _ (List.cons_ne_nil _ _), List.getLast?_cons_of_ne_nil ht.1] at h
    exact ht.notMem rfl (List.mem_of_getLast? h)
  obtain ⟨q, rest, hq, hlines⟩ :=
    lines_head (List.append_ne_nil_of_right_ne_nil m (List.cons_ne_nil ' ' t)) hfeed hlast r
  have hwords : words (String.ofList (m ++ ' ' :: t ++ q)) =
      String.ofList m :: String.ofList t :: words (String.ofList q) := by
    have hspace : Breaks (' ' :: (t ++ q)) := by
      intro c hc
      cases hc
      rfl
    rw [List.append_assoc, List.cons_append, words_cons hm.1 hm.2 hspace, words_skip rfl,
      words_cons ht.1 ht.2 (hr.initial hq)]
  have hwhole : text = String.ofList (m ++ ' ' :: t ++ r) := by
    rw [← String.toList_inj, htext, String.toList_ofList, List.append_assoc, List.cons_append]
  refine ⟨contentLength (parseHeaders rest), parseHeaders rest, ?_⟩
  unfold parseRequest
  rw [fromUtf8_asBytes]
  simp only [Option.bind_eq_bind, Option.bind_some]
  rw [hwhole, hlines]
  simp only
  rw [hwords]
  rfl

/-- The path ends at a `?` or at white space. -/
theorem parseRequest_path (htext : text.toList = m ++ ' ' :: (p ++ r)) (hm : Word m) (hp : Word p) (hquery : '?' ∉ p)
    (hr : ∀ c ∈ r.head?, isWhitespace c = true ∨ c = '?') :
    ∃ req, parseRequest (asBytes text) = some req ∧ req.path = String.ofList p := by
  have hp' : '?' ∉ (String.ofList p).toList := by rwa [String.toList_ofList]
  by_cases hbreaks : Breaks r
  · obtain ⟨_, _, hreq⟩ := parseRequest_line htext hm hp hbreaks
    exact ⟨_, hreq, congrArg Prod.fst (parseTarget_of_notMem hp')⟩
  · cases r with
    | nil => exact absurd (fun c hc => (by cases hc)) hbreaks
    | cons c r =>
      have hc : c = '?' := by
        rcases hr c rfl with hc | hc
        · exact absurd (fun d hd => (by cases hd; exact hc)) hbreaks
        · exact hc
      subst hc
      -- the target ends at the first white space of the query
      obtain ⟨w, q, hwq, hw, hq⟩ := exists_word r
      have ht : Word (p ++ '?' :: w) := by
        refine ⟨List.append_ne_nil_of_left_ne_nil hp.1 _, fun c hc => ?_⟩
        rcases List.mem_append.mp hc with hc | hc
        · exact hp.2 c hc
        · rcases List.mem_cons.mp hc with rfl | hc
          · rfl
          · exact hw c hc
      have htext' : text.toList = m ++ ' ' :: ((p ++ '?' :: w) ++ q) := by
        rw [htext, hwq, List.append_assoc, List.cons_append]
      obtain ⟨_, _, hreq⟩ := parseRequest_line htext' hm ht hq
      have hcut : (String.ofList (p ++ '?' :: w)).toList =
          (String.ofList p).toList ++ '?' :: (String.ofList w).toList := by
        simp only [String.toList_ofList]
      exact ⟨_, hreq, congrArg Prod.fst (parseTarget_cut hcut hp')⟩

end

theorem isPrefixOf?_append : ∀ l r : List Char, l.isPrefixOf? (l ++ r) = some r
  | [], _ => rfl
  | c :: l, r => by
    rw [List.cons_append, List.isPrefixOf?, if_pos (beq_self_eq_true c)]
    exact isPrefixOf?_append l r

theorem productRoute_cut {path rest : String} (h : path.toList = "/v1/products/".toList ++ rest.toList) :
    productRoute path = some (productScoped rest) := by
  unfold productRoute
  rw [h, isPrefixOf?_append, Option.map_some, String.ofList_toList]

end EdgeConnect.Http
