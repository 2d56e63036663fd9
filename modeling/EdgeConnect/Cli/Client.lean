import EdgeConnect.Sinks.Http

/-!
# The requests of the command line (`doublezero-edge/src/client.rs`)

What the client puts on the wire, and what the server's parser makes of it.

* `formEncode`, `formQuery` — the query serializer of the HTTP library;
* `get`, `adminPostWith`, `encodePathSegment` — the requests, and the encoding of a path segment;
* `params_received` — every key and value arrives with a `+` for each of its spaces;
* `query_arrives_iff` — so the pairs arrive as they were sent exactly when they hold no space;
* `product_id_survives` — a product id arrives as it was, with its sub-resource.
-/

set_option autoImplicit false

namespace EdgeConnect.Cli.Client

open Text Http
open CodecCommon (Bytes utf8Lossy asBytes utf8Lossy_asBytes)
open Percent (escape unescape utf8)

/-! ## Encoders -/

/-- What form encoding leaves as it is. -/
def formKeep (c : Char) : Bool := c.isAlphanum || ['*', '-', '.', '_'].contains c

/-- A byte of a form-encoded text. -/
def formByte (b : UInt8) : List Char := if b = 0x20 then ['+'] else escape formKeep b

def formEncode (s : String) : String := String.ofList ((asBytes s).flatMap formByte)

def formPair (pair : String × String) : String := formEncode pair.1 ++ "=" ++ formEncode pair.2

def formQuery (query : List (String × String)) : String := "&".intercalate (query.map formPair)

/-- `unreserved_or_subdelim`. -/
def unreservedOrSubdelim (c : Char) : Bool :=
  c.isAlphanum ||
    ['-', '.', '_', '~', ':', '@', '!', '$', '&', '\'', '(', ')', '*', '+', ',', ';', '='].contains c

def encodePathSegment (s : String) : String := String.ofList ((asBytes s).flatMap (escape unreservedOrSubdelim))

/-! ## Requests -/

inductive Method where
  | get
  | post
  deriving DecidableEq, Repr

def Method.text : Method → String
  | .get => "GET"
  | .post => "POST"

/-- A request with a target; `headers` is all that the HTTP library writes behind the request line. -/
def requestText (method : Method) (target headers : String) : String :=
  method.text ++ " " ++ target ++ " HTTP/1.1\r\n" ++ headers

/-- `.query(query)`: nothing is added for no pairs. -/
def withQuery (path : String) (query : List (String × String)) : String :=
  if query = [] then path else path ++ "?" ++ formQuery query

/-- A call on a URL with that path. -/
def request (method : Method) (path : String) (query : List (String × String)) (headers : String) : Bytes :=
  asBytes (requestText method (withQuery path query) headers)

def get (path : String) (query : List (String × String)) (headers : String) : Bytes := request .get path query headers

def adminPostWith (path : String) (query : List (String × String)) (headers : String) : Bytes :=
  request .post path query headers

def adminPostChannels (spec headers : String) : Bytes := adminPostWith "/admin/channels" [("channels", spec)] headers

/-- The path of a request for a product, with an optional sub-resource. -/
def productPath (id : String) (sub : Option String) : String :=
  "/v1/products/" ++ encodePathSegment id ++ sub.elim "" fun s => "/" ++ s

/-- Its target, with an optional query. -/
def productTarget (id : String) (sub query : Option String) : String :=
  productPath id sub ++ query.elim "" fun q => "?" ++ q

/-! ## The characters of encoded texts -/

section

variable {P : Char → Prop} {c : Char}

/-- A property of each character of a list that is written out. -/
theorem forall_listed [DecidablePred P] {l : List Char} (h : (l.all fun c => decide (P c)) = true) : ∀ c ∈ l, P c :=
  fun c hc => of_decide_eq_true (List.all_eq_true.mp h c hc)

theorem isAlphanum_plain (h : c.isAlphanum = true) :
    c.toNat < 128 ∧ isWhitespace c = false ∧ ∀ d ∈ ['%', '&', '=', '?', '/'], c ≠ d := by
  have hrange := Percent.toNat_isAlphanum h
  have hno : ∀ d ∈ ['%', '&', '=', '?', '/'], d.isAlphanum = false := forall_listed (by decide)
  refine ⟨by omega, ?_, fun d hd heq => ?_⟩
  · unfold isWhitespace
    simp only [Bool.or_eq_false_iff, Bool.and_eq_false_iff, decide_eq_false_iff_not, beq_eq_false_iff_ne]
    omega
  · rw [heq, hno d hd] at h
    cases h

/-- What holds of letters and digits, and of the other characters that are kept, holds of each that is. -/
theorem forall_kept {extra : List Char} (halnum : ∀ c, c.isAlphanum = true → P c) (hextra : ∀ c ∈ extra, P c) :
    ∀ c, (c.isAlphanum || extra.contains c) = true → P c := by
  intro c h
  rcases Bool.or_eq_true_iff.mp h with h | h
  · exact halnum c h
  · exact hextra c (by simpa using h)

theorem formKeep_ascii : ∀ c, formKeep c = true → c.toNat < 128 ∧ c ≠ '%' :=
  forall_kept (fun _ h => ⟨(isAlphanum_plain h).1, (isAlphanum_plain h).2.2 _ (by decide)⟩)
    (forall_listed (by decide))

theorem unreservedOrSubdelim_ascii : ∀ c, unreservedOrSubdelim c = true → c.toNat < 128 ∧ c ≠ '%' :=
  forall_kept (fun _ h => ⟨(isAlphanum_plain h).1, (isAlphanum_plain h).2.2 _ (by decide)⟩)
    (forall_listed (by decide))

/-- A form-encoded text has no white space, and no separator of a query. -/
theorem formEncode_plain (s : String) :
    ∀ c ∈ (formEncode s).toList, isWhitespace c = false ∧ c ≠ '&' ∧ c ≠ '=' := by
  have halnum : ∀ c : Char, c.isAlphanum = true → isWhitespace c = false ∧ c ≠ '&' ∧ c ≠ '=' := by
    intro c h
    obtain ⟨-, hblank, hne⟩ := isAlphanum_plain h
    exact ⟨hblank, hne _ (by decide), hne _ (by decide)⟩
  unfold formEncode
  rw [String.toList_ofList]
  intro c hc
  obtain ⟨b, -, hc⟩ := List.mem_flatMap.mp hc
  unfold formByte at hc
  split at hc
  · rw [List.mem_singleton.mp hc]
    decide
  · exact Percent.forall_escape (by decide) halnum (forall_kept halnum (forall_listed (by decide))) b c hc

/-- An encoded path segment has no white space, no `/` and no `?`. -/
theorem encodePathSegment_plain (s : String) :
    ∀ c ∈ (encodePathSegment s).toList, isWhitespace c = false ∧ c ≠ '/' ∧ c ≠ '?' := by
  have halnum : ∀ c : Char, c.isAlphanum = true → isWhitespace c = false ∧ c ≠ '/' ∧ c ≠ '?' := by
    intro c h
    obtain ⟨-, hblank, hne⟩ := isAlphanum_plain h
    exact ⟨hblank, hne _ (by decide), hne _ (by decide)⟩
  unfold encodePathSegment
  rw [String.toList_ofList]
  intro c hc
  obtain ⟨b, -, hc⟩ := List.mem_flatMap.mp hc
  exact Percent.forall_escape (by decide) halnum (forall_kept halnum (forall_listed (by decide))) b c hc

end

/-! ## Queries -/

def plusChar (c : Char) : Char := if c = ' ' then '+' else c

/-- A text with a `+` for each of its spaces. -/
def plus (s : String) : String := String.ofList (s.toList.map plusChar)

def plusPair (pair : String × String) : String × String := (plus pair.1, plus pair.2)

theorem plus_eq_self {s : String} : plus s = s ↔ ' ' ∉ s.toList := by
  have hchar : ∀ c, plusChar c = c ↔ c ≠ ' ' := by
    intro c
    unfold plusChar
    split
    · next h => simp [h]
    · next h => simp [h]
  have hlist : s.toList.map plusChar = s.toList ↔ ∀ c ∈ s.toList, plusChar c = c := by
    simpa using List.map_inj_left (l := s.toList) (f := plusChar) (g := id)
  rw [← String.toList_inj, plus, String.toList_ofList, hlist]
  constructor
  · exact fun h hmem => (hchar ' ').mp (h ' ' hmem) rfl
  · exact fun h c hc => (hchar c).mpr fun heq => h (heq ▸ hc)

def plusByte (b : UInt8) : UInt8 := if b = 0x20 then 0x2B else b

/-- A `+` for each space, in a text and in its bytes. -/
theorem asBytes_plus (s : String) : asBytes (plus s) = (asBytes s).map plusByte := by
  have hchar : ∀ c, String.utf8EncodeChar (plusChar c) = (String.utf8EncodeChar c).map plusByte := by
    intro c
    unfold plusChar
    split
    · next h => rw [h]; rfl
    · next h =>
      have hsame : ∀ x ∈ String.utf8EncodeChar c, plusByte x = x := by
        intro x hx
        unfold plusByte
        rw [if_neg]
        rintro rfl
        have hspace := Percent.toNat_of_mem_utf8EncodeChar c 0x20 hx (by decide)
        exact h (by rw [← Char.ofNat_toNat c, hspace]; rfl)
      exact (List.map_congr_left hsame).trans (List.map_id _) |>.symm
  unfold asBytes plus
  rw [String.toList_ofList, List.flatMap_map, List.map_flatMap]
  exact List.flatMap_congr fun c _ => hchar c

theorem unescape_formByte (b : UInt8) (rest : Bytes) :
    unescape (utf8 (formByte b) ++ rest) = plusByte b :: unescape rest := by
  unfold formByte plusByte
  split
  · exact Percent.unescape_pass fun h => absurd h (by decide)
  · exact Percent.unescape_escape formKeep_ascii b rest

/-- **A form-encoded text is decoded with a `+` for each space.** -/
theorem percentDecode_formEncode (s : String) : percentDecode (formEncode s) = plus s := by
  have hbytes : ∀ bs : Bytes, unescape (utf8 (bs.flatMap formByte)) = bs.map plusByte := by
    intro bs
    induction bs with
    | nil => rfl
    | cons b bs ih => rw [List.flatMap_cons, Percent.utf8_append, unescape_formByte, ih, List.map_cons]
  rw [formEncode, percentDecode_ofList, hbytes, ← asBytes_plus, utf8Lossy_asBytes, String.ofList_toList]

theorem parsePair_formPair (pair : String × String) : parsePair (formPair pair) = plusPair pair := by
  have hcut : splitOnce '=' (formPair pair) = some (formEncode pair.1, formEncode pair.2) := by
    rw [splitOnce_eq_some]
    refine ⟨?_, fun hmem => (formEncode_plain pair.1 _ hmem).2.2 rfl⟩
    unfold formPair
    rw [String.toList_append, String.toList_append, List.append_assoc]
    rfl
  unfold parsePair
  rw [hcut]
  simp only
  rw [percentDecode_formEncode, percentDecode_formEncode]
  rfl

/-- **A query is split into the pairs it was joined from.** -/
theorem parseQueryParams_formQuery {query : List (String × String)} (hne : query ≠ []) :
    parseQueryParams (formQuery query) = query.map plusPair := by
  have hpart : ∀ pair : String × String, '&' ∉ (formPair pair).toList := by
    intro pair
    unfold formPair
    rw [String.toList_append, String.toList_append, List.mem_append, List.mem_append, not_or, not_or]
    exact ⟨⟨fun h => (formEncode_plain _ _ h).2.1 rfl, by decide⟩, fun h => (formEncode_plain _ _ h).2.1 rfl⟩
  have hnonempty : ∀ pair : String × String, formPair pair ≠ "" := by
    intro pair heq
    have hmem : '=' ∈ (formPair pair).toList := by
      unfold formPair
      simp
    rw [heq] at hmem
    exact absurd hmem (by decide)
  have hsplit : split '&' (formQuery query) = query.map formPair := by
    have hwhole : ∀ pair ∈ query, split '&' (formPair pair) = [formPair pair] :=
      fun pair _ => split_of_notMem (hpart pair)
    have hsep : "&".toList = ['&'] := rfl
    unfold formQuery
    rw [split_intercalate hsep (by simpa using hne), List.flatMap_map, List.map_eq_flatMap]
    exact List.flatMap_congr hwhole
  have hfilter : (query.map formPair).filter (fun part => part ≠ "") = query.map formPair := by
    rw [List.filter_eq_self]
    intro part hmem
    obtain ⟨pair, -, rfl⟩ := List.mem_map.mp hmem
    exact decide_eq_true (hnonempty pair)
  have hdecoded : ∀ pair ∈ query, (parsePair ∘ formPair) pair = plusPair pair := by
    intro pair _
    rw [Function.comp_apply, parsePair_formPair]
  unfold parseQueryParams
  rw [hsplit, hfilter, List.map_map, List.map_congr_left hdecoded]

theorem formQuery_plain (query : List (String × String)) : ∀ c ∈ (formQuery query).toList, isWhitespace c = false := by
  have hpart : ∀ pair : String × String, ∀ c ∈ (formPair pair).toList, isWhitespace c = false := by
    intro pair c hc
    unfold formPair at hc
    rw [String.toList_append, String.toList_append, List.mem_append, List.mem_append] at hc
    rcases hc with (hc | hc) | hc
    · exact (formEncode_plain _ c hc).1
    · rw [List.mem_singleton.mp hc]
      rfl
    · exact (formEncode_plain _ c hc).1
  unfold formQuery
  induction query with
  | nil => exact fun c hc => (by cases hc)
  | cons pair query ih =>
    cases query with
    | nil =>
      rw [List.map_singleton, String.intercalate_singleton]
      exact hpart pair
    | cons pair' query =>
      have hsep : "&".toList = ['&'] := rfl
      rw [List.map_cons, List.map_cons, toList_intercalate hsep]
      intro c hc
      rcases List.mem_append.mp hc with hc | hc
      · exact hpart pair c hc
      · rcases List.mem_cons.mp hc with rfl | hc
        · rfl
        · exact ih c hc

/-! ## Requests with a query -/

/-- A complete, encoded URL path: it is not empty, and neither white space nor a `?` ends it early. -/
structure UrlPath (path : String) : Prop where
  word : Word path.toList
  noQuery : '?' ∉ path.toList

/-- No key and no value holds a space. -/
def Unspaced (query : List (String × String)) : Prop := ∀ pair ∈ query, ' ' ∉ pair.1.toList ∧ ' ' ∉ pair.2.toList

section

variable {path : String}

theorem method_word (method : Method) : Word method.text.toList := by
  cases method with
  | get => exact word_of_all (by decide) (by decide)
  | post => exact word_of_all (by decide) (by decide)

theorem toList_requestText (method : Method) (target headers : String) :
    (requestText method target headers).toList =
      method.text.toList ++ ' ' :: (target.toList ++ (" HTTP/1.1\r\n".toList ++ headers.toList)) := by
  have hspace : " ".toList = [' '] := rfl
  unfold requestText
  rw [String.toList_append, String.toList_append, String.toList_append, String.toList_append, hspace]
  simp only [List.append_assoc, List.cons_append, List.nil_append]

/-- What follows the target is not part of it. -/
theorem breaks_version (headers : String) : Breaks (" HTTP/1.1\r\n".toList ++ headers.toList) := by
  intro c hc
  cases hc
  rfl

theorem withQuery_word (hpath : UrlPath path) (query : List (String × String)) :
    Word (withQuery path query).toList := by
  unfold withQuery
  split
  · exact hpath.word
  · rw [String.toList_append, String.toList_append]
    refine ⟨List.append_ne_nil_of_left_ne_nil (List.append_ne_nil_of_left_ne_nil hpath.word.1 _) _, fun c hc => ?_⟩
    rw [List.mem_append, List.mem_append] at hc
    rcases hc with (hc | hc) | hc
    · exact hpath.word.2 c hc
    · rw [List.mem_singleton.mp hc]
      rfl
    · exact formQuery_plain query c hc

theorem parseTarget_withQuery (hpath : UrlPath path) (query : List (String × String)) :
    parseTarget (withQuery path query) = (path, query.map plusPair) := by
  unfold withQuery
  split
  · next h =>
    rw [h]
    exact parseTarget_of_notMem hpath.noQuery
  · next h =>
    have hcut : (path ++ "?" ++ formQuery query).toList = path.toList ++ '?' :: (formQuery query).toList := by
      rw [String.toList_append, String.toList_append, List.append_assoc]
      rfl
    rw [parseTarget_cut hcut hpath.noQuery, parseQueryParams_formQuery h]

/-- **Every key and value arrives with a `+` for each of its spaces**, and the path as it was. -/
theorem params_received (hpath : UrlPath path) (method : Method) (query : List (String × String)) (headers : String) :
    ∃ req, parseRequest (request method path query headers) = some req ∧ req.path = path ∧
      req.params = query.map plusPair := by
  obtain ⟨_, _, hreq⟩ := parseRequest_line (toList_requestText method _ headers) (method_word method)
    (withQuery_word hpath query) (breaks_version headers)
  rw [String.ofList_toList, String.ofList_toList, parseTarget_withQuery hpath] at hreq
  exact ⟨_, hreq, rfl, rfl⟩

theorem request_arrives_iff (hpath : UrlPath path) (method : Method) (query : List (String × String))
    (headers : String) :
    (∃ req, parseRequest (request method path query headers) = some req ∧ req.params = query) ↔ Unspaced query := by
  obtain ⟨req, hreq, -, hparams⟩ := params_received hpath method query headers
  have hsame : query.map plusPair = query ↔ ∀ pair ∈ query, plusPair pair = pair := by
    simpa using List.map_inj_left (l := query) (f := plusPair) (g := id)
  have hpair : ∀ pair, plusPair pair = pair ↔ ' ' ∉ pair.1.toList ∧ ' ' ∉ pair.2.toList := by
    intro pair
    rw [← plus_eq_self, ← plus_eq_self, ← Prod.mk.injEq]
    rfl
  constructor
  · rintro ⟨req', hreq', hquery⟩ pair hmem
    rw [hreq, Option.some.injEq] at hreq'
    rw [← hreq', hparams] at hquery
    exact (hpair pair).mp (hsame.mp hquery pair hmem)
  · intro hspaces
    exact ⟨req, hreq, hparams.trans (hsame.mpr fun pair hmem => (hpair pair).mpr (hspaces pair hmem))⟩

/-- **The pairs arrive as they were sent exactly when no key and no value holds a space**, through both of the calls
that send any. -/
theorem query_arrives_iff (hpath : UrlPath path) (query : List (String × String)) (headers : String) :
    ((∃ req, parseRequest (get path query headers) = some req ∧ req.params = query) ↔ Unspaced query) ∧
      ((∃ req, parseRequest (adminPostWith path query headers) = some req ∧ req.params = query) ↔ Unspaced query) :=
  ⟨request_arrives_iff hpath .get query headers, request_arrives_iff hpath .post query headers⟩

end

theorem adminChannels_path : UrlPath "/admin/channels" := ⟨word_of_all (by decide) (by decide), by decide⟩

theorem query_arrives_compact :
    ∃ req, parseRequest (adminPostChannels "kalshi=10,11;okx=5" "\r\n") = some req ∧
      req.params = [("channels", "kalshi=10,11;okx=5")] := by
  have hunspaced : Unspaced [("channels", "kalshi=10,11;okx=5")] := by
    simp only [Unspaced, List.forall_mem_singleton]
    decide
  exact (query_arrives_iff adminChannels_path [("channels", "kalshi=10,11;okx=5")] "\r\n").2.mpr hunspaced

/-- The second clause of a spec that is written with a space names another group when it arrives. -/
theorem spaced_spec_changes :
    ∃ req, parseRequest (adminPostChannels "kalshi=10,11; okx=5" "\r\n") = some req ∧
      req.params = [("channels", "kalshi=10,11;+okx=5")] ∧ req.params ≠ [("channels", "kalshi=10,11; okx=5")] := by
  obtain ⟨req, hreq, -, hparams⟩ :=
    params_received adminChannels_path .post [("channels", "kalshi=10,11; okx=5")] "\r\n"
  refine ⟨req, hreq, hparams.trans (by decide), ?_⟩
  rw [hparams]
  decide

/-! ## Requests for a product -/

/-- **A path segment is decoded to what it encodes.** -/
theorem percentDecode_encodePathSegment (id : String) : percentDecode (encodePathSegment id) = id := by
  rw [encodePathSegment, percentDecode_ofList, Percent.unescape_escapes unreservedOrSubdelim_ascii, utf8Lossy_asBytes,
    String.ofList_toList]

section

variable {sub : Option String}

theorem productPath_plain (hsub : ∀ s ∈ sub, ∀ c ∈ s.toList, isWhitespace c = false ∧ c ≠ '?') (id : String) :
    ∀ c ∈ (productPath id sub).toList, isWhitespace c = false ∧ c ≠ '?' := by
  have hprefix : ∀ c ∈ "/v1/products/".toList, isWhitespace c = false ∧ c ≠ '?' := forall_listed (by decide)
  unfold productPath
  rw [String.toList_append, String.toList_append]
  intro c hc
  rw [List.mem_append, List.mem_append] at hc
  rcases hc with (hc | hc) | hc
  · exact hprefix c hc
  · obtain ⟨hblank, -, hquery⟩ := encodePathSegment_plain id c hc
    exact ⟨hblank, hquery⟩
  · cases sub with
    | none => cases hc
    | some s =>
      rw [Option.elim_some, String.toList_append] at hc
      rcases List.mem_append.mp hc with hc | hc
      · rw [List.mem_singleton.mp hc]
        decide
      · exact hsub s rfl c hc

theorem productRoute_productPath (id : String) (sub : Option String) :
    productRoute (productPath id sub) = some (encodePathSegment id, sub) := by
  have hnotMem : '/' ∉ (encodePathSegment id).toList := fun hmem => (encodePathSegment_plain id _ hmem).2.1 rfl
  have hcut : (productPath id sub).toList =
      "/v1/products/".toList ++ (encodePathSegment id ++ sub.elim "" fun s => "/" ++ s).toList := by
    unfold productPath
    rw [String.append_assoc, String.toList_append]
  rw [productRoute_cut hcut]
  unfold productScoped
  cases sub with
  | none =>
    rw [Option.elim_none, String.append_empty, splitOnce_eq_none.mpr hnotMem]
  | some s =>
    have hslash : (encodePathSegment id ++ ("/" ++ s)).toList = (encodePathSegment id).toList ++ '/' :: s.toList := by
      rw [String.toList_append, String.toList_append]
      rfl
    rw [Option.elim_some, splitOnce_eq_some.mpr ⟨hslash, hnotMem⟩]

/-- **A product id survives the path**, with its sub-resource and whatever the query is; and the decoder never reads
past its input. -/
theorem product_id_survives (hsub : ∀ s ∈ sub, ∀ c ∈ s.toList, isWhitespace c = false ∧ c ≠ '?') (id : String)
    (query : Option String) (method : Method) (headers : String) :
    (∃ req, parseRequest (asBytes (requestText method (productTarget id sub query) headers)) = some req ∧
      ∃ segment, productRoute req.path = some (segment, sub) ∧ percentDecode segment = id) ∧
      ∀ bytes, (decode bytes).isSome = true := by
  have hplain := productPath_plain hsub id
  have hword : Word (productPath id sub).toList := by
    refine ⟨?_, fun c hc => (hplain c hc).1⟩
    unfold productPath
    rw [String.append_assoc, String.toList_append]
    exact List.append_ne_nil_of_left_ne_nil (by decide) _
  have htext : (requestText method (productTarget id sub query) headers).toList =
      method.text.toList ++ ' ' :: ((productPath id sub).toList ++
        ((query.elim "" fun q => "?" ++ q).toList ++ (" HTTP/1.1\r\n".toList ++ headers.toList))) := by
    rw [toList_requestText, productTarget, String.toList_append, List.append_assoc]
  have hend : ∀ c ∈ ((query.elim "" fun q => "?" ++ q).toList ++ (" HTTP/1.1\r\n".toList ++ headers.toList)).head?,
      isWhitespace c = true ∨ c = '?' := by
    cases query with
    | none => exact fun c hc => .inl (breaks_version headers c hc)
    | some q =>
      intro c hc
      rw [Option.elim_some, String.toList_append] at hc
      cases hc
      exact .inr rfl
  obtain ⟨req, hreq, hpath⟩ :=
    parseRequest_path htext (method_word method) hword (fun hmem => (hplain _ hmem).2 rfl) hend
  rw [String.ofList_toList] at hpath
  refine ⟨⟨req, hreq, encodePathSegment id, ?_, percentDecode_encodePathSegment id⟩, fun bytes => ?_⟩
  · rw [hpath, productRoute_productPath]
  · rw [decode_eq]
    rfl

end

/-- An id of every kind of byte, and a query with white space in it. -/
theorem product_id_survives_book :
    let target := productTarget "KALSHI:Ü/100%?#7.1" (some "book") (some "depth=5 0")
    (∃ req, parseRequest (asBytes (requestText .get target "\r\n")) = some req ∧
      ∃ segment, productRoute req.path = some (segment, some "book") ∧ percentDecode segment = "KALSHI:Ü/100%?#7.1") ∧
      ∀ bytes, (decode bytes).isSome = true :=
  product_id_survives (fun s hs => by cases hs; exact forall_listed (by decide)) _ _ _ _

/-- White space in the name of a sub-resource ends the target there. -/
theorem spaced_sub_resource_is_cut :
    let target := productTarget "BTC" (some "order book") none
    ('/' ∉ "order book".toList ∧ '?' ∉ "order book".toList) ∧
      (∃ req, parseRequest (asBytes (requestText .get target "\r\n")) = some req ∧
        productRoute req.path = some ("BTC", some "order")) ∧
      ¬ ∃ req, parseRequest (asBytes (requestText .get target "\r\n")) = some req ∧
        ∃ segment, productRoute req.path = some (segment, some "order book") ∧ percentDecode segment = "BTC" := by
  intro target
  have htext : (requestText .get target "\r\n").toList = Method.get.text.toList ++ ' ' ::
      ((productPath "BTC" (some "order")).toList ++ (" book HTTP/1.1\r\n\r\n").toList) := by
    decide
  obtain ⟨req, hreq, hpath⟩ := parseRequest_path htext (method_word .get)
    (word_of_all (by decide) (by decide)) (by decide) (fun c hc => (by cases hc; exact .inl rfl))
  have hroute : productRoute req.path = some ("BTC", some "order") := by
    rw [hpath, String.ofList_toList, productRoute_productPath]
    rfl
  refine ⟨⟨by decide, by decide⟩, ⟨req, hreq, hroute⟩, ?_⟩
  rintro ⟨req', hreq', segment, hroute', -⟩
  rw [hreq, Option.some.injEq] at hreq'
  rw [← hreq', hroute] at hroute'
  exact absurd hroute' (by simp)

end EdgeConnect.Cli.Client
