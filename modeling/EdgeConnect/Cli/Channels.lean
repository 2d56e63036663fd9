import EdgeConnect.Ingest.ChannelGrammar

/-!
# The channel filter as the command line reads it (`doublezero-edge/src/channels.rs`)

* `FilterSpec.parse` — a lenient reading of a spec, which never refuses one;
* `computeDrops` — the channels with products that a status body allows and a new spec does not;
* `parse_admits` — on every spec the server accepts, the two readings admit the same channels.
-/

set_option autoImplicit false

namespace EdgeConnect.Cli

open ChannelFilter Registry Text

/-- The channel ids of each group code a spec names. -/
abbrev FilterSpec := FinMap String (Finset Nat)

namespace FilterSpec

/-- The number of a token. -/
def number (token : String) : Option Nat := parseUnsigned (2 ^ 64 - 1) (trim token)

/-- The ids of a clause that are numbers. -/
def ids (text : String) : Finset Nat := ((split ',' text).filterMap number).toFinset

/-- One clause: what cannot be read is skipped, and a later clause of a code replaces an earlier one. -/
def addClause (clauses : FilterSpec) (clause : String) : FilterSpec :=
  let clause := trim clause
  if clause = "" then clauses
  else
    match splitOnce '=' clause with
    | none => clauses
    | some (code, text) => clauses.insert (trim code) (ids text)

def parse (spec : String) : FilterSpec := (split ';' spec).foldl addClause ∅

/-- A code no clause names admits everything. -/
def admits (spec : FilterSpec) (code : String) (channel : Nat) : Bool :=
  match spec.get code with
  | none => true
  | some ids => channel ∈ ids

end FilterSpec

def MAX_PREFIXES_SHOWN : Nat := 3

def renderSymbolPrefixes (prefixes : List String) (total : Option Nat) : String :=
  let shown := prefixes.take MAX_PREFIXES_SHOWN
  let remaining := total.getD prefixes.length - shown.length
  let out := ", ".intercalate shown
  if remaining > 0 then out ++ " +" ++ remaining.repr ++ " more" else out

/-- `display_name`. -/
def displayName (c : ChannelEntry) : String :=
  match c.label.filter fun label => trim label ≠ "" with
  | some label => label
  | none =>
    if c.symbolPrefixes ≠ [] then renderSymbolPrefixes c.symbolPrefixes c.symbolPrefixesTotal else c.channel.repr

structure DropRow where
  venue : String
  category : String
  code : String
  channel : Nat
  name : String
  products : Nat
  deriving DecidableEq, Repr

def DropRow.of (row : ChannelRow) (c : ChannelEntry) : DropRow :=
  ⟨row.venue, row.category, row.code, c.channel, displayName c, c.products⟩

/-- `compute_drops`, on the `channels` block of a status body: an older server has none. -/
def computeDrops (channels : Option ChannelsBlock) (spec : String) : List DropRow :=
  let newFilter := FilterSpec.parse spec
  (channels.getD ⟨[], 0⟩).rows.flatMap fun row =>
    row.channels.filterMap fun c =>
      if c.allowed ∧ c.products > 0 ∧ ¬ newFilter.admits row.code c.channel then some (.of row c) else none

/-! ## Both readings of an accepted spec -/

section Agree

variable {feedRows : List Feed}

/-- A list of ids that the server can read names the same numbers on both sides: a token it accepts is empty or small,
and a small number reads the same with a larger bound. -/
theorem idsOf_tokens {text : String} {p : Nat → Prop}
    (h : ∀ t ∈ (tokens ',' text).toFinset, ∃ id, IsId t id ∧ p id) :
    idsOf (tokens ',' text).toFinset = FilterSpec.ids text := by
  have hnumber : ∀ {part : String} {id : Nat}, IsId (trim part) id → FilterSpec.number part = some id :=
    fun hid => parseUnsigned_mono (by decide) (parseUnsigned_iff.mpr hid)
  have hmem : ∀ t, t ∈ (tokens ',' text).toFinset ↔ (∃ part ∈ split ',' text, trim part = t) ∧ t ≠ "" := by
    intro t
    simp [tokens]
  ext id
  rw [mem_idsOf, FilterSpec.ids, List.mem_toFinset, List.mem_filterMap]
  constructor
  · rintro ⟨t, ht, hid⟩
    obtain ⟨⟨part, hpart, rfl⟩, -⟩ := (hmem t).mp ht
    exact ⟨part, hpart, hnumber hid⟩
  · rintro ⟨part, hpart, hid⟩
    have hne : trim part ≠ "" := by
      intro hempty
      rw [FilterSpec.number, hempty] at hid
      cases hid
    have ht := (hmem (trim part)).mpr ⟨⟨part, hpart, rfl⟩, hne⟩
    obtain ⟨id', hid', -⟩ := h _ ht
    rw [hnumber hid', Option.some.injEq] at hid
    exact ⟨trim part, ht, hid ▸ hid'⟩

/-- A clause the server accepts adds what the command line adds. -/
theorem parseClause_adds {admitted admitted' : FinMap String Selection} {clause : String}
    (h : parseClause feedRows admitted clause = .ok admitted') :
    ∃ code text size, splitOnce '=' clause = some (code, text) ∧
      admitted' = admitted.insert (trim code) ⟨FilterSpec.ids text, size⟩ := by
  obtain ⟨c, hread, hlegal, -, rfl⟩ := parseClause_ok.mp h
  obtain ⟨⟨code, text⟩, hsplit, rfl⟩ := Option.map_eq_some_iff.mp hread
  refine ⟨code, text, (selection feedRows ⟨trim code, (tokens ',' text).toFinset⟩).publishedSetSize, hsplit, ?_⟩
  rw [← idsOf_tokens hlegal.published]
  rfl

/-- The two readings, clause by clause. -/
theorem parseClauses_get {clauses : List String} {admitted server : FinMap String Selection} {spec : FilterSpec}
    (h : parseClauses feedRows admitted clauses = .ok server)
    (hspec : ∀ code, spec.get code = (admitted.get code).map Selection.ids) (code : String) :
    (clauses.foldl FilterSpec.addClause spec).get code = (server.get code).map Selection.ids := by
  induction clauses generalizing admitted spec with
  | nil =>
    cases h
    exact hspec code
  | cons clause clauses ih =>
    unfold parseClauses at h
    rw [List.foldl_cons]
    dsimp only at h
    by_cases hempty : trim clause = ""
    · rw [if_pos hempty] at h
      have hskip : FilterSpec.addClause spec clause = spec := if_pos hempty
      rw [hskip]
      exact ih h hspec
    · rw [if_neg hempty] at h
      cases hclause : parseClause feedRows admitted (trim clause) with
      | error e =>
        rw [hclause] at h
        cases h
      | ok admitted' =>
        rw [hclause] at h
        obtain ⟨name, text, size, hsplit, rfl⟩ := parseClause_adds hclause
        have hadd : FilterSpec.addClause spec clause = spec.insert (trim name) (FilterSpec.ids text) := by
          unfold FilterSpec.addClause
          dsimp only
          rw [if_neg hempty, hsplit]
        rw [hadd]
        refine ih h fun code => ?_
        rw [FinMap.get_insert, FinMap.get_insert]
        split_ifs
        · rfl
        · exact hspec code

/-- What the command line reads of an accepted spec is the server's filter. -/
theorem parse_get {spec : String} {server : FinMap String Selection} (h : parseWithin feedRows spec = .ok server)
    (code : String) : (FilterSpec.parse spec).get code = (server.get code).map Selection.ids :=
  parseClauses_get h (fun _ => rfl) code

theorem admits_eq {spec : FilterSpec} {server : FinMap String Selection}
    (h : ∀ code, spec.get code = (server.get code).map Selection.ids) (code : String) (channel : Nat) :
    spec.admits code channel = admits server code channel := by
  unfold FilterSpec.admits ChannelFilter.admits
  rw [h code]
  cases server.get code <;> rfl

end Agree

/-- The channels of a status body that hold products and that one filter admits and another one does not. -/
def lost (inForce new : FinMap String Selection) (block : ChannelsBlock) : List DropRow :=
  block.rows.flatMap fun row =>
    (row.channels.filter fun c =>
      admits inForce row.code c.channel ∧ c.products > 0 ∧ ¬ admits new row.code c.channel).map (.of row)

theorem filterMap_ite {α β : Type} {p : α → Prop} [DecidablePred p] {q : α → Bool} {f : α → β} {l : List α}
    (h : ∀ a ∈ l, p a ↔ q a = true) : l.filterMap (fun a => if p a then some (f a) else none) = (l.filter q).map f := by
  induction l with
  | nil => rfl
  | cons a l ih =>
    obtain ⟨ha, hl⟩ := List.forall_mem_cons.mp h
    by_cases hp : p a
    · simp [hp, ha.mp hp, ih hl]
    · simp [hp, mt ha.mpr hp, ih hl]

/-- **The preview agrees with the server**: an accepted spec admits the same channels on both sides, the channels listed
as dropped are the ones with products that the filter in force admits and the accepted new one does not, in the order of
the status body, and each is of a code that the new filter names. -/
theorem computeDrops_eq {feedRows : List Feed} {spec spec' : String} {inForce new : FinMap String Selection}
    {block : ChannelsBlock} (hforce : parseWithin feedRows spec = .ok inForce) (hnew : parseWithin feedRows spec' = .ok new)
    (hflags : FlagsFrom inForce block) :
    (∀ code channel, (FilterSpec.parse spec').admits code channel = admits new code channel) ∧
      (∀ code channel, (FilterSpec.parse spec).admits code channel = admits inForce code channel) ∧
        computeDrops (some block) spec' = lost inForce new block ∧
          ∀ d ∈ computeDrops (some block) spec', new.get d.code ≠ none := by
  have hagree := admits_eq (parse_get hnew)
  have hdrops : computeDrops (some block) spec' = lost inForce new block := by
    show (block.rows.flatMap _) = block.rows.flatMap _
    rw [List.flatMap_def, List.flatMap_def]
    refine congrArg _ (List.map_congr_left fun row hrow => filterMap_ite fun c hc => ?_)
    rw [hflags row hrow c hc, hagree row.code c.channel, decide_eq_true_iff]
  refine ⟨hagree, admits_eq (parse_get hforce), hdrops, fun d hd => ?_⟩
  rw [hdrops] at hd
  obtain ⟨row, -, hrow⟩ := List.mem_flatMap.mp hd
  obtain ⟨c, hc, rfl⟩ := List.mem_map.mp hrow
  have hnot := (of_decide_eq_true (List.mem_filter.mp hc).2).2.2
  intro hnone
  have hadmits : admits new row.code c.channel = true := by
    unfold ChannelFilter.admits
    rw [show new.get row.code = none from hnone]
    rfl
  exact hnot hadmits

/-- A market-by-price row with a port for each of three channels. -/
def sportsRow : Feed where
  venue := "KALSHI"
  category := "sports"
  code := "sports-mbp"
  kind := .marketByPrice
  group := 0
  publishers := [10, 11, 12].map fun id => ⟨.threePort (30000 + id) (40000 + id) (50000 + id), some id, none⟩
  emitTrades := true
  arbitration := .sticky
  sharedBatchId := false
  mirrorOffset := none
  sourceId := none

/-- The filter a spec sets. -/
def filterOf (spec : String) : FinMap String Selection := ((parseWithin [sportsRow] spec).toOption).getD ∅

theorem parseWithin_filterOf {spec : String} (h : (parseWithin [sportsRow] spec).toOption.isSome = true) :
    parseWithin [sportsRow] spec = .ok (filterOf spec) := by
  unfold filterOf
  cases hparse : parseWithin [sportsRow] spec with
  | ok filter => rfl
  | error e =>
    rw [hparse] at h
    cases h

/-- Every channel is bound and holds three products. -/
def busy : StatusSources := ⟨fun _ => true, fun _ _ => true, fun _ _ => 3, fun _ _ => ([], 0)⟩

theorem computeDrops_oneChannel :
    computeDrops (some (channelsBlock busy (filterOf " sports-mbp = 010, +11 ;;") [sportsRow])) "sports-mbp=,11,11" =
        [⟨"KALSHI", "sports", "sports-mbp", 10, "10", 3⟩] ∧
      ∀ d ∈ computeDrops (some (channelsBlock busy (filterOf " sports-mbp = 010, +11 ;;") [sportsRow])) "sports-mbp=,11,11",
        (filterOf "sports-mbp=,11,11").get d.code ≠ none := by
  have hforce : parseWithin [sportsRow] " sports-mbp = 010, +11 ;;" = .ok (filterOf " sports-mbp = 010, +11 ;;") :=
    parseWithin_filterOf (by decide)
  have hnew : parseWithin [sportsRow] "sports-mbp=,11,11" = .ok (filterOf "sports-mbp=,11,11") :=
    parseWithin_filterOf (by decide)
  obtain ⟨-, -, hdrops, hmentioned⟩ := computeDrops_eq hforce hnew (channelsBlock_flags busy _ [sportsRow])
  refine ⟨?_, hmentioned⟩
  rw [hdrops]
  decide

end EdgeConnect.Cli
