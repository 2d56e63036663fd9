import EdgeConnect.Ingest.Registry
import EdgeConnect.Lib.FinMap
import EdgeConnect.Lib.Text

/-!
# The channel filter (`src/ingest/channel_filter.rs`)

* `parseWithin` — the channels a spec selects of each group code it names, checked against the feeds of the code;
* `admits` — whether a filter lets a channel of a code through;
* `channelsBlock` — the channels of a status body, with what the filter in force says of each.
-/

set_option autoImplicit false

namespace EdgeConnect.ChannelFilter

open Registry Text

/-- What one clause resolved to. -/
structure Selection where
  ids : Finset Nat
  publishedSetSize : Nat
  deriving DecidableEq

inductive FilterError where
  | missingIds (clause : String)
  | unknownCode (code : String) (known : List String)
  | repeatedCode (code : String)
  | emptySelection (code : String)
  | badId (code text : String)
  | unknownChannel (code venue category : String) (id : Nat) (publishedSet : Finset Nat)
  | flatRow (code venue category : String)
  deriving DecidableEq

/-- The channel ids a feed's publishers were derived from. -/
def publishedSet (f : Feed) : Finset Nat := (f.publishers.filterMap FeedPublisher.channel).toFinset

def knownCodes (feeds : List Feed) : List String := ((feeds.map Feed.code).mergeSort).dedup

/-- The published set of every feed of a code; none of them binds a base flat. -/
def publishedSets (code : String) : List Feed → Except FilterError (List (Feed × Finset Nat))
  | [] => .ok []
  | f :: fs =>
    if publishedSet f = ∅ then .error (.flatRow code f.venue f.category)
    else (publishedSets code fs).map fun sets => (f, publishedSet f) :: sets

/-- An id is in the published set of every feed of the code. -/
def checkId (code : String) (id : Nat) : List (Feed × Finset Nat) → Except FilterError Unit
  | [] => .ok ()
  | (f, r) :: sets => if id ∉ r then .error (.unknownChannel code f.venue f.category id r) else checkId code id sets

/-- The ids of a clause, a stray separator between them skipped. -/
def parseIds (code : String) (sets : List (Feed × Finset Nat)) : Finset Nat → List String → Except FilterError (Finset Nat)
  | wanted, [] => .ok wanted
  | wanted, token :: tokens =>
    let text := trim token
    if text = "" then parseIds code sets wanted tokens
    else
      match parseUnsigned 255 text with
      | none => .error (.badId code text)
      | some id =>
        match checkId code id sets with
        | .error e => .error e
        | .ok _ => parseIds code sets (insert id wanted) tokens

/-- One clause, not empty. -/
def parseClause (feedRows : List Feed) (admitted : FinMap String Selection) (clause : String) :
    Except FilterError (FinMap String Selection) :=
  match splitOnce '=' clause with
  | none => .error (.missingIds clause)
  | some (code, ids) =>
    let code := trim code
    let matching := feedRows.filter fun f => f.code = code
    if matching = [] then .error (.unknownCode code (knownCodes feedRows))
    else
      match publishedSets code matching with
      | .error e => .error e
      | .ok sets =>
        match parseIds code sets ∅ (split ',' ids) with
        | .error e => .error e
        | .ok wanted =>
          if wanted = ∅ then .error (.emptySelection code)
          else if admitted.contains code then .error (.repeatedCode code)
          else
            let size := (sets.foldl (fun (all : Finset Nat) (set : Feed × Finset Nat) => all ∪ set.2) ∅).card
            .ok (admitted.insert code ⟨wanted, size⟩)

def parseClauses (feedRows : List Feed) :
    FinMap String Selection → List String → Except FilterError (FinMap String Selection)
  | admitted, [] => .ok admitted
  | admitted, clause :: clauses =>
    let clause := trim clause
    if clause = "" then parseClauses feedRows admitted clauses
    else
      match parseClause feedRows admitted clause with
      | .error e => .error e
      | .ok admitted => parseClauses feedRows admitted clauses

/-- `ChannelFilter::parse_within`. -/
def parseWithin (feedRows : List Feed) (spec : String) : Except FilterError (FinMap String Selection) :=
  parseClauses feedRows ∅ (split ';' spec)

/-- `ChannelFilter::admits`: a code no clause names admits everything. -/
def admits (admitted : FinMap String Selection) (code : String) (channel : Nat) : Bool :=
  (admitted.get code).all fun s => channel ∈ s.ids

/-! ## The status body -/

/-- One channel of a row. -/
structure ChannelEntry where
  channel : Nat
  allowed : Bool
  bound : Bool
  products : Nat
  label : Option String
  symbolPrefixes : List String
  symbolPrefixesTotal : Option Nat
  deriving DecidableEq, Repr

structure ChannelRow where
  venue : String
  category : String
  code : String
  channels : List ChannelEntry
  excluded : Nat
  deriving DecidableEq, Repr

structure ChannelsBlock where
  rows : List ChannelRow
  excludedByFilter : Nat
  deriving DecidableEq, Repr

/-- What the status body reads besides the filter: whether a venue has a Source ID, and of a publisher of a row
whether it is bound, how many products its channel has, and the symbol prefixes they start with. -/
structure StatusSources where
  hasSourceId : String → Bool
  bound : Feed → FeedPublisher → Bool
  products : Feed → Nat → Nat
  symbolPrefixes : Feed → Nat → List String × Nat

/-- The entry of a publisher; a flat one has none. -/
def channelEntry (s : StatusSources) (filter : FinMap String Selection) (f : Feed) (p : FeedPublisher) :
    Option ChannelEntry :=
  p.channel.map fun channel =>
    let (names, total) := s.symbolPrefixes f channel
    { channel
      allowed := admits filter f.code channel
      bound := s.bound f p
      products := s.products f channel
      label := p.label
      symbolPrefixes := names
      symbolPrefixesTotal := if names = [] then none else some total }

/-- `channels_block`. -/
def channelsBlock (s : StatusSources) (filter : FinMap String Selection) (enabled : List Feed) : ChannelsBlock :=
  let rows := enabled.filterMap fun f =>
    let channels := f.publishers.filterMap (channelEntry s filter f)
    if !s.hasSourceId f.venue || channels = [] then none
    else some ⟨f.venue, f.category, f.code, channels, channels.countP fun c => !c.allowed⟩
  ⟨rows, (rows.map ChannelRow.excluded).sum⟩

/-- The `allowed` flags of a status body are what a filter says. -/
def FlagsFrom (filter : FinMap String Selection) (block : ChannelsBlock) : Prop :=
  ∀ row ∈ block.rows, ∀ c ∈ row.channels, c.allowed = admits filter row.code c.channel

theorem channelsBlock_flags (s : StatusSources) (filter : FinMap String Selection) (enabled : List Feed) :
    FlagsFrom filter (channelsBlock s filter enabled) := by
  intro row hrow c hc
  obtain ⟨f, -, hf⟩ := List.mem_filterMap.mp hrow
  dsimp only at hf
  split_ifs at hf
  cases hf
  obtain ⟨p, -, hp⟩ := List.mem_filterMap.mp hc
  obtain ⟨channel, -, rfl⟩ := Option.map_eq_some_iff.mp hp
  rfl

end EdgeConnect.ChannelFilter
