import EdgeConnect.Ingest.RegistryRows
import EdgeConnect.Ingest.Sources
import EdgeConnect.Ingest.Reconcile
import EdgeConnect.Ingest.Receiver

/-!
# The registry document (`src/ingest/registry.rs`)

From a document, as its JSON is read, to the rows of the registry.

* `Document`, `FeedRow`, `ChannelSpec` — the document;
* `publishedSetEntries`, `expand` — the publishers a row derives, one a channel;
* `feedFrom`, `build` — one row, and the whole document.
-/

set_option autoImplicit false

namespace EdgeConnect.Registry

open Arbiter (ArbitrationMode)
open Sources Text

/-- A channel id on the wire. -/
abbrev U8 := Fin 256

/-- A port. -/
abbrev U16 := Fin 65536

/-- One entry of a published set: an inclusive span, or one id with what it is called. -/
inductive ChannelSpec where
  | range (lo hi : U8)
  | id (id : U8) (label : Option String)
  deriving DecidableEq, Repr

/-- A port for each role: of one publisher, or the bases a row derives from. -/
structure PortBlock where
  mktdata : U16
  refdata : U16
  snapshot : Option U16
  deriving DecidableEq, Repr

structure Derived where
  channels : List ChannelSpec
  ports : PortBlock
  deriving DecidableEq, Repr

inductive Publishers where
  | explicit (blocks : List PortBlock)
  | derived (d : Derived)
  deriving DecidableEq, Repr

structure FeedRow where
  venue : String
  category : String
  code : String
  kind : FeedKind
  group : Nat
  emitTrades : Bool
  arbitration : ArbitrationMode
  sharedBatchId : Bool
  publishers : Publishers
  publisherOffset : Option U8
  sourceId : Option Nat
  deriving DecidableEq, Repr

/-- A document; `sources` may be missing, which is the same as empty. -/
structure Document where
  version : Nat
  sources : List SourceAssignment
  feeds : List FeedRow
  deriving DecidableEq, Repr

def SUPPORTED_VERSION : Nat := 1

/-! ## The `sources` block -/

/-- The labels that are synthesized for a Source ID without a name. -/
def reserved (name : String) : Bool :=
  name = UNREGISTERED ∨
    ("SOURCE_".toList.isPrefixOf name.toList ∧ name.toList.drop 7 ≠ [] ∧ (name.toList.drop 7).all Char.isDigit)

def sourceRows (u : CaseMapping) : List SourceAssignment → List SourceAssignment →
    Except RegistryError (List SourceAssignment)
  | out, [] => .ok out
  | out, r :: rows =>
    if r.id = 0 ∨ r.name = "" ∨ r.name ≠ toUppercase u r.name ∨ reserved r.name then .error (.badSourceName r.id r.name)
    else if out.any fun a => a.id = r.id then .error (.duplicateSource r.id r.name)
    else sourceRows u (out ++ [r]) rows

/-- `source_assignments`: none for a document without a block. -/
def sourceAssignments (u : CaseMapping) (rows : List SourceAssignment) :
    Except RegistryError (Option (List SourceAssignment)) :=
  if rows = [] then .ok none else (sourceRows u [] rows).map some

/-! ## The publishers of a row -/

/-- The labels of the published ids, one entry of the set after another: the first label of an id stays. -/
def mergeSpec (venue : String) (merged : FinMap U8 (Option String)) : ChannelSpec →
    Except RegistryError (FinMap U8 (Option String))
  | .range lo hi =>
    if lo > hi then .error (.badRange venue lo hi)
    else .ok (((List.finRange 256).filter fun id => lo ≤ id ∧ id ≤ hi).foldl
      (fun merged id => if merged.contains id then merged else merged.insert id none) merged)
  | .id id label =>
    match merged.get id with
    | some (some _) => .ok merged
    | some none | none => .ok (merged.insert id label)

def mergeSpecs (venue : String) : FinMap U8 (Option String) → List ChannelSpec →
    Except RegistryError (FinMap U8 (Option String))
  | merged, [] => .ok merged
  | merged, spec :: specs =>
    match mergeSpec venue merged spec with
    | .error e => .error e
    | .ok merged => mergeSpecs venue merged specs

/-- The ids, ascending, with their labels. -/
def publishedEntries (merged : FinMap U8 (Option String)) : List (U8 × Option String) :=
  (List.finRange 256).filterMap fun id => (merged.get id).map fun label => (id, label)

/-- `published_set_entries`. -/
def publishedSetEntries (row : FeedRow) (channels : List ChannelSpec) :
    Except RegistryError (List (U8 × Option String)) :=
  match mergeSpecs row.venue ∅ channels with
  | .error e => .error e
  | .ok merged => if merged.keys = ∅ then .error (.emptyPublishedSet row.venue row.category) else .ok (publishedEntries merged)

/-- A port of a channel: its base and the id, in 16 bits. -/
def rolePort (venue : String) (id : U8) (base : U16) : Except RegistryError Nat :=
  if base.val + id.val < 65536 then .ok (base.val + id.val) else .error (.portOverflow venue base id)

def ports (mktdata refdata : Nat) : Option Nat → FeedPorts
  | some snapshot => .threePort mktdata refdata snapshot
  | none => .twoPort mktdata refdata

def snapshotPort (venue : String) (id : U8) : Option U16 → Except RegistryError (Option Nat)
  | none => .ok none
  | some base => (rolePort venue id base).map some

/-- The publisher of one channel. -/
def channelPublisher (venue : String) (p : PortBlock) (e : U8 × Option String) : Except RegistryError FeedPublisher := do
  let mktdata ← rolePort venue e.1 p.mktdata
  let refdata ← rolePort venue e.1 p.refdata
  let snapshot ← snapshotPort venue e.1 p.snapshot
  return ⟨ports mktdata refdata snapshot, some e.1.val, e.2⟩

def channelPublishers (venue : String) (p : PortBlock) : List (U8 × Option String) →
    Except RegistryError (List FeedPublisher)
  | [] => .ok []
  | e :: es => do
    let first ← channelPublisher venue p e
    let rest ← channelPublishers venue p es
    return first :: rest

def expand (row : FeedRow) (d : Derived) : Except RegistryError (List FeedPublisher) := do
  let entries ← publishedSetEntries row d.channels
  channelPublishers row.venue d.ports entries

def blockToPublisher (b : PortBlock) : FeedPublisher :=
  ⟨ports b.mktdata b.refdata (b.snapshot.map Fin.val), none, none⟩

def publishersOf (row : FeedRow) : Except RegistryError (List FeedPublisher) :=
  match row.publishers with
  | .explicit blocks => .ok (blocks.map blockToPublisher)
  | .derived d => expand row d

/-- The first base port that stands twice. -/
def duplicateBasePort : List Nat → List FeedPublisher → Option Nat
  | _, [] => none
  | seen, p :: ps => if p.basePort ∈ seen then some p.basePort else duplicateBasePort (p.basePort :: seen) ps

/-- What a row must say whatever its publishers. -/
def checkFields (row : FeedRow) (table : List SourceAssignment) : Except RegistryError Unit := do
  let _ ← refuseIf (row.venue = "") (.emptyField row.venue "venue")
  let _ ← refuseIf (row.category = "") (.emptyField row.venue "category")
  let _ ← refuseIf (row.code = "") (.emptyField row.venue "code")
  let _ ← refuseIf (sourceIdsOf table row.venue = []) (.unknownVenue row.venue)
  match row.sourceId with
  | none => .ok ()
  | some id =>
    refuseIf (sourceName table id ≠ some row.venue) (.sourceIdMismatch row.venue row.category id (sourceName table id))

/-- `feed_from`, with the table the document's venues resolve against. -/
def feedFrom (table : List SourceAssignment) (row : FeedRow) : Except RegistryError Feed := do
  let _ ← checkFields row table
  let publishers ← publishersOf row
  let _ ← refuseIf (publishers = []) (.emptyPublishers row.venue row.category)
  match duplicateBasePort [] publishers with
  | some port => .error (.duplicateBasePort row.venue row.category port)
  | none =>
    return {
      venue := row.venue
      category := row.category
      code := row.code
      kind := row.kind
      group := row.group
      publishers
      emitTrades := row.emitTrades
      arbitration := row.arbitration
      sharedBatchId := row.sharedBatchId
      mirrorOffset := row.publisherOffset.map Fin.val
      sourceId := row.sourceId }

def feedsFrom (table : List SourceAssignment) : List FeedRow → Except RegistryError (List Feed)
  | [] => .ok []
  | row :: rows => do
    let first ← feedFrom table row
    let rest ← feedsFrom table rows
    return first :: rest

/-- `build`: the rows of a document; `installed` is the table in force, for a document without one. -/
def build (u : CaseMapping) (installed : List SourceAssignment) (doc : Document) : Except RegistryError (List Feed) := do
  let _ ← refuseIf (doc.version ≠ SUPPORTED_VERSION) (.unsupportedVersion doc.version)
  let _ ← refuseIf (doc.feeds = []) .noFeeds
  let sources ← sourceAssignments u doc.sources
  let rows ← feedsFrom (sources.getD installed) doc.feeds
  let _ ← checkCrossRowInvariants rows
  return rows

end EdgeConnect.Registry
