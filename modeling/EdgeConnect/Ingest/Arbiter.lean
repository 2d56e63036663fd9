import Mathlib.Data.Prod.Lex
import Mathlib.Data.String.Basic
import EdgeConnect.Ingest.Authority
import EdgeConnect.Ingest.ChannelClock
import EdgeConnect.Model.Accumulator

/-!
# The `book` gate of the arbiter (`src/ingest/arbiter.rs`)

Executable model of what the arbiter keeps of the incremental `book` product and of every operation on
it: the single-path authority gate, the order-level race, the shared replay map and the drops that keep
the three together.

* `emitScoped` is the `Book` branch of `emit_scoped`: it routes a batch to `emitServed` (the authority
  gate) or to `emitOrderLevelBook` (the race), and answers with what is broadcast, in order;
* `machine` runs the arbiter over its calls.

Metrics, logs and the gauges they feed are left out, as are the products other than `book`.  A monotonic
clock reading is `now`, a wall clock reading `wall`.
-/

set_option autoImplicit false

namespace EdgeConnect.Arbiter

open Authority

/-! ## Data -/

def MAX_BOOK_MARKETS : Nat := 16384

def MAX_CHANNEL_CLOCKS : Nat := MAX_BOOK_MARKETS

/-- Batches a re-baseline waits for an event boundary before it goes out without one. -/
def MAX_WITHHELD_BATCHES : Nat := 8192

/-- How long a peer's last delivered batch keeps its claim to be serving a market. -/
def PEER_SERVING_NS : Nat := 30000000000

def FORCED_REBASELINE_MIN_INTERVAL_NS : Nat := 250000000

inductive ArbitrationMode where
  | coordinated
  | sticky
  deriving DecidableEq, Repr

/-- One order-level channel, the grain the venue clock is kept at. -/
structure ChannelKey where
  source : SourceKey
  category : String
  channel : Nat
  deriving DecidableEq, Repr

def channelKey (key : BookKey) : ChannelKey := ⟨key.source, key.category, key.channel⟩

/-- One publisher's standing for an order-level market; a `lastBatchNs` of `0` has published nothing. -/
structure PeerState where
  synced : Bool
  lastBatchNs : Nat
  deriving DecidableEq, Repr

def PeerState.default : PeerState := ⟨false, 0⟩

/-- Per-market state behind the `book` gate. -/
structure BookMarket where
  orderLevel : Bool
  paths : FinMap Transport BookAccumulator
  rebaseline : Bool
  withheld : Nat
  rebaselinedNs : Nat
  wireSlot : Option Nat

def BookMarket.default : BookMarket := ⟨false, ∅, false, 0, 0, none⟩

/-- A path's own accumulator once it has folded a batch; the first batch of a path starts one. -/
def BookMarket.folded (m : BookMarket) (publisher : Transport) (b : NormalizedBook) : BookAccumulator :=
  ((m.paths.get publisher).getD (.new b.symbol)).apply b

def BookMarket.accumulate (m : BookMarket) (publisher : Transport) (b : NormalizedBook) : BookMarket :=
  { m with paths := m.paths.insert publisher (m.folded publisher b) }

end EdgeConnect.Arbiter

namespace EdgeConnect

open Arbiter Authority

/-- What the arbiter keeps of the `book` product. -/
structure Arbiter where
  modes : FinMap String ArbitrationMode
  sharedSlots : FinMap String (Finset String)
  books : StickyAuthority
  bookMarkets : FinMap BookKey BookMarket
  bookOrder : List BookKey
  bookReplay : Option (FinMap BookKey BookAccumulator)
  bookSync : FinMap BookKey (FinMap Transport PeerState)
  bookEvents : FinMap BookKey MarketEvents
  channelClocks : FinMap ChannelKey ChannelClock
  channelClockOrder : List ChannelKey
  guard : GuardBudget
  bookDedupWindowNs : Nat
  bookGuard : BookGuardConfig

end EdgeConnect

namespace EdgeConnect.Arbiter

open Authority

/-- A fixed order on markets, in which their maps are traversed. -/
def marketRank (key : BookKey) : Lex (Lex (Lex (Lex (Nat × String) × String) × Nat) × Nat) :=
  toLex (toLex (toLex (toLex (key.source.id, key.source.name), key.category), key.channel),
    key.instrumentId)

theorem marketRank_injective : Function.Injective marketRank := by
  rintro ⟨⟨id, name⟩, category, channel, instrumentId⟩ ⟨⟨id', name'⟩, category', channel', instrumentId'⟩ h
  simp only [marketRank, toLex_inj, Prod.mk.injEq] at h
  obtain ⟨⟨⟨⟨rfl, rfl⟩, rfl⟩, rfl⟩, rfl⟩ := h
  rfl

instance : LinearOrder BookKey := LinearOrder.lift' marketRank marketRank_injective

/-- Whether a batch opens with a clear, which makes it a re-baseline. -/
def clearLed (b : NormalizedBook) : Bool := b.changes.head?.any fun c => c.action = .clear

/-- `clear_only`: the re-baseline of a market with no complete book to republish. -/
def clearOnly (b : NormalizedBook) (wall : Nat) : NormalizedBook :=
  { b with
    changes := [BookAccumulator.clearBoth]
    snapshot := true
    last := true
    recvTsNs := wall }

/-- An arbiter that has seen nothing, with or without a replay map wired. -/
def new (modes : FinMap String ArbitrationMode) (sharedSlots : FinMap String (Finset String))
    (cfg : AuthorityConfig) (dedupWindowNs : Nat) (guardCfg : BookGuardConfig) (wired : Bool) :
    Arbiter where
  modes := modes
  sharedSlots := sharedSlots
  books := .new cfg
  bookMarkets := ∅
  bookOrder := []
  bookReplay := if wired then some ∅ else none
  bookSync := ∅
  bookEvents := ∅
  channelClocks := ∅
  channelClockOrder := []
  guard := .default
  bookDedupWindowNs := dedupWindowNs
  bookGuard := guardCfg

/-! ## Tracking and dropping markets -/

/-- The replay entry of a market. -/
def replayEntry (a : Arbiter) (key : BookKey) : Option BookAccumulator := a.bookReplay.bind (·.get key)

def setMarket (a : Arbiter) (key : BookKey) (m : BookMarket) : Arbiter :=
  { a with bookMarkets := a.bookMarkets.insert key m }

/-- `drop_book_events`: drop a market's race state, returning its tombstones to the budget. -/
def dropBookEvents (a : Arbiter) (key : BookKey) : Arbiter :=
  match a.bookEvents.get key with
  | none => a
  | some e => { a with bookEvents := a.bookEvents.erase key, guard := a.guard.release e.nDead }

/-- `drop_market_state`: the accumulators, the replay entry and `last_admitted` go together. -/
def dropMarketState (a : Arbiter) (key : BookKey) : Arbiter :=
  let a := { a with bookMarkets := a.bookMarkets.erase key, bookSync := a.bookSync.erase key }
  let a := a.dropBookEvents key
  { a with
    bookReplay := a.bookReplay.map (·.erase key)
    books := a.books.forgetMarket key }

/-- The loop of `track_book_market`: drop the oldest markets until there is room. -/
def evictMarkets : List BookKey → Arbiter → Arbiter
  | [], a => { a with bookOrder := [] }
  | old :: rest, a =>
    if a.bookMarkets.size ≥ MAX_BOOK_MARKETS then evictMarkets rest (a.dropMarketState old)
    else { a with bookOrder := old :: rest }

/-- `track_book_market`: start tracking a market. -/
def trackBookMarket (a : Arbiter) (key : BookKey) : Arbiter :=
  let a := evictMarkets a.bookOrder a
  { a with
    bookOrder := a.bookOrder ++ [key]
    bookMarkets := a.bookMarkets.insert key .default }

/-- Track a market unless it is tracked. -/
def ensureMarket (a : Arbiter) (key : BookKey) : Arbiter :=
  if a.bookMarkets.contains key then a else a.trackBookMarket key

/-- `reset_books_for_markets`: drop a batch of markets. -/
def resetBooksForMarkets (a : Arbiter) (keys : List BookKey) : Arbiter :=
  let a := keys.foldl dropMarketState a
  { a with bookOrder := a.bookOrder.filter fun k => k ∉ keys }

/-- `reset_book_for_market`. -/
def resetBookForMarket (a : Arbiter) (key : BookKey) : Arbiter := a.resetBooksForMarkets [key]

/-- `forget_channel_books`: every tracked market of a channel goes, and its venue clock. -/
def forgetChannelBooks (a : Arbiter) (venue category : String) (channel : Nat) : Arbiter :=
  let doomed := (a.bookMarkets.toList.map (·.1)).filter fun k =>
    k.source.name = venue ∧ k.category = category ∧ k.channel = channel
  let inChannel (k : ChannelKey) : Bool :=
    k.source.name = venue ∧ k.category = category ∧ k.channel = channel
  let a := a.resetBooksForMarkets doomed
  { a with
    channelClocks := a.channelClocks.filter fun k _ => !inChannel k
    channelClockOrder := a.channelClockOrder.filter fun k => !inChannel k }

/-- `reset_book_session_for_market`: a session boundary drops the race state and unsets the channel's
venue clock. -/
def resetBookSessionForMarket (a : Arbiter) (key : BookKey) (now : Nat) : Arbiter :=
  let a := a.dropBookEvents key
  match a.channelClocks.get (channelKey key) with
  | none => a
  | some clock =>
    { a with channelClocks := a.channelClocks.insert (channelKey key) (clock.set none now) }

/-- `set_book_synced`: one publisher's order-level sync state. -/
def setBookSynced (a : Arbiter) (key : BookKey) (publisher : Transport) (synced : Bool) : Arbiter :=
  match a.books.pathOrdinal (scopeOf key) publisher with
  | (books, none) => { a with books }
  | (books, some _) =>
    let a := { a with books }.ensureMarket key
    let paths := (a.bookSync.get key).getD ∅
    let peer := { (paths.get publisher).getD .default with synced }
    { a with bookSync := a.bookSync.insert key (paths.insert publisher peer) }

/-- `forget_publisher_books`: a departed publisher claims no order-level market of its category. -/
def forgetPublisherBooks (a : Arbiter) (category : String) (publisher : Transport) : Arbiter :=
  { a with
    bookSync := a.bookSync.mapEntries fun key paths =>
      if key.category = category then paths.erase publisher else paths }

/-! ## Accumulators and the replay map -/

/-- `accumulate_book`: fold a batch into its path's own accumulator. -/
def accumulateBook (a : Arbiter) (key : BookKey) (publisher : Transport) (b : NormalizedBook) :
    Arbiter :=
  let a := a.ensureMarket key
  match a.bookMarkets.get key with
  | none => a
  | some m => a.setMarket key (m.accumulate publisher b)

/-- `apply_book_replay`: advance the replay entry of a tracked market with a published batch. -/
def applyBookReplay (a : Arbiter) (key : BookKey) (b : NormalizedBook) : Arbiter :=
  match a.bookReplay with
  | none => a
  | some replay =>
    if a.bookMarkets.contains key then
      { a with bookReplay := some (replay.insert key (((replay.get key).getD (.new b.symbol)).apply b)) }
    else a

/-- `rebaseline_book`: reset the replay entry to a path's own accumulator, and render it when it is
complete. -/
def rebaselineBook (a : Arbiter) (key : BookKey) (publisher : Transport) (wall : Nat) :
    Arbiter × Option NormalizedBook :=
  match (a.bookMarkets.get key).bind (·.paths.get publisher) with
  | none => (a, none)
  | some acc =>
    ({ a with bookReplay := a.bookReplay.map (·.insert key acc) },
      if acc.baselined then some (acc.toBook key wall) else none)

/-- `rebaseline_from_replay`: the market's book as the wire has delivered it, when it is complete. -/
def rebaselineFromReplay (a : Arbiter) (key : BookKey) (wall : Nat) : Option NormalizedBook :=
  (a.replayEntry key).bind fun acc => if acc.baselined then some (acc.toBook key wall) else none

/-- `replay_incomplete`: the replay entry exists and is not a complete book. -/
def replayIncomplete (a : Arbiter) (key : BookKey) : Bool := (a.replayEntry key).any fun acc => !acc.baselined

/-- `monotonic_slot`: the slot a market may publish, absent while it would move the consumer back. -/
def monotonicSlot (a : Arbiter) (key : BookKey) (batchId : Option Nat) : Arbiter × Option Nat :=
  match a.bookMarkets.get key, batchId with
  | none, _ => (a, batchId)
  | some _, none => (a, none)
  | some m, some s =>
    if m.wireSlot.any fun published => s < published then (a, none)
    else (a.setMarket key { m with wireSlot := some s }, some s)

/-- `force_rebaseline`: mark a market unserveable until it is re-baselined. -/
def forceRebaseline (a : Arbiter) (key : BookKey) : Arbiter :=
  match a.bookMarkets.get key with
  | none => a
  | some m => if m.rebaseline then a else a.setMarket key { m with rebaseline := true }

def modeFor (a : Arbiter) (venue : String) : ArbitrationMode := (a.modes.get venue).getD .coordinated

/-! ## The single-path gate -/

/-- `seamless_handover`: what reached the wire and the incoming path's own book are both whole, at the
same committed slot and identical. -/
def seamlessHandover (a : Arbiter) (key : BookKey) (venue category : String) (publisher : Transport) :
    Bool :=
  let whole (acc : BookAccumulator) : Bool := acc.baselined && acc.pendingEmpty
  if (a.sharedSlots.get venue).any fun c => category ∈ c then
    match a.bookReplay, a.bookMarkets.get key with
    | some replay, some market =>
      match market.paths.get publisher, replay.get key with
      | some incoming, some served =>
        match served.exactBatchId with
        | none => false
        | some slot =>
          if !whole served || !whole incoming || incoming.exactBatchId ≠ some slot ||
              market.wireSlot.any (fun w => w > slot) then false
          else served.sameState incoming
      | _, _ => false
    | _, _ => false
  else false

/-- The authority as a batch reaches it: a clear marks a re-install, and a hold on a recovered leader
does not outlive an incomplete replay entry. -/
def noteBatch (a : Arbiter) (key : BookKey) (b : NormalizedBook) (publisher : Transport)
    (synthesized : Bool) : StickyAuthority :=
  let books := if clearLed b then a.books.noteRebaselinePoint key publisher else a.books
  if !synthesized && books.scopeLeader (scopeOf key) = some publisher && books.holdingRevert key &&
      a.replayIncomplete key then books.dropHold key
  else books

/-- The authority's decision on a batch; `take_hold_release` empties the release it leaves. -/
def judgeBatch (books : StickyAuthority) (key : BookKey) (b : NormalizedBook) (publisher : Transport)
    (synthesized : Bool) : StickyAuthority × Admit Transport :=
  let (books, decision) :=
    if synthesized then books.admitSynthesized key publisher
    else books.admitBatch key publisher b.recvTsNs
  ({ books with holdReleased := none }, decision)

/-- The re-baseline of a served market: the path's whole book in place of the batch, or a bare clear and
the batch. -/
def rebaselineNow (a : Arbiter) (key : BookKey) (b : NormalizedBook) (publisher : Transport)
    (wall : Nat) : Arbiter × List NormalizedBook :=
  match a.rebaselineBook key publisher wall with
  | (a, some full) =>
    let (a, slot) := a.monotonicSlot key full.batchId
    (a, [{ full with batchId := slot }])
  | (a, none) =>
    let (a, slot) := a.monotonicSlot key b.batchId
    let (a, slot') := a.monotonicSlot key b.batchId
    (a, [{ clearOnly b wall with batchId := slot }, { b with batchId := slot' }])

/-- A batch that continues what the consumer holds. -/
def publishSteady (a : Arbiter) (key : BookKey) (b : NormalizedBook) : Arbiter × List NormalizedBook :=
  let (a, slot) := (a.applyBookReplay key b).monotonicSlot key b.batchId
  (a, [{ b with batchId := slot }])

/-- Publish an admitted batch; `moved` says it does not continue what the consumer holds.  A pending
re-baseline waits for the path to close an event, up to `MAX_WITHHELD_BATCHES` batches. -/
def publishAdmitted (a : Arbiter) (key : BookKey) (b : NormalizedBook) (publisher : Transport)
    (moved : Bool) (wall : Nat) : Arbiter × List NormalizedBook :=
  match a.bookMarkets.get key with
  | none => a.publishSteady key b
  | some m =>
    if m.rebaseline || moved then
      if !b.last && m.withheld < MAX_WITHHELD_BATCHES then
        (a.setMarket key { m with rebaseline := true, withheld := m.withheld + 1 }, [])
      else
        (a.setMarket key { m with rebaseline := false, withheld := 0 }).rebaselineNow key b publisher wall
    else a.publishSteady key b

/-- The single-path gate: one path serves a market, and a batch it drops from the path the consumer
follows forces a re-baseline. -/
def emitServed (a : Arbiter) (key : BookKey) (b : NormalizedBook) (publisher : Transport)
    (synthesized : Bool) (wall : Nat) : Arbiter × List NormalizedBook :=
  let a := a.ensureMarket key
  let books := a.noteBatch key b publisher synthesized
  let prev := books.lastAdmitted key
  let (books, decision) := judgeBatch books key b publisher synthesized
  let a := { a with books }
  let seamless := decision.isEmitted && (prev.any fun p => p ≠ publisher) &&
    a.seamlessHandover key b.venue key.category publisher
  let a := a.accumulateBook key publisher b
  if decision.isEmitted then
    a.publishAdmitted key b publisher (prev ≠ some publisher && !seamless) wall
  else if prev = some publisher ∧ b.changes ≠ [] then (a.forceRebaseline key, [])
  else (a, [])

/-! ## The order-level race -/

/-- The loop of `clock_for`: make room among the channel clocks, oldest first. -/
def evictClocks (clocks : FinMap ChannelKey ChannelClock) :
    List ChannelKey → FinMap ChannelKey ChannelClock × List ChannelKey
  | [] => (clocks, [])
  | old :: rest =>
    if clocks.size ≥ MAX_CHANNEL_CLOCKS then evictClocks (clocks.erase old) rest
    else (clocks, old :: rest)

/-- `clock_for`: the channel's venue clock, created on first use. -/
def clockFor (a : Arbiter) (ck : ChannelKey) : Arbiter × ChannelClock :=
  if a.channelClocks.contains ck then (a, (a.channelClocks.get ck).getD .default)
  else
    let (clocks, order) := evictClocks a.channelClocks a.channelClockOrder
    ({ a with
        channelClocks := clocks.insert ck ((clocks.get ck).getD .default)
        channelClockOrder := order ++ [ck] }, (clocks.get ck).getD .default)

/-- `channel_newest`: the newest venue stamp the channel has accepted, `0` when its clock is unset. -/
def channelNewest (a : Arbiter) (key : BookKey) : Nat :=
  ((a.channelClocks.get (channelKey key)).bind (·.newestTs)).getD 0

/-- Re-point a market's race state at a re-baseline's book. -/
def rebaselineEvents (a : Arbiter) (key : BookKey) (changes : List BookChange) (seedTs : Nat) : Arbiter :=
  let (e, guard) := ((a.bookEvents.get key).getD .default).rebaselined changes seedTs a.guard
  { a with bookEvents := a.bookEvents.insert key e, guard }

/-- The loop of `shed_over_budget`: at most `n` removed entries go. -/
def shedLoop : Nat → MarketEvents → GuardBudget → MarketEvents × GuardBudget
  | 0, e, budget => (e, budget)
  | n + 1, e, budget =>
    if budget.isOver then
      match e.forgetOldestRemoved budget with
      | (e, budget, true) => shedLoop n e budget
      | (e, budget, false) => (e, budget)
    else (e, budget)

/-- `shed_over_budget`: past the process-wide ceiling, forget the admitting market's oldest removed
entries.  The running total is recounted once per crossing.  Each round takes at least one entry off the
dead queue, which bounds them. -/
def shedOverBudget (a : Arbiter) (key : BookKey) : Arbiter :=
  if a.guard.isOver then
    let guard := if a.guard.resyncedWhileOver then a.guard
      else ⟨a.bookEvents.sumVals fun _ e => e.nDead, true⟩
    match a.bookEvents.get key with
    | none => { a with guard }
    | some e =>
      let (e, guard) := shedLoop (e.dead.length + 1) e guard
      { a with bookEvents := a.bookEvents.insert key e, guard }
  else { a with guard := { a.guard with resyncedWhileOver := false } }

/-- `note_book_delivery`: a publisher reached the wire for a market, which is order-level once a batch
with an order id has. -/
def noteBookDelivery (a : Arbiter) (key : BookKey) (b : NormalizedBook) (publisher : Transport)
    (now : Nat) : Arbiter :=
  let a := a.ensureMarket key
  let a :=
    if b.changes.any fun c => c.orderId ≠ 0 then
      match a.bookMarkets.get key with
      | none => a
      | some m => a.setMarket key { m with orderLevel := true }
    else a
  let paths := (a.bookSync.get key).getD ∅
  let peer := { (paths.get publisher).getD .default with lastBatchNs := now }
  { a with bookSync := a.bookSync.insert key (paths.insert publisher peer) }

/-- `publish_book`: broadcast an order-level batch and advance the replay entry with it. -/
def publishBook (a : Arbiter) (key : BookKey) (b : NormalizedBook) : Arbiter × List NormalizedBook :=
  ((a.ensureMarket key).applyBookReplay key b, [b])

/-- Whether a peer of the market is both in sync and serving it. -/
def peerServing (a : Arbiter) (key : BookKey) (publisher : Transport) (now : Nat) : Bool :=
  (a.bookSync.get key).any fun paths => paths.any fun p st =>
    p ≠ publisher ∧ st.synced ∧ st.lastBatchNs ≠ 0 ∧ now - st.lastBatchNs ≤ PEER_SERVING_NS

/-- `clear_led_rebaseline`: publish a producer's own re-baseline. -/
def clearLedRebaseline (a : Arbiter) (key : BookKey) (b : NormalizedBook) (publisher : Transport)
    (now : Nat) : Arbiter × List NormalizedBook :=
  let a := a.rebaselineEvents key b.changes (a.channelNewest key)
  let a :=
    match a.bookMarkets.get key with
    | none => a
    | some m => a.setMarket key { m with rebaseline := false, withheld := 0 }
  (a.noteBookDelivery key b publisher now).publishBook key b

/-- The discharge of a forced re-baseline, from the replay map: the book the wire delivered, or a bare
clear when that is not complete. -/
def dischargeForced (a : Arbiter) (key : BookKey) (b : NormalizedBook) (wall : Nat) :
    Arbiter × List NormalizedBook :=
  let seedTs := a.channelNewest key
  match a.rebaselineFromReplay key wall with
  | some full => (a.rebaselineEvents key full.changes seedTs, [full])
  | none =>
    let cleared := clearOnly b wall
    ((a.applyBookReplay key cleared).rebaselineEvents key [] seedTs, [cleared])

/-- `serve_forced_rebaseline`: discharge a forced re-baseline or withhold the batch; the flag says
whether the batch goes on. -/
def serveForcedRebaseline (a : Arbiter) (key : BookKey) (b : NormalizedBook) (now wall : Nat) :
    Arbiter × List NormalizedBook × Bool :=
  match a.bookMarkets.get key with
  | none =>
    let (a, out) := a.dischargeForced key b wall
    (a, out, true)
  | some m =>
    let tooSoon := m.rebaselinedNs ≠ 0 ∧ now - m.rebaselinedNs < FORCED_REBASELINE_MIN_INTERVAL_NS
    if tooSoon ∨ b.last = false ∧ m.withheld < MAX_WITHHELD_BATCHES then
      (a.setMarket key { m with withheld := m.withheld + 1 }, [], false)
    else
      let (a, out) := (a.setMarket key
        { m with rebaseline := false, withheld := 0, rebaselinedNs := now }).dischargeForced key b wall
      (a, out, true)

/-- The identity a change races under. -/
def orderEvent (c : BookChange) : OrderEvent := ⟨c.orderId, c.action, c.price.bits, c.size.bits⟩

/-- Race the changes of one batch, keeping those that go out. -/
def raceChanges (publisher : Transport) (arrivalNs stamp window : Nat) :
    List BookChange → MarketEvents → GuardBudget → MarketEvents × GuardBudget × List BookChange
  | [], e, budget => (e, budget, [])
  | c :: cs, e, budget =>
    if c.orderId = 0 then
      let (e, budget, kept) := raceChanges publisher arrivalNs stamp window cs e budget
      (e, budget, c :: kept)
    else
      match e.admitEvent (orderEvent c) publisher arrivalNs stamp window budget with
      | (e, budget, verdict) =>
        let (e, budget, kept) := raceChanges publisher arrivalNs stamp window cs e budget
        (e, budget, if verdict = .deliver then c :: kept else kept)

/-- The channel's clock as a batch is judged: observed, re-seated, and what it then says of the batch. -/
structure Judged where
  clock : ChannelClock
  frontier : Option Nat
  stamp : Nat

def judgeStamp (clock : ChannelClock) (b : NormalizedBook) (now wall : Nat) (cfg : BookGuardConfig) :
    Judged :=
  let clock := ((clock.observe b.sourceTsNs now wall cfg).1.reseat now cfg).1
  ⟨clock, clock.frontier cfg, clock.stamp b.sourceTsNs wall⟩

/-- A batch past the frontier is refused; it forgets and makes no state. -/
def refuseAncient (a : Arbiter) (key : BookKey) (frontier : Option Nat) : Arbiter :=
  match a.bookEvents.get key with
  | none => a
  | some e =>
    let (e, guard) := e.forgetExpired frontier a.guard
    { a with bookEvents := a.bookEvents.insert key e, guard }

/-- The market's race state after a batch the frontier accepts, and the changes that survive it. -/
def raceEvents (a : Arbiter) (key : BookKey) (b : NormalizedBook) (publisher : Transport) (j : Judged) :
    MarketEvents × GuardBudget × List BookChange :=
  let (e, guard) := ((a.bookEvents.get key).getD .default).forgetExpired j.frontier a.guard
  raceChanges publisher b.recvTsNs j.stamp a.bookDedupWindowNs b.changes e guard

/-- Publish what survived the race.  A batch that forced a re-baseline is dropped unless it removed an
order: a delivered removal must reach the wire whatever raised the flag. -/
def publishKept (a : Arbiter) (key : BookKey) (b : NormalizedBook) (publisher : Transport) (now : Nat)
    (forced : Bool) (kept : List BookChange) : Arbiter × List NormalizedBook :=
  let safeToDrop := forced && !kept.any fun c => c.orderId ≠ 0 ∧ c.size.eq F64.zero
  let a := if forced then a.forceRebaseline key else a
  if safeToDrop || kept.isEmpty then (a, [])
  else (a.noteBookDelivery key b publisher now).publishBook key { b with changes := kept }

/-- The race of a batch the frontier accepts. -/
def raceAccepted (a : Arbiter) (key : BookKey) (b : NormalizedBook) (publisher : Transport) (now : Nat)
    (j : Judged) : Arbiter × List NormalizedBook :=
  match a.raceEvents key b publisher j with
  | (e, guard, kept) =>
    ({ a with bookEvents := a.bookEvents.insert key { e with forced := none }, guard } : Arbiter).publishKept
      key b publisher now e.forced.isSome kept

/-- The race of one batch up to the shedding that ends it. -/
def raceBatch (a : Arbiter) (key : BookKey) (b : NormalizedBook) (publisher : Transport)
    (now wall : Nat) : Arbiter × List NormalizedBook :=
  let (a, clock) := a.clockFor (channelKey key)
  let j := judgeStamp clock b now wall a.bookGuard
  let a := { a with channelClocks := a.channelClocks.insert (channelKey key) j.clock }
  if pastFrontier j.frontier j.stamp then (a.refuseAncient key j.frontier, [])
  else a.raceAccepted key b publisher now j

/-- `emit_order_level_book`: a re-baseline goes out only when no peer serves the market; any other batch
is raced change by change. -/
def emitOrderLevelBook (a : Arbiter) (key : BookKey) (b : NormalizedBook) (publisher : Transport)
    (now wall : Nat) : Arbiter × List NormalizedBook :=
  if clearLed b then
    if a.peerServing key publisher now then (a, [])
    else a.clearLedRebaseline key b publisher now
  else
    let (a, out, go) :=
      if (a.bookMarkets.get key).any (·.rebaseline) then a.serveForcedRebaseline key b now wall
      else (a, [], true)
    if go then
      let (a, out') := a.raceBatch key b publisher now wall
      (a.shedOverBudget key, out ++ out')
    else (a, out)

/-! ## Calls -/

/-- The market a batch belongs to; the category is the emitting row's. -/
def keyOf (b : NormalizedBook) (category : String) : BookKey :=
  ⟨SourceKey.of b, category, b.channel, b.instrumentId⟩

/-- Whether a batch goes to the order-level race: its venue is coordinated, and it carries an order id or
its market has published one. -/
def orderLevelRoute (a : Arbiter) (key : BookKey) (b : NormalizedBook) : Bool :=
  ((b.changes.any fun c => c.orderId ≠ 0) || (a.bookMarkets.get key).any (·.orderLevel)) &&
    a.modeFor b.venue = .coordinated

/-- The `Book` branch of `emit_scoped`. -/
def emitScoped (a : Arbiter) (b : NormalizedBook) (publisher : Transport) (category : String)
    (synthesized : Bool) (now wall : Nat) : Arbiter × List NormalizedBook :=
  let key := keyOf b category
  match a.books.pathOrdinal (scopeOf key) publisher with
  | (books, none) => ({ a with books }, [])
  | (books, some _) =>
    let a := { a with books }
    if a.orderLevelRoute key b then a.emitOrderLevelBook key b publisher now wall
    else a.emitServed key b publisher synthesized wall

/-- One call on the arbiter.  `iter` is the iteration order of each scope's path map. -/
inductive Call where
  | emit (b : NormalizedBook) (publisher : Transport) (category : String) (synthesized : Bool)
      (now wall : Nat)
  | setBookHealth (key : BookKey) (publisher : Transport) (healthy : Bool)
  | setBookSynced (key : BookKey) (publisher : Transport) (synced : Bool)
  | observeMatchedLead (scope : ScopeKey) (path : Transport) (leadNs : Int)
  | closeAuthorityWindows (iter : ScopeKey → List Transport) (wall : Nat)
  | resetBookForMarket (key : BookKey)
  | resetBookEventsForMarket (key : BookKey)
  | resetBookSessionForMarket (key : BookKey) (now : Nat)
  | forgetChannelBooks (venue category : String) (channel : Nat)
  | forgetPublisherBooks (category : String) (publisher : Transport)

/-- The market a call emits a batch for. -/
def Call.market : Call → Option BookKey
  | .emit b _ category _ _ _ => some (keyOf b category)
  | _ => none

/-- One call, and what it broadcasts. -/
def step (a : Arbiter) : Call → Arbiter × List NormalizedBook
  | .emit b publisher category synthesized now wall =>
    a.emitScoped b publisher category synthesized now wall
  | .setBookHealth key publisher healthy => ({ a with books := a.books.setHealth key publisher healthy }, [])
  | .setBookSynced key publisher synced => (a.setBookSynced key publisher synced, [])
  | .observeMatchedLead scope path leadNs =>
    ({ a with books := a.books.observeMatchedLead scope path leadNs }, [])
  | .closeAuthorityWindows iter wall => ({ a with books := a.books.closeWindow iter wall }, [])
  | .resetBookForMarket key => (a.resetBookForMarket key, [])
  | .resetBookEventsForMarket key => (a.dropBookEvents key, [])
  | .resetBookSessionForMarket key now => (a.resetBookSessionForMarket key now, [])
  | .forgetChannelBooks venue category channel => (a.forgetChannelBooks venue category channel, [])
  | .forgetPublisherBooks category publisher => (a.forgetPublisherBooks category publisher, [])

/-- The arbiter's `book` gate as a machine over its calls. -/
def machine : Machine Arbiter Call (List NormalizedBook) := ⟨step⟩

end EdgeConnect.Arbiter
