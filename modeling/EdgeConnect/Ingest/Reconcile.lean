import EdgeConnect.Ingest.Registry
import EdgeConnect.Lib.FinMap
import EdgeConnect.Lib.Machine

/-!
# The feed reconciler (`src/ingest/reconcile.rs`)

Executable model of the market-data half of a reconciler tick: which receivers run, who of them carries a tape, and
what is dropped when the channel filter narrows.

* `ChannelFilter`, `filterAdmitted` — the keys the filter admits of the enabled rows;
* `tapeOwnersByChannel` — the election of a tape owner in each universe;
* `forgetDepartingChannel`, `applyFeeds`, `drainDeparted`, `applyDesired` — the second half of a tick, `desiredFrom`
  the first;
* `Step`, `machine` — the two halves as atomic steps, between the admin surface, the receivers and their tasks.

A set or a map is iterated in any order: an `Order` is one.  The catalog, the books and the history hold entries
under a venue, a category and a channel; what a receiver without a channel writes has no channel to be purged by and
is left out, as are the WebSocket sink, the query API and the shred forwarder.
-/

set_option autoImplicit false

namespace EdgeConnect.Reconcile

open Registry

/-- One receiver: a row and a base port of it. -/
structure FeedKey where
  venue : String
  category : String
  kind : FeedKind
  basePort : Nat
  deriving DecidableEq, Repr

/-- The receivers that mirror one another's tape. -/
structure Universe where
  venue : String
  category : String
  channel : Option Nat
  deriving DecidableEq, Repr

def keyOf (f : Feed) (p : FeedPublisher) : FeedKey := ⟨f.venue, f.category, f.kind, p.basePort⟩

def keysOf (f : Feed) : List FeedKey := f.publishers.map (keyOf f)

/-- The keys of every enabled row. -/
def enabledKeys (enabled : List Feed) : List FeedKey := enabled.flatMap keysOf

/-- The row and the publisher a key names. -/
def publisherOf (enabled : List Feed) (key : FeedKey) : Option (Feed × FeedPublisher) :=
  enabled.findSome? fun f => (f.publishers.find? fun p => keyOf f p = key).map fun p => (f, p)

/-- `channel_in`: the channel a key's publisher was derived for. -/
def channelIn (enabled : List Feed) (key : FeedKey) : Option Nat :=
  enabled.findSome? fun f => (f.publishers.find? fun p => keyOf f p = key).bind FeedPublisher.channel

/-- An order in which the keys of the enabled rows may come up. -/
structure Order (enabled : List Feed) where
  keys : List FeedKey
  nodup : keys.Nodup
  complete : ∀ key ∈ enabledKeys enabled, key ∈ keys

def Order.walk {enabled : List Feed} (o : Order enabled) (s : Finset FeedKey) : List FeedKey :=
  o.keys.filter fun key => key ∈ s

/-- The order of every loop of one tick. -/
structure Orders (enabled : List Feed) where
  departed : Order enabled
  abort : Order enabled
  elect : Order enabled
  publish : Order enabled
  spawn : Order enabled

/-! ## The channel filter -/

/-- The channels admitted of each group code that is narrowed at all. -/
abbrev ChannelFilter := FinMap String (Finset Nat)

def publishersFor (filter : ChannelFilter) (f : Feed) : List FeedPublisher :=
  match filter.get f.code with
  | none => f.publishers
  | some ids => f.publishers.filter fun p => p.channel.any fun c => c ∈ ids

def feedKeys (filter : ChannelFilter) (f : Feed) : List FeedKey := (publishersFor filter f).map (keyOf f)

/-- `filter_admitted`: what the filter admits of the enabled rows, subscribed or not. -/
def filterAdmitted (enabled : List Feed) (filter : ChannelFilter) : Finset FeedKey :=
  (enabled.flatMap (feedKeys filter)).toFinset

/-! ## The tape -/

/-- `TapeLiveness`, best first. -/
inductive TapeLiveness where
  | up
  | unregistered
  | down
  deriving DecidableEq, Repr

def TapeLiveness.rank : TapeLiveness → Nat
  | .up => 0
  | .unregistered => 1
  | .down => 2

/-- Liveness, then the rank of the kind, then the base port. -/
abbrev TapeOrder := ℕ ×ₗ ℕ ×ₗ ℕ

def tapeOrder (live : FeedKey → TapeLiveness) (key : FeedKey) (rank : Nat) : TapeOrder :=
  toLex ((live key).rank, toLex (rank, key.basePort))

def universeOf (channelOf : FeedKey → Option Nat) (key : FeedKey) : Universe :=
  ⟨key.venue, key.category, channelOf key⟩

/-- One key of `tape_owners_by_channel`. -/
def elect (channelOf : FeedKey → Option Nat) (live : FeedKey → TapeLiveness)
    (best : FinMap Universe (TapeOrder × FeedKey)) (key : FeedKey) : FinMap Universe (TapeOrder × FeedKey) :=
  match tapeRank key.kind with
  | none => best
  | some rank =>
    let order := tapeOrder live key rank
    match best.get (universeOf channelOf key) with
    | some (cur, _) => if cur ≤ order then best else best.insert (universeOf channelOf key) (order, key)
    | none => best.insert (universeOf channelOf key) (order, key)

def tapeOwnersByChannel (active : List FeedKey) (channelOf : FeedKey → Option Nat)
    (live : FeedKey → TapeLiveness) : FinMap Universe FeedKey :=
  (active.foldl (elect channelOf live) ∅).mapVals Prod.snd

def ownsOn (owners : FinMap Universe FeedKey) (key : FeedKey) (channel : Option Nat) : Bool :=
  (owners.get ⟨key.venue, key.category, channel⟩).any fun o => o.kind = key.kind

/-! ## The reconciler -/

/-- A receiver's task, and the flag it reads before it prints. -/
structure Receiver where
  finished : Bool
  tape : Bool
  deriving DecidableEq, Repr

/-- A receiver that was aborted and may still be running. -/
structure Draining where
  key : FeedKey
  finished : Bool
  tape : Bool
  ticksWaited : Nat
  purge : Bool
  deriving DecidableEq, Repr

/-- An instrument, a market's book or a product's history. -/
structure Entry where
  venue : String
  category : String
  channel : Nat
  id : Nat
  deriving DecidableEq, Repr

/-- The stores a departed channel is dropped from. -/
inductive Shelf where
  | catalog
  | books
  | history
  deriving DecidableEq, Repr

/-- Which kinds fill a store: every kind carries reference data and the history is fed by any of them, but only some
build books. -/
def Shelf.suppliedBy : Shelf → FeedKind → Bool
  | .books, kind => kind.buildsBook
  | .catalog, _ | .history, _ => true

/-- The reconciler with what it shares.  `pending` is the desired set of a tick between its two halves. -/
structure Reconciler where
  filter : ChannelFilter
  pending : Option (Finset FeedKey)
  active : FinMap FeedKey Receiver
  lastFilterAdmitted : Finset FeedKey
  draining : List Draining
  held : Shelf → List Entry

def MAX_DRAIN_TICKS : Nat := 10

def init (filter : ChannelFilter) : Reconciler := ⟨filter, none, ∅, ∅, [], fun _ => []⟩

/-- What one reading of the host's subscriptions came to. -/
inductive Detected where
  | gatingDisabled
  | subscribed (codes : Finset String)
  | cliMissing
  | unavailable

/-- The feeds of `compute_desired`; none keeps what is running. -/
def desiredFrom (enabled : List Feed) (filter : ChannelFilter) : Detected → Option (Finset FeedKey)
  | .gatingDisabled | .cliMissing => some (filterAdmitted enabled filter)
  | .subscribed codes => some (filterAdmitted (enabled.filter fun f => f.code ∈ codes) filter)
  | .unavailable => none

variable (enabled : List Feed)

/-- A receiver of the same venue, category and channel. -/
def Draining.shares (f : Feed) (channel : Nat) (e : Draining) : Bool :=
  e.key.venue = f.venue ∧ e.key.category = f.category ∧ channelIn enabled e.key = some channel

/-- The kinds that the filter still admits on a channel. -/
def siblings (r : Reconciler) (f : Feed) (channel : Nat) : Finset FeedKey :=
  r.lastFilterAdmitted.filter fun k =>
    k.venue = f.venue ∧ k.category = f.category ∧ channelIn enabled k = some channel

/-- `forget_departing_channel`: the purge is handed to a receiver of the channel that is still draining, and
otherwise drops from each store what no sibling supplies. -/
def forgetDepartingChannel (r : Reconciler) (key : FeedKey) : Reconciler :=
  match publisherOf enabled key with
  | none => r
  | some (f, p) =>
    match p.channel with
    | none => r
    | some channel =>
      if r.draining.any (Draining.shares enabled f channel) then
        { r with
          draining := r.draining.map fun e => if e.shares enabled f channel then { e with purge := true } else e }
      else
        { r with
          held := fun shelf =>
            if ∃ k ∈ siblings enabled r f channel, shelf.suppliedBy k.kind then r.held shelf
            else (r.held shelf).filter fun e =>
              ¬ (e.venue = f.venue ∧ e.category = f.category ∧ e.channel = channel) }

/-- `plan`: what to spawn, and what to abort. -/
def plan (current desired : Finset FeedKey) : Finset FeedKey × Finset FeedKey :=
  (desired \ current, current \ desired)

/-- One receiver of the abort loop: its tape is switched off, and its task drains. -/
def abortOne (departed : Finset FeedKey) (r : Reconciler) (key : FeedKey) : Reconciler :=
  match r.active.get key with
  | none => r
  | some t =>
    { r with
      active := r.active.erase key
      draining := r.draining ++ [⟨key, t.finished, false, 0, key ∈ departed⟩] }

/-- One receiver of `publish_tape_owners`. -/
def publishOne (owners : FinMap Universe FeedKey) (r : Reconciler) (key : FeedKey) : Reconciler :=
  match r.active.get key with
  | none => r
  | some t => { r with active := r.active.insert key { t with tape := ownsOn owners key (channelIn enabled key) } }

/-- One receiver of the spawn loop. -/
def spawnOne (owners : FinMap Universe FeedKey) (r : Reconciler) (key : FeedKey) : Reconciler :=
  match publisherOf enabled key with
  | none => r
  | some (_, p) => { r with active := r.active.insert key ⟨false, ownsOn owners key p.channel⟩ }

variable {enabled} in
/-- The owners elected over a desired set. -/
def ownersOf (desired : Finset FeedKey) (live : FeedKey → TapeLiveness) (o : Orders enabled) :
    FinMap Universe FeedKey :=
  tapeOwnersByChannel (o.elect.walk desired) (channelIn enabled) live

variable {enabled} in
def applyFeeds (desired departed : Finset FeedKey) (live : FeedKey → TapeLiveness) (o : Orders enabled)
    (r : Reconciler) : Reconciler :=
  let (toSpawn, toAbort) := plan r.active.keys desired
  let r := (o.abort.walk toAbort).foldl (abortOne departed) r
  let owners := ownersOf desired live o
  let r := (o.publish.walk r.active.keys).foldl (publishOne enabled owners) r
  (o.spawn.walk toSpawn).foldl (spawnOne enabled owners) r

/-- The loop of `drain_departed` at index `i`, which looks at every entry once. -/
def drainFrom : Nat → Nat → Reconciler → Reconciler
  | 0, _, r => r
  | n + 1, i, r =>
    match r.draining[i]? with
    | none => r
    | some e =>
      let e := { e with ticksWaited := e.ticksWaited + 1 }
      if e.finished ∨ e.ticksWaited > MAX_DRAIN_TICKS then
        let r := { r with draining := r.draining.eraseIdx i }
        drainFrom n i (if e.purge then forgetDepartingChannel enabled r e.key else r)
      else drainFrom n (i + 1) { r with draining := r.draining.set i e }

def drainDeparted (r : Reconciler) : Reconciler := drainFrom enabled r.draining.length 0 r

def reapFinished (r : Reconciler) : Reconciler :=
  { r with active := r.active.filter fun _ t => !t.finished }

/-- The purges of `apply_desired` that wait for nothing: those of keys with no receiver. -/
def forgetStopped (r : Reconciler) (key : FeedKey) : Reconciler :=
  if r.active.contains key then r else forgetDepartingChannel enabled r key

variable {enabled} in
/-- `apply_desired`, which reads the filter again. -/
def applyDesired (desired : Finset FeedKey) (live : FeedKey → TapeLiveness) (o : Orders enabled)
    (r : Reconciler) : Reconciler :=
  let r := reapFinished r
  let admitted := filterAdmitted enabled r.filter
  let departed := r.lastFilterAdmitted \ admitted
  let r := { r with lastFilterAdmitted := admitted }
  let r := (o.departed.walk departed).foldl (forgetStopped enabled) r
  drainDeparted enabled (applyFeeds desired departed live o r)

/-! ## The interleaving -/

inductive Step where
  | replaceFilter (filter : ChannelFilter)
  | computeDesired (d : Detected)
  | applyDesired (live : FeedKey → TapeLiveness) (o : Orders enabled)
  | write (key : FeedKey) (shelf : Shelf) (id : Nat)
  | exit (key : FeedKey)
  | complete (i : Nat)

/-- Whether some task of a key has not finished. -/
def writing (r : Reconciler) (key : FeedKey) : Bool :=
  ((r.active.get key).any fun t => !t.finished) || r.draining.any fun e => e.key = key ∧ !e.finished

/-- A receiver whose task has not finished writes under its own venue, category and channel. -/
def write (r : Reconciler) (key : FeedKey) (shelf : Shelf) (id : Nat) : Reconciler :=
  match channelIn enabled key with
  | none => r
  | some channel =>
    if writing r key ∧ shelf.suppliedBy key.kind then
      { r with
        held := Function.update r.held shelf (⟨key.venue, key.category, channel, id⟩ :: r.held shelf) }
    else r

variable {enabled} in
def step (r : Reconciler) : Step enabled → Reconciler
  | .replaceFilter filter => { r with filter }
  | .computeDesired d => { r with pending := desiredFrom enabled r.filter d }
  | .applyDesired live o =>
    match r.pending with
    | none => r
    | some desired => { applyDesired desired live o r with pending := none }
  | .write key shelf id => write enabled r key shelf id
  | .exit key =>
    match r.active.get key with
    | none => r
    | some t => { r with active := r.active.insert key { t with finished := true } }
  | .complete i =>
    { r with draining := r.draining.modify i fun e => { e with finished := true } }

def machine : Machine Reconciler (Step enabled) Unit := ⟨fun r s => (step r s, ())⟩

end EdgeConnect.Reconcile
