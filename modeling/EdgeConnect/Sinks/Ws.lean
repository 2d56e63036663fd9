import EdgeConnect.Lib.Machine
import EdgeConnect.Model.Materialize

/-!
# The WebSocket sink (`src/sinks/ws.rs`)

Executable model of one client's connection: the frames it is fed, its subscriptions, and the book
bootstraps that `serve_client` writes around them.

* `prepare` — a backbone message as the serializer fans it out;
* `ClientBooks` — per market, the join watermark and the withhold;
* `replayScoped` — the book re-baselines of a replay; `withheldBootstrap`, `releaseWithheld` — the
  bootstrap a withheld market is owed; `forward` — one frame through the withhold and the watermark;
* `Client` — the connection: `connect`, `subscribe`, `unsubscribe`, `repair`, `sweep`, `forward`, `lagged`.

Instants and stamps are nanoseconds.  A map's iteration order is the argument `iter`.  Definitions and
depth of a `Replay::Full` are not book messages and are left out, as are pings, the heartbeat and the
inbound rate limit, which only end a connection.
-/

set_option autoImplicit false

namespace EdgeConnect

namespace BookAccumulator

/-- `to_book`.  In the `levels` scope the orders are folded into levels; only a book without orders is
rendered so (`Tagged`), and the fold of none is none. -/
def toBookScoped (a : BookAccumulator) (key : BookKey) (scope : ReplayScope) (nowNs : Nat) :
    NormalizedBook :=
  match scope with
  | .orders => a.toBook key nowNs
  | .levels =>
    { a.toClear key nowNs with
      changes := clearBoth :: ((a.bids.toList.reverse.map fun e => ⟨.update, .bid, e.2.1, e.2.2, 0⟩) ++
        a.asks.toList.map fun e => ⟨.update, .ask, e.2.1, e.2.2, 0⟩) }

/-- It is `to_book` as the map of a book without orders is iterated. -/
theorem toBookScoped_eq (a : BookAccumulator) (key : BookKey) (scope : ReplayScope) (nowNs : Nat) :
    a.toBookScoped key scope nowNs = a.toBookIn key scope [] nowNs := by
  cases scope with
  | orders => rfl
  | levels =>
    unfold toBookIn
    simp only
    rw [priceFold_nil, List.map_nil, List.map_nil, List.nil_append, List.append_nil]
    rfl

end BookAccumulator

namespace Ws

/-- A backbone message; `market` is any other message about one market. -/
inductive FeedMessage where
  | book (b : NormalizedBook)
  | orderBook (b : NormalizedBook)
  | market (kind venue : String) (sourceId : Nat) (symbol : String) (channel : Option Nat)
  | status (venue : String) (sourceId : Nat)
  deriving DecidableEq, Repr

/-- The batch of a book message. -/
def FeedMessage.batch : FeedMessage → Option NormalizedBook
  | .book b => some b
  | .orderBook b => some b
  | _ => none

/-- A message serialized once for all clients, with the fields their filters read. -/
structure PreparedFrame where
  payload : FeedMessage
  kind : String
  venue : String
  sourceId : Nat
  symbol : Option String
  channel : Option Nat
  bookMarket : Option BookKey
  recvTsNs : Nat
  deriving DecidableEq, Repr

/-- The replay key of a batch. -/
def marketOf (b : NormalizedBook) : BookKey := ⟨SourceKey.of b, b.category, b.channel, b.instrumentId⟩

/-- The frame of a batch served under a type. -/
def bookFrame (b : NormalizedBook) (orderLevel : Bool) (now : Nat) : PreparedFrame where
  payload := if orderLevel then .orderBook { b with wsSendTsNs := now } else .book { b with wsSendTsNs := now }
  kind := if orderLevel then "order_book" else "book"
  venue := b.venue
  sourceId := (marketOf b).source.id
  symbol := some b.symbol
  channel := some b.channel
  bookMarket := some (marketOf b)
  recvTsNs := b.recvTsNs

/-- `prepare`: a book frame filters on its replay key's id, never on the wire field. -/
def prepare (m : FeedMessage) (now : Nat) : PreparedFrame :=
  match m with
  | .book b => bookFrame b b.orderLevel now
  | .orderBook b => bookFrame b true now
  | .market kind venue sourceId symbol channel =>
    ⟨m, kind, venue, sourceId, some symbol, channel, none, 0⟩
  | .status venue sourceId => ⟨m, "status", venue, sourceId, none, none, none, 0⟩

structure WsConfig where
  maxSubs : Nat
  lagRepairMinInterval : Nat
  bootstrapReleaseDeadline : Nat

/-! ## Subscriptions -/

/-- A subscription filter: an absent field matches any value. -/
structure SubFilter where
  venue : Option String
  sourceName : Option String
  deprecatedSourceName : Option String
  sourceId : Option Nat
  symbol : Option String
  channel : Option Nat
  msgType : Option String
  deriving DecidableEq, Repr

/-- `eq_ignore_ascii_case`. -/
def eqIgnoreAsciiCase (s t : String) : Bool := s.toList.map Char.toLower = t.toList.map Char.toLower

namespace SubFilter

/-- `admits_kind`: whether the filter can deliver a type at all. -/
def admitsKind (f : SubFilter) (kind : String) : Bool := f.msgType.all fun t => t = kind

/-- `matches`: a venue-level message has no symbol and no channel, and satisfies a filter on either; a
message of one market without a channel satisfies none on it. -/
def matchesMessage (f : SubFilter) (sourceId : Nat) (venue : String) (symbol : Option String)
    (channel : Option Nat) (kind : String) : Bool :=
  (f.venue.all fun v => eqIgnoreAsciiCase v venue) &&
    (f.sourceName.all fun s => eqIgnoreAsciiCase s venue) &&
    (f.deprecatedSourceName.all fun s => eqIgnoreAsciiCase s venue) &&
    (f.sourceId.all fun id => id = sourceId) && f.admitsKind kind &&
    (match symbol with
      | none => true
      | some s => f.symbol.all fun x => x = s) &&
    (match channel with
      | none => f.channel.isNone || symbol.isNone
      | some c => f.channel.all fun x => x = c)

end SubFilter

/-- Whether a frame is in scope; no subscription at all is the whole feed. -/
def passes (subs : List SubFilter) (f : PreparedFrame) : Bool :=
  subs.isEmpty || subs.any fun s => s.matchesMessage f.sourceId f.venue f.symbol f.channel f.kind

/-- `book_kind`: the type a market is served under. -/
def bookKind (acc : BookAccumulator) : String := if acc.orderLevel then "order_book" else "book"

/-- `book_scope`: the market's own granularity. -/
def bookScope (acc : BookAccumulator) : ReplayScope := if acc.orderLevel then .orders else .levels

/-- Whether a market is in scope. -/
def wanted (subs : List SubFilter) (key : BookKey) (acc : BookAccumulator) : Bool :=
  subs.isEmpty || subs.any fun s =>
    s.matchesMessage key.source.id key.source.name (some acc.symbol) (some key.channel) (bookKind acc)

/-- `lag_repair_reaches`: only books are repaired. -/
def lagRepairReaches (subs : List SubFilter) : Bool :=
  subs.isEmpty || subs.any fun s => s.admitsKind "book" || s.admitsKind "order_book"

/-- `lag_repair_ready`: whether an owed repair may go out now. -/
def lagRepairReady (due : Bool) (last : Option Nat) (interval now : Nat) : Bool :=
  due && last.all fun t => now - t ≥ interval

/-! ## Bootstraps -/

/-- The replay map the arbiter writes. -/
abbrev BookSnapshot := FinMap BookKey BookAccumulator

/-- A batch advances the replay entry of its market. -/
def publishBook (books : BookSnapshot) (b : NormalizedBook) : BookSnapshot :=
  books.insert (marketOf b) (((books.get (marketOf b)).getD (.new b.symbol)).apply b)

/-- Per market, the stamp its bootstrap was materialized at and when that was, and since when it has been
withheld. -/
structure ClientBooks where
  watermarks : FinMap BookKey (Nat × Nat)
  awaiting : FinMap BookKey Nat

/-- A message written to the client: a bootstrap, or a frame of the live feed. -/
structure Sent where
  msg : FeedMessage
  market : Option BookKey
  live : Bool
  deriving DecidableEq, Repr

/-- The market's whole book, under its own type. -/
def bootstrap (acc : BookAccumulator) (key : BookKey) (wall : Nat) : FeedMessage :=
  let book := acc.toBookScoped key (bookScope acc) wall
  if acc.orderLevel then .orderBook book else .book book

namespace ClientBooks

/-- A bootstrap is written: the market is no longer withheld, and the batches it holds are marked.  `0`
means that nothing has been folded in, which is no watermark at all. -/
def bootstrapped (seen : ClientBooks) (key : BookKey) (acc : BookAccumulator) (now : Nat) : ClientBooks where
  watermarks := if acc.wireTsNs ≠ 0 then seen.watermarks.insert key (acc.wireTsNs, now) else seen.watermarks
  awaiting := seen.awaiting.erase key

/-- A market without an honest bootstrap is withheld; the moment that started stays. -/
def withhold (seen : ClientBooks) (key : BookKey) (now : Nat) : ClientBooks :=
  if seen.awaiting.contains key then seen else { seen with awaiting := seen.awaiting.insert key now }

/-- One market of `replay_scoped`. -/
def replayMarket (books : BookSnapshot) (subs : List SubFilter) (now wall : Nat) (seen : ClientBooks)
    (key : BookKey) : ClientBooks × List Sent :=
  match books.get key with
  | none => (seen, [])
  | some acc =>
    if !wanted subs key acc then (seen, [])
    else if !acc.baselined || !acc.pendingEmpty then (seen.withhold key now, [])
    else (seen.bootstrapped key acc now, [⟨bootstrap acc key wall, some key, false⟩])

/-- `replay_scoped`: the re-baseline of every market in scope. -/
def replayScoped (books : BookSnapshot) (subs : List SubFilter) (now wall : Nat) :
    List BookKey → ClientBooks → ClientBooks × List Sent
  | [], seen => (seen, [])
  | key :: iter, seen =>
    let (seen, out) := seen.replayMarket books subs now wall key
    let (seen, out') := replayScoped books subs now wall iter seen
    (seen, out ++ out')

end ClientBooks

/-- What `withheld_bootstrap` finds for a withheld market. -/
inductive Withheld where
  | waiting
  | outOfScope
  | ready (acc : BookAccumulator)

/-- `withheld_bootstrap`: an honest bootstrap is a complete book with no event open, or any complete book
once the market is overdue. -/
def withheldBootstrap (books : BookSnapshot) (key : BookKey) (subs : List SubFilter) (overdue : Bool) :
    Withheld :=
  match books.get key with
  | none => .waiting
  | some acc =>
    if !wanted subs key acc then .outOfScope
    else if !acc.baselined then .waiting
    else if acc.pendingEmpty || overdue then .ready acc
    else .waiting

namespace ClientBooks

/-- `release_withheld`: write the bootstrap a withheld market is owed; the flag says whether it is still
withheld. -/
def releaseWithheld (books : BookSnapshot) (subs : List SubFilter) (deadline now wall : Nat)
    (seen : ClientBooks) (key : BookKey) : ClientBooks × List Sent × Bool :=
  match seen.awaiting.get key with
  | none => (seen, [], false)
  | some since =>
    match withheldBootstrap books key subs (now - since ≥ deadline) with
    | .waiting => (seen, [], true)
    | .outOfScope => ({ seen with awaiting := seen.awaiting.erase key }, [], false)
    | .ready acc => (seen.bootstrapped key acc now, [⟨bootstrap acc key wall, some key, false⟩], false)

/-- The sweep: every withheld market is tried. -/
def sweep (books : BookSnapshot) (subs : List SubFilter) (deadline now wall : Nat) :
    List BookKey → ClientBooks → ClientBooks × List Sent
  | [], seen => (seen, [])
  | key :: iter, seen =>
    let (seen, out, _) := seen.releaseWithheld books subs deadline now wall key
    let (seen, out') := sweep books subs deadline now wall iter seen
    (seen, out ++ out')

/-- Write a frame that is in scope. -/
def write (subs : List SubFilter) (f : PreparedFrame) : List Sent :=
  if passes subs f then [⟨f.payload, f.bookMarket, true⟩] else []

/-- The forward arm of `serve_client`: a book frame of a withheld market releases it or is dropped, and one
strictly older than its bootstrap is dropped; the first frame that is not consumes the watermark. -/
def forward (books : BookSnapshot) (subs : List SubFilter) (deadline now wall : Nat) (seen : ClientBooks)
    (f : PreparedFrame) : ClientBooks × List Sent :=
  match f.bookMarket with
  | none => (seen, write subs f)
  | some key =>
    match seen.releaseWithheld books subs deadline now wall key with
    | (seen, out, true) => (seen, out)
    | (seen, out, false) =>
      match seen.watermarks.get key with
      | none => (seen, out ++ write subs f)
      | some (w, since) =>
        if f.recvTsNs < w ∧ now - since < deadline then (seen, out)
        else ({ seen with watermarks := seen.watermarks.erase key }, out ++ write subs f)

end ClientBooks

/-! ## The connection -/

structure Client where
  subs : List SubFilter
  seen : ClientBooks
  lastLagRepair : Option Nat
  lagRepairDue : Bool

/-- When a step is taken, when its writes are done, and in what order the map it reads is iterated: every
key once. -/
structure Moment where
  now : Nat
  wall : Nat
  written : Nat
  iter : List BookKey
  nodup : iter.Nodup

namespace Client

/-- Replay the markets some filters select. -/
def replay (c : Client) (books : BookSnapshot) (subs : List SubFilter) (t : Moment) : Client × List Sent :=
  let (seen, out) := c.seen.replayScoped books subs t.now t.wall t.iter
  ({ c with seen }, out)

/-- The connect-time replay, unfiltered. -/
def connect (books : BookSnapshot) (t : Moment) : Client × List Sent :=
  ({ subs := [], seen := ⟨∅, ∅⟩, lastLagRepair := none, lagRepairDue := false } : Client).replay books [] t

/-- The `Subscribe` arm: a filter that is new is bootstrapped on its own. -/
def subscribe (cfg : WsConfig) (c : Client) (books : BookSnapshot) (f : SubFilter) (t : Moment) :
    Client × List Sent :=
  if c.subs.length ≥ cfg.maxSubs then (c, [])
  else if f ∈ c.subs then (c, [])
  else { c with subs := c.subs ++ [f] }.replay books [f] t

/-- The `Unsubscribe` arm: a filter removed widens the scope, which is bootstrapped whole. -/
def unsubscribe (c : Client) (books : BookSnapshot) (f : SubFilter) (t : Moment) : Client × List Sent :=
  let subs := c.subs.filter fun s => s ≠ f
  if subs.length ≠ c.subs.length then { c with subs }.replay books subs t else (c, [])

/-- The head of the loop: an owed lag repair goes out once the pace allows it. -/
def repair (cfg : WsConfig) (c : Client) (books : BookSnapshot) (t : Moment) : Client × List Sent :=
  if lagRepairReady c.lagRepairDue c.lastLagRepair cfg.lagRepairMinInterval t.now then
    let (c, out) := { c with lagRepairDue := false }.replay books c.subs t
    ({ c with lastLagRepair := some t.written }, out)
  else (c, [])

/-- The sweep arm. -/
def sweep (cfg : WsConfig) (c : Client) (books : BookSnapshot) (t : Moment) : Client × List Sent :=
  let (seen, out) := c.seen.sweep books c.subs cfg.bootstrapReleaseDeadline t.now t.wall t.iter
  ({ c with seen }, out)

/-- The forward arm. -/
def forward (cfg : WsConfig) (c : Client) (books : BookSnapshot) (f : PreparedFrame) (t : Moment) :
    Client × List Sent :=
  let (seen, out) := c.seen.forward books c.subs cfg.bootstrapReleaseDeadline t.now t.wall f
  ({ c with seen }, out)

/-- The `Lagged` arm: a client that can be repaired is owed a repair. -/
def lagged (c : Client) : Client :=
  if lagRepairReaches c.subs then { c with lagRepairDue := true } else c

end Client

end Ws

end EdgeConnect
