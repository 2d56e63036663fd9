import EdgeConnect.Lib.Broadcast
import EdgeConnect.Sinks.Ws

/-!
# The Hyperliquid sink (`src/sinks/hyperliquid.rs`)

Executable model of the `l4Book` channel: a shared stage reads the backbone and renders each batch once, and
every client forwards what the stage rendered between the snapshots it is bootstrapped with.

* `Wanted` — how many claims a coin has, which is what the stage renders for;
* `MarketOrders`, `prepareOne`, `reseedPublished` — the stage's memory of a market and one batch through it;
* `HlClient` — a connection: its queue, subscriptions, claims and pins, and everything written to its socket;
* `Hub`, `Step`, `machine` — the arbiter, the stage and the clients, one atomic access to shared state a step.

A frame carries the numbers that `num` formats.  `l2Book` and `trades` frames, and the times of a frame, are
left out; so are the heartbeat, the idle reaper and the inbound limit, which only end a connection (`hangUp`).
The order a map is iterated in is an argument of the step.
-/

set_option autoImplicit false

namespace EdgeConnect

namespace Hl

open Ws (BookSnapshot FeedMessage marketOf publishBook)

/-- `ingest::sources::HYPERLIQUID_SOURCE_ID`, the one source the sink renders. -/
def SOURCE_ID : Nat := 1

def MAX_CLIENTS : Nat := 64

def MAX_SUBS : Nat := 256

/-- Capacity of the prepared-frame fan-out. -/
def PREPARED_CAPACITY : Nat := 4096

/-- Shortest interval between one client's re-bootstraps, in nanoseconds. -/
def REBOOTSTRAP_MIN_INTERVAL : Nat := 5 * 10 ^ 9

def MAX_TRACKED_MARKETS : Nat := 4096

def MAX_TRACKED_ORDERS : Nat := 2 ^ 18

/-! ## Subscriptions -/

inductive Sub where
  | l2Book (coin : String) (nSigFigs mantissa : Option Nat) (nLevels : Nat)
  | l4Book (coin : String)
  | trades (coin : String)
  deriving DecidableEq, Repr

/-- The coin a subscription names, when it is one of the two book channels. -/
def bookCoin : Sub → Option String
  | .l2Book coin _ _ _ => some coin
  | .l4Book coin => some coin
  | .trades _ => none

def Sub.isL4Book : Sub → Bool
  | .l4Book _ => true
  | _ => false

inductive Control where
  | subscribe (sub : Sub)
  | unsubscribe (sub : Sub)
  | ping
  deriving DecidableEq, Repr

/-! ## Frames -/

structure L4Order where
  isBid : Bool
  limitPx : F64
  sz : F64
  oid : Nat
  deriving DecidableEq, Repr

inductive RawDiff where
  | new (sz : F64)
  | update (origSz newSz : F64)
  | remove
  deriving DecidableEq, Repr

structure OrderDiffEntry where
  oid : Nat
  px : F64
  rawBookDiff : RawDiff
  deriving DecidableEq, Repr

inductive L4Data where
  | snapshot (bids asks : List L4Order)
  | updates (bookDiffs : List OrderDiffEntry)
  deriving DecidableEq, Repr

/-- An `l4Book` frame.  `market` is not on the wire: it is the market whose book was rendered. -/
structure L4Frame where
  coin : String
  market : BookKey
  data : L4Data
  deriving DecidableEq, Repr

/-- What is written to a client's socket. -/
inductive Wire where
  | subscribed (sub : Sub)
  | unsubscribed (sub : Sub)
  | pong
  | error (text : String)
  | close
  | l4Book (f : L4Frame)
  deriving DecidableEq, Repr

/-- `render_l4book_snapshot`: every change that names an order, by side. -/
def renderL4bookSnapshot (b : NormalizedBook) : L4Data :=
  let orders := (b.changes.filter fun c => c.orderId ≠ 0).map fun c =>
    (⟨c.side = .bid, c.price, c.size, c.orderId⟩ : L4Order)
  .snapshot (orders.filter fun o => o.isBid) (orders.filter fun o => !o.isBid)

/-! ## The stage's memory of a market -/

/-- The sizes last published for a market's orders, and whether it streams orders at all. -/
structure MarketOrders where
  sizes : FinMap Nat F64
  orderLevel : Bool

namespace MarketOrders

/-- One change of a batch. -/
def applyChange (m : MarketOrders) (c : BookChange) : MarketOrders :=
  if c.action = .clear then { m with sizes := ∅ }
  else if c.orderId = 0 then m
  else if c.action = .delete ∨ c.size.eq F64.zero ∨ !c.size.isFinite then
    ⟨m.sizes.erase c.orderId, true⟩
  else if m.sizes.size < MAX_TRACKED_ORDERS ∨ m.sizes.contains c.orderId then
    ⟨m.sizes.insert c.orderId c.size, true⟩
  else { m with orderLevel := true }

def apply (m : MarketOrders) (b : NormalizedBook) : MarketOrders := b.changes.foldl applyChange m

end MarketOrders

/-- `raw_diff`: which diff a change is, given the size last published for its order. -/
def rawDiff (c : BookChange) (published : Option F64) : RawDiff :=
  if c.action = .delete ∨ c.size.eq F64.zero then .remove
  else
    match published with
    | some prev => .update prev c.size
    | none => .new c.size

/-- `render_l4book_diff`: the order diffs of a batch, if it has any. -/
def renderL4bookDiff (b : NormalizedBook) (market : MarketOrders) : Option L4Data :=
  match (b.changes.filter fun c => c.orderId ≠ 0).map fun c =>
    (⟨c.orderId, c.price, rawDiff c (market.sizes.get c.orderId)⟩ : OrderDiffEntry) with
  | [] => none
  | diffs => some (.updates diffs)

/-- A batch that starts with a clear. -/
def rebaseline (b : NormalizedBook) : Bool := b.changes.head?.any fun c => c.action = .clear

/-! ## Claims -/

/-- How many claims a coin has on each channel. -/
structure Wants where
  l2 : Nat
  l4 : Nat
  deriving DecidableEq, Repr

abbrev Wanted := FinMap String Wants

namespace Wanted

def wants (w : Wanted) (coin : String) : Wants := (w.get coin).getD ⟨0, 0⟩

/-- The shared half of `WantGuard::add`. -/
def add (w : Wanted) (coin : String) (l4 : Bool) : Wanted :=
  let e := w.wants coin
  w.insert coin (if l4 then { e with l4 := e.l4 + 1 } else { e with l2 := e.l2 + 1 })

def release (w : Wanted) (coin : String) (l4 : Bool) : Wanted :=
  match w.get coin with
  | none => w
  | some e =>
    let e : Wants := if l4 then { e with l4 := e.l4 - 1 } else { e with l2 := e.l2 - 1 }
    if e.l2 = 0 ∧ e.l4 = 0 then w.erase coin else w.insert coin e

end Wanted

/-- `Vec::swap_remove`: the last element takes the place of the removed one. -/
def swapRemove {α : Type} (l : List α) (i : Nat) : List α :=
  match l.getLast? with
  | none => []
  | some last => (l.set i last).dropLast

/-! ## The stage -/

structure PreparedMessage where
  msg : FeedMessage
  key : Option BookKey
  l4 : Option L4Frame

/-- What the stage sends its clients: a message prepared for all of them, or word that it lost some. -/
inductive Prepared where
  | message (p : PreparedMessage)
  | resync

/-- The batch of a message the sink renders. -/
def venueBatch : FeedMessage → Option NormalizedBook
  | .book b => if b.sourceId = SOURCE_ID then some b else none
  | _ => none

/-- Make room for one more tracked market, oldest first. -/
def evictMarkets (published : FinMap BookKey MarketOrders) :
    List BookKey → FinMap BookKey MarketOrders × List BookKey
  | [] => (published, [])
  | old :: order =>
    if published.size ≥ MAX_TRACKED_MARKETS then evictMarkets (published.erase old) order
    else (published, old :: order)

/-- A market the stage does not track yet takes its flag from the shared accumulator. -/
def trackMarket (books : BookSnapshot) (published : FinMap BookKey MarketOrders) (order : List BookKey)
    (key : BookKey) : FinMap BookKey MarketOrders × List BookKey :=
  if published.contains key then (published, order)
  else
    let (published, order) := evictMarkets published order
    let seed := (books.get key).any fun acc => acc.orderLevel
    (published.insert key ⟨∅, seed⟩, order ++ [key])

/-- The `l4Book` frame of a batch: a batch that starts with a clear is a snapshot of its own changes, any
other is diffed against what was published before it. -/
def renderL4 (b : NormalizedBook) (market : MarketOrders) (wants : Wants) (idle : Bool) : Option L4Frame :=
  if idle ∨ wants.l4 = 0 then none
  else if rebaseline b then
    if (market.apply b).orderLevel then some ⟨b.symbol, marketOf b, renderL4bookSnapshot b⟩ else none
  else (renderL4bookDiff b market).map fun data => ⟨b.symbol, marketOf b, data⟩

/-- `prepare_one`, with the claims `wants` read before the accumulator. -/
def prepareOne (m : FeedMessage) (books : BookSnapshot) (wants : Wants)
    (published : FinMap BookKey MarketOrders) (order : List BookKey) (idle : Bool) :
    PreparedMessage × FinMap BookKey MarketOrders × List BookKey :=
  match venueBatch m with
  | none => (⟨m, none, none⟩, published, order)
  | some b =>
    let key := marketOf b
    let (published, order) := trackMarket books published order key
    let market := (published.get key).getD ⟨∅, false⟩
    (⟨m, some key, renderL4 b market wants idle⟩, published.insert key (market.apply b), order)

/-- One market of `reseed_published`. -/
def reseedMarket (books : BookSnapshot) (s : FinMap BookKey MarketOrders × List BookKey) (key : BookKey) :
    FinMap BookKey MarketOrders × List BookKey :=
  match books.get key with
  | none => s
  | some acc =>
    if acc.orderLevel ∧ s.1.size < MAX_TRACKED_MARKETS then
      (s.1.insert key ((⟨∅, true⟩ : MarketOrders).apply (acc.toBook key 0)), s.2 ++ [key])
    else s

/-- `reseed_published`: what every client is about to be re-bootstrapped from. -/
def reseedPublished (books : BookSnapshot) (iter : List BookKey) :
    FinMap BookKey MarketOrders × List BookKey :=
  iter.foldl (reseedMarket books) (∅, [])

/-- Where `prepare_loop` is: between two messages, with a message it has read, with the claims on that
message's coin too, told that it lost some, or about to send. -/
inductive Stage where
  | waiting
  | took (m : FeedMessage) (idle : Bool)
  | counted (m : FeedMessage) (idle : Bool) (wants : Wants)
  | gap
  | ready (p : Prepared)

/-! ## A client -/

/-- `publishable`: whether an accumulated book may be published as full state. -/
def publishable (key : BookKey) (acc : BookAccumulator) (coin : String) : Bool :=
  key.source.id = SOURCE_ID ∧ acc.symbol = coin ∧ acc.baselined ∧ acc.orderLevel

/-- `take_market`. -/
def takeMarket (books : BookSnapshot) (key : BookKey) (coin : String) : Option BookAccumulator :=
  (books.get key).filter fun acc => publishable key acc coin

/-- `take_markets`, in the order the map is iterated. -/
def takeMarkets (books : BookSnapshot) (iter : List BookKey) (coin : String) :
    List (BookKey × BookAccumulator) :=
  iter.filterMap fun key => (takeMarket books key coin).map fun acc => (key, acc)

/-- `markets_for`: the markets a coin names. -/
def marketsFor (books : BookSnapshot) (iter : List BookKey) (coin : String) : List BookKey :=
  (takeMarkets books iter coin).map Prod.fst

/-- `bootstrap`: the snapshot of the pinned market, or of every market of the coin.  The host time that
`to_book` stamps is not rendered. -/
def bootstrap (books : BookSnapshot) (iter : List BookKey) (sub : Sub) (key : Option BookKey) :
    List L4Frame :=
  match sub with
  | .l4Book coin =>
    let markets :=
      match key with
      | some k => ((takeMarket books k coin).map fun acc => (k, acc)).toList
      | none => takeMarkets books iter coin
    markets.map fun m => ⟨coin, m.1, renderL4bookSnapshot (m.2.toBook m.1 0)⟩
  | _ => []

/-- What a client's task is doing: waiting for something to do, about to claim a coin, about to read the
bootstrap of a coin it has claimed, re-bootstrapping its `l4Book` subscriptions, or ending. -/
inductive Phase where
  | ready
  | subscribing (sub : Sub)
  | bootstrapping (sub : Sub)
  | rebootstrapping (left : List Sub)
  | closing
  deriving DecidableEq, Repr

structure HlClient where
  rx : Receiver Prepared
  subs : List Sub
  held : List (String × Bool)
  pinned : FinMap String BookKey
  lastRebootstrap : Option Nat
  phase : Phase
  wire : List Wire

namespace HlClient

def fresh : HlClient := ⟨.fresh, [], [], ∅, none, .ready, []⟩

def write (c : HlClient) (frames : List Wire) : HlClient := { c with wire := c.wire ++ frames }

/-- The `Subscribe` arm up to the acknowledgement: a new book subscription is resolved against the book map,
and refused when several markets share the coin. -/
def subscribe (c : HlClient) (books : BookSnapshot) (iter : List BookKey) (sub : Sub) : HlClient :=
  if c.subs.length ≥ MAX_SUBS then c.write [.error "Invalid subscription: max subscriptions reached"]
  else if sub ∈ c.subs then c.write [.subscribed sub]
  else
    match bookCoin sub with
    | none => { c with phase := .subscribing sub }.write [.subscribed sub]
    | some coin =>
      match marketsFor books iter coin with
      | [] => { c with phase := .subscribing sub }.write [.subscribed sub]
      | [key] =>
        { c with pinned := c.pinned.insert coin key, phase := .subscribing sub }.write [.subscribed sub]
      | _ :: _ :: _ =>
        c.write [.error "Invalid subscription: coin is ambiguous, several markets share this symbol"]

/-- `WantGuard::add`. -/
def claim (w : Wanted) (c : HlClient) (coin : String) (l4 : Bool) : Wanted × HlClient :=
  (w.add coin l4, { c with held := c.held ++ [(coin, l4)] })

/-- `WantGuard::remove`. -/
def unclaim (w : Wanted) (c : HlClient) (coin : String) (l4 : Bool) : Wanted × HlClient :=
  match c.held.findIdx? fun x => x = (coin, l4) with
  | none => (w, c)
  | some i => (w.release coin l4, { c with held := swapRemove c.held i })

/-- The `Unsubscribe` arm: the pin goes with the last book subscription of the coin. -/
def unsubscribe (w : Wanted) (c : HlClient) (sub : Sub) : Wanted × HlClient :=
  let (w, c) :=
    match bookCoin sub with
    | some coin => if sub ∈ c.subs then unclaim w c coin sub.isL4Book else (w, c)
    | none => (w, c)
  let c := { c with subs := c.subs.filter fun s => s ≠ sub }
  let c :=
    match bookCoin sub with
    | some coin =>
      if c.subs.any fun s => bookCoin s = some coin then c else { c with pinned := c.pinned.erase coin }
    | none => c
  (w, c.write [.unsubscribed sub])

/-- One inbound control frame. -/
def control (books : BookSnapshot) (iter : List BookKey) (w : Wanted) (c : HlClient) :
    Control → Wanted × HlClient
  | .ping => (w, c.write [.pong])
  | .subscribe sub => (w, c.subscribe books iter sub)
  | .unsubscribe sub => unsubscribe w c sub

/-- The pin a subscription is bootstrapped under. -/
def pin (c : HlClient) (sub : Sub) : Option BookKey := (bookCoin sub).bind c.pinned.get

/-- The next access to shared state of a task that is not waiting.  A client that is ending gives its claims
back one by one, and is gone once it has none. -/
def advance (books : BookSnapshot) (iter : List BookKey) (w : Wanted) (c : HlClient) :
    Wanted × Option HlClient :=
  match c.phase with
  | .ready => (w, some c)
  | .subscribing sub =>
    let (w, c) :=
      match bookCoin sub with
      | some coin => claim w c coin sub.isL4Book
      | none => (w, c)
    (w, some { c with phase := .bootstrapping sub })
  | .bootstrapping sub =>
    let frames := bootstrap books iter sub (c.pin sub)
    (w, some ({ c with subs := c.subs ++ [sub], phase := .ready }.write (frames.map .l4Book)))
  | .rebootstrapping [] => (w, some { c with phase := .ready })
  | .rebootstrapping (sub :: left) =>
    let frames := bootstrap books iter sub (c.pin sub)
    (w, some ({ c with phase := .rebootstrapping left }.write (frames.map .l4Book)))
  | .closing =>
    match c.held with
    | [] => (w, none)
    | (coin, l4) :: held => (w.release coin l4, some { c with held })

/-- `rebootstrap`: a second gap within the guard interval ends the connection. -/
def rebootstrap (c : HlClient) (now : Nat) : HlClient :=
  if c.lastRebootstrap.any fun t => now - t < REBOOTSTRAP_MIN_INTERVAL then
    { c with phase := .closing }.write [.error "lagging: reconnect for a fresh book", .close]
  else
    { c with
      lastRebootstrap := some now
      phase := .rebootstrapping (c.subs.filter Sub.isL4Book) }

/-- `frames`: what a prepared message is to this client.  A coin that no subscription has resolved is pinned
to the first market the feed shows. -/
def frames (c : HlClient) (p : PreparedMessage) : HlClient :=
  match venueBatch p.msg, p.key with
  | some b, some key =>
    if c.subs.any fun s => bookCoin s = some b.symbol then
      if (c.pinned.get b.symbol).any fun held => held ≠ key then c
      else
        let l4 := (c.subs.filter fun s => s = .l4Book b.symbol).flatMap fun _ => p.l4.toList
        { c with pinned := c.pinned.insert b.symbol key }.write (l4.map .l4Book)
    else c
  | _, _ => c

/-- The `rx.recv()` arm. -/
def forward (c : HlClient) (now : Nat) : HlClient :=
  match c.rx.recv with
  | (rx, .nothing) => { c with rx }
  | (rx, .lagged) => { c with rx }.rebootstrap now
  | (rx, .message .resync) =>
    if c.subs.any Sub.isL4Book then { c with rx }.rebootstrap now else { c with rx }
  | (rx, .message (.message p)) => { c with rx }.frames p

end HlClient

/-! ## The hub -/

/-- Everything the sink shares.  `arriving` is a batch that the arbiter has applied to the book map and not
yet broadcast. -/
structure Hub where
  books : BookSnapshot
  arriving : Option FeedMessage
  backbone : Receiver FeedMessage
  stage : Stage
  published : FinMap BookKey MarketOrders
  order : List BookKey
  wanted : Wanted
  clients : FinMap Nat HlClient
  nextId : Nat

inductive Step where
  | publish (m : FeedMessage)
  | append
  | stage (iter : List BookKey)
  | connect
  | control (i : Nat) (request : Control) (iter : List BookKey)
  | advance (i : Nat) (iter : List BookKey)
  | forward (i : Nat) (now : Nat)
  | hangUp (i : Nat)

namespace Hub

def init : Hub := ⟨∅, none, .fresh, .waiting, ∅, [], ∅, ∅, 0⟩

/-- The first half of `publish_book`: the batch advances the book map. -/
def publish (h : Hub) (m : FeedMessage) : Hub :=
  match h.arriving with
  | some _ => h
  | none =>
    { h with
      books := m.batch.elim h.books (publishBook h.books)
      arriving := some m }

/-- The second half: the message is broadcast. -/
def append (capacity : Nat) (h : Hub) : Hub :=
  match h.arriving with
  | none => h
  | some m => { h with arriving := none, backbone := h.backbone.send capacity m }

/-- The receivers of the fan-out: the clients', and the one `serve` keeps from the channel's creation. -/
def receiverCount (h : Hub) : Nat := h.clients.size + 1

/-- The stage's next action. -/
def prepare (h : Hub) (iter : List BookKey) : Hub :=
  match h.stage with
  | .waiting =>
    match h.backbone.recv with
    | (_, .nothing) => h
    | (backbone, .message m) => { h with backbone, stage := .took m (h.receiverCount = 0) }
    | (backbone, .lagged) => { h with backbone, stage := .gap }
  | .took m idle =>
    let wants := (venueBatch m).elim ⟨0, 0⟩ fun b => h.wanted.wants b.symbol
    { h with stage := .counted m idle wants }
  | .counted m idle wants =>
    let (p, published, order) := prepareOne m h.books wants h.published h.order idle
    { h with published, order, stage := if idle then .waiting else .ready (.message p) }
  | .gap =>
    let (published, order) := reseedPublished h.books iter
    { h with published, order, stage := .ready .resync }
  | .ready p =>
    { h with
      stage := .waiting
      clients := h.clients.mapVals fun c => { c with rx := c.rx.send PREPARED_CAPACITY p } }

def connect (h : Hub) : Hub :=
  if h.clients.size ≥ MAX_CLIENTS then h
  else { h with clients := h.clients.insert h.nextId .fresh, nextId := h.nextId + 1 }

/-- One client's task takes a step. -/
def turn (h : Hub) (i : Nat) (act : Wanted → HlClient → Wanted × Option HlClient) : Hub :=
  match h.clients.get i with
  | none => h
  | some c =>
    let (wanted, c) := act h.wanted c
    { h with wanted, clients := c.elim (h.clients.erase i) (h.clients.insert i) }

/-- A task that is not waiting takes neither requests nor messages. -/
def turnReady (h : Hub) (i : Nat) (act : Wanted → HlClient → Wanted × HlClient) : Hub :=
  h.turn i fun w c =>
    if c.phase = .ready then
      let (w, c) := act w c
      (w, some c)
    else (w, some c)

def step (capacity : Nat) (h : Hub) : Step → Hub
  | .publish m => h.publish m
  | .append => h.append capacity
  | .stage iter => h.prepare iter
  | .connect => h.connect
  | .control i request iter => h.turnReady i fun w c => c.control h.books iter w request
  | .advance i iter => h.turn i fun w c => c.advance h.books iter w
  | .forward i now => h.turnReady i fun w c => (w, c.forward now)
  | .hangUp i => h.turn i fun w c => (w, some { c with phase := .closing })

end Hub

def machine (capacity : Nat) : Machine Hub Step Unit := ⟨fun h s => (h.step capacity s, ())⟩

end Hl

end EdgeConnect
