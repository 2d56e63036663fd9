import EdgeConnect.Ingest.MboProcessor
import Mathlib.Logic.Relation

/-!
# The Market-by-Order processor as it serves its books

What a processor is to the arbiter, and what one step can do to it.

* `View` — the books with their Source IDs and channels, the sync states reported, what the datagram in progress owes
  and what was handed on; `Frame.view` — the view of a datagram in progress;
* `Move` — every way a view can change, under the `Rules` of a run; `Steps` — a run of moves.

The last depth of a book and the bookkeeping of the evictions do not appear: an eviction is a `drop`, in whatever order
it comes, and a depth is told like any message that no book depends on.
-/

set_option autoImplicit false

namespace EdgeConnect.MboFeed

open Ingest
open Mbo (BookState DeltaOp OrderChange)
open CodecMbo (Message)

/-! ## The view -/

structure View (P S : Type) where
  books : FinMap OrderBookKey BookState
  revealed : FinMap OrderBookKey Nat
  channels : FinMap OrderBookKey Nat
  defs : IpAddr → Nat → Option InstrumentDefinition
  reported : FinMap OrderBookKey Bool
  stamps : FinMap OrderBookKey Nat
  datagramChanges : List (Nat × OrderChange)
  changed : Finset Nat
  touched : Finset Nat
  rebaselined : Finset Nat
  cleared : Finset Nat
  out : List (Out P S)

section Views

variable {P S : Type}

/-- The view of a datagram in progress, after what was handed on before it. -/
def Frame.view (past : List (Out P S)) (f : Frame P S) : View P S where
  books := f.proc.books
  revealed := f.proc.revealed
  channels := f.proc.pendingChannel
  defs := f.proc.state.definition
  reported := f.proc.syncedReported
  stamps := f.proc.revealRebaselinedNs
  datagramChanges := f.datagramChanges
  changed := f.changed
  touched := f.touched
  rebaselined := f.rebaselined
  cleared := f.cleared
  out := past ++ f.out

/-- The view of a call in progress, with what the datagram `f` owes. -/
def Run.view (past : List (Out P S)) (f : Frame P S) (r : Run P S) : View P S := { f with toRun := r }.view past

/-- The view of a processor between two calls. -/
def MboProcessor.view (past : List (Out P S)) (p : MboProcessor) : View P S :=
  (⟨⟨p, []⟩, [], ∅, ∅, ∅, ∅⟩ : Frame P S).view past

/-- The market that a batch is published under. -/
def batchMarket (b : Batch P S) : BookKey := ⟨b.source, b.category, b.channel, b.instrumentId⟩

/-- What no book depends on. -/
def Out.quiet : Out P S → Bool
  | .depth _ _ | .instrument _ _ | .trade _ _ | .resetDepthFloor _ _ | .resetBookEvents _ | .resetBookSession _
  | .forgetDepth _ _ => true
  | .book _ _ _ | .setBookSynced _ _ _ | .noteSourcePath _ _ _ | .forgetSourcePath _ _ | .releaseSourceMarket _ _ _ =>
    false

/-! ## The moves -/

namespace View

variable (rd : Render P S) (cx : Ctx)

def emit (v : View P S) (o : Out P S) : View P S := { v with out := v.out ++ [o] }

def setBook (v : View P S) (key : OrderBookKey) (b : BookState) : View P S :=
  { v with books := v.books.insert key b }

def marketOf (v : View P S) (key : OrderBookKey) (sourceId : Nat) : BookKey :=
  ⟨rd.sourceKey sourceId, cx.category, (v.channels.get key).getD 0, key.instrumentId⟩

def marketKey (v : View P S) (key : OrderBookKey) : Option BookKey := (v.revealed.get key).map (v.marketOf rd cx key)

/-- A Source ID is named; that of before is released. -/
def reveal (v : View P S) (key : OrderBookKey) (sourceId : Nat) (d : InstrumentDefinition) (symbol : String) :
    View P S :=
  let v :=
    match v.revealed.get key with
    | none => v
    | some old => v.emit (.releaseSourceMarket key (v.marketOf rd cx key old) symbol)
  let v : View P S := { v with revealed := v.revealed.insert key sourceId }
  (v.emit (.noteSourcePath key sourceId (v.marketOf rd cx key sourceId))).emit
    (.instrument key (Run.instrumentOf rd cx key ((v.channels.get key).getD 0) sourceId d))

/-- What a reveal by a message of the market owes: the whole book, or a clear. -/
def owe (v : View P S) (instrumentId : Nat) (due : Option Nat) : View P S :=
  let v : View P S := { v with changed := insert instrumentId v.changed }
  match due with
  | some nowNs =>
    { v with
      stamps := v.stamps.insert ⟨cx.publisher, instrumentId⟩ nowNs
      rebaselined := insert instrumentId v.rebaselined }
  | none => { v with cleared := insert instrumentId v.cleared }

/-- The sync state of a book is reported under its market. -/
def report (v : View P S) (key : OrderBookKey) (market : BookKey) (synced : Bool) : View P S :=
  { v with reported := v.reported.insert key synced }.emit (.setBookSynced key market synced)

/-- A delta on the book `b` of an instrument. -/
def delta (v : View P S) (id : Nat) (op : DeltaOp) (b : BookState) : View P S :=
  { v.setBook ⟨cx.publisher, id⟩ (b.onDeltaReporting op).1 with
    datagramChanges := v.datagramChanges ++ (b.onDeltaReporting op).2.1.map fun c => (id, c)
    changed := if (b.onDeltaReporting op).2.2 then insert id v.changed else v.changed }

/-- An order of a snapshot, at every book of its publisher. -/
def snapshotOrder (v : View P S) (s : CodecMbo.SnapshotOrder) : View P S :=
  { v with
    books := v.books.mapEntries fun k b =>
      if k.publisher = cx.publisher then
        b.onSnapshotOrder s.snapshotId s.orderId (decide (s.side = SIDE_BID)) s.priceRaw s.qtyRaw
      else b }

/-- The end of a group on the book `b` of an instrument. -/
def snapshotEnd (v : View P S) (e : CodecMbo.SnapshotEnd) (b : BookState) : View P S :=
  let x := b.onSnapshotEnd e.anchorSeq e.snapshotId
  { v.setBook ⟨cx.publisher, e.instrumentId⟩ x.1 with
    changed := if x.2 then insert e.instrumentId v.changed else v.changed
    rebaselined := if x.2 then insert e.instrumentId v.rebaselined else v.rebaselined }

/-- A book goes; its Source ID stays. -/
def drop (v : View P S) (key : OrderBookKey) : View P S :=
  { v with books := v.books.erase key, reported := v.reported.erase key, stamps := v.stamps.erase key }

def unstamp (v : View P S) (key : OrderBookKey) : View P S := { v with stamps := v.stamps.erase key }

def unreveal (v : View P S) (key : OrderBookKey) : View P S := { v with revealed := v.revealed.erase key }

/-- The books of a publisher go. -/
def purgeBooks (v : View P S) (publisher : IpAddr) : View P S :=
  { v with
    books := v.books.filter fun k _ => !decide (k.publisher = publisher)
    reported := v.reported.filter fun k _ => !decide (k.publisher = publisher)
    stamps := v.stamps.filter fun k _ => !decide (k.publisher = publisher) }

/-- The Source IDs and the channels of a publisher go. -/
def purgeNames (v : View P S) (publisher : IpAddr) : View P S :=
  { v with
    revealed := v.revealed.filter fun k _ => !decide (k.publisher = publisher)
    channels := v.channels.filter fun k _ => !decide (k.publisher = publisher) }

/-- What the `book` of an instrument says. -/
def mode (v : View P S) (id : Nat) : BookEmit :=
  if id ∈ v.rebaselined then .rebaseline else if id ∈ v.cleared then .clear else .delta

/-- The changes of the `book` of an instrument, if one goes out. -/
def published (v : View P S) (id : Nat) : List (Change P S) :=
  match v.revealed.get ⟨cx.publisher, id⟩, v.books.get ⟨cx.publisher, id⟩, v.defs cx.publisher id with
  | some _, some b, some d => if b.isSynced then Run.bookChanges rd (v.mode id) d b id v.datagramChanges else []
  | _, _, _ => []

/-- An instrument that changed has had its turn. -/
def pass (v : View P S) (id : Nat) : View P S := { v with changed := v.changed.erase id }

end View

/-- What a run promises: `message` of every message, where it comes, and `publish` of every instrument that a datagram
changed, once its messages are through. -/
structure Rules (P S : Type) where
  message : View P S → Message → Prop
  publish : View P S → Nat → Prop

/-- Every way the view of a processor changes in a call with this context; `v₀` is the view that the message came to,
or the one that a datagram's messages left. -/
inductive Move (rd : Render P S) (cx : Ctx) (R : Rules P S) : View P S → View P S → Prop where
  | tell (v : View P S) (o : Out P S) (h : o.quiet = true) : Move rd cx R v (v.emit o)
  | forgetPath (v : View P S) (key : OrderBookKey) (market : BookKey) (h : v.marketKey rd cx key = some market) :
      Move rd cx R v (v.emit (.forgetSourcePath key market))
  | report (v : View P S) (key : OrderBookKey) (synced : Bool) (market : BookKey)
      (hnew : v.reported.get key ≠ some synced) (hmarket : v.marketKey rd cx key = some market)
      (hsynced : synced = true → (v.books.get key).any BookState.isSynced = true) :
      Move rd cx R v (v.report key market synced)
  | touch (v : View P S) (ids : Finset Nat) : Move rd cx R v { v with touched := v.touched ∪ ids }
  | fresh (v : View P S) (id : Nat) (hd : (v.defs cx.publisher id).isSome = true)
      (hb : v.books.get ⟨cx.publisher, id⟩ = none) :
      Move rd cx R v (v.setBook ⟨cx.publisher, id⟩ .new)
  | drop (v : View P S) (key : OrderBookKey) : Move rd cx R v (v.drop key)
  | unreveal (v : View P S) (key : OrderBookKey)
      (h : v.reported.get key = some true → v.marketKey rd cx key = none) : Move rd cx R v (v.unreveal key)
  | unstamp (v : View P S) (key : OrderBookKey) : Move rd cx R v (v.unstamp key)
  | purgeBooks (v : View P S) (publisher : IpAddr)
      (h : ∀ k : OrderBookKey, k.publisher = publisher → v.reported.get k = some true → v.marketKey rd cx k = none) :
      Move rd cx R v (v.purgeBooks publisher)
  | purgeNames (v : View P S) (publisher : IpAddr)
      (h : ∀ k : OrderBookKey, k.publisher = publisher → v.books.get k = none ∧ v.reported.get k = none) :
      Move rd cx R v (v.purgeNames publisher)
  | undefine (v : View P S) (defs : IpAddr → Nat → Option InstrumentDefinition)
      (h : ∀ p i d, defs p i = some d → v.defs p i = some d) : Move rd cx R v { v with defs }
  | label (v : View P S) (d : InstrumentDefinition) (hm : R.message v (.instrumentDefinition d)) (channel : Nat) :
      Move rd cx R v { v with channels := v.channels.insert ⟨cx.publisher, d.instrumentId⟩ channel }
  | define (v v₀ : View P S) (d : InstrumentDefinition) (hm : R.message v₀ (.instrumentDefinition d))
      (defs : IpAddr → Nat → Option InstrumentDefinition)
      (h : ∀ p i d', defs p i = some d' → v.defs p i = some d' ∨ (p = cx.publisher ∧ i = d.instrumentId ∧ d' = d)) :
      Move rd cx R v { v with defs }
  | revealDefined (v v₀ : View P S) (d d' : InstrumentDefinition) (hm : R.message v₀ (.instrumentDefinition d))
      (hbooks : v₀.books = v.books) (hrevealed : v₀.revealed = v.revealed) (sourceId : Nat)
      (hsource : d.sourceId = some sourceId)
      (hd : v.defs cx.publisher d.instrumentId = some d')
      (hnew : v.revealed.get ⟨cx.publisher, d.instrumentId⟩ ≠ some sourceId) (symbol : String) :
      Move rd cx R v (v.reveal rd cx ⟨cx.publisher, d.instrumentId⟩ sourceId d' symbol)
  | reveal (v v₀ : View P S) (m : Message) (hm : R.message v₀ m) (id sourceId : Nat) (d : InstrumentDefinition)
      (hd : v.defs cx.publisher id = some d) (hnew : v.revealed.get ⟨cx.publisher, id⟩ ≠ some sourceId)
      (symbol : String) (due : Option Nat) :
      Move rd cx R v ((v.reveal rd cx ⟨cx.publisher, id⟩ sourceId d symbol).owe cx id due)
  | delta (v v₀ : View P S) (m : Message) (hm : R.message v₀ m) (id : Nat) (op : DeltaOp) (b : BookState)
      (hb : v.books.get ⟨cx.publisher, id⟩ = some b) : Move rd cx R v (v.delta cx id op b)
  | snapshotBegin (v v₀ : View P S) (s : CodecMbo.SnapshotBegin) (hm : R.message v₀ (.snapshotBegin s)) (b : BookState)
      (hb : v.books.get ⟨cx.publisher, s.instrumentId⟩ = some b) :
      Move rd cx R v (v.setBook ⟨cx.publisher, s.instrumentId⟩
        (b.onSnapshotBegin s.snapshotId s.anchorSeq s.totalOrders s.lastInstrumentSeq))
  | snapshotOrder (v : View P S) (s : CodecMbo.SnapshotOrder) (hm : R.message v (.snapshotOrder s)) :
      Move rd cx R v (v.snapshotOrder cx s)
  | snapshotEnd (v v₀ : View P S) (e : CodecMbo.SnapshotEnd) (hm : R.message v₀ (.snapshotEnd e)) (b : BookState)
      (hb : v.books.get ⟨cx.publisher, e.instrumentId⟩ = some b) : Move rd cx R v (v.snapshotEnd cx e b)
  | endSession (v : View P S) : Move rd cx R v { v with books := v.books.mapVals BookState.onEndOfSession }
  | resetBook (v : View P S) (id newAnchorSeq : Nat) (b : BookState) (hb : v.books.get ⟨cx.publisher, id⟩ = some b) :
      Move rd cx R v (v.setBook ⟨cx.publisher, id⟩ (b.onInstrumentReset newAnchorSeq))
  | publish (v v₀ : View P S) (id : Nat) (hin : id ∈ v.changed) (hfin : R.publish v₀ id) (hdefs : v₀.defs = v.defs)
      (batch : Batch P S) (hmarket : v.marketKey rd cx ⟨cx.publisher, id⟩ = some (batchMarket batch))
      (hchanges : batch.changes = v.published rd cx id) (hne : v.published rd cx id ≠ []) :
      Move rd cx R v ((v.emit (.book ⟨cx.publisher, id⟩ (v.mode id) batch)).pass id)
  | pass (v v₀ : View P S) (id : Nat) (hin : id ∈ v.changed) (hfin : R.publish v₀ id) (hdefs : v₀.defs = v.defs)
      (hnothing : v.published rd cx id = []) : Move rd cx R v (v.pass id)

/-- A run of moves. -/
abbrev Steps (rd : Render P S) (cx : Ctx) (R : Rules P S) : View P S → View P S → Prop :=
  Relation.ReflTransGen (Move rd cx R)

/-- **What every move preserves, a run of moves preserves.** -/
theorem Steps.rule {rd : Render P S} {cx : Ctx} {R : Rules P S} {I : View P S → Prop}
    (h : ∀ v v', Move rd cx R v v' → I v → I v') {v v' : View P S} (hs : Steps rd cx R v v') (hv : I v) : I v' := by
  induction hs with
  | refl => exact hv
  | tail _ hm ih => exact h _ _ hm ih

end Views

end EdgeConnect.MboFeed
