import EdgeConnect.Ingest.MbpProcessor
import EdgeConnect.Lib.Machine
import Mathlib.Logic.Relation

/-!
# The Market-by-Price processor as it serves its books

What a processor is to the consumers of its books, and what one step can do to it.

* `View` — the books with their routes and Source IDs, the open events, what the datagram in progress has to publish
  and what was sent; `Run.view` — the view of a processor;
* `Move` — every way a view can change; `Steps` — a run of moves.

Health reports, buffer budgets, drop reasons and the bookkeeping of the evictions do not appear: an eviction is a
`forget`, in whatever order it comes.
-/

set_option autoImplicit false

namespace EdgeConnect.Mbp

open Ingest

/-! ## The view -/

/-- What was sent for a book: a batch under its Source ID, a new Source ID, a refused close; and a channel's batching
state being dropped. -/
inductive Sending (P S : Type) where
  | book (key : PriceBookKey) (sourceId : Nat) (changes : List (Change P S)) (last : Bool)
  | revealed (key : PriceBookKey) (sourceId : Nat)
  | refused (key : PriceBookKey)
  | dropped (chan : ChannelKey)
  deriving DecidableEq, Repr

/-- `lanes` has the open events of the channels with batching state. -/
structure View (P S : Type) where
  books : FinMap PriceBookKey PriceBook
  revealed : FinMap PriceBookKey Nat
  defs : IpAddr → Nat → Option InstrumentDefinition
  «open» : FinMap ChannelKey OpenGroup
  lanes : ChannelKey → Option (Finset Nat)
  accum : FinMap Nat (List (Change P S))
  revealedNow : Finset Nat
  sent : List (Sending P S)

section Views

variable {P S : Type}

def Out.sent : Out P S → Option (Sending P S)
  | .book key b => some (.book key b.sourceId b.changes b.last)
  | .noteSourcePath key sourceId _ => some (.revealed key sourceId)
  | .closeRefused key => some (.refused key)
  | .batchingDropped chan => some (.dropped chan)
  | .instrument _ _ | .trade _ _ | .setBookHealth _ _ _ | .forgetSourcePath _ _ | .releaseSourceMarket _ _ => none

def lanesOf (p : MbpProcessor) (chan : ChannelKey) : Option (Finset Nat) :=
  (p.batching.get chan).map ChannelBatching.open

/-- The view of a call in progress, after what was sent before it. -/
def Run.view (past : List (Sending P S)) (r : Run P S) (accum : FinMap Nat (List (Change P S)))
    (revealedNow : Finset Nat) : View P S where
  books := r.proc.books
  revealed := r.proc.revealed
  defs := r.proc.state.definition
  «open» := r.proc.open
  lanes := lanesOf r.proc
  accum := accum
  revealedNow := revealedNow
  sent := past ++ r.out.filterMap Out.sent

def Frame.view (past : List (Sending P S)) (f : Frame P S) : View P S := f.toRun.view past f.accum f.revealedNow

/-- The view of a processor between two calls. -/
def MbpProcessor.view (past : List (Sending P S)) (p : MbpProcessor) : View P S :=
  (⟨p, []⟩ : Run P S).view past ∅ ∅

/-! ## The moves -/

namespace View

variable (rd : Render P S)

def emit (v : View P S) (s : Sending P S) : View P S := { v with sent := v.sent ++ [s] }

def setBook (v : View P S) (key : PriceBookKey) (b : PriceBook) : View P S :=
  { v with books := v.books.insert key b }

def unroute (v : View P S) (chan : ChannelKey) : View P S := { v with «open» := v.open.erase chan }

/-- A book goes, with its Source ID and its route. -/
def forget (v : View P S) (key : PriceBookKey) : View P S :=
  { v with
    books := v.books.erase key
    revealed := v.revealed.erase key
    «open» :=
      if (v.open.get key.chan).any fun g => g.instrumentId = key.instrumentId then v.open.erase key.chan
      else v.open }

/-- The rest of a publisher goes, after its books. -/
def purge (v : View P S) (publisher : IpAddr) : View P S :=
  { v with
    revealed := v.revealed.filter fun k _ => !decide (k.publisher = publisher)
    «open» := v.open.filter fun k _ => k.publisher ≠ publisher }

/-- What an applied delta is published as. -/
def published (d : InstrumentDefinition) (delta : BookDelta) (removed : List (UInt8 × Int)) : List (Change P S) :=
  match delta with
  | .level side priceRaw qtyRaw _ _ _ =>
    [⟨if qtyRaw = 0 then .delete else .update, Frame.bookSide side, rd.price priceRaw d.priceExponent,
      if qtyRaw = 0 then rd.zeroSize else rd.scaledQty qtyRaw d.qtyExponent, 0⟩]
  | .clear clearSide scope _ =>
    if scope = SCOPE_ENTIRE_SIDE then
      match Frame.clearBookSide clearSide with
      | some side => [⟨.clear, side, rd.zeroPrice, rd.zeroSize, 0⟩]
      | none => []
    else removed.map fun e => ⟨.delete, Frame.bookSide e.1, rd.price e.2 d.priceExponent, rd.zeroSize, 0⟩

/-- A delta on the book `b` of a key. -/
def delta (v : View P S) (key : PriceBookKey) (op : DeltaOp) (b : PriceBook) (d : InstrumentDefinition) :
    View P S :=
  { v.setBook key (b.onDelta op).1 with
    accum :=
      match (b.onDelta op).2.2 with
      | .applied _ => v.accum.insert key.instrumentId
          ((v.accum.get key.instrumentId).getD [] ++ published rd d op.delta (b.onDelta op).2.1)
      | _ => v.accum }

/-- A Source ID is revealed; `now` says that the datagram owes the whole book for it. -/
def reveal (v : View P S) (key : PriceBookKey) (sourceId : Nat) (now : Bool) : View P S :=
  { v.emit (.revealed key sourceId) with
    revealed := v.revealed.insert key sourceId
    revealedNow := if now then insert key.instrumentId v.revealedNow else v.revealedNow }

/-- A begin on the book `b` of a key. -/
def snapshotBegin (v : View P S) (key : PriceBookKey) (s : SnapshotBegin) (nowNs : Nat) (b : PriceBook) : View P S :=
  let x := b.onSnapshotBegin s.snapshotId s.anchorSeq s.totalLevels s.lastInstrumentSeq s.depthBound nowNs
  let accepted : Bool := x.2 = .accepted
  { v.setBook key x.1 with
    «open» :=
      if accepted ∨ ¬ (v.open.get key.chan).any fun g => g.instrumentId = key.instrumentId then
        v.open.insert key.chan ⟨key.instrumentId, s.snapshotId, s.anchorSeq, accepted⟩
      else v.open }

/-- A batch of a book that is `Ready` and revealed goes out. -/
def send (v : View P S) (key : PriceBookKey) (changes : List (Change P S)) (last : Bool) : View P S × Bool :=
  match v.revealed.get key, v.books.get key, v.defs key.publisher key.instrumentId with
  | some sourceId, some b, some _ =>
    if b.status = .ready then (v.emit (.book key sourceId changes last), true) else (v, false)
  | _, _, _ => (v, false)

def rebaseline (v : View P S) (key : PriceBookKey) : View P S × Bool :=
  match v.books.get key, v.defs key.publisher key.instrumentId with
  | some b, some d => v.send key (Run.rebaselineChanges rd b d.priceExponent d.qtyExponent) true
  | _, _ => (v, false)

def setLane (v : View P S) (chan : ChannelKey) (f : Finset Nat → Finset Nat) : View P S :=
  { v with lanes := Function.update v.lanes chan ((v.lanes chan).map f) }

/-- An event of an instrument is closed, or open. -/
def note (v : View P S) (key : PriceBookKey) (last : Bool) : View P S :=
  v.setLane key.chan fun s => if last then s.erase key.instrumentId else insert key.instrumentId s

/-- The end of a group on the book `b` of a key: an install replaces what the datagram had to publish by the whole
book. -/
def snapshotEnd (v : View P S) (key : PriceBookKey) (e : SnapshotEnd) (b : PriceBook) : View P S :=
  let x := b.onSnapshotEnd e.anchorSeq e.snapshotId
  let v := (v.unroute key.chan).setBook key x.1
  if x.2 then
    let v : View P S :=
      { v with
        accum := v.accum.erase key.instrumentId
        revealedNow := v.revealedNow.erase key.instrumentId }
    let y := v.rebaseline rd key
    if y.2 then y.1.note key true else y.1
  else v

def instrumentReset (v : View P S) (key : PriceBookKey) (newAnchorSeq : Nat) (b : PriceBook) : View P S :=
  { v.setBook key (b.onInstrumentReset newAnchorSeq) with
    revealed := v.revealed.erase key
    accum := v.accum.erase key.instrumentId }

def endSession (v : View P S) (key : PriceBookKey) (b : PriceBook) : View P S :=
  { v.setBook key b.onEndOfSession with accum := v.accum.erase key.instrumentId }

def dropLane (v : View P S) (chan : ChannelKey) : View P S :=
  { v.emit (.dropped chan) with lanes := Function.update v.lanes chan none }

def openLane (v : View P S) (chan : ChannelKey) : View P S :=
  { v with lanes := Function.update v.lanes chan (some ((v.lanes chan).getD ∅)) }

/-- What an instrument has to publish is taken. -/
def take (v : View P S) (id : Nat) : View P S :=
  { v with accum := v.accum.erase id, revealedNow := v.revealedNow.erase id }

/-- The whole book if it was revealed in this datagram or is owed, and otherwise the changes. -/
def batch (v : View P S) (key : PriceBookKey) (whole : Prop) [Decidable whole] (changes : List (Change P S))
    (last : Bool) : View P S × Bool :=
  if whole then v.rebaseline rd key else v.send key changes last

/-- A close of an instrument's event; a refused one is still owed. -/
def close (v : View P S) (key : PriceBookKey) (owed : Bool) : View P S :=
  let changes := (v.accum.get key.instrumentId).getD []
  if changes = [] ∧ key.instrumentId ∉ (v.lanes key.chan).getD ∅ then
    { v with accum := v.accum.erase key.instrumentId }
  else
    let x := (v.take key.instrumentId).batch rd key (key.instrumentId ∈ v.revealedNow ∨ owed = true) changes true
    if x.2 then x.1.note key true else (x.1.emit (.refused key)).note key false

/-- What an instrument has to publish at the end of a datagram. -/
def publish (v : View P S) (key : PriceBookKey) (closes owed : Bool) : View P S :=
  let changes := (v.accum.get key.instrumentId).getD []
  let whole := key.instrumentId ∈ v.revealedNow ∨ (changes ≠ [] ∧ owed = true)
  if whole ∨ changes ≠ [] then
    let x := (v.take key.instrumentId).batch rd key whole changes closes
    if x.2 then x.1.note key (if whole then true else closes) else x.1
  else v.take key.instrumentId

end View

/-- The messages that carry a Source ID for a book. -/
def Message.isMarket : Message → Bool
  | .levelUpdate _ | .bookClear _ | .trade _ => true
  | _ => false

/-- Every way the view of a processor changes in a call with this context, on this channel.  The messages it may be
handling are those of `on`, and `ok` is a condition on the ends of snapshot groups. -/
inductive Move (rd : Render P S) (cx : Ctx P S) (channel : Nat) (on : Message → Prop)
    (ok : View P S → SnapshotEnd → Prop) : View P S → View P S → Prop where
  | forget (v : View P S) (key : PriceBookKey) : Move rd cx channel on ok v (v.forget key)
  | purge (v : View P S) (publisher : IpAddr)
      (hb : ∀ key : PriceBookKey, key.publisher = publisher → v.books.get key = none) :
      Move rd cx channel on ok v (v.purge publisher)
  | fresh (v : View P S) (id : Nat) (hd : (v.defs cx.publisher id).isSome = true)
      (hb : v.books.get ⟨cx.publisher, channel, id⟩ = none) :
      Move rd cx channel on ok v (v.setBook ⟨cx.publisher, channel, id⟩ .new)
  | delta (v : View P S) (m : Message) (hm : on m) (hmarket : m.isMarket = true) (id : Nat) (op : DeltaOp)
      (b : PriceBook) (d : InstrumentDefinition) (hb : v.books.get ⟨cx.publisher, channel, id⟩ = some b)
      (hd : v.defs cx.publisher id = some d) :
      Move rd cx channel on ok v (v.delta rd ⟨cx.publisher, channel, id⟩ op b d)
  | reveal (v : View P S) (m : Message) (hm : on m) (hmarket : m.isMarket = true) (id sourceId : Nat)
      (hd : (v.defs cx.publisher id).isSome = true)
      (hne : v.revealed.get ⟨cx.publisher, channel, id⟩ ≠ some sourceId) :
      Move rd cx channel on ok v (v.reveal ⟨cx.publisher, channel, id⟩ sourceId true)
  | revealDefined (v : View P S) (d : InstrumentDefinition) (hm : on (.instrumentDefinition d))
      (hrole : cx.role.handlesRefdata = true) (sourceId : Nat) (hsource : d.sourceId = some sourceId)
      (hd : (v.defs cx.publisher d.instrumentId).isSome = true)
      (hne : v.revealed.get ⟨cx.publisher, channel, d.instrumentId⟩ ≠ some sourceId) :
      Move rd cx channel on ok v (v.reveal ⟨cx.publisher, channel, d.instrumentId⟩ sourceId false)
  | undefine (v : View P S) (defs : IpAddr → Nat → Option InstrumentDefinition)
      (h : ∀ p i d, defs p i = some d → v.defs p i = some d)
      (hwhen : v.accum = ∅ ∧ v.revealedNow = ∅ ∨ cx.role.handlesRefdata = true) :
      Move rd cx channel on ok v { v with defs }
  | define (v : View P S) (d : InstrumentDefinition) (hm : on (.instrumentDefinition d))
      (hrole : cx.role.handlesRefdata = true) (defs : IpAddr → Nat → Option InstrumentDefinition)
      (h : ∀ p i d', defs p i = some d' → v.defs p i = some d' ∨ (p = cx.publisher ∧ i = d.instrumentId ∧ d' = d)) :
      Move rd cx channel on ok v { v with defs }
  | snapshotBegin (v : View P S) (s : SnapshotBegin) (hm : on (.snapshotBegin s)) (b : PriceBook)
      (hb : v.books.get ⟨cx.publisher, channel, s.instrumentId⟩ = some b) :
      Move rd cx channel on ok v (v.snapshotBegin ⟨cx.publisher, channel, s.instrumentId⟩ s cx.recvTsNs b)
  | snapshotLevel (v : View P S) (l : SnapshotLevel) (hm : on (.snapshotLevel l)) (g : OpenGroup) (b : PriceBook)
      (hroute : v.open.get ⟨cx.publisher, channel⟩ = some g) (hid : g.snapshotId = l.snapshotId)
      (hg : g.accepted = true) (hb : v.books.get ⟨cx.publisher, channel, g.instrumentId⟩ = some b) :
      Move rd cx channel on ok v (v.setBook ⟨cx.publisher, channel, g.instrumentId⟩
        (b.onSnapshotLevel l.snapshotId l.side l.priceRaw l.qtyRaw l.orderCount l.levelFlags))
  | unroute (v : View P S) (chan : ChannelKey) : Move rd cx channel on ok v (v.unroute chan)
  | snapshotEnd (v : View P S) (e : SnapshotEnd) (hm : on (.snapshotEnd e)) (g : OpenGroup) (b : PriceBook)
      (hroute : v.open.get ⟨cx.publisher, channel⟩ = some g) (hid : g.instrumentId = e.instrumentId)
      (hg : g.accepted = true) (hb : v.books.get ⟨cx.publisher, channel, e.instrumentId⟩ = some b) (hok : ok v e) :
      Move rd cx channel on ok v (v.snapshotEnd rd ⟨cx.publisher, channel, e.instrumentId⟩ e b)
  | instrumentReset (v : View P S) (id newAnchorSeq : Nat) (hm : on (.instrumentReset id newAnchorSeq))
      (b : PriceBook) (hb : v.books.get ⟨cx.publisher, channel, id⟩ = some b) :
      Move rd cx channel on ok v (v.instrumentReset ⟨cx.publisher, channel, id⟩ newAnchorSeq b)
  | endSession (v : View P S) (id : Nat) (b : PriceBook)
      (hb : v.books.get ⟨cx.publisher, channel, id⟩ = some b) :
      Move rd cx channel on ok v (v.endSession ⟨cx.publisher, channel, id⟩ b)
  | dropBuffer (v : View P S) (key : PriceBookKey) (b : PriceBook) (hb : v.books.get key = some b) :
      Move rd cx channel on ok v (v.setBook key b.dropBuffer)
  | dropLane (v : View P S) (chan : ChannelKey) : Move rd cx channel on ok v (v.dropLane chan)
  | openLane (v : View P S) : Move rd cx channel on ok v (v.openLane ⟨cx.publisher, channel⟩)
  | close (v : View P S) (id : Nat) (owed : Bool) (hlane : (v.lanes ⟨cx.publisher, channel⟩).isSome = true) :
      Move rd cx channel on ok v (v.close rd ⟨cx.publisher, channel, id⟩ owed)
  | publish (v : View P S) (id : Nat) (closes owed : Bool)
      (hlane : closes = false → (v.lanes ⟨cx.publisher, channel⟩).isSome = true) :
      Move rd cx channel on ok v (v.publish rd ⟨cx.publisher, channel, id⟩ closes owed)

/-- A run of moves. -/
abbrev Steps (rd : Render P S) (cx : Ctx P S) (channel : Nat) (on : Message → Prop)
    (ok : View P S → SnapshotEnd → Prop) : View P S → View P S → Prop :=
  Relation.ReflTransGen (Move rd cx channel on ok)

/-- **What every move preserves, a run of moves preserves.** -/
theorem Steps.rule {rd : Render P S} {cx : Ctx P S} {channel : Nat} {on : Message → Prop}
    {ok : View P S → SnapshotEnd → Prop} {I : View P S → Prop}
    (h : ∀ v v', Move rd cx channel on ok v v' → I v → I v') {v v' : View P S}
    (hs : Steps rd cx channel on ok v v') (hv : I v) : I v' := by
  induction hs with
  | refl => exact hv
  | tail _ hm ih => exact h _ _ hm ih

end Views

end EdgeConnect.Mbp
