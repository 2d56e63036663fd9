import EdgeConnect.Lib.FinMap
import EdgeConnect.Lib.Fifo
import EdgeConnect.Model.Book
import Mathlib.Data.Prod.Lex

/-!
# What the datagram processors share (`src/ingest/receiver.rs`, `src/ingest/subscriber.rs`)

* `SeqTracker`, `PublisherSeq` — the datagram sequence of each publisher and channel;
* `RefDataState`, `PerPublisher` — the instrument definitions of each publisher, by manifest era;
* `Render` — how raw prices, quantities and Source IDs are published.

The wire's unsigned integers are `Nat`, a source address is a `Nat`.  Metrics and warnings are left out.
-/

set_option autoImplicit false

namespace EdgeConnect.Ingest

abbrev IpAddr := Nat

/-- A publisher and a channel of it. -/
structure ChannelKey where
  publisher : IpAddr
  channel : Nat
  deriving DecidableEq, Repr

namespace ChannelKey

def lex (k : ChannelKey) : ℕ ×ₗ ℕ := toLex (k.publisher, k.channel)

theorem lex_injective : Function.Injective lex := by
  rintro ⟨p, c⟩ ⟨p', c'⟩ h
  cases toLex_inj.mp h
  rfl

instance : LinearOrder ChannelKey := LinearOrder.lift' lex lex_injective

end ChannelKey

/-- Which port a datagram arrived on. -/
inductive PortRole where
  | mktdata
  | refdata
  | snapshot
  | combined
  deriving DecidableEq, Repr

namespace PortRole

def handlesRefdata : PortRole → Bool
  | .refdata | .combined => true
  | .mktdata | .snapshot => false

def handlesMktdata : PortRole → Bool
  | .mktdata | .combined => true
  | .refdata | .snapshot => false

end PortRole

def MAX_PUBLISHERS : Nat := 256

/-! ## Datagram sequences -/

/-- How a datagram's header compares with what its channel has shown. -/
inductive SeqCheck where
  | first
  | ok
  | reset
  | stale
  | bounded
  | reseat
  deriving DecidableEq, Repr

/-- The furthest one datagram may move a bounded tracker's anchor. -/
def MAX_SEQ_ADVANCE : Nat := 1024

/-- How long a run of advances past the bound lasts before a bounded tracker follows it. -/
def SEQ_RESEAT_NS : Nat := 5000000000

/-- `bounded` is the start and the latest sequence of a run past the bound. -/
structure SeqAnchor where
  resetCount : Nat
  sequence : Nat
  bounded : Option (Nat × Nat)
  deriving DecidableEq, Repr

structure SeqTracker where
  last : FinMap Nat SeqAnchor
  bounded : Bool

namespace SeqTracker

def forgetChannel (t : SeqTracker) (channel : Nat) : SeqTracker := { t with last := t.last.erase channel }

/-- `check`: classify a datagram and advance the tracker for those that are accepted. -/
def check (t : SeqTracker) (channel resetCount sequence nowNs : Nat) : SeqTracker × SeqCheck :=
  let anchor : SeqTracker := { t with last := t.last.insert channel ⟨resetCount, sequence, none⟩ }
  match t.last.get channel with
  | none => (anchor, .first)
  | some entry =>
    if resetCount ≠ entry.resetCount then (anchor, .reset)
    else if sequence < entry.sequence then (t, .stale)
    else if t.bounded = false ∨ sequence - entry.sequence ≤ MAX_SEQ_ADVANCE then (anchor, .ok)
    else
      let since :=
        match entry.bounded with
        | some (since, latest) =>
          if sequence - latest + (latest - sequence) ≤ MAX_SEQ_ADVANCE then since else nowNs
        | none => nowNs
      if nowNs - since ≥ SEQ_RESEAT_NS then (anchor, .reseat)
      else ({ t with last := t.last.insert channel { entry with bounded := some (since, sequence) } }, .bounded)

end SeqTracker

/-- The trackers of each publisher, oldest first in `order`. -/
structure PublisherSeq where
  trackers : FinMap IpAddr SeqTracker
  order : List IpAddr
  bounded : Bool

namespace PublisherSeq

def check (s : PublisherSeq) (publisher : IpAddr) (channel resetCount sequence nowNs : Nat) :
    PublisherSeq × SeqCheck :=
  let s : PublisherSeq :=
    if s.trackers.contains publisher then s
    else
      let (order, trackers) := evictWhile (fun m => decide (m.size ≥ MAX_PUBLISHERS)) FinMap.erase s.order s.trackers
      { s with trackers, order := order ++ [publisher] }
  let (t, c) := ((s.trackers.get publisher).getD ⟨∅, s.bounded⟩).check channel resetCount sequence nowNs
  ({ s with trackers := s.trackers.insert publisher t }, c)

def forget (s : PublisherSeq) (publisher : IpAddr) : PublisherSeq :=
  { s with trackers := s.trackers.erase publisher, order := s.order.filter fun p => p ≠ publisher }

def forgetChannel (s : PublisherSeq) (publisher : IpAddr) (channel : Nat) : PublisherSeq :=
  match s.trackers.get publisher with
  | none => s
  | some t => { s with trackers := s.trackers.insert publisher (t.forgetChannel channel) }

end PublisherSeq

/-! ## Reference data -/

/-- A definition of either book protocol: the manifest it was published under, and what the processors read of it.
Only a version 3 definition names its Source ID. -/
structure InstrumentDefinition where
  instrumentId : Nat
  sourceId : Option Nat
  symbol : String
  priceExponent : Int
  qtyExponent : Int
  tickSize : Int
  manifestSeq : Nat
  deriving DecidableEq, Repr

/-- `is_later`: the order of `u16` sequences across their wrap. -/
def isLater (b a : Nat) : Bool :=
  let diff := (b + 2 ^ 16 - a) % 2 ^ 16
  diff ≠ 0 ∧ diff < 2 ^ 15

structure RefDataState where
  valid : Bool
  latestSeq : Nat
  expectedCount : Nat
  lastResetCount : Nat
  defs : FinMap Nat InstrumentDefinition

namespace RefDataState

def new : RefDataState := ⟨false, 0, 0, 0, ∅⟩

/-- A new era of the publisher starts over. -/
def onDatagram (s : RefDataState) (resetCount : Nat) : RefDataState :=
  if resetCount ≠ s.lastResetCount then ⟨false, 0, 0, resetCount, ∅⟩ else s

def onManifest (s : RefDataState) (valid : Bool) (manifestSeq instrumentCount : Nat) : RefDataState :=
  if valid = false then { s with valid := false, latestSeq := 0, expectedCount := 0, defs := ∅ }
  else if s.valid = false ∨ isLater manifestSeq s.latestSeq then
    { s with valid := true, latestSeq := manifestSeq, expectedCount := instrumentCount, defs := ∅ }
  else s

def onInstrumentDefinition (s : RefDataState) (d : InstrumentDefinition) : RefDataState :=
  if s.valid ∧ d.manifestSeq = s.latestSeq then { s with defs := s.defs.insert d.instrumentId d } else s

def definition (s : RefDataState) (instrumentId : Nat) : Option InstrumentDefinition := s.defs.get instrumentId

theorem onDatagram_definition {s : RefDataState} {resetCount i : Nat} {d : InstrumentDefinition}
    (h : (s.onDatagram resetCount).definition i = some d) : s.definition i = some d := by
  unfold onDatagram at h
  split at h
  · cases h
  · exact h

theorem onManifest_definition {s : RefDataState} {valid : Bool} {manifestSeq instrumentCount i : Nat}
    {d : InstrumentDefinition} (h : (s.onManifest valid manifestSeq instrumentCount).definition i = some d) :
    s.definition i = some d := by
  unfold onManifest at h
  split at h
  · cases h
  · split at h
    · cases h
    · exact h

theorem onInstrumentDefinition_definition {s : RefDataState} {d d' : InstrumentDefinition} {i : Nat}
    (h : (s.onInstrumentDefinition d).definition i = some d') :
    s.definition i = some d' ∨ (i = d.instrumentId ∧ d' = d) := by
  unfold onInstrumentDefinition at h
  split at h
  · unfold definition at h
    simp only at h
    rw [FinMap.get_insert] at h
    split at h
    · rename_i hi
      exact .inr ⟨hi, (Option.some.inj h).symm⟩
    · exact .inl h
  · exact .inl h

end RefDataState

/-- The reference data of each publisher, oldest first in `order`. -/
structure PerPublisher where
  states : FinMap IpAddr RefDataState
  order : List IpAddr
  lastEvicted : Option IpAddr

namespace PerPublisher

def new : PerPublisher := ⟨∅, [], none⟩

/-- The state of a publisher is made where there is none, in the place of the oldest. -/
def ensure (s : PerPublisher) (publisher : IpAddr) : PerPublisher :=
  if s.states.contains publisher then s
  else
    let (order, states, evicted) := evictWhile (fun m => decide (m.1.size ≥ MAX_PUBLISHERS))
      (fun m old => (m.1.erase old, some old)) s.order (s.states, s.lastEvicted)
    ⟨states.insert publisher .new, order ++ [publisher], evicted⟩

/-- `get` for a write of reference data. -/
def modify (s : PerPublisher) (publisher : IpAddr) (f : RefDataState → RefDataState) : PerPublisher :=
  let s := s.ensure publisher
  { s with states := s.states.insert publisher (f ((s.states.get publisher).getD .new)) }

/-- `state_mut`: a write that makes no state. -/
def modifyExisting (s : PerPublisher) (publisher : IpAddr) (f : RefDataState → RefDataState) : PerPublisher :=
  match s.states.get publisher with
  | none => s
  | some st => { s with states := s.states.insert publisher (f st) }

/-- `def`. -/
def definition (s : PerPublisher) (publisher : IpAddr) (instrumentId : Nat) : Option InstrumentDefinition :=
  (s.states.get publisher).bind fun st => st.definition instrumentId

/-- Making room for a publisher makes no definition. -/
theorem ensure_definition {s : PerPublisher} {p p' : IpAddr} {i : Nat} {d : InstrumentDefinition}
    (h : (s.ensure p).definition p' i = some d) : s.definition p' i = some d := by
  unfold ensure at h
  split at h
  · exact h
  · have hkept := evictWhile_rule (fun m : FinMap IpAddr RefDataState × Option IpAddr => decide (m.1.size ≥ MAX_PUBLISHERS))
      (fun m old => (m.1.erase old, some old)) (P := fun m => ∀ p st, m.1.get p = some st → s.states.get p = some st)
      (fun m old hm p st hget => by
        rw [FinMap.get_erase] at hget
        split at hget
        · cases hget
        · exact hm p st hget) s.order (s.states, s.lastEvicted) (fun _ _ h => h)
    unfold definition at h ⊢
    obtain ⟨st, hst, hd⟩ := Option.bind_eq_some_iff.mp h
    rw [FinMap.get_insert] at hst
    split at hst
    · cases hst
      cases hd
    · rw [hkept p' st hst]
      exact hd

/-- A write of one publisher's reference data defines only what it writes. -/
theorem modify_definition {s : PerPublisher} {p p' : IpAddr} {f : RefDataState → RefDataState} {i : Nat}
    {d : InstrumentDefinition} {Q : Nat → InstrumentDefinition → Prop}
    (hf : ∀ st i d, (f st).definition i = some d → st.definition i = some d ∨ Q i d)
    (h : (s.modify p f).definition p' i = some d) : s.definition p' i = some d ∨ (p' = p ∧ Q i d) := by
  unfold modify definition at h
  obtain ⟨st, hst, hd⟩ := Option.bind_eq_some_iff.mp h
  simp only at hst
  rw [FinMap.get_insert] at hst
  split at hst
  · rename_i hp
    subst hp
    cases hst
    rcases hf _ i d hd with hold | hq
    · refine .inl (ensure_definition (p := p') ?_)
      unfold definition
      cases hget : (s.ensure p').states.get p' with
      | none =>
        rw [hget] at hold
        cases hold
      | some st =>
        rw [hget] at hold
        exact hold
    · exact .inr ⟨rfl, hq⟩
  · refine .inl (ensure_definition (p := p) ?_)
    unfold definition
    rw [hst]
    exact hd

theorem modifyExisting_definition {s : PerPublisher} {p p' : IpAddr} {f : RefDataState → RefDataState} {i : Nat}
    {d : InstrumentDefinition} (hf : ∀ st i d, (f st).definition i = some d → st.definition i = some d)
    (h : (s.modifyExisting p f).definition p' i = some d) : s.definition p' i = some d := by
  unfold modifyExisting at h
  split at h
  · exact h
  · rename_i st hst
    unfold definition at h ⊢
    obtain ⟨st', hst', hd⟩ := Option.bind_eq_some_iff.mp h
    simp only at hst'
    rw [FinMap.get_insert] at hst'
    split at hst'
    · rename_i hp
      subst hp
      cases hst'
      rw [hst]
      exact hf st i d hd
    · rw [hst']
      exact hd

end PerPublisher

/-! ## What is published -/

/-- One change of a published book, with prices in `P` and sizes in `S`. -/
structure Change (P S : Type) where
  action : BookAction
  side : BookSide
  price : P
  size : S
  orderId : Nat
  deriving DecidableEq, Repr

/-- `x as i64` of a `u64`. -/
def asI64 (n : Nat) : Int := if n % 2 ^ 64 < 2 ^ 63 then (n % 2 ^ 64 : Nat) else (n % 2 ^ 64 : Nat) - 2 ^ 64

/-- How raw numbers are published: `apply_exponent` for prices and for sizes, the zeros of a clear or a delete, and
`source_label`. -/
structure Render (P S : Type) where
  price : Int → Int → P
  size : Int → Int → S
  zeroPrice : P
  zeroSize : S
  label : Nat → String

namespace Render

variable {P S : Type} (rd : Render P S)

/-- The change that discards a whole book. -/
def clearBoth : Change P S := ⟨.clear, .both, rd.zeroPrice, rd.zeroSize, 0⟩

/-- `scaled_qty`: a wire quantity past `i64::MAX` saturates. -/
def scaledQty (qtyRaw : Nat) (exponent : Int) : S := rd.size (min qtyRaw (2 ^ 63 - 1) : Nat) exponent

/-- `SourceKey::from_id`. -/
def sourceKey (id : Nat) : SourceKey := SourceKey.new id (rd.label id)

end Render

/-- A `book` message, with prices in `P` and sizes in `S`. -/
structure Batch (P S : Type) where
  source : SourceKey
  sourceId : Nat
  symbol : String
  channel : Nat
  instrumentId : Nat
  category : String
  orderLevel : Bool
  changes : List (Change P S)
  batchId : Option Nat
  snapshot : Bool
  last : Bool
  sourceTsNs : Nat
  recvTsNs : Nat
  kernelRxTsNs : Nat
  deriving DecidableEq, Repr

/-- An `instrument` message. -/
structure Instrument where
  source : SourceKey
  sourceId : Nat
  symbol : String
  channel : Nat
  instrumentId : Nat
  category : String
  priceExponent : Int
  qtyExponent : Int
  tickSize : Int
  deriving DecidableEq, Repr

/-- A `trade` message. -/
structure TradePrint (P S : Type) where
  source : SourceKey
  sourceId : Nat
  symbol : String
  channel : Nat
  instrumentId : Nat
  category : String
  price : P
  size : S
  aggressorSide : UInt8
  tradeId : Nat
  cumulativeVolume : S
  sourceTsNs : Nat
  recvTsNs : Nat
  kernelRxTsNs : Nat
  deriving DecidableEq, Repr

/-- `canonical_channel`: a mirror's channel is that of the path it mirrors. -/
def canonicalChannel (mirrorOffset : Option Nat) (channel : Nat) : Nat :=
  match mirrorOffset with
  | some offset => if channel ≥ offset then channel - offset else channel
  | none => channel

end EdgeConnect.Ingest
