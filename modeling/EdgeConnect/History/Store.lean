import EdgeConnect.Lib.FinMap
import EdgeConnect.Lib.Recent
import Mathlib.Data.List.MinMax
import Mathlib.Data.Prod.Lex
import Mathlib.Data.String.Basic

/-!
# The market-data history (`src/history.rs`)

One-second buckets over a rolling hour and a ring of recent prints, for each product.

* `Bucket`, `Product`, `Store` — what is held, and `Store.ingest`, `Store.forgetChannel`, which change it;
* `Store.candles`, `Store.retention`, `Store.recentTrades` — what is answered.

Prices and sizes are of an ordered type with exact sums.  A subtraction from the running total answers `none` where the
`usize` would underflow.  The statistics of the status page are left out.
-/

set_option autoImplicit false

namespace EdgeConnect.History

def WINDOW_SECS : Nat := 3600

def TRADE_RING : Nat := 1000

def MAX_PRODUCTS : Nat := 8192

def MAX_BUCKETS_ACROSS_PRODUCTS : Nat := 1048576

/-! ## Data -/

/-- One market's identity. -/
structure Key where
  sourceId : Nat
  category : String
  channel : Nat
  instrumentId : Nat
  deriving DecidableEq, Repr

namespace Key

def lex (k : Key) : Lex (Lex (Lex (Nat × String) × Nat) × Nat) :=
  toLex (toLex (toLex (k.sourceId, k.category), k.channel), k.instrumentId)

theorem lex_injective : Function.Injective lex := by
  rintro ⟨s, g, c, i⟩ ⟨s', g', c', i'⟩ h
  simp only [lex, toLex_inj, Prod.mk.injEq] at h
  obtain ⟨⟨⟨rfl, rfl⟩, rfl⟩, rfl⟩ := h
  rfl

/-- A fixed order in which the store's map is traversed. -/
instance : LinearOrder Key := LinearOrder.lift' lex lex_injective

end Key

/-- One raw print, already resolved to a single timestamp. -/
structure Print (α : Type*) where
  tsNs : Nat
  price : α
  size : α
  deriving DecidableEq, Repr

/-- The bucket second of a print. -/
def Print.second {α : Type*} (p : Print α) : Nat := p.tsNs / 1000000000

/-- One second's aggregated trade activity; `close` is the last print by arrival. -/
structure Bucket (α : Type*) where
  opening : α
  high : α
  low : α
  close : α
  volume : α
  deriving DecidableEq, Repr

structure Candle (α : Type*) where
  start : Nat
  opening : α
  high : α
  low : α
  close : α
  volume : α
  deriving DecidableEq, Repr

/-- Per-product state; `lastTouch` is the store's clock when the product last accepted a print. -/
structure Product (α : Type*) where
  buckets : FinMap Nat (Bucket α)
  newestSeen : Option Nat
  ring : List (Print α)
  lastTouch : Nat

structure Store (α : Type*) where
  products : FinMap Key (Product α)
  touchClock : Nat
  lateDrops : Nat
  evicted : Nat
  bucketsTotal : Nat

variable {α : Type*}

namespace Product

def default : Product α := ⟨∅, none, [], 0⟩

end Product

/-! ## Recording a print -/

/-- `-=` on a `usize`. -/
def takeOff (total n : Nat) : Option Nat := if n ≤ total then some (total - n) else none

/-- The loop that pops buckets from the front of the map while they start below `floor`, with how many it popped. -/
def popBelow (floor : Nat) : List Nat → FinMap Nat (Bucket α) → FinMap Nat (Bucket α) × Nat
  | [], buckets => (buckets, 0)
  | start :: rest, buckets =>
    if start ≥ floor then (buckets, 0)
    else
      let (buckets, popped) := popBelow floor rest (buckets.erase start)
      (buckets, popped + 1)

/-- The loop that drops the oldest prints past `TRADE_RING`. -/
def trimRing : List (Print α) → List (Print α)
  | [] => []
  | p :: ring => if (p :: ring).length > TRADE_RING then trimRing ring else p :: ring

section Values

variable [LinearOrder α] [AddCommMonoid α]

namespace Bucket

def openedBy (print : Print α) : Bucket α := ⟨print.price, print.price, print.price, print.price, print.size⟩

/-- Widen a bucket with a later (by arrival) print. -/
def widen (b : Bucket α) (print : Print α) : Bucket α :=
  { b with
    high := max b.high print.price
    low := min b.low print.price
    close := print.price
    volume := b.volume + print.size }

end Bucket

/-- What `ingest` does to the product of a print it accepts: the product, whether the print opened a bucket, and how
many buckets left the window. -/
def Product.record (product : Product α) (print : Print α) : Product α × Bool × Nat :=
  let newest := product.newestSeen.elim print.second fun n => max n print.second
  let isNewBucket := !product.buckets.contains print.second
  let bucket :=
    match product.buckets.get print.second with
    | some b => b.widen print
    | none => .openedBy print
  let buckets := product.buckets.insert print.second bucket
  let (buckets, evictedBuckets) := popBelow (newest - WINDOW_SECS) (buckets.keys.sort (· ≤ ·)) buckets
  ({ product with buckets, newestSeen := some newest, ring := trimRing (product.ring ++ [print]) },
    isNewBucket, evictedBuckets)

end Values

namespace Store

def new : Store α := ⟨∅, 0, 0, 0, 0⟩

def held (s : Store α) (key : Key) : Bool := s.products.contains key

/-- The late check: a print older than its product's window. -/
def late (s : Store α) (key : Key) (print : Print α) : Bool :=
  match (s.products.get key).bind (·.newestSeen) with
  | some newest => print.second + WINDOW_SECS < newest
  | none => false

/-- The product touched least recently. -/
def oldest (s : Store α) : Option Key := (s.products.toList.argmin fun e => e.2.lastTouch).map Prod.fst

/-- Remove a product and its buckets from the running total. -/
def dropProduct (s : Store α) (key : Key) : Option (Store α) :=
  match s.products.get key with
  | none => some s
  | some removed =>
    (takeOff s.bucketsTotal removed.buckets.size).map fun bucketsTotal =>
      { s with products := s.products.erase key, bucketsTotal }

/-- The eviction of the product touched least recently. -/
def evictOldest (s : Store α) : Option (Store α) :=
  match s.oldest with
  | some key => (s.dropProduct key).map fun s => { s with evicted := s.evicted + 1 }
  | none => some s

/-- Make room for a product past the cap. -/
def makeRoom (s : Store α) (key : Key) : Option (Store α) :=
  if !s.products.contains key && s.products.size ≥ MAX_PRODUCTS then s.evictOldest else some s

/-- `touch`: fetch or create a product and mark it most recently traded. -/
def touch (s : Store α) (key : Key) : Option (Store α) :=
  let clock := s.touchClock + 1
  (makeRoom { s with touchClock := clock } key).map fun s =>
    { s with products := s.products.insert key { (s.products.get key).getD .default with lastTouch := clock } }

/-- `enforce_bucket_budget`: whole products go, least recently traded first.  Every round removes one, so as many
rounds as there are products are enough. -/
def enforceLoop : Nat → Store α → Option (Store α)
  | 0, s => some s
  | fuel + 1, s =>
    if s.bucketsTotal > MAX_BUCKETS_ACROSS_PRODUCTS then
      match s.oldest with
      | none => some s
      | some _ => s.evictOldest.bind (enforceLoop fuel)
    else some s

def enforceBucketBudget (s : Store α) : Option (Store α) := enforceLoop s.products.size s

variable [LinearOrder α] [AddCommMonoid α]

/-- `ingest`: record one print. -/
def ingest (s : Store α) (key : Key) (print : Print α) : Option (Store α) :=
  if s.late key print then some { s with lateDrops := s.lateDrops + 1 }
  else do
    let s ← s.touch key
    -- `touch` always inserts
    let product ← s.products.get key
    let (product, isNewBucket, evictedBuckets) := product.record print
    let total := if isNewBucket then s.bucketsTotal + 1 else s.bucketsTotal
    (takeOff total evictedBuckets).bind fun bucketsTotal =>
      enforceBucketBudget { s with products := s.products.insert key product, bucketsTotal }

omit [LinearOrder α] [AddCommMonoid α] in
/-- The loop of `forget_channel`, with how many products it dropped. -/
def forgetLoop : List Key → Store α → Option (Store α × Nat)
  | [], s => some (s, 0)
  | key :: rest, s => do
    let n := if s.products.contains key then 1 else 0
    let s ← s.dropProduct key
    let (s, dropped) ← forgetLoop rest s
    some (s, dropped + n)

omit [LinearOrder α] [AddCommMonoid α] in
/-- `forget_channel`: every product of a channel goes. -/
def forgetChannel (s : Store α) (sourceIds : List Nat) (category : String) (channel : Nat) : Option (Store α × Nat) :=
  forgetLoop
    ((s.products.keys.sort (· ≤ ·)).filter fun k =>
      k.sourceId ∈ sourceIds ∧ k.category = category ∧ k.channel = channel) s

/-! ## Answers -/

omit [LinearOrder α] [AddCommMonoid α] in
/-- `recent_trades`: the last prints, newest first. -/
def recentTrades (s : Store α) (key : Key) (limit : Nat) : List (Print α) :=
  match s.products.get key with
  | none => []
  | some product => product.ring.reverse.take limit

end Store

/-! ## Runs -/

/-- What changes a store. -/
inductive Op (α : Type*) where
  | ingest (key : Key) (print : Print α)
  | forgetChannel (sourceIds : List Nat) (category : String) (channel : Nat)

namespace Store

variable [LinearOrder α] [AddCommMonoid α]

def step (s : Store α) : Op α → Option (Store α)
  | .ingest key print => s.ingest key print
  | .forgetChannel sourceIds category channel => (s.forgetChannel sourceIds category channel).map Prod.fst

end Store

end EdgeConnect.History
