import EdgeConnect.Lib.Binary64

/-!
# Book messages (`src/model.rs`)

The incremental order-book product: one `BookChange` sets or removes a level or an order, a
`NormalizedBook` is a batch of them for one market, and a `BookKey` names the market.
-/

set_option autoImplicit false

namespace EdgeConnect

/-- What one change of a batch does to the consumer's book. -/
inductive BookAction where
  | clear
  | update
  | delete
  deriving DecidableEq, Repr

/-- Which side of the book a change touches. -/
inductive BookSide where
  | bid
  | ask
  | both
  deriving DecidableEq, Repr

/-- One book change; `size` is the absolute resulting quantity and `orderId` is `0` on a
price-aggregated change. -/
structure BookChange where
  action : BookAction
  side : BookSide
  price : F64
  size : F64
  orderId : Nat
  deriving DecidableEq, Repr

/-- A source's internal identity. -/
structure SourceKey where
  id : Nat
  name : String
  deriving DecidableEq, Repr

/-- The label shared by every Source ID past the unregistered cap (`ingest::sources`). -/
def UNREGISTERED : String := "UNREGISTERED"

/-- `SourceKey::new`: unregistered sources collapse onto one key. -/
def SourceKey.new (id : Nat) (name : String) : SourceKey :=
  if name = UNREGISTERED then ⟨0, name⟩ else ⟨id, name⟩

/-- The market a book belongs to: source, category, channel, instrument. -/
structure BookKey where
  source : SourceKey
  category : String
  channel : Nat
  instrumentId : Nat
  deriving DecidableEq, Repr

/-- A batch of changes for one market. -/
structure NormalizedBook where
  venue : String
  sourceName : String
  sourceId : Nat
  symbol : String
  channel : Nat
  instrumentId : Nat
  category : String
  orderLevel : Bool
  changes : List BookChange
  batchId : Option Nat
  snapshot : Bool
  last : Bool
  sourceTsNs : Nat
  recvTsNs : Nat
  kernelRxTsNs : Nat
  wsSendTsNs : Nat
  deriving DecidableEq, Repr

/-- The identity of a message's source. -/
def SourceKey.of (b : NormalizedBook) : SourceKey := SourceKey.new b.sourceId b.venue

end EdgeConnect
