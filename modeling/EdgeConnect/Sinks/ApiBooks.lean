import EdgeConnect.History.Store
import EdgeConnect.Ingest.MboProcessor
import EdgeConnect.Model.Materialize
import EdgeConnect.Products

/-!
# Books of the query API (`src/sinks/api.rs`)

* `ApiState` — the catalog and the two stores a market is answered from, of the book replay and of the depth snapshots;
* `bestLevels`, `ticker`, `book`, `bestBidAsk` — the three endpoints that report levels, `product` what an id names;
* `From` — where a level comes from when it is the instrument's own;
* `ownMarket_iff` — the instruments that are answered from their own market only.

A depth snapshot is stored by Source ID and symbol, which instruments can share; a book is stored by the instrument's own
key.  Levels are the numbers of the stores, without the decimal text that a response has for them.
-/

set_option autoImplicit false

namespace EdgeConnect.Api

open Products Text

/-! ## The stores -/

def MAX_LEVELS_PER_SIDE : Nat := 50

def DEFAULT_TICKER_TRADES : Nat := 50

abbrev Level := F64 × F64

/-- What the API reads of a depth snapshot. -/
structure NormalizedDepth where
  bids : List Level
  asks : List Level
  sourceTsNs : Nat
  deriving DecidableEq, Repr

def NormalizedDepth.side (d : NormalizedDepth) (bid : Bool) : List Level := if bid then d.bids else d.asks

/-- The state a request is answered from.  `instruments` and `iter` are in the order in which the maps come up. -/
structure ApiState where
  instruments : List NormalizedInstrument
  depth : FinMap (SourceKey × String) NormalizedDepth
  books : FinMap BookKey BookAccumulator
  history : History.Store F64
  sourceLabel : Nat → String
  iter : FinMap Nat RestingOrder → List RestingOrder
  keyed : (instruments.map keyOf).Nodup
  iterates : ∀ orders, (iter orders).Perm (orders.toList.map Prod.snd)

/-- The key of an instrument's book. -/
def bookKey (i : NormalizedInstrument) : BookKey :=
  ⟨SourceKey.new i.sourceId i.venue, i.category, i.channel, i.instrumentId⟩

/-- The key of an instrument's depth snapshot. -/
def depthKey (i : NormalizedInstrument) : SourceKey × String := (SourceKey.new i.sourceId i.venue, i.symbol)

end EdgeConnect.Api

namespace EdgeConnect.BookAccumulator

/-- `best_bid`. -/
def bestBid (a : BookAccumulator) : Option (F64 × F64) := (a.bids.toList.map Prod.snd).getLast?

/-- `best_ask`. -/
def bestAsk (a : BookAccumulator) : Option (F64 × F64) := (a.asks.toList.map Prod.snd).head?

/-- `top_levels`: the best `n` levels of each side, and how many there are. -/
def topLevels (a : BookAccumulator) (n : Nat) : List (F64 × F64) × List (F64 × F64) × Nat × Nat :=
  (((a.bids.toList.map Prod.snd).reverse).take n, (a.asks.toList.map Prod.snd).take n, a.bids.size, a.asks.size)

end EdgeConnect.BookAccumulator

namespace EdgeConnect.Api

open Products Text

namespace ApiState

variable (u : CaseMapping) (s : ApiState)

/-! ## The instrument of a request -/

inductive ApiError where
  | invalidProductId (id : String)
  | productNotFound (id : String)
  | ambiguous (id : String) (candidates : List String)
  deriving DecidableEq, Repr

def lookupInstrument (sourceId : Nat) (category : String) (channel instrumentId : Nat) : Option NormalizedInstrument :=
  s.instruments.find? fun i => keyOf i = (SourceKey.new sourceId (s.sourceLabel sourceId), category, channel, instrumentId)

/-- `product_scoped`, up to the endpoint: the instrument that an id names. -/
def product (id : String) : Except ApiError NormalizedInstrument :=
  match parse u id with
  | none => .error (.invalidProductId id)
  | some parsed =>
    match resolve s.instruments parsed with
    | .none => .error (.productNotFound id)
    | .ambiguous candidates => .error (.ambiguous id candidates)
    | .one p =>
      match s.lookupInstrument p.sourceId p.category p.channel p.instrumentId with
      | none => .error (.productNotFound id)
      | some inst => .ok inst

/-- `depth_is_ambiguous`: more than one instrument has the Source ID and the symbol. -/
def depthIsAmbiguous (sourceId : Nat) (symbol : String) : Bool :=
  1 < s.instruments.countP fun i => i.sourceId = sourceId ∧ i.symbol = symbol

/-! ## `ticker` -/

/-- `best_levels`: from the book, unless it is order-level or answers nothing, else from a depth snapshot that is not
ambiguous. -/
def bestLevels (inst : NormalizedInstrument) (ambiguous : Bool) : Option Level × Option Level :=
  let fromBook := ((s.books.get (bookKey inst)).filter fun acc => !acc.orderLevel).map fun acc =>
    (acc.bestBid, acc.bestAsk)
  match fromBook with
  | some (some bid, ask) => (some bid, ask)
  | some (none, some ask) => (none, some ask)
  | _ =>
    if ambiguous then (none, none)
    else
      match s.depth.get (depthKey inst) with
      | some d => (d.bids.head?, d.asks.head?)
      | none => (none, none)

structure TickerResponse where
  trades : List (History.Print F64)
  bestBid : Option F64
  bestAsk : Option F64

def ticker (inst : NormalizedInstrument) : TickerResponse :=
  let key : History.Key := ⟨inst.sourceId, inst.category, inst.channel, inst.instrumentId⟩
  let best := s.bestLevels inst (s.depthIsAmbiguous inst.sourceId inst.symbol)
  { trades := s.history.recentTrades key DEFAULT_TICKER_TRADES
    bestBid := best.1.map Prod.fst
    bestAsk := best.2.map Prod.fst }

/-! ## `book` -/

structure BookResponse where
  productId : String
  bids : List Level
  asks : List Level
  time : Nat
  batchId : Option Nat
  levelsReturned : Nat
  levelsCappedAt : Nat
  complete : Bool
  deriving DecidableEq, Repr

def bookResponse (productId : String) (bids asks : List Level) (stamp : Nat × Option Nat) (levelsCappedAt : Nat)
    (complete : Bool) : BookResponse :=
  let bids := bids.take MAX_LEVELS_PER_SIDE
  let asks := asks.take MAX_LEVELS_PER_SIDE
  ⟨productId, bids, asks, stamp.1, stamp.2, bids.length + asks.length, levelsCappedAt, complete⟩

/-- What `book` takes of an accumulator: the levels of each side it serves, and how many there are. -/
def served (acc : BookAccumulator) : List Level × List Level × Nat × Nat :=
  if acc.orderLevel then
    let (bids, asks) := BookAccumulator.priceFold (s.iter acc.orders)
    let level (v : List CountedLevel) : List Level := (v.take MAX_LEVELS_PER_SIDE).map fun l => (l.price, l.size)
    (level bids, level asks, bids.length, asks.length)
  else acc.topLevels MAX_LEVELS_PER_SIDE

/-- `book`: from the accumulator of the instrument, else from the depth snapshot of its symbol. -/
def book (inst : NormalizedInstrument) : BookResponse :=
  let renderedId := (ProductId.of inst).render (isAmbiguous s.instruments inst.venue inst.symbol)
  match s.books.get (bookKey inst) with
  | some acc =>
    let (bids, asks, bidsTotal, asksTotal) := s.served acc
    let cutByCap : Bool := bidsTotal > MAX_LEVELS_PER_SIDE ∨ asksTotal > MAX_LEVELS_PER_SIDE
    bookResponse renderedId bids asks (acc.sourceTsNs, acc.batchId) MAX_LEVELS_PER_SIDE (acc.baselined && !cutByCap)
  | none =>
    match s.depth.get (depthKey inst) with
    | some d =>
      let complete : Bool := d.bids.length < MboFeed.DEPTH_LEVELS ∧ d.asks.length < MboFeed.DEPTH_LEVELS
      bookResponse renderedId d.bids d.asks (d.sourceTsNs, none) MboFeed.DEPTH_LEVELS complete
    | none => bookResponse renderedId [] [] (0, none) MAX_LEVELS_PER_SIDE false

/-! ## `best_bid_ask` -/

structure PriceBook where
  productId : String
  bids : List Level
  asks : List Level
  deriving DecidableEq, Repr

/-- The keys that some ids of `product_ids` name. -/
def selectKeys : List String → Except ApiError (List (Nat × String × Nat × Nat))
  | [] => .ok []
  | id :: ids =>
    match parse u id with
    | none => .error (.invalidProductId id)
    | some parsed =>
      match resolve s.instruments parsed with
      | .none => .error (.productNotFound id)
      | .ambiguous candidates => .error (.ambiguous id candidates)
      | .one p => (selectKeys ids).map ((p.sourceId, p.category, p.channel, p.instrumentId) :: ·)

/-- The instruments a request narrows the response to, all of them where it has no id. -/
def selected (productIds : Option String) : Except ApiError (Option (List (Nat × String × Nat × Nat))) :=
  match productIds with
  | none => .ok none
  | some raw =>
    let ids := ((split ',' raw).map trim).filter fun id => ¬ id.isEmpty
    if ids.isEmpty then .ok none else (s.selectKeys u ids).map some

/-- One instrument of the response; nothing where no level is derivable. -/
def priceBook (i : NormalizedInstrument) : Option PriceBook :=
  match s.bestLevels i (s.depthIsAmbiguous i.sourceId i.symbol) with
  | (none, none) => none
  | (bid, ask) =>
    some ⟨(ProductId.of i).render (isAmbiguous s.instruments i.venue i.symbol), bid.toList, ask.toList⟩

/-- `best_bid_ask`: the price books, each under its instrument. -/
def bestBidAsk (productIds : Option String) : Except ApiError (List (NormalizedInstrument × PriceBook)) :=
  (s.selected u productIds).map fun keys =>
    (s.instruments.filter fun i => keys.all fun ks => (i.sourceId, i.category, i.channel, i.instrumentId) ∈ ks).filterMap
      fun i => (s.priceBook i).map fun e => (i, e)

/-! ## Where a level comes from -/

def BookResponse.side (r : BookResponse) (bid : Bool) : List Level := if bid then r.bids else r.asks

def PriceBook.side (e : PriceBook) (bid : Bool) : List Level := if bid then e.bids else e.asks

def TickerResponse.side (r : TickerResponse) (bid : Bool) : Option F64 := if bid then r.bestBid else r.bestAsk

/-- One side of a fold of the orders. -/
def foldedSide (orders : List RestingOrder) (bid : Bool) : List CountedLevel :=
  if bid then (BookAccumulator.priceFold orders).1 else (BookAccumulator.priceFold orders).2

/-- The levels of an accumulator, best first.  An order-level market keeps them as resting orders only. -/
def levelsOf (acc : BookAccumulator) (bid : Bool) : List Level :=
  if acc.orderLevel then (foldedSide (s.iter acc.orders) bid).map fun l => (l.price, l.size)
  else if bid then (acc.bids.toList.map Prod.snd).reverse
  else acc.asks.toList.map Prod.snd

/-- Another instrument of the catalog has the Source ID and the symbol. -/
def SharesSymbol (i : NormalizedInstrument) : Prop :=
  ∃ j ∈ s.instruments, j ≠ i ∧ j.sourceId = i.sourceId ∧ j.symbol = i.symbol

/-- A level of the instrument's own market: of the accumulator under its key, or of the depth snapshot under its source
and its symbol where no other instrument has both. -/
inductive From (i : NormalizedInstrument) (bid : Bool) (l : Level) : Prop
  | accumulator (acc : BookAccumulator) (h : s.books.get (bookKey i) = some acc) (hl : l ∈ s.levelsOf acc bid)
  | depth (d : NormalizedDepth) (h : s.depth.get (depthKey i) = some d) (alone : ¬ s.SharesSymbol i)
      (hl : l ∈ d.side bid)

/-- What the three endpoints promise of an instrument: levels of its own market only, and a complete book only with all
the levels of what it is served from. -/
structure OwnMarket (i : NormalizedInstrument) : Prop where
  book : ∀ bid, ∀ l ∈ (s.book i).side bid, s.From i bid l
  ticker : ∀ bid p, (s.ticker i).side bid = some p → ∃ size, s.From i bid (p, size)
  bestBidAsk : ∀ productIds response e, s.bestBidAsk u productIds = .ok response → (i, e) ∈ response →
    ∀ bid, ∀ l ∈ e.side bid, s.From i bid l
  complete : (s.book i).complete = true →
    (∃ acc, s.books.get (bookKey i) = some acc ∧ ∀ bid, (s.book i).side bid = s.levelsOf acc bid) ∨
      s.books.get (bookKey i) = none ∧
        ∃ d, s.depth.get (depthKey i) = some d ∧ ∀ bid, (s.book i).side bid = d.side bid

variable {u s} {i : NormalizedInstrument} {bid : Bool} {l : Level}

/-! ## The levels of an accumulator -/

theorem served_eq (acc : BookAccumulator) :
    s.served acc = ((s.levelsOf acc true).take MAX_LEVELS_PER_SIDE, (s.levelsOf acc false).take MAX_LEVELS_PER_SIDE,
      (s.levelsOf acc true).length, (s.levelsOf acc false).length) := by
  unfold served levelsOf
  split
  · simp [foldedSide, List.map_take]
  · simp [BookAccumulator.topLevels, FinMap.length_toList]

theorem bestBid_mem {acc : BookAccumulator} (horder : acc.orderLevel = false) (h : acc.bestBid = some l) :
    l ∈ s.levelsOf acc true := by
  unfold levelsOf
  rw [if_neg (by rw [horder]; exact Bool.false_ne_true), if_pos rfl, List.mem_reverse]
  exact List.mem_of_getLast? h

theorem bestAsk_mem {acc : BookAccumulator} (horder : acc.orderLevel = false) (h : acc.bestAsk = some l) :
    l ∈ s.levelsOf acc false := by
  unfold levelsOf
  rw [if_neg (by rw [horder]; exact Bool.false_ne_true), if_neg Bool.false_ne_true]
  exact List.mem_of_head? h

/-! ## The endpoints -/

theorem nodup_instruments (s : ApiState) : s.instruments.Nodup := s.keyed.of_map

theorem depthIsAmbiguous_iff (hi : i ∈ s.instruments) : s.depthIsAmbiguous i.sourceId i.symbol = true ↔ s.SharesSymbol i := by
  unfold depthIsAmbiguous SharesSymbol
  rw [decide_eq_true_iff, one_lt_countP_iff s.nodup_instruments hi (by simp)]
  simp

/-- The best levels of an instrument whose ambiguity is told as it is are its own. -/
theorem bestLevels_from (hi : i ∈ s.instruments) :
    (∀ l, (s.bestLevels i (s.depthIsAmbiguous i.sourceId i.symbol)).1 = some l → s.From i true l) ∧
      ∀ l, (s.bestLevels i (s.depthIsAmbiguous i.sourceId i.symbol)).2 = some l → s.From i false l := by
  have hbook : ∀ best, ((s.books.get (bookKey i)).filter fun acc => !acc.orderLevel).map
      (fun acc => (acc.bestBid, acc.bestAsk)) = some best →
      (∀ l, best.1 = some l → s.From i true l) ∧ ∀ l, best.2 = some l → s.From i false l := by
    intro best h
    obtain ⟨acc, hacc, rfl⟩ := Option.map_eq_some_iff.mp h
    obtain ⟨hget, horder⟩ := Option.filter_eq_some_iff.mp hacc
    rw [Bool.not_eq_true'] at horder
    exact ⟨fun l hl => .accumulator acc hget (bestBid_mem horder hl),
      fun l hl => .accumulator acc hget (bestAsk_mem horder hl)⟩
  have hdepth : s.depthIsAmbiguous i.sourceId i.symbol ≠ true → ∀ d, s.depth.get (depthKey i) = some d →
      ∀ bid l, (d.side bid).head? = some l → s.From i bid l := by
    intro hamb d hget bid l hl
    exact .depth d hget (fun hshared => hamb ((depthIsAmbiguous_iff hi).mpr hshared)) (List.mem_of_head? hl)
  unfold bestLevels
  dsimp only
  split
  · rename_i hfrom
    exact hbook _ hfrom
  · rename_i hfrom
    exact hbook _ hfrom
  · split
    · exact ⟨nofun, nofun⟩
    · rename_i hamb
      split
      · rename_i d hget
        exact ⟨hdepth hamb d hget true, hdepth hamb d hget false⟩
      · exact ⟨nofun, nofun⟩

theorem ticker_from (hi : i ∈ s.instruments) (bid : Bool) (p : F64) (h : (s.ticker i).side bid = some p) :
    ∃ size, s.From i bid (p, size) := by
  obtain ⟨hbid, hask⟩ := bestLevels_from hi
  cases bid with
  | true =>
    obtain ⟨l, hl, rfl⟩ := Option.map_eq_some_iff.mp h
    exact ⟨l.2, hbid l hl⟩
  | false =>
    obtain ⟨l, hl, rfl⟩ := Option.map_eq_some_iff.mp h
    exact ⟨l.2, hask l hl⟩

theorem priceBook_from (hi : i ∈ s.instruments) {e : PriceBook} (h : s.priceBook i = some e) (bid : Bool) :
    ∀ l ∈ e.side bid, s.From i bid l := by
  obtain ⟨hbid, hask⟩ := bestLevels_from hi
  unfold priceBook at h
  split at h
  · cases h
  · rename_i best ask _ hbest
    rw [hbest] at hbid hask
    cases h
    intro l hl
    cases bid with
    | true => exact hbid l (Option.mem_toList.mp hl)
    | false => exact hask l (Option.mem_toList.mp hl)

theorem bestBidAsk_from {productIds : Option String} {response : List (NormalizedInstrument × PriceBook)} {e : PriceBook}
    (h : s.bestBidAsk u productIds = .ok response) (he : (i, e) ∈ response) (bid : Bool) :
    ∀ l ∈ e.side bid, s.From i bid l := by
  unfold bestBidAsk at h
  cases hkeys : s.selected u productIds with
  | error err =>
    rw [hkeys] at h
    cases h
  | ok keys =>
    rw [hkeys] at h
    cases h
    obtain ⟨j, hj, hentry⟩ := List.mem_filterMap.mp he
    obtain ⟨e', hbook, heq⟩ := Option.map_eq_some_iff.mp hentry
    cases heq
    exact priceBook_from (List.mem_of_mem_filter hj) hbook bid

/-- The book of an instrument with an accumulator is its top. -/
theorem book_of_accumulator {acc : BookAccumulator} (h : s.books.get (bookKey i) = some acc) :
    s.book i = bookResponse ((ProductId.of i).render (isAmbiguous s.instruments i.venue i.symbol))
      ((s.levelsOf acc true).take MAX_LEVELS_PER_SIDE) ((s.levelsOf acc false).take MAX_LEVELS_PER_SIDE)
      (acc.sourceTsNs, acc.batchId) MAX_LEVELS_PER_SIDE
      (acc.baselined && !((s.levelsOf acc true).length > MAX_LEVELS_PER_SIDE ∨
        (s.levelsOf acc false).length > MAX_LEVELS_PER_SIDE : Bool)) := by
  unfold book
  rw [h]
  dsimp only
  rw [served_eq]

theorem side_of_accumulator {acc : BookAccumulator} (h : s.books.get (bookKey i) = some acc) (bid : Bool) :
    (s.book i).side bid = (s.levelsOf acc bid).take MAX_LEVELS_PER_SIDE := by
  rw [book_of_accumulator h]
  cases bid <;> exact List.take_take.trans (by rw [Nat.min_self])

theorem complete_of_accumulator {acc : BookAccumulator} (h : s.books.get (bookKey i) = some acc)
    (hcomplete : (s.book i).complete = true) (bid : Bool) : (s.book i).side bid = s.levelsOf acc bid := by
  rw [side_of_accumulator h]
  rw [book_of_accumulator h] at hcomplete
  simp only [bookResponse, Bool.and_eq_true, Bool.not_eq_true', decide_eq_false_iff_not, not_or, not_lt] at hcomplete
  refine List.take_of_length_le ?_
  cases bid with
  | true => exact hcomplete.2.1
  | false => exact hcomplete.2.2

/-- The book of an instrument with a depth snapshot only. -/
theorem book_of_depth {d : NormalizedDepth} (h : s.books.get (bookKey i) = none) (hd : s.depth.get (depthKey i) = some d)
    (bid : Bool) : (s.book i).side bid = (d.side bid).take MAX_LEVELS_PER_SIDE := by
  unfold book
  rw [h, hd]
  cases bid <;> rfl

theorem complete_of_depth {d : NormalizedDepth} (h : s.books.get (bookKey i) = none)
    (hd : s.depth.get (depthKey i) = some d) (hcomplete : (s.book i).complete = true) (bid : Bool) :
    (s.book i).side bid = d.side bid := by
  rw [book_of_depth h hd]
  unfold book at hcomplete
  rw [h, hd] at hcomplete
  have hshort : d.bids.length < 10 ∧ d.asks.length < 10 := of_decide_eq_true hcomplete
  refine List.take_of_length_le ?_
  unfold MAX_LEVELS_PER_SIDE NormalizedDepth.side
  split <;> omega

theorem book_of_none (h : s.books.get (bookKey i) = none) (hd : s.depth.get (depthKey i) = none) :
    (s.book i).complete = false ∧ ∀ bid, (s.book i).side bid = [] := by
  unfold book
  rw [h, hd]
  refine ⟨rfl, ?_⟩
  intro bid
  cases bid <;> rfl

/-- A book that is said to be complete has all the levels of what it is served from. -/
theorem book_complete (h : (s.book i).complete = true) :
    (∃ acc, s.books.get (bookKey i) = some acc ∧ ∀ bid, (s.book i).side bid = s.levelsOf acc bid) ∨
      s.books.get (bookKey i) = none ∧
        ∃ d, s.depth.get (depthKey i) = some d ∧ ∀ bid, (s.book i).side bid = d.side bid := by
  cases hbook : s.books.get (bookKey i) with
  | some acc => exact .inl ⟨acc, rfl, complete_of_accumulator hbook h⟩
  | none =>
    cases hdepth : s.depth.get (depthKey i) with
    | some d => exact .inr ⟨rfl, d, rfl, complete_of_depth hbook hdepth h⟩
    | none =>
      rw [(book_of_none hbook hdepth).1] at h
      cases h

/-- **An instrument is answered from its own market exactly when its book does not come from a depth snapshot that it
shares**: it has an accumulator, or there is no level under its source and its symbol, or no other instrument has both. -/
theorem ownMarket_iff (u : CaseMapping) (s : ApiState) (i : NormalizedInstrument) (hi : i ∈ s.instruments) :
    OwnMarket u s i ↔ (s.books.get (bookKey i)).isSome ∨
      (∀ d, s.depth.get (depthKey i) = some d → d.bids = [] ∧ d.asks = []) ∨ ¬ s.SharesSymbol i := by
  constructor
  · intro h
    by_cases hbook : (s.books.get (bookKey i)).isSome
    · exact .inl hbook
    · rw [Option.not_isSome_iff_eq_none] at hbook
      refine .inr (or_iff_not_imp_right.mpr fun hshared d hd => ?_)
      rw [not_not] at hshared
      -- A first level of the snapshot is listed, and nothing it can come from is the instrument's own.
      have hempty : ∀ bid, d.side bid = [] := by
        intro bid
        rw [List.eq_nil_iff_forall_not_mem]
        intro l hl
        obtain ⟨l', ls, hside⟩ := List.exists_cons_of_ne_nil (List.ne_nil_of_mem hl)
        have hlisted : l' ∈ (s.book i).side bid := by
          rw [book_of_depth hbook hd, hside]
          exact List.mem_cons_self
        cases h.book bid l' hlisted with
        | accumulator acc hacc =>
          rw [hbook] at hacc
          cases hacc
        | depth _ _ alone => exact alone hshared
      exact ⟨hempty true, hempty false⟩
  · intro h
    refine ⟨fun bid l hl => ?_, fun bid p hp => ticker_from hi bid p hp,
      fun _ _ _ hresponse he bid => bestBidAsk_from hresponse he bid, book_complete⟩
    cases hbook : s.books.get (bookKey i) with
    | some acc =>
      rw [side_of_accumulator hbook] at hl
      exact .accumulator acc hbook (List.mem_of_mem_take hl)
    | none =>
      cases hdepth : s.depth.get (depthKey i) with
      | none =>
        rw [(book_of_none hbook hdepth).2] at hl
        cases hl
      | some d =>
        rw [book_of_depth hbook hdepth] at hl
        have hl := List.mem_of_mem_take hl
        refine .depth d hdepth ?_ hl
        rintro hshared
        rcases h with hsome | hempty | halone
        · rw [hbook] at hsome
          cases hsome
        · obtain ⟨hbids, hasks⟩ := hempty d hdepth
          unfold NormalizedDepth.side at hl
          rw [hbids, hasks, ite_self] at hl
          cases hl
        · exact halone hshared

/-- Two instruments of one source with one symbol, in different categories. -/
def spot : NormalizedInstrument := ⟨"BINANCE", 6, "BTCUSDT", 0, 1, "spot"⟩

def perp : NormalizedInstrument := ⟨"BINANCE", 6, "BTCUSDT", 0, 9, "perps"⟩

/-- A state with one bid in the depth snapshot of `BTCUSDT`. -/
def depthOnly (instruments : List NormalizedInstrument) (keyed : (instruments.map keyOf).Nodup) : ApiState where
  instruments := instruments
  depth := FinMap.insert ∅ (depthKey spot) ⟨[(F64.zero, F64.zero)], [], 1⟩
  books := ∅
  history := ⟨∅, 0, 0, 0, 0⟩
  sourceLabel _ := "BINANCE"
  iter orders := orders.toList.map Prod.snd
  keyed := keyed
  iterates _ := .refl _

/-- The book of the one lists the bid of the snapshot that may be the other's, while its ticker has none. -/
theorem book_shared :
    (ApiState.book (depthOnly [spot, perp] (by decide)) spot).bids = [(F64.zero, F64.zero)] ∧
      (ApiState.ticker (depthOnly [spot, perp] (by decide)) spot).bestBid = none ∧
      ¬ OwnMarket CaseMapping.basic (depthOnly [spot, perp] (by decide)) spot := by
  have hlisted : (F64.zero, F64.zero) ∈ (ApiState.book (depthOnly [spot, perp] (by decide)) spot).side true :=
    List.mem_cons_self
  refine ⟨rfl, rfl, ?_⟩
  intro h
  cases h.book true _ hlisted with
  | accumulator acc hacc => cases hacc
  | depth _ _ alone => exact alone ⟨perp, by decide, by decide, rfl, rfl⟩

theorem ownMarket_iff_alone : OwnMarket CaseMapping.basic (depthOnly [spot] (by decide)) spot := by
  refine (ownMarket_iff CaseMapping.basic (depthOnly [spot] (by decide)) spot List.mem_cons_self).mpr (.inr (.inr ?_))
  rintro ⟨j, hj, hne, -⟩
  exact hne (List.mem_singleton.mp hj)

end ApiState

end EdgeConnect.Api
